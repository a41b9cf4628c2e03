import EntrouterLine.Harness.Pipeline

/-!
# What the receiver of the test collects

A frame that the sender built for a shard tells the receiver the block, the shard's place in it and
the shard (`Carries`), and no two of them tell the same. So, whichever frames arrive, how often and
in whatever order, the receiver's map has exactly the shards whose frames have been heard before
the loop ended (`Collected`, `receiverLoop_collected`).
-/

set_option autoImplicit false

namespace EntrouterLine.Harness

open EntrouterLine.Lib
open EntrouterLine.Relay

/-! ## Prefixed shards -/

@[simp] theorem length_toBeBytes (width n : Nat) : (toBeBytes width n).length = width := by
  simp [toBeBytes]

theorem ofBeBytes_toBeBytes {width n : Nat} (h : n < 256 ^ width) :
    ofBeBytes (toBeBytes width n) = n := by
  rw [ofBeBytes, toBeBytes, List.reverse_reverse, LittleEndian.ofBytes_toBytes_of_lt h]

theorem length_prefixShard (blockIdx shardIdx : Nat) (shard : Bytes) :
    (prefixShard blockIdx shardIdx shard).length = 6 + shard.length := by
  rw [prefixShard, List.length_append, List.length_append, length_toBeBytes, length_toBeBytes]

theorem take_prefixShard (blockIdx shardIdx : Nat) (shard : Bytes) :
    (prefixShard blockIdx shardIdx shard).take 4 = toBeBytes 4 blockIdx := by
  rw [prefixShard, List.append_assoc, List.take_left' (length_toBeBytes 4 blockIdx)]

theorem take_drop_prefixShard (blockIdx shardIdx : Nat) (shard : Bytes) :
    ((prefixShard blockIdx shardIdx shard).drop 4).take 2 = toBeBytes 2 shardIdx := by
  rw [prefixShard, List.append_assoc, List.drop_left' (length_toBeBytes 4 blockIdx),
    List.take_left' (length_toBeBytes 2 shardIdx)]

theorem drop_prefixShard (blockIdx shardIdx : Nat) (shard : Bytes) :
    (prefixShard blockIdx shardIdx shard).drop 6 = shard := by
  rw [prefixShard, List.drop_left']
  simp

/-- A prefixed shard has one block, one place and one shard. -/
theorem prefixShard_inj {b b' i i' : Nat} {s s' : Bytes} (hb : b < 2 ^ 32) (hb' : b' < 2 ^ 32)
    (hi : i < 2 ^ 16) (hi' : i' < 2 ^ 16) (h : prefixShard b i s = prefixShard b' i' s') :
    b = b' ∧ i = i' ∧ s = s' := by
  refine ⟨?_, ?_, ?_⟩
  · have htake := congrArg (fun bytes => ofBeBytes (bytes.take 4)) h
    simpa only [take_prefixShard, @ofBeBytes_toBeBytes 4 b hb,
      @ofBeBytes_toBeBytes 4 b' hb'] using htake
  · have hmid := congrArg (fun bytes => ofBeBytes ((bytes.drop 4).take 2)) h
    simpa only [take_drop_prefixShard, @ofBeBytes_toBeBytes 2 i hi,
      @ofBeBytes_toBeBytes 2 i' hi'] using hmid
  · have hdrop := congrArg (List.drop 6) h
    simpa only [drop_prefixShard] using hdrop

/-! ## Frames -/

variable {rs : ReedSolomon} {aead : Aead} {crypto : TunnelCrypto} {config : FecConfig}

/-- The frame carries this shard of this block. -/
def Carries (aead : Aead) (crypto : TunnelCrypto) (frame : Bytes) (blockIdx shardIdx : Nat)
    (shard : Bytes) : Prop :=
  ∃ packetType seq, packetType ≠ packetControl ∧
    frame = frameOf packetType seq (crypto.encrypt aead seq (prefixShard blockIdx shardIdx shard))

/-- A frame that fits a datagram has one type and, if it opens, one plaintext. -/
theorem frameOf_encrypt_inj (hopens : aead.Opens) {packetType packetType' : UInt8}
    {seq seq' : UInt64} {payload payload' : Bytes}
    (hfits : (frameOf packetType seq (crypto.encrypt aead seq payload)).length ≤ maxDatagram)
    (h : frameOf packetType seq (crypto.encrypt aead seq payload) =
      frameOf packetType' seq' (crypto.encrypt aead seq' payload')) :
    packetType = packetType' ∧ payload = payload' := by
  have hleft := carried_of_frame_prefix hfits (List.prefix_refl _)
  have hfits' := hfits
  rw [h] at hfits'
  have hright := carried_of_frame_prefix hfits' (List.prefix_refl _)
  rw [h, hright, Option.some.injEq, Prod.mk.injEq, Prod.mk.injEq] at hleft
  obtain ⟨htype, hseq, hct⟩ := hleft
  subst hseq
  have hopen := hopens crypto.key (makeNonce seq') payload
  have hopen' := hopens crypto.key (makeNonce seq') payload'
  rw [TunnelCrypto.encrypt, TunnelCrypto.encrypt] at hct
  rw [← hct, hopen', Option.some.injEq] at hopen
  exact ⟨htype.symm, hopen.symm⟩

theorem Carries.inj (hopens : aead.Opens) {frame : Bytes} {b b' i i' : Nat} {s s' : Bytes}
    (hfits : frame.length ≤ maxDatagram) (hb : b < 2 ^ 32) (hb' : b' < 2 ^ 32) (hi : i < 2 ^ 16)
    (hi' : i' < 2 ^ 16) (h : Carries aead crypto frame b i s)
    (h' : Carries aead crypto frame b' i' s') : b = b' ∧ i = i' ∧ s = s' := by
  obtain ⟨packetType, seq, -, rfl⟩ := h
  obtain ⟨packetType', seq', -, heq⟩ := h'
  exact prefixShard_inj hb hb' hi hi' (frameOf_encrypt_inj hopens hfits heq).2

/-- No frame of a shard is the termination signal. -/
theorem Carries.ne_done (hopens : aead.Opens) {frame : Bytes} {b i : Nat} {s : Bytes}
    (hfits : frame.length ≤ maxDatagram) (h : Carries aead crypto frame b i s) (seq : UInt64) :
    frame ≠ frameOf packetControl seq (crypto.encrypt aead seq termPayload) := by
  rintro heq
  obtain ⟨packetType, seq', htype, rfl⟩ := h
  exact htype (frameOf_encrypt_inj hopens hfits heq).1

/-! ## The sender -/

/-- The shards of a block and the data shards they were made from. -/
structure Encoded (rs : ReedSolomon) (config : FecConfig) (data : Bytes) (shards : List Bytes) :
    Prop where
  input : IsBlock config.dataShards config.parityShards
    (chunkShards config (divCeil data.length config.dataShards) data ++
      List.replicate config.parityShards
        (List.replicate (divCeil data.length config.dataShards) 0))
    (divCeil data.length config.dataShards)
  block : IsBlock config.dataShards config.parityShards shards
    (divCeil data.length config.dataShards)
  encode : rs.encode config.dataShards config.parityShards
    (chunkShards config (divCeil data.length config.dataShards) data ++
      List.replicate config.parityShards
        (List.replicate (divCeil data.length config.dataShards) 0)) = some shards
  take : shards.take config.dataShards =
    chunkShards config (divCeil data.length config.dataShards) data

/-- Every block that is not empty is encoded. -/
theorem encodeBlock_eq (hlaw : Lawful rs config) {data : Bytes} (hdata : data ≠ []) :
    ∃ shards, encodeBlock rs config data = .ok shards ∧ Encoded rs config data shards := by
  have hd : 0 < config.dataShards := hlaw.accepted.1
  have hround := le_mul_divCeil data.length hd
  have hpos : 0 < divCeil data.length config.dataShards :=
    Nat.pos_of_mul_pos_left (Nat.lt_of_lt_of_le (List.length_pos_of_ne_nil hdata) hround)
  have hcount := @length_chunkShards config data _ hpos hround
  have hinput : IsBlock config.dataShards config.parityShards
      (chunkShards config (divCeil data.length config.dataShards) data ++
        List.replicate config.parityShards
          (List.replicate (divCeil data.length config.dataShards) 0))
      (divCeil data.length config.dataShards) := by
    refine ⟨hpos, by rw [List.length_append, hcount, List.length_replicate], ?_⟩
    intro s hs
    rcases List.mem_append.mp hs with hchunk | hzero
    · exact length_of_mem_chunkShards hchunk
    · rw [(List.mem_replicate.mp hzero).2, List.length_replicate]
  obtain ⟨shards, hencode, hblock, htake⟩ := hlaw.recovers.encode_ok hinput
  refine ⟨shards, ?_, hinput, hblock, hencode, ?_⟩
  · unfold encodeBlock
    rw [fecEncoder_new_of_accepted hlaw.accepts hlaw.accepted]
    simp only [Except.mapError, bind, Except.bind, Nat.ne_of_gt hd, Nat.ne_of_gt hpos, if_false,
      encode_eq hlaw.accepted hcount (fun _ hs => length_of_mem_chunkShards hs) hencode]
  · rw [htake, List.take_left' hcount]

/-- The `i`-th frame is that of the `i`-th payload, and no control packet. -/
theorem getElem?_sendShards (aead : Aead) (config : FecConfig) (t : Tunnel) (k : Nat)
    (payloads : List Bytes) :
    (t.sendShards aead config k payloads).2.crypto = t.crypto ∧
      (t.sendShards aead config k payloads).1.length = payloads.length ∧
      ∀ (i : Nat) (payload : Bytes), payloads[i]? = some payload →
        ∃ packetType seq, packetType ≠ packetControl ∧
          (t.sendShards aead config k payloads).1[i]? =
            some (frameOf packetType seq (t.crypto.encrypt aead seq payload)) := by
  induction payloads generalizing t k with
  | nil => exact ⟨rfl, rfl, nofun⟩
  | cons payload payloads ih =>
    obtain ⟨hcrypto, hlength, hframes⟩ := ih t.fetchSeq.2 (k + 1)
    refine ⟨hcrypto, congrArg (· + 1) hlength, ?_⟩
    intro i payload' hpayload
    cases i with
    | zero =>
      cases hpayload
      refine ⟨if k < config.dataShards then packetData else packetParity, t.txSeq, ?_, rfl⟩
      split <;> decide
    | succ i => exact hframes i payload' hpayload

/-- The frames of a block: one for each of its shards. -/
structure SentBlock (rs : ReedSolomon) (aead : Aead) (crypto : TunnelCrypto) (config : FecConfig)
    (blockIdx : Nat) (data : Bytes) (frames shards : List Bytes) : Prop where
  encoded : Encoded rs config data shards
  length_eq : frames.length = shards.length
  carries : ∀ (i : Nat) (frame shard : Bytes), frames[i]? = some frame → shards[i]? = some shard →
    Carries aead crypto frame blockIdx i shard

theorem sentBlock_sendShards {t : Tunnel} {data : Bytes} {shards : List Bytes}
    (h : Encoded rs config data shards) (blockIdx : Nat) :
    SentBlock rs aead t.crypto config blockIdx data
      (t.sendShards aead config 0 (shards.mapIdx (prefixShard blockIdx))).1 shards := by
  obtain ⟨-, hlength, hframes⟩ := getElem?_sendShards aead config t 0
    (shards.mapIdx (prefixShard blockIdx))
  refine ⟨h, by rw [hlength, List.length_mapIdx], ?_⟩
  intro i frame shard hframe hshard
  obtain ⟨packetType, seq, htype, hget⟩ := hframes i (prefixShard blockIdx i shard)
    (by rw [List.getElem?_mapIdx, hshard]; rfl)
  rw [hframe, Option.some.injEq] at hget
  exact ⟨packetType, seq, htype, hget⟩

/-- The blocks that are sent, from the `k`-th one on. -/
structure Sent (rs : ReedSolomon) (aead : Aead) (crypto : TunnelCrypto) (config : FecConfig)
    (k : Nat) (datas : List Bytes) (frames shards : List (List Bytes)) : Prop where
  length_frames : frames.length = datas.length
  length_shards : shards.length = datas.length
  blocks : ∀ b data fs ss, datas[b]? = some data → frames[b]? = some fs → shards[b]? = some ss →
    SentBlock rs aead crypto config (k + b) data fs ss

theorem sendBlocks_eq (hlaw : Lawful rs config) {datas : List Bytes}
    (hdatas : ∀ data ∈ datas, data ≠ []) (t : Tunnel) (k : Nat) :
    ∃ frames shards t', sendBlocks rs aead config t k datas = .ok (frames, t') ∧
      t'.crypto = t.crypto ∧ Sent rs aead t.crypto config k datas frames shards := by
  induction datas generalizing t k with
  | nil => exact ⟨[], [], t, rfl, rfl, rfl, rfl, nofun⟩
  | cons data datas ih =>
    obtain ⟨ss, hencode, hencoded⟩ := encodeBlock_eq hlaw (hdatas data List.mem_cons_self)
    obtain ⟨hcrypto, -⟩ := getElem?_sendShards aead config t 0
      (ss.mapIdx (prefixShard k))
    obtain ⟨frames, shards, t', hrest, hcrypto', hsent⟩ :=
      ih (fun d hd => hdatas d (List.mem_cons_of_mem _ hd))
        (t.sendShards aead config 0 (ss.mapIdx (prefixShard k))).2 (k + 1)
    rw [hcrypto] at hcrypto' hsent
    refine ⟨(t.sendShards aead config 0 (ss.mapIdx (prefixShard k))).1 :: frames, ss :: shards, t',
      ?_, hcrypto', congrArg (· + 1) hsent.length_frames, congrArg (· + 1) hsent.length_shards, ?_⟩
    · simp only [sendBlocks, hencode, bind, Except.bind, hrest]
      rfl
    · intro b data' fs ss' hdata hframes hshards
      cases b with
      | zero =>
        cases hdata
        cases hframes
        cases hshards
        exact sentBlock_sendShards hencoded k
      | succ b =>
        rw [Nat.add_comm b 1, ← Nat.add_assoc]
        exact hsent.blocks b data' fs ss' hdata hframes hshards

/-! ## The receiver -/

/-- What a round does with a plaintext. -/
def Receiver.take (config : FecConfig) (r : Receiver) (packetType : UInt8) (plaintext : Bytes) :
    Blocks × Bool :=
  if packetType = packetControl ∧ plaintext = termPayload then (r.blocks, true)
  else if plaintext.length < 6 then (r.blocks, false)
  else (r.blocks.put config (UInt32.ofNat (ofBeBytes (plaintext.take 4)))
    (ofBeBytes ((plaintext.drop 4).take 2)) (plaintext.drop 6), false)

/-- The header is read from the received bytes, and so is a ciphertext that they have whole. -/
theorem recvFrom_carried (buf : Buf) {datagram : Bytes} {packetType : UInt8} {seq : UInt64}
    {ct : Bytes} (h : carried (datagram.take bufSize) = some (packetType, seq, ct)) :
    ∃ payloadLen, headerSize ≤ (buf.recvFrom datagram).1 ∧
      headerSize + payloadLen.toNat ≤ (buf.recvFrom datagram).1 ∧
      decodeHeader (buf.recvFrom datagram).2.bytes = (packetType, seq, payloadLen) ∧
      ((buf.recvFrom datagram).2.bytes.take (headerSize + payloadLen.toNat)).drop headerSize =
        ct := by
  obtain ⟨hheader, hlong, rfl, rfl, rfl⟩ := carried_eq_some_iff.mp h
  refine ⟨(decodeHeader (datagram.take bufSize)).2.2, hheader, hlong, ?_, ?_⟩
  · exact decodeHeader_append hheader _
  · show ((datagram.take bufSize ++ buf.bytes.drop (datagram.take bufSize).length).take _).drop _ =
      _
    rw [List.take_append_of_le_length hlong, List.drop_take, Nat.add_sub_cancel_left]

/-- A ciphertext that opens gives a plaintext that the round looks at. -/
theorem receiverRound_carried {r : Receiver} (htracking : r.tracking.Tracking) {datagram : Bytes}
    {packetType : UInt8} {seq : UInt64} {ct plaintext : Bytes}
    (hcarried : carried (datagram.take bufSize) = some (packetType, seq, ct))
    (hdecrypt : crypto.decrypt aead seq ct = .ok plaintext) :
    ∃ r', receiverRound aead crypto config r datagram =
        .ok (r', (r.take config packetType plaintext).2) ∧
      r'.tracking.Tracking ∧ r'.blocks = (r.take config packetType plaintext).1 := by
  obtain ⟨payloadLen, hheader, hlong, hdecode, hct⟩ := recvFrom_carried r.buf hcarried
  obtain ⟨tracking₁, hgap, h₁⟩ := trackGap_eq htracking seq
  obtain ⟨tracking₂, harrived, h₂⟩ := record_ok h₁.tracking (.arrived seq)
  have htracking₂ : ReceiveLoop.Tracking
      { tracking₂ with expectedSeq := tracking₂.expectedSeq + 1 } := h₂.tracking
  unfold receiverRound Receiver.take
  simp only [Nat.not_lt_of_le hheader, if_false, hdecode, gt_iff_lt, Nat.not_lt_of_le hlong, hgap,
    bind, Except.bind, harrived, hct, hdecrypt, pure, Except.pure]
  by_cases hdone : packetType = packetControl ∧ plaintext = termPayload
  · rw [if_pos hdone, if_pos hdone]
    exact ⟨_, rfl, htracking₂, rfl⟩
  · rw [if_neg hdone, if_neg hdone]
    by_cases hshort : plaintext.length < 6
    · rw [if_pos hshort, if_pos hshort]
      exact ⟨_, rfl, htracking₂, rfl⟩
    · rw [if_neg hshort, if_neg hshort]
      exact ⟨_, rfl, htracking₂, rfl⟩

/-- A frame that fits the buffer is decrypted. -/
theorem receiverRound_frame (hopens : aead.Opens) (config : FecConfig) {r : Receiver}
    (htracking : r.tracking.Tracking) (packetType : UInt8) (seq : UInt64) (payload : Bytes)
    (hfits : (frameOf packetType seq (crypto.encrypt aead seq payload)).length ≤ bufSize) :
    ∃ r', receiverRound aead crypto config r
        (frameOf packetType seq (crypto.encrypt aead seq payload)) =
        .ok (r', (r.take config packetType payload).2) ∧
      r'.tracking.Tracking ∧ r'.blocks = (r.take config packetType payload).1 := by
  have hudp := Nat.le_trans hfits (by decide : bufSize ≤ maxDatagram)
  apply receiverRound_carried htracking
  · rw [List.take_of_length_le hfits]
    exact carried_of_frame_prefix hudp (List.prefix_refl _)
  · exact decrypt_eq_ok_iff.mpr (hopens crypto.key (makeNonce seq) payload)

/-- The frame of a shard puts the shard into its place. -/
theorem receiverRound_carries (hopens : aead.Opens) (config : FecConfig) {r : Receiver}
    (htracking : r.tracking.Tracking) {frame : Bytes} {b i : Nat} {shard : Bytes}
    (hb : b < 2 ^ 32) (hi : i < 2 ^ 16) (hfits : frame.length ≤ bufSize)
    (h : Carries aead crypto frame b i shard) :
    ∃ r', receiverRound aead crypto config r frame = .ok (r', false) ∧ r'.tracking.Tracking ∧
      r'.blocks = r.blocks.put config (UInt32.ofNat b) i shard := by
  obtain ⟨packetType, seq, htype, rfl⟩ := h
  obtain ⟨r', hround, htracking', hblocks⟩ := receiverRound_frame hopens config htracking
    packetType seq (prefixShard b i shard) hfits
  have htake : r.take config packetType (prefixShard b i shard) =
      (r.blocks.put config (UInt32.ofNat b) i shard, false) := by
    have hlong : ¬ (prefixShard b i shard).length < 6 := by
      rw [length_prefixShard]
      omega
    rw [Receiver.take, if_neg (fun hdone => htype hdone.1), if_neg hlong, take_prefixShard,
      take_drop_prefixShard, drop_prefixShard, @ofBeBytes_toBeBytes 4 b hb,
      @ofBeBytes_toBeBytes 2 i hi]
  rw [htake] at hround hblocks
  exact ⟨r', hround, htracking', hblocks⟩

/-- The termination signal ends the loop. -/
theorem receiverRound_done (hopens : aead.Opens) (hlength : aead.TagLength) (config : FecConfig)
    {r : Receiver} (htracking : r.tracking.Tracking) (seq : UInt64) :
    ∃ r', receiverRound aead crypto config r
        (frameOf packetControl seq (crypto.encrypt aead seq termPayload)) = .ok (r', true) ∧
      r'.tracking.Tracking ∧ r'.blocks = r.blocks := by
  have hfits : (frameOf packetControl seq (crypto.encrypt aead seq termPayload)).length ≤
      bufSize := by
    rw [length_frameOf, TunnelCrypto.encrypt, hlength]
    decide
  obtain ⟨r', hround, htracking', hblocks⟩ := receiverRound_frame hopens config htracking
    packetControl seq termPayload hfits
  have htake : r.take config packetControl termPayload = (r.blocks, true) := if_pos ⟨rfl, rfl⟩
  rw [htake] at hround hblocks
  exact ⟨r', hround, htracking', hblocks⟩

/-! ## What has been collected -/

/-- The shards whose frames have been heard, each at its place. -/
def heldShards (frames shards heard : List Bytes) : List (Option Bytes) :=
  List.zipWith (fun frame shard => if frame ∈ heard then some shard else none) frames shards

/-- The map has, for every block, the shards whose frames have been heard. -/
def Collected (config : FecConfig) (frames shards : List (List Bytes)) (heard : List Bytes)
    (blocks : Blocks) : Prop :=
  ∀ b fs ss, frames[b]? = some fs → shards[b]? = some ss →
    blocks.entry config (UInt32.ofNat b) = heldShards fs ss heard

theorem heldShards_nil {frames shards : List Bytes} (h : frames.length = shards.length) :
    heldShards frames shards [] = List.replicate shards.length none := by
  induction frames generalizing shards with
  | nil =>
    rw [List.length_nil] at h
    rw [← h]
    rfl
  | cons frame frames ih =>
    cases shards with
    | nil => cases h
    | cons shard shards => exact congrArg (none :: ·) (ih (Nat.succ.inj h))

/-- A frame of another block changes nothing. -/
theorem heldShards_of_notMem {frames shards heard : List Bytes} {frame : Bytes}
    (h : frame ∉ frames) : heldShards frames shards (heard ++ [frame]) =
      heldShards frames shards heard := by
  induction frames generalizing shards with
  | nil => rfl
  | cons f frames ih =>
    cases shards with
    | nil => rfl
    | cons shard shards =>
      have hne : f ≠ frame := fun heq => h (heq ▸ List.mem_cons_self)
      have hrest : frame ∉ frames := fun hmem => h (List.mem_cons_of_mem _ hmem)
      have hmem : f ∈ heard ++ [frame] ↔ f ∈ heard := by
        rw [List.mem_append, List.mem_singleton]
        exact or_iff_left hne
      show (if f ∈ heard ++ [frame] then some shard else none) :: _ =
        (if f ∈ heard then some shard else none) :: _
      rw [if_congr hmem rfl rfl]
      exact congrArg _ (ih hrest)

/-- The frame of the `i`-th shard adds that shard, if it is no other shard's frame. -/
theorem heldShards_put {frames shards heard : List Bytes} {frame shard : Bytes} {i : Nat}
    (hframe : frames[i]? = some frame) (hshard : shards[i]? = some shard)
    (hown : ∀ j, frames[j]? = some frame → j = i) :
    (heldShards frames shards heard).set i (some shard) =
      heldShards frames shards (heard ++ [frame]) := by
  induction frames generalizing shards i with
  | nil => cases hframe
  | cons f frames ih =>
    cases shards with
    | nil => cases hshard
    | cons s shards =>
      cases i with
      | zero =>
        cases hframe
        cases hshard
        have hrest : frame ∉ frames := by
          intro hmem
          obtain ⟨j, hj⟩ := List.mem_iff_getElem?.mp hmem
          cases hown (j + 1) hj
        show some shard :: _ = (if frame ∈ heard ++ [frame] then some shard else none) :: _
        rw [if_pos (List.mem_append_right _ (List.mem_singleton_self frame))]
        exact congrArg _ (heldShards_of_notMem hrest).symm
      | succ i =>
        have hne : f ≠ frame := by
          rintro rfl
          cases hown 0 rfl
        have hmem : f ∈ heard ++ [frame] ↔ f ∈ heard := by
          rw [List.mem_append, List.mem_singleton]
          exact or_iff_left hne
        show (if f ∈ heard then some s else none) :: _ =
          (if f ∈ heard ++ [frame] then some s else none) :: _
        rw [if_congr hmem rfl rfl]
        exact congrArg _ (ih hframe hshard fun j hj => Nat.succ.inj (hown (j + 1) hj))

theorem entry_put_self (blocks : Blocks) (b : UInt32) {i : Nat} (hi : i < config.totalShards)
    (shard : Bytes) : (blocks.put config b i shard).entry config b =
      (blocks.entry config b).set i (some shard) := by
  rw [Blocks.put, Blocks.entry, Function.update_self, if_pos hi]
  rfl

theorem entry_put_of_ne (blocks : Blocks) {b b' : UInt32} (h : b' ≠ b) (i : Nat) (shard : Bytes) :
    (blocks.put config b i shard).entry config b' = blocks.entry config b' := by
  rw [Blocks.put, Blocks.entry, Function.update_of_ne h]
  rfl

/-- What makes the frames of a test tell the shards apart: numbers that fit their fields, and
datagrams that fit the buffers. -/
structure Distinct (config : FecConfig) (datas : List Bytes) (frames : List (List Bytes)) :
    Prop where
  count : datas.length < 2 ^ 32
  total : config.totalShards ≤ 256
  fits : ∀ fs ∈ frames, ∀ frame ∈ fs, frame.length ≤ bufSize

variable {datas : List Bytes} {frames shards : List (List Bytes)}

/-- Every frame that is sent carries a shard. -/
theorem Sent.carries (hsent : Sent rs aead crypto config 0 datas frames shards) {b i : Nat}
    {fs : List Bytes} {frame : Bytes} (hfs : frames[b]? = some fs) (hframe : fs[i]? = some frame) :
    b < datas.length ∧ i < config.totalShards ∧ ∃ ss shard, shards[b]? = some ss ∧
      ss[i]? = some shard ∧ Carries aead crypto frame b i shard := by
  have hb : b < datas.length := by
    rw [← hsent.length_frames]
    exact (List.getElem?_eq_some_iff.mp hfs).1
  have hbs : b < shards.length := by
    rw [hsent.length_shards]
    exact hb
  have hss := List.getElem?_eq_getElem hbs
  have hblock := hsent.blocks b datas[b] fs shards[b] (List.getElem?_eq_getElem hb) hfs hss
  have hi : i < (shards[b]).length := by
    rw [← hblock.length_eq]
    exact (List.getElem?_eq_some_iff.mp hframe).1
  have hshard := List.getElem?_eq_getElem hi
  have htotal : (shards[b]).length = config.totalShards := hblock.encoded.block.count
  have hcarries := hblock.carries i frame _ hframe hshard
  rw [Nat.zero_add] at hcarries
  rw [htotal] at hi
  exact ⟨hb, hi, _, _, hss, hshard, hcarries⟩

/-- A frame has one block and one place. -/
theorem Sent.own (hopens : aead.Opens) (hsent : Sent rs aead crypto config 0 datas frames shards)
    (hdistinct : Distinct config datas frames) {b b' i i' : Nat} {fs fs' : List Bytes}
    {frame : Bytes} (hfs : frames[b]? = some fs) (hfs' : frames[b']? = some fs')
    (hframe : fs[i]? = some frame) (hframe' : fs'[i']? = some frame) : b = b' ∧ i = i' := by
  obtain ⟨hb, hi, -, shard, -, -, hcarries⟩ := hsent.carries hfs hframe
  obtain ⟨hb', hi', -, shard', -, -, hcarries'⟩ := hsent.carries hfs' hframe'
  have hcount := hdistinct.count
  have htotal := hdistinct.total
  have hfits := hdistinct.fits fs (List.mem_of_getElem? hfs) frame (List.mem_of_getElem? hframe)
  have hinj := hcarries.inj hopens (Nat.le_trans hfits (by decide)) (by omega) (by omega) (by omega)
    (by omega) hcarries'
  exact ⟨hinj.1, hinj.2.1⟩

theorem uint32_ofNat_ne {b b' : Nat} (hb : b < 2 ^ 32) (hb' : b' < 2 ^ 32) (h : b ≠ b') :
    UInt32.ofNat b ≠ UInt32.ofNat b' := by
  intro heq
  have hnat := congrArg UInt32.toNat heq
  rw [UInt32.toNat_ofNat', UInt32.toNat_ofNat', Nat.mod_eq_of_lt hb, Nat.mod_eq_of_lt hb'] at hnat
  exact h hnat

/-- One more frame is heard. -/
theorem Collected.put (hopens : aead.Opens)
    (hsent : Sent rs aead crypto config 0 datas frames shards)
    (hdistinct : Distinct config datas frames) {heard : List Bytes} {blocks : Blocks}
    (h : Collected config frames shards heard blocks) {b i : Nat} {fs ss : List Bytes}
    {frame shard : Bytes} (hfs : frames[b]? = some fs) (hss : shards[b]? = some ss)
    (hframe : fs[i]? = some frame) (hshard : ss[i]? = some shard) (hi : i < config.totalShards) :
    Collected config frames shards (heard ++ [frame])
      (blocks.put config (UInt32.ofNat b) i shard) := by
  have hlt : ∀ b fs, frames[b]? = some fs → b < 2 ^ 32 := by
    intro b fs hfs
    have hb := (List.getElem?_eq_some_iff.mp hfs).1
    rw [hsent.length_frames] at hb
    exact Nat.lt_trans hb hdistinct.count
  intro b' fs' ss' hfs' hss'
  by_cases hb : b' = b
  · subst hb
    rw [hfs] at hfs'
    rw [hss] at hss'
    cases hfs'
    cases hss'
    rw [entry_put_self blocks _ hi, h b' fs ss hfs hss]
    apply heldShards_put hframe hshard
    intro j hj
    exact (hsent.own hopens hdistinct hfs hfs hj hframe).2
  · rw [entry_put_of_ne blocks (uint32_ofNat_ne (hlt b' fs' hfs') (hlt b fs hfs) hb),
      h b' fs' ss' hfs' hss', heldShards_of_notMem]
    -- a frame of this block is none of the other
    intro hmem
    obtain ⟨j, hj⟩ := List.mem_iff_getElem?.mp hmem
    exact hb (hsent.own hopens hdistinct hfs' hfs hj hframe).1

/-- Whichever frames arrive, how often and in whatever order, the receiver has the shards whose
frames come before the termination signal, if that arrives, and else of all. -/
theorem receiverLoop_collected (hopens : aead.Opens) (hlength : aead.TagLength)
    (hsent : Sent rs aead crypto config 0 datas frames shards)
    (hdistinct : Distinct config datas frames) {done : Bytes} {doneSeq : UInt64}
    (hdone : done = frameOf packetControl doneSeq (crypto.encrypt aead doneSeq termPayload))
    {arrivals : List Bytes} (harrivals : ∀ a ∈ arrivals, a ∈ frames.flatten ∨ a = done)
    {r : Receiver} (htracking : r.tracking.Tracking) {heard : List Bytes}
    (h : Collected config frames shards heard r.blocks) :
    ∃ r', receiverLoop aead crypto config r arrivals = .ok r' ∧
      Collected config frames shards (heard ++ arrivals.takeWhile (· ≠ done)) r'.blocks := by
  induction arrivals generalizing r heard with
  | nil =>
    refine ⟨r, rfl, ?_⟩
    rw [List.takeWhile_nil, List.append_nil]
    exact h
  | cons a arrivals ih =>
    by_cases ha : a = done
    · subst ha
      obtain ⟨r', hround, -, hblocks⟩ := receiverRound_done hopens hlength config htracking
        doneSeq
      rw [← hdone] at hround
      refine ⟨r', ?_, ?_⟩
      · rw [receiverLoop, hround]
        rfl
      · rw [List.takeWhile_cons_of_neg (by simp), List.append_nil, hblocks]
        exact h
    · have hmem := (harrivals a List.mem_cons_self).resolve_right ha
      obtain ⟨fs, hfsMem, haMem⟩ := List.mem_flatten.mp hmem
      obtain ⟨b, hfs⟩ := List.mem_iff_getElem?.mp hfsMem
      obtain ⟨i, hframe⟩ := List.mem_iff_getElem?.mp haMem
      obtain ⟨hb, hi, ss, shard, hss, hshard, hcarries⟩ := hsent.carries hfs hframe
      have h256 := hdistinct.total
      obtain ⟨r₁, hround, htracking₁, hblocks₁⟩ := receiverRound_carries hopens config htracking
        (Nat.lt_trans hb hdistinct.count) (by omega) (hdistinct.fits fs hfsMem a haMem) hcarries
      have hput := h.put hopens hsent hdistinct hfs hss hframe hshard hi
      rw [← hblocks₁] at hput
      obtain ⟨r', hrest, hcollected⟩ := ih (fun x hx => harrivals x (List.mem_cons_of_mem _ hx))
        htracking₁ hput
      refine ⟨r', ?_, ?_⟩
      · rw [receiverLoop, hround]
        exact hrest
      · rw [List.takeWhile_cons_of_pos (by simpa using ha)]
        rw [List.append_assoc] at hcollected
        exact hcollected

end EntrouterLine.Harness
