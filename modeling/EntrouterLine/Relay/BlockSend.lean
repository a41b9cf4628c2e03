import EntrouterLine.Lib.Chunks
import EntrouterLine.Relay.FecRoundTrip
import EntrouterLine.Relay.Forwarder
import EntrouterLine.Relay.FrameRoundTrip

/-!
# The other FEC send path

`send_with_fec` cuts a byte string into data shards, appends parity shards and sends each of them
as a packet of its own. Its packets have the types that `FecSender` uses, but no shard header and no
length prefix. The FEC receiver of the peer takes the first seven bytes of every shard for a header,
and what it returns is shorter than the shard. So no byte string comes back (`not_speaksFormat`),
and the empty one panics.
-/

set_option autoImplicit false

namespace EntrouterLine.Relay

open EntrouterLine.Lib
open EntrouterLine.Lib.Chunks

/-! ## Sending -/

/-- The panics of `send_with_fec`: those of the encoder, a division by zero, and chunks of size
zero. -/
inductive SendPanic where
  | fec (panic : Panic)
  | divideByZero
  | zeroChunkSize
  deriving DecidableEq

/-- `usize::div_ceil`. -/
def divCeil (a b : Nat) : Nat := if 0 < a % b then a / b + 1 else a / b

/-- The data shards of `send_with_fec`: the chunks of the data padded to the shard size, and zero
shards for the slots that the chunks leave. -/
def chunkShards (config : FecConfig) (shardSize : Nat) (data : Bytes) : List Bytes :=
  let shards := (chunks shardSize data).map fun c => resize c shardSize
  shards ++ List.replicate (config.dataShards - shards.length) (List.replicate shardSize 0)

/-- The loop that sends the shards, at the `i`-th of them: the datagrams, and the tunnel after
them. -/
def Tunnel.sendShards (aead : Aead) (config : FecConfig) :
    Tunnel → Nat → List Bytes → List Bytes × Tunnel
  | t, _, [] => ([], t)
  | t, i, shard :: shards =>
      let packetType := if i < config.dataShards then packetData else packetParity
      let (frame, t) := t.send aead packetType shard
      let (frames, t) := sendShards aead config t (i + 1) shards
      (frame :: frames, t)

/-- `Tunnel::send_with_fec`. -/
def Tunnel.sendWithFec (rs : ReedSolomon) (aead : Aead) (t : Tunnel) (data : Bytes)
    (config : FecConfig) : Except SendPanic (List Bytes × Tunnel) := do
  let encoder ← (FecEncoder.new rs config).mapError .fec
  if config.dataShards = 0 then .error .divideByZero
  else
    let shardSize := divCeil data.length config.dataShards
    -- `data.chunks(0)`
    if shardSize = 0 then .error .zeroChunkSize
    else do
      let shards ← (encoder.encode rs (chunkShards config shardSize data)).mapError .fec
      return t.sendShards aead config 0 shards

/-! ## Receiving -/

def Forwarder.setReceiver (f : Forwarder) (peerId : NodeId) (receiver : FecReceiver) : Forwarder :=
  { f with fecReceivers := Function.update f.fecReceivers peerId (some receiver) }

/-- `Forwarder::handle_inbound` as far as data goes: the payloads passed to `route_data`. -/
def Forwarder.handleInbound (rs : ReedSolomon) (f : Forwarder) (fromPeer : NodeId) (now : Nat)
    (packet : ReceivedPacket) : Except Panic (Forwarder × List Bytes) :=
  if packet.packetType = packetData ∨ packet.packetType = packetParity then
    match f.fecReceivers fromPeer with
    | some receiver => do
        let (receiver, payloads) ← receiver.receiveShard rs now packet.payload
        return (f.setReceiver fromPeer receiver, payloads.getD [])
    -- without a FEC receiver the payload passes through
    | none => .ok (f, [packet.payload])
  else .ok (f, [])

/-- A datagram from `source` reaches the peer at a time: its receive loop passes on a packet or
skips the datagram. -/
def Forwarder.hear (rs : ReedSolomon) (aead : Aead) (peers : PeerMap) (source : SocketAddr)
    (f : Forwarder) (arrival : Nat × Bytes) : Except Panic (Forwarder × List Bytes) :=
  match judge aead peers source (arrival.2.take maxPacket) with
  | .ok (fromPeer, packet) => f.handleInbound rs fromPeer arrival.1 packet
  | .error _ => .ok (f, [])

/-- The call returns, and whichever of its frames arrive, in whatever order and at whatever times,
the peer's forwarder routes exactly the data if at most `parityShards` of them are lost. -/
def SpeaksFormat (rs : ReedSolomon) (aead : Aead) (peers : PeerMap) (source : SocketAddr)
    (f : Forwarder) (t : Tunnel) (data : Bytes) (config : FecConfig) : Prop :=
  ∃ frames t', t.sendWithFec rs aead data config = .ok (frames, t') ∧
    ∀ arrivals : List (Nat × Bytes), (arrivals.map Prod.snd).Subperm frames →
      frames.length ≤ arrivals.length + config.parityShards →
        ∃ f' routed, Machine.run (Forwarder.hear rs aead peers source) f arrivals =
          .ok (f', routed) ∧ routed.flatten = [data]

/-! ## What is sent -/

variable {rs : ReedSolomon} {config : FecConfig} {aead : Aead} {data : Bytes}

theorem le_mul_divCeil (a : Nat) {b : Nat} (hb : 0 < b) : a ≤ b * divCeil a b := by
  have hdiv := Nat.div_add_mod a b
  have hmod := Nat.mod_lt a hb
  rw [divCeil]
  split
  case isTrue =>
    rw [Nat.mul_add]
    omega
  case isFalse => omega

theorem divCeil_le (a : Nat) {b : Nat} (hb : 0 < b) : divCeil a b ≤ a := by
  have hdiv := Nat.div_add_mod a b
  have hle : a / b ≤ b * (a / b) := Nat.le_mul_of_pos_left _ hb
  rw [divCeil]
  split
  case isTrue => omega
  case isFalse => omega

theorem length_chunkShards {n : Nat} (hn : 0 < n) (hdata : data.length ≤ config.dataShards * n) :
    (chunkShards config n data).length = config.dataShards := by
  -- there are at most as many chunks as data shards
  have hfit : (data.length + n - 1) / n ≤ config.dataShards := by
    rw [← Nat.lt_succ_iff, Nat.div_lt_iff_lt_mul hn, Nat.succ_mul]
    omega
  rw [chunkShards, List.length_append, List.length_replicate, List.length_map, chunks,
    List.length_map, List.length_range]
  omega

theorem length_of_mem_chunkShards {n : Nat} {shard : Bytes}
    (h : shard ∈ chunkShards config n data) : shard.length = n := by
  rcases List.mem_append.mp h with hchunk | hzero
  · obtain ⟨c, -, rfl⟩ := List.mem_map.mp hchunk
    exact length_resize c n
  · rw [(List.mem_replicate.mp hzero).2, List.length_replicate]

/-- The empty byte string has chunks of size zero. -/
theorem sendWithFec_nil (hlaw : Lawful rs config) (t : Tunnel) :
    t.sendWithFec rs aead [] config = .error .zeroChunkSize := by
  have hpos : config.dataShards ≠ 0 := Nat.ne_of_gt hlaw.accepted.1
  unfold Tunnel.sendWithFec
  rw [fecEncoder_new_of_accepted hlaw.accepts hlaw.accepted]
  simp [Except.mapError, bind, Except.bind, divCeil, hpos]

/-- Any other byte string is sent as a block of shards of one length. -/
theorem sendWithFec_eq (hlaw : Lawful rs config) (t : Tunnel) (hdata : data ≠ []) :
    ∃ block, IsBlock config.dataShards config.parityShards block
        (divCeil data.length config.dataShards) ∧
      t.sendWithFec rs aead data config = .ok (t.sendShards aead config 0 block) := by
  have hd : 0 < config.dataShards := hlaw.accepted.1
  have hround := le_mul_divCeil data.length hd
  have hpos : 0 < divCeil data.length config.dataShards := by
    have hlen := List.length_pos_of_ne_nil hdata
    exact Nat.pos_of_mul_pos_left (Nat.lt_of_lt_of_le hlen hround)
  have hcount : (chunkShards config (divCeil data.length config.dataShards) data).length =
      config.dataShards := length_chunkShards hpos hround
  have hinput : IsBlock config.dataShards config.parityShards
      (chunkShards config (divCeil data.length config.dataShards) data ++
        List.replicate config.parityShards
          (List.replicate (divCeil data.length config.dataShards) 0))
      (divCeil data.length config.dataShards) := by
    refine ⟨hpos, ?_, ?_⟩
    · rw [List.length_append, hcount, List.length_replicate]
    · intro s hs
      rcases List.mem_append.mp hs with hchunk | hzero
      · exact length_of_mem_chunkShards hchunk
      · rw [(List.mem_replicate.mp hzero).2, List.length_replicate]
  obtain ⟨block, hblock, hisBlock, -⟩ := hlaw.recovers.encode_ok hinput
  refine ⟨block, hisBlock, ?_⟩
  have hencode := encode_eq hlaw.accepted hcount (fun _ hs => length_of_mem_chunkShards hs) hblock
  unfold Tunnel.sendWithFec
  rw [fecEncoder_new_of_accepted hlaw.accepts hlaw.accepted]
  simp only [Except.mapError, bind, Except.bind, Nat.ne_of_gt hd, Nat.ne_of_gt hpos, if_false,
    hencode]
  rfl

/-- Every frame is that of a shard, under the tunnel's key. -/
theorem mem_sendShards {t : Tunnel} {i : Nat} {shards : List Bytes} {frame : Bytes}
    (h : frame ∈ (t.sendShards aead config i shards).1) :
    ∃ t' packetType shard, t'.crypto = t.crypto ∧ shard ∈ shards ∧
      frame = (Tunnel.send aead t' packetType shard).1 := by
  induction shards generalizing t i with
  | nil => cases h
  | cons shard shards ih =>
    rcases List.mem_cons.mp h with rfl | hrest
    · exact ⟨t, _, shard, rfl, List.mem_cons_self, rfl⟩
    · obtain ⟨t', packetType, s, hcrypto, hs, hframe⟩ := ih hrest
      exact ⟨t', packetType, s, hcrypto, List.mem_cons_of_mem _ hs, hframe⟩

/-! ## What comes back -/

/-- A payload is two bytes shorter than its shard at least. -/
theorem length_of_shardPayload {shard payload : Bytes} (h : shardPayload shard = some payload) :
    payload.length + 2 ≤ shard.length := by
  unfold shardPayload at h
  split at h
  case isTrue => cases h
  case isFalse hlong =>
    simp only at h
    split at h
    case isTrue => cases h
    case isFalse =>
      split at h
      case isTrue => cases h
      case isFalse =>
        cases h
        have hle := List.length_take_le' (UInt16.ofNat
          (EntrouterLine.Lib.LittleEndian.ofBytes (shard.take 2))).toNat (shard.drop 2)
        rw [List.length_drop] at hle
        omega

/-- The shards of the block have `m` bytes. -/
def PendingBlock.Uniform (m : Nat) (block : PendingBlock) : Prop :=
  ∀ shard, some shard ∈ block.shards → shard.length = m

/-- What a block of shards of `m` bytes returns is shorter than `m`. -/
theorem PendingBlock.Uniform.reconstruct (hkeeps : rs.KeepsLength) {m : Nat} {block : PendingBlock}
    (h : block.Uniform m) (hshaped : block.Shaped) {payloads : List Bytes}
    (hrec : block.reconstruct rs = .ok (some payloads)) : ∀ p ∈ payloads, p.length < m := by
  unfold PendingBlock.reconstruct FecEncoder.new at hrec
  split at hrec
  case isTrue => cases hrec
  case isFalse =>
    split at hrec
    case isFalse => cases hrec
    case isTrue =>
      simp only [FecEncoder.reconstruct, bind, Except.bind] at hrec
      cases hfull : rs.reconstruct block.dataShards block.parityShards block.shards with
      | none =>
        rw [hfull] at hrec
        cases hrec
      | some full =>
        have hlen : block.dataShards ≤ full.length := by
          rw [rs.length_reconstruct hfull, hshaped.slots]
          exact Nat.le_add_right _ _
        rw [hfull] at hrec
        simp only [collectPayloads_eq hlen] at hrec
        cases hrec
        intro p hp
        obtain ⟨slot, hslot, hbind⟩ := List.mem_filterMap.mp hp
        obtain ⟨shard, rfl, hshard⟩ := Option.bind_eq_some_iff.mp hbind
        have hm := hkeeps _ _ m _ _ hfull h shard (List.mem_of_mem_take hslot)
        have hle := length_of_shardPayload hshard
        omega

theorem PendingBlock.Uniform.offer {m : Nat} {block : PendingBlock} (h : block.Uniform m) (i : Nat)
    {shard : Bytes} (hshard : shard.length = m) : (block.offer i shard).Uniform m := by
  rw [PendingBlock.offer]
  split
  case isTrue =>
    intro s hs
    rcases List.mem_or_eq_of_mem_set hs with hold | hnew
    · exact h s hold
    · rw [Option.some.inj hnew]
      exact hshard
  case isFalse => exact h

/-- The receiver's blocks wait, and their shards have `m` bytes. -/
structure FecReceiver.Uniform (m : Nat) (receiver : FecReceiver) : Prop where
  waiting : receiver.AllWaiting
  uniform : ∀ blockId block, receiver.blocks blockId = some block → block.Uniform m

theorem uniform_new (m : Nat) : FecReceiver.new.Uniform m :=
  ⟨allWaiting_new, nofun⟩

theorem FecReceiver.Uniform.entry {m : Nat} {receiver : FecReceiver} (h : receiver.Uniform m)
    (now : Nat) (blockId : UInt16) (d p : UInt8) :
    (receiver.entry now blockId d p).Uniform m := by
  rw [FecReceiver.entry]
  cases hblock : receiver.blocks blockId with
  | none =>
    -- a new block has no shard yet
    intro shard hshard
    cases (List.mem_replicate.mp hshard).2
  | some block => exact h.uniform blockId block hblock

/-- A receiver that is handed shards of `k` bytes only, header included, keeps `k - 7` of each and
returns nothing of `k` bytes. -/
theorem FecReceiver.Uniform.receiveShard (hkeeps : rs.KeepsLength)
    {receiver receiver' : FecReceiver} {payload : Bytes}
    (h : receiver.Uniform (payload.length - shardHeaderSize)) {now : Nat}
    {out : Option (List Bytes)}
    (hcall : receiver.receiveShard rs now payload = .ok (receiver', out)) :
    receiver'.Uniform (payload.length - shardHeaderSize) ∧
      ∀ p ∈ out.getD [], p.length < payload.length := by
  have hwaiting := h.waiting.receiveShard hcall
  obtain ⟨-, rfl, rfl⟩ | ⟨blockId, i, d, p, -, block, -, hblock, hcases⟩ :=
    receiveShard_cases h.waiting hcall
  · refine ⟨h, ?_⟩
    intro p hp
    cases hp
  · have huniform : block.Uniform (payload.length - shardHeaderSize) := by
      rw [hblock]
      exact (h.entry now blockId d p).offer i.toNat List.length_drop
    rcases hcases with ⟨-, rfl, hrec⟩ | ⟨-, rfl, rfl⟩
    · -- the block is complete: its payloads are shorter than its shards
      refine ⟨⟨hwaiting, ?_⟩, ?_⟩
      · intro id block' hblock'
        rcases setBlock_cases hblock' with ⟨-, hnone⟩ | hold
        · cases hnone
        · exact h.uniform id block' hold
      · intro payload' hpayload'
        cases out with
        | none => cases hpayload'
        | some payloads =>
          have hshaped : block.Shaped := by
            rw [hblock]
            exact (h.waiting.shaped now blockId d p).offer _ _
          have hshort := huniform.reconstruct hkeeps hshaped hrec payload' hpayload'
          omega
    · refine ⟨⟨hwaiting, ?_⟩, ?_⟩
      · intro id block' hblock'
        rcases setBlock_cases hblock' with ⟨-, hsome⟩ | hold
        · cases hsome
          exact huniform
        · exact h.uniform id block' hold
      · intro payload' hpayload'
        cases hpayload'

/-- The peer's forwarder has a FEC receiver for the sender, with shards of `m` bytes. -/
def Forwarder.Listens (f : Forwarder) (peerId : NodeId) (m : Nat) : Prop :=
  ∃ receiver, f.fecReceivers peerId = some receiver ∧ receiver.Uniform m

/-- One frame of a shard: what the forwarder routes is shorter than the shard. -/
theorem Forwarder.Listens.hear (hkeeps : rs.KeepsLength) (hlength : aead.TagLength)
    (hopens : aead.Opens) {peers : PeerMap} {source : SocketAddr} {peerId : NodeId} {t : Tunnel}
    (hpeer : peers source = some (peerId, t.crypto)) {packetType : UInt8} {shard : Bytes}
    (hfits : shard.length ≤ maxPayload) {f f' : Forwarder}
    (h : f.Listens peerId (shard.length - shardHeaderSize)) {now : Nat} {routed : List Bytes}
    (hcall : f.hear rs aead peers source (now, (t.send aead packetType shard).1) =
      .ok (f', routed)) :
    f'.Listens peerId (shard.length - shardHeaderSize) ∧ ∀ p ∈ routed, p.length < shard.length := by
  obtain ⟨receiver, hreceiver, huniform⟩ := h
  -- the receive loop passes on the shard that the frame was built from
  have hsend := length_send_le hlength t packetType hfits
  have hjudge := judge_send hopens hpeer packetType shard []
    (Nat.le_trans hsend (by decide : maxPacket ≤ maxDatagram))
  rw [List.append_nil] at hjudge
  rw [Forwarder.hear, List.take_of_length_le hsend, hjudge] at hcall
  simp only [Forwarder.handleInbound, hreceiver] at hcall
  split at hcall
  case isTrue =>
    simp only [bind, Except.bind] at hcall
    cases hshard : receiver.receiveShard rs now shard with
    | error e =>
      rw [hshard] at hcall
      cases hcall
    | ok result =>
      obtain ⟨receiver', out⟩ := result
      rw [hshard] at hcall
      cases hcall
      obtain ⟨hkept, hshort⟩ := huniform.receiveShard hkeeps hshard
      exact ⟨⟨receiver', Function.update_self _ _ _, hkept⟩, hshort⟩
  case isFalse =>
    -- another packet type routes nothing
    cases hcall
    exact ⟨⟨receiver, hreceiver, huniform⟩, nofun⟩

/-- The frames of shards of one length: every payload that the peer's forwarder routes is shorter
than the shards. -/
theorem Forwarder.Listens.run (hkeeps : rs.KeepsLength) (hlength : aead.TagLength)
    (hopens : aead.Opens) {peers : PeerMap} {source : SocketAddr} {peerId : NodeId} {t : Tunnel}
    (hpeer : peers source = some (peerId, t.crypto)) {shards : List Bytes} {n : Nat}
    (huniform : ∀ shard ∈ shards, shard.length = n) (hfits : n ≤ maxPayload)
    {arrivals : List (Nat × Bytes)} {f f' : Forwarder} {routed : List (List Bytes)}
    (h : f.Listens peerId (n - shardHeaderSize))
    (hframes : ∀ arrival ∈ arrivals, arrival.2 ∈ (t.sendShards aead config 0 shards).1)
    (hrun : Machine.run (Forwarder.hear rs aead peers source) f arrivals = .ok (f', routed)) :
    ∀ p ∈ routed.flatten, p.length < n := by
  induction arrivals generalizing f routed with
  | nil =>
    cases hrun
    exact nofun
  | cons arrival arrivals ih =>
    obtain ⟨f₁, out, routed', hstep, hrest, rfl⟩ := Machine.run_cons_inv hrun
    obtain ⟨now, frame⟩ := arrival
    obtain ⟨t', packetType, shard, hcrypto, hshard, hframe⟩ :=
      mem_sendShards (hframes _ List.mem_cons_self)
    rw [← hcrypto] at hpeer
    have hlen := huniform shard hshard
    subst hlen
    change frame = _ at hframe
    subst hframe
    -- the shards have one length, so that the bound on them is kept
    obtain ⟨hlistens, hshort⟩ := h.hear hkeeps hlength hopens hpeer hfits hstep
    intro p hp
    rcases List.mem_append.mp hp with hout | hlater
    · exact hshort p hout
    · rw [hcrypto] at hpeer
      exact ih hlistens (fun a ha => hframes a (List.mem_cons_of_mem _ ha)) hrest p hlater

/-- The case in which every frame arrives, in the order of sending. -/
theorem SpeaksFormat.inOrder {peers : PeerMap} {source : SocketAddr} {f : Forwarder} {t : Tunnel}
    (h : SpeaksFormat rs aead peers source f t data config) :
    ∃ frames t' f' routed, t.sendWithFec rs aead data config = .ok (frames, t') ∧
      Machine.run (Forwarder.hear rs aead peers source) f (frames.map fun frame => (0, frame)) =
        .ok (f', routed) ∧ routed.flatten = [data] := by
  obtain ⟨frames, t', hsend, hconveys⟩ := h
  have hall : (frames.map fun frame => (0, frame)).map Prod.snd = frames := by
    rw [List.map_map]
    exact List.map_id _
  obtain ⟨f', routed, hrun, hrouted⟩ := hconveys (frames.map fun frame => (0, frame))
    (by rw [hall]) (by rw [List.length_map]; exact Nat.le_add_right _ _)
  exact ⟨frames, t', f', routed, hsend, hrun, hrouted⟩

/-- No byte string speaks the format of the peer: the empty one panics, and of any other only
shorter byte strings come back. -/
theorem not_speaksFormat (hlaw : Lawful rs config) (hkeeps : rs.KeepsLength)
    (hlength : aead.TagLength) (hopens : aead.Opens) {peers : PeerMap} {source : SocketAddr}
    {peerId : NodeId} {t : Tunnel} (hpeer : peers source = some (peerId, t.crypto)) {f : Forwarder}
    (hfresh : f.fecReceivers peerId = some FecReceiver.new) (data : Bytes)
    (hfits : divCeil data.length config.dataShards ≤ maxPayload) :
    ¬ SpeaksFormat rs aead peers source f t data config := by
  intro hspeaks
  obtain ⟨frames, t', f', routed, hsend, hrun, hrouted⟩ := hspeaks.inOrder
  by_cases hdata : data = []
  · rw [hdata, sendWithFec_nil hlaw] at hsend
    cases hsend
  · obtain ⟨block, hblock, hok⟩ := sendWithFec_eq hlaw t hdata
    rw [hok, Except.ok.injEq] at hsend
    have hframes : ∀ arrival ∈ frames.map fun frame => (0, frame),
        arrival.2 ∈ (t.sendShards aead config 0 block).1 := by
      intro arrival harrival
      obtain ⟨frame, hframe, rfl⟩ := List.mem_map.mp harrival
      rw [hsend]
      exact hframe
    have hlistens : f.Listens peerId
        (divCeil data.length config.dataShards - shardHeaderSize) := ⟨_, hfresh, uniform_new _⟩
    have hmem : data ∈ routed.flatten := by
      rw [hrouted]
      exact List.mem_singleton_self data
    -- the data would have to be shorter than a shard of it
    have hshort := hlistens.run hkeeps hlength hopens hpeer hblock.uniform hfits hframes hrun data
      hmem
    exact Nat.not_lt_of_le (divCeil_le data.length hlaw.accepted.1) hshort

/-- A peer with a FEC receiver for `syd-01`, which has sent nothing yet. -/
def freshForwarder : Forwarder := (Forwarder.new replicaConfig).insertReceiver "syd-01"

def onePeer : PeerMap := fun _ => some ("syd-01", pingTunnel.crypto)

theorem not_speaksFormat_oneByte :
    ¬ SpeaksFormat smallCodec tagAead onePeer ⟨0xC0000201, 4433⟩ freshForwarder pingTunnel [5]
      replicaConfig :=
  not_speaksFormat lawful_replica smallCodec_keepsLength tagAead_tagLength tagAead_opens rfl
    (by simp [freshForwarder, Forwarder.insertReceiver, Forwarder.new]) [5] (by decide)

/-- Seven bytes that read as a shard header with one data and one parity shard, a length prefix and
one byte. -/
def lookalike : Bytes := [0, 0, 0, 1, 1, 0, 0, 1, 0, 9]

/-- The empty byte string panics. Of the other one the peer routes the last byte, once for the data
shard and once for the parity shard. -/
theorem lookalike_cut :
    pingTunnel.sendWithFec smallCodec tagAead [] replicaConfig = .error .zeroChunkSize ∧
      ¬ SpeaksFormat smallCodec tagAead onePeer ⟨0xC0000201, 4433⟩ freshForwarder pingTunnel []
        replicaConfig ∧
      ¬ SpeaksFormat smallCodec tagAead onePeer ⟨0xC0000201, 4433⟩ freshForwarder pingTunnel
        lookalike replicaConfig := by
  refine ⟨rfl, ?_, ?_⟩
  · rintro ⟨frames, t', hsend, -⟩
    rw [sendWithFec_nil lawful_replica] at hsend
    cases hsend
  · intro hspeaks
    obtain ⟨frames, t', f', routed, hsend, hrun, hrouted⟩ := hspeaks.inOrder
    have heval : (pingTunnel.sendWithFec smallCodec tagAead lookalike replicaConfig).toOption.map
        (fun result => (Machine.run (Forwarder.hear smallCodec tagAead onePeer ⟨0xC0000201, 4433⟩)
          freshForwarder (result.1.map fun frame => (0, frame))).toOption.map Prod.snd) =
        some (some [[[9]], [[9]]]) := rfl
    rw [hsend] at heval
    change some ((Machine.run _ _ _).toOption.map Prod.snd) = _ at heval
    rw [hrun] at heval
    change some (some routed) = _ at heval
    rw [Option.some.injEq, Option.some.injEq] at heval
    subst heval
    cases hrouted

end EntrouterLine.Relay
