import Mathlib.Data.Finset.Card
import EntrouterLine.Relay.PendingBlock

/-!
# One block from sender to receiver

`flush_eq` says what a flush emits: the shards of one encoded block, framed under the current id.
`receiveShard_held` follows one shard of that block into a receiver whose entry for the id, if there
is one, holds the shards `S` of the same block: the call returns the block's payloads if the shard
brings the number of held shards to `dataShards`, and otherwise adds the shard to `S`.
-/

set_option autoImplicit false

namespace EntrouterLine.Relay

/-- The assumptions on the code, at shard counts that it accepts. -/
structure Lawful (rs : ReedSolomon) (config : FecConfig) : Prop where
  accepts : rs.AcceptsSpec
  accepted : config.Accepted
  recovers : rs.Recovers config.dataShards config.parityShards

/-- What the sender relies on: an accepted configuration at which encoding succeeds. -/
structure Encodable (rs : ReedSolomon) (config : FecConfig) : Prop where
  accepts : rs.AcceptsSpec
  accepted : config.Accepted
  encodes : rs.EncodesAt config.dataShards config.parityShards

theorem Lawful.encodable {rs : ReedSolomon} {config : FecConfig} (hlaw : Lawful rs config) :
    Encodable rs config := by
  refine ⟨hlaw.accepts, hlaw.accepted, ?_⟩
  intro shards n hblock
  obtain ⟨block, hencode, -⟩ := hlaw.recovers.encode_ok hblock
  exact ⟨block, hencode⟩

/-- What the code is given to encode: the data shards, and zeros in place of the parity shards. -/
def inputShards (config : FecConfig) (buffer : List Bytes) : List Bytes :=
  dataShardsOf config buffer ++ List.replicate config.parityShards
    (List.replicate (maxLen (buffer.map lengthPrefixed)) 0)

/-- The shards of the block that encodes these payloads. -/
def Encodes (rs : ReedSolomon) (config : FecConfig) (payloads : List Bytes) (block : List Bytes) :
    Prop :=
  rs.encode config.dataShards config.parityShards (inputShards config payloads) = some block

/-- The buffer of a sender that is about to flush. -/
structure Flushable (config : FecConfig) (buffer : List Bytes) : Prop where
  nonempty : buffer ≠ []
  fits : buffer.length ≤ config.dataShards

theorem isBlock_inputShards {config : FecConfig} {buffer : List Bytes}
    (h : Flushable config buffer) :
    IsBlock config.dataShards config.parityShards (inputShards config buffer)
      (maxLen (buffer.map lengthPrefixed)) where
  pos := by
    have hne : buffer.map lengthPrefixed ≠ [] := by simpa using h.nonempty
    obtain ⟨shard, hshard, hlen⟩ := exists_length_eq_maxLen hne
    obtain ⟨payload, -, rfl⟩ := List.mem_map.mp hshard
    rw [← hlen, length_lengthPrefixed]
    omega
  count := by
    rw [inputShards, List.length_append, length_dataShardsOf config h.fits, List.length_replicate]
  uniform := by
    intro s hs
    rcases List.mem_append.mp hs with hdata | hparity
    · exact length_of_mem_dataShardsOf hdata
    · rw [(List.mem_replicate.mp hparity).2, List.length_replicate]

theorem take_inputShards {config : FecConfig} {buffer : List Bytes} (h : Flushable config buffer) :
    (inputShards config buffer).take config.dataShards = dataShardsOf config buffer := by
  rw [inputShards, List.take_left' (length_dataShardsOf config h.fits)]

/-- The encoder pads the data shards with zero shards of their length. -/
theorem encode_eq {rs : ReedSolomon} {config : FecConfig} (hconfig : config.Accepted)
    {shards block : List Bytes} {n : Nat} (hcount : shards.length = config.dataShards)
    (huniform : ∀ s ∈ shards, s.length = n)
    (hencode : rs.encode config.dataShards config.parityShards
      (shards ++ List.replicate config.parityShards (List.replicate n 0)) = some block) :
    FecEncoder.encode rs ⟨config⟩ shards = .ok block := by
  have hpos : 0 < shards.length := by
    rw [hcount]
    exact hconfig.1
  have hfirst : (shards[0]).length = n := huniform _ (List.getElem_mem hpos)
  unfold FecEncoder.encode
  rw [List.getElem?_eq_getElem hpos]
  simp only [hfirst, hcount, FecConfig.totalShards, Nat.add_sub_cancel_left, hencode]

/-- A flush succeeds and emits the framed shards of the encoded block. -/
theorem flush_eq {rs : ReedSolomon} {sender : FecSender} (henc : Encodable rs sender.config)
    (hflush : Flushable sender.config sender.buffer) :
    ∃ block, Encodes rs sender.config sender.buffer block ∧
      sender.flush rs = .ok
        ({ sender with blockId := sender.blockId + 1, buffer := [], payloadLens := [] },
          block.mapIdx (frameShard sender.config sender.blockId)) := by
  obtain ⟨block, hblock⟩ := henc.encodes _ _ (isBlock_inputShards hflush)
  refine ⟨block, hblock, ?_⟩
  have hencode := encode_eq henc.accepted (length_dataShardsOf sender.config hflush.fits)
    (fun _ hs => length_of_mem_dataShardsOf hs) hblock
  unfold FecSender.flush
  rw [fecEncoder_new_of_accepted henc.accepts henc.accepted]
  simp only [bind, Except.bind, hencode]
  rfl

/-! ## The block at the receiver -/

section Held

variable {block : List Bytes} {S : Finset Nat} {i : Nat} {shard : Bytes}

/-- The slots of a pending block that holds the shards `S`. -/
def heldShards (block : List Bytes) (S : Finset Nat) : List (Option Bytes) :=
  block.mapIdx fun i shard => if i ∈ S then some shard else none

theorem length_heldShards (block : List Bytes) (S : Finset Nat) :
    (heldShards block S).length = block.length :=
  List.length_mapIdx

theorem getElem?_heldShards (block : List Bytes) (S : Finset Nat) (i : Nat) :
    (heldShards block S)[i]? = block[i]?.map fun shard => if i ∈ S then some shard else none :=
  List.getElem?_mapIdx

theorem heldShards_empty (block : List Bytes) :
    heldShards block ∅ = List.replicate block.length none := by
  rw [List.eq_replicate_iff]
  refine ⟨length_heldShards block ∅, ?_⟩
  intro slot hslot
  obtain ⟨i, hi⟩ := List.mem_iff_getElem?.mp hslot
  rw [getElem?_heldShards] at hi
  obtain ⟨s, -, hs⟩ := Option.map_eq_some_iff.mp hi
  simpa using hs.symm

theorem set_heldShards (hi : block[i]? = some shard) :
    (heldShards block S).set i (some shard) = heldShards block (insert i S) := by
  apply List.ext_getElem?
  intro j
  rw [List.getElem?_set, length_heldShards, getElem?_heldShards, getElem?_heldShards]
  obtain ⟨hlt, -⟩ := List.getElem?_eq_some_iff.mp hi
  by_cases hij : i = j
  · subst hij
    rw [if_pos rfl, if_pos hlt, hi, Option.map_some, if_pos (Finset.mem_insert_self i S)]
  · have hji : j ≠ i := fun h => hij h.symm
    simp [hij, hji, Finset.mem_insert]

/-- The number of filled slots is the number of shards held. -/
theorem countP_heldShards (h : S ⊆ Finset.range block.length) :
    (heldShards block S).countP Option.isSome = S.card := by
  -- one more shard fills one more slot
  induction S using Finset.induction_on with
  | empty => simp [heldShards_empty]
  | insert j S hj ih =>
    obtain ⟨hmem, hsub⟩ := Finset.insert_subset_iff.mp h
    have hlt : j < block.length := Finset.mem_range.mp hmem
    have hlt' : j < (heldShards block S).length := by rwa [length_heldShards]
    have hvacant : (heldShards block S)[j] = none := by
      simp [heldShards, hj]
    rw [← set_heldShards (List.getElem?_eq_getElem hlt), List.countP_set hlt', ih hsub,
      Finset.card_insert_of_notMem hj, hvacant]
    simp

theorem agreesWith_heldShards (block : List Bytes) (S : Finset Nat) :
    AgreesWith (heldShards block S) block := by
  intro i s hs
  rw [getElem?_heldShards] at hs
  obtain ⟨shard, hshard, hif⟩ := Option.map_eq_some_iff.mp hs
  rw [hshard]
  split at hif
  · exact hif
  · cases hif

/-- The receiver's entry for a block that holds the shards `S` of it: no entry, or a waiting one. -/
structure Holds (config : FecConfig) (block : List Bytes) (S : Finset Nat)
    (entry : Option PendingBlock) : Prop where
  inRange : S ⊆ Finset.range block.length
  short : S.card < config.dataShards
  entry_eq : entry = none ∧ S = ∅ ∨ ∃ createdAt, entry =
    some ⟨config.dataShards, config.parityShards, heldShards block S, S.card, createdAt⟩

theorem holds_none {config : FecConfig} (hconfig : config.Accepted) (block : List Bytes) :
    Holds config block ∅ none :=
  ⟨Finset.empty_subset _, hconfig.1, Or.inl ⟨rfl, rfl⟩⟩

/-- Dropping the entry, or keeping it, leaves an entry that holds nothing or the same. -/
theorem Holds.filter {config : FecConfig} {entry : Option PendingBlock}
    (h : Holds config block S entry) (hconfig : config.Accepted) (keep : PendingBlock → Bool) :
    Holds config block (if (entry.filter keep).isSome then S else ∅) (entry.filter keep) := by
  rcases h.entry_eq with ⟨rfl, rfl⟩ | ⟨createdAt, rfl⟩
  · exact holds_none hconfig block
  · cases hkeep : keep ⟨config.dataShards, config.parityShards, heldShards block S, S.card,
      createdAt⟩ with
    | true =>
      simp only [Option.filter_some, hkeep, if_true, Option.isSome_some]
      exact ⟨h.inRange, h.short, Or.inr ⟨createdAt, rfl⟩⟩
    | false =>
      simp only [Option.filter_some, hkeep, Bool.false_eq_true, if_false, Option.isSome_none]
      exact holds_none hconfig block

/-- Offering a shard of the block adds it to the shards held. -/
theorem offer_held (d p createdAt : Nat) (hi : block[i]? = some shard) :
    PendingBlock.offer ⟨d, p, heldShards block S, S.card, createdAt⟩ i shard =
      ⟨d, p, heldShards block (insert i S), (insert i S).card, createdAt⟩ := by
  by_cases hmem : i ∈ S
  · -- a duplicate changes nothing
    have hvacant : ¬ PendingBlock.Vacant ⟨d, p, heldShards block S, S.card, createdAt⟩ i := by
      show ¬ (heldShards block S)[i]? = some none
      rw [getElem?_heldShards, hi, Option.map_some, if_pos hmem]
      simp
    rw [PendingBlock.offer, if_neg hvacant, Finset.insert_eq_of_mem hmem]
  · have hvacant : PendingBlock.Vacant ⟨d, p, heldShards block S, S.card, createdAt⟩ i := by
      show (heldShards block S)[i]? = some none
      rw [getElem?_heldShards, hi, Option.map_some, if_neg hmem]
    rw [PendingBlock.offer, if_pos hvacant, PendingBlock.put, Finset.card_insert_of_notMem hmem,
      set_heldShards hi]

/-- The payloads that the data shards of a block carry. -/
def recovered (config : FecConfig) (block : List Bytes) : List Bytes :=
  (block.take config.dataShards).filterMap shardPayload

end Held

section Encoded

variable {rs : ReedSolomon} {config : FecConfig} {payloads block : List Bytes}

/-- What the code promises about the block that a flush emits. -/
theorem encodes_spec (hlaw : Lawful rs config)
    (hflush : Flushable config payloads) (hencodes : Encodes rs config payloads block) :
    block.length = config.totalShards ∧
      block.take config.dataShards = dataShardsOf config payloads := by
  obtain ⟨block', hblock', hisBlock, htake⟩ := hlaw.recovers.encode_ok (isBlock_inputShards hflush)
  rw [Encodes, hblock', Option.some.injEq] at hencodes
  subst hencodes
  exact ⟨hisBlock.count, htake.trans (take_inputShards hflush)⟩

/-- All shards of an emitted block, parity included, have the length of its longest prefixed
payload. -/
theorem length_of_mem_encodes (hlaw : Lawful rs config)
    (hflush : Flushable config payloads) (hencodes : Encodes rs config payloads block)
    {shard : Bytes} (h : shard ∈ block) : shard.length = maxLen (payloads.map lengthPrefixed) := by
  obtain ⟨block', hblock', hisBlock, -⟩ := hlaw.recovers.encode_ok (isBlock_inputShards hflush)
  rw [Encodes, hblock', Option.some.injEq] at hencodes
  subst hencodes
  exact hisBlock.uniform shard h

/-- A block of payloads between 1 and 65535 bytes gives back exactly these payloads. -/
theorem recovered_eq (hlaw : Lawful rs config)
    (hflush : Flushable config payloads) (hencodes : Encodes rs config payloads block)
    (hpayloads : ∀ payload ∈ payloads, 0 < payload.length ∧ payload.length < 2 ^ 16) :
    recovered config block = payloads := by
  rw [recovered, (encodes_spec hlaw hflush hencodes).2,
    filterMap_shardPayload_dataShardsOf config hpayloads]

/-- Enough shards of a block give its payloads. -/
theorem reconstruct_held (hlaw : Lawful rs config)
    (hflush : Flushable config payloads) (hencodes : Encodes rs config payloads block)
    {S : Finset Nat} (hS : S ⊆ Finset.range block.length) (hfull : config.dataShards ≤ S.card)
    (createdAt : Nat) :
    PendingBlock.reconstruct rs
      ⟨config.dataShards, config.parityShards, heldShards block S, S.card, createdAt⟩ =
        .ok (some (recovered config block)) := by
  obtain ⟨hcount, -⟩ := encodes_spec hlaw hflush hencodes
  have hheld : (heldShards block S).length = config.dataShards + config.parityShards := by
    rw [length_heldShards, hcount, FecConfig.totalShards]
  have henough : config.dataShards ≤ (heldShards block S).countP Option.isSome := by
    rwa [countP_heldShards hS]
  have hrec := hlaw.recovers.reconstruct_ok (isBlock_inputShards hflush) hencodes hheld
    (agreesWith_heldShards block S) henough
  have hlen : config.dataShards ≤ (block.map some).length := by
    rw [List.length_map, hcount]
    exact Nat.le_add_right _ _
  have hcollect : collectPayloads (block.map some) config.dataShards =
      .ok (recovered config block) := by
    rw [collectPayloads_eq hlen, ← List.map_take, List.filterMap_map]
    rfl
  unfold PendingBlock.reconstruct
  simp only [Nat.not_lt_of_le hfull, if_false,
    fecEncoder_new_of_accepted hlaw.accepts hlaw.accepted,
    FecEncoder.reconstruct, hrec, hcollect, bind, Except.bind]
  rfl

/-- One shard of a block reaches a receiver whose entry for its id holds the shards `S` of the same
block. -/
theorem receiveShard_held (hlaw : Lawful rs config)
    (hflush : Flushable config payloads) (hencodes : Encodes rs config payloads block)
    {receiver : FecReceiver} (hwait : receiver.AllWaiting) {blockId : UInt16} {S : Finset Nat}
    (hholds : Holds config block S (receiver.blocks blockId)) {i : Nat} {shard : Bytes}
    (hi : block[i]? = some shard) (now : Nat) :
    ∃ entry out, receiver.receiveShard rs now (frameShard config blockId i shard).2 =
        .ok (receiver.setBlock blockId entry, out) ∧
      if config.dataShards ≤ (insert i S).card then
        entry = none ∧ out = some (recovered config block)
      else out = none ∧ Holds config block (insert i S) entry := by
  obtain ⟨hcount, -⟩ := encodes_spec hlaw hflush hencodes
  obtain ⟨hlt, -⟩ := List.getElem?_eq_some_iff.mp hi
  have htotal : config.dataShards + config.parityShards ≤ 256 := hlaw.accepted.2.2
  have hd : (UInt8.ofNat config.dataShards).toNat = config.dataShards := by
    rw [UInt8.toNat_ofNat', Nat.mod_eq_of_lt (by have := hlaw.accepted.2.1; omega)]
  have hp : (UInt8.ofNat config.parityShards).toNat = config.parityShards := by
    rw [UInt8.toNat_ofNat', Nat.mod_eq_of_lt (by have := hlaw.accepted.1; omega)]
  have hidx : (UInt8.ofNat i).toNat = i := by
    rw [hcount, FecConfig.totalShards] at hlt
    rw [UInt8.toNat_ofNat', Nat.mod_eq_of_lt (by omega)]
  obtain ⟨originalLen, hframe⟩ := frameShard_bytes config blockId i shard
  -- whether the entry is found or made, it holds exactly `S`
  obtain ⟨createdAt, hentry⟩ : ∃ createdAt,
      receiver.entry now blockId (UInt8.ofNat config.dataShards)
          (UInt8.ofNat config.parityShards) =
        ⟨config.dataShards, config.parityShards, heldShards block S, S.card, createdAt⟩ := by
    unfold FecReceiver.entry
    rcases hholds.entry_eq with ⟨hnone, rfl⟩ | ⟨createdAt, hsome⟩
    · refine ⟨now, ?_⟩
      rw [hnone, Option.getD_none, PendingBlock.new, hd, hp, heldShards_empty, hcount,
        Finset.card_empty]
      rfl
    · exact ⟨createdAt, by rw [hsome, Option.getD_some]⟩
  have hdrop : (shardHeaderBytes blockId (UInt8.ofNat i) (UInt8.ofNat config.dataShards)
      (UInt8.ofNat config.parityShards) originalLen ++ shard).drop shardHeaderSize = shard :=
    List.drop_left' (length_shardHeaderBytes _ _ _ _ _)
  have hinsert : insert i S ⊆ Finset.range block.length :=
    Finset.insert_subset (Finset.mem_range.mpr hlt) hholds.inRange
  rw [hframe, receiveShard_eq hwait (decodeShardHeader_shardHeaderBytes _ _ _ _ _ _)]
  simp only [hentry, hdrop, hidx, offer_held config.dataShards config.parityShards createdAt hi]
  by_cases hfull : config.dataShards ≤ (insert i S).card
  · -- the last shard needed: the block is reconstructed and its entry removed
    refine ⟨none, some (recovered config block), ?_, ?_⟩
    · rw [if_pos hfull, reconstruct_held hlaw hflush hencodes hinsert hfull]
      rfl
    · rw [if_pos hfull]
      exact ⟨rfl, rfl⟩
  · refine ⟨some ⟨config.dataShards, config.parityShards, heldShards block (insert i S),
      (insert i S).card, createdAt⟩, none, ?_, ?_⟩
    · rw [if_neg hfull]
    · rw [if_neg hfull]
      exact ⟨rfl, hinsert, Nat.lt_of_not_le hfull, Or.inr ⟨createdAt, rfl⟩⟩

end Encoded

end EntrouterLine.Relay
