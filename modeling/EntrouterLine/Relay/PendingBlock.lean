import EntrouterLine.Relay.FecCodec

/-!
# Pending blocks

A pending block is `Shaped`: it has a slot for every shard of its geometry, and `received` counts
the slots filled. Only shaped blocks are ever built, so `insert` stays in bounds (`insert_eq`). In a
block that waits in the receiver fewer than `dataShards` slots are filled (`Waiting`), and both
operations of the receiver keep it so (`AllWaiting.receiveShard`, `AllWaiting.expireOld`).
`receiveShard_eq` is what a call does with the block it finds, and `receiveShard_cases` what a call
that has returned did.
-/

set_option autoImplicit false

namespace EntrouterLine.Relay

open EntrouterLine.Lib

/-- One slot for every shard of the block's geometry, and the filled ones counted. -/
structure PendingBlock.Shaped (block : PendingBlock) : Prop where
  slots : block.shards.length = block.dataShards + block.parityShards
  counted : block.received = block.shards.countP Option.isSome

/-- A shaped block that still misses data. -/
structure PendingBlock.Waiting (block : PendingBlock) : Prop extends block.Shaped where
  short : block.received < block.dataShards

/-- The `i`-th slot exists and is empty. -/
def PendingBlock.Vacant (block : PendingBlock) (i : Nat) : Prop := block.shards[i]? = some none

instance (block : PendingBlock) (i : Nat) : Decidable (block.Vacant i) :=
  inferInstanceAs (Decidable (_ = _))

/-- The block with its `i`-th slot filled. -/
def PendingBlock.put (block : PendingBlock) (i : Nat) (shard : Bytes) : PendingBlock :=
  { block with shards := block.shards.set i (some shard), received := block.received + 1 }

@[simp] theorem put_dataShards (block : PendingBlock) (i : Nat) (shard : Bytes) :
    (block.put i shard).dataShards = block.dataShards := rfl

@[simp] theorem put_parityShards (block : PendingBlock) (i : Nat) (shard : Bytes) :
    (block.put i shard).parityShards = block.parityShards := rfl

@[simp] theorem put_received (block : PendingBlock) (i : Nat) (shard : Bytes) :
    (block.put i shard).received = block.received + 1 := rfl

theorem shaped_new (now : Nat) (d p : UInt8) : (PendingBlock.new now d p).Shaped where
  slots := List.length_replicate
  counted := by
    show 0 = _
    rw [eq_comm, List.countP_eq_zero]
    intro slot hslot
    rw [(List.mem_replicate.mp hslot).2]
    exact Bool.false_ne_true

theorem PendingBlock.Shaped.put {block : PendingBlock} (h : block.Shaped) {i : Nat}
    (hvacant : block.Vacant i) (shard : Bytes) : (block.put i shard).Shaped where
  slots := by
    show (block.shards.set i (some shard)).length = _
    rw [List.length_set, h.slots]
    rfl
  counted := by
    obtain ⟨hi, hnone⟩ := List.getElem?_eq_some_iff.mp hvacant
    show block.received + 1 = (block.shards.set i (some shard)).countP Option.isSome
    rw [List.countP_set hi, h.counted, hnone]
    simp

/-- The block with the shard in its slot, if that slot is vacant. -/
def PendingBlock.offer (block : PendingBlock) (i : Nat) (shard : Bytes) : PendingBlock :=
  if block.Vacant i then block.put i shard else block

theorem PendingBlock.Shaped.offer {block : PendingBlock} (h : block.Shaped) (i : Nat)
    (shard : Bytes) : (block.offer i shard).Shaped := by
  rw [PendingBlock.offer]
  split
  case isTrue hvacant => exact h.put hvacant shard
  case isFalse => exact h

/-- What `insert` does with a shaped block: it fills a vacant slot and ignores any other index. -/
theorem insert_eq {block : PendingBlock} (h : block.Shaped) (shardIdx : UInt8) (shard : Bytes) :
    block.insert shardIdx shard =
      .ok (block.offer shardIdx.toNat shard,
        decide ((block.offer shardIdx.toNat shard).dataShards ≤
          (block.offer shardIdx.toNat shard).received)) := by
  unfold PendingBlock.insert PendingBlock.offer
  rcases Nat.lt_or_ge shardIdx.toNat (block.dataShards + block.parityShards) with hlt | hge
  · -- the slot exists: it is filled if it is empty
    have hin : shardIdx.toNat < block.shards.length := by rwa [h.slots]
    rw [if_neg (Nat.not_le_of_lt hlt)]
    cases hslot : block.shards[shardIdx.toNat] with
    | none =>
      have hvacant : block.Vacant shardIdx.toNat := by
        rw [PendingBlock.Vacant, List.getElem?_eq_getElem hin, hslot]
      simp only [List.getElem?_eq_getElem hin, hslot, hvacant, if_true]
      rfl
    | some held =>
      have hvacant : ¬ block.Vacant shardIdx.toNat := by
        rw [PendingBlock.Vacant, List.getElem?_eq_getElem hin, hslot]
        simp
      simp only [List.getElem?_eq_getElem hin, hslot, hvacant, if_false]
  · -- the index is out of range
    have hvacant : ¬ block.Vacant shardIdx.toNat := by
      rw [PendingBlock.Vacant, List.getElem?_eq_none (by rwa [h.slots])]
      simp
    simp only [hge, if_true, hvacant, if_false]

/-- `reconstruct` panics exactly on a block that has enough shards and a geometry that the code
rejects. -/
theorem reconstruct_ok_iff {rs : ReedSolomon} {block : PendingBlock} (h : block.Shaped) :
    (∃ out, block.reconstruct rs = .ok out) ↔
      block.received < block.dataShards ∨ rs.accepts block.dataShards block.parityShards := by
  unfold PendingBlock.reconstruct
  by_cases hshort : block.received < block.dataShards
  · simp [hshort]
  simp only [hshort, if_false, false_or, FecEncoder.new]
  by_cases haccepts : rs.accepts block.dataShards block.parityShards = true
  · simp only [haccepts, if_true, iff_true, FecEncoder.reconstruct, bind, Except.bind]
    cases hrec : rs.reconstruct block.dataShards block.parityShards block.shards with
    | none => exact ⟨none, rfl⟩
    | some shards =>
      have hlen : block.dataShards ≤ shards.length := by
        rw [rs.length_reconstruct hrec, h.slots]
        exact Nat.le_add_right _ _
      simp only [collectPayloads_eq hlen]
      exact ⟨_, rfl⟩
  · simp only [haccepts, Bool.false_eq_true, if_false, iff_false]
    rintro ⟨out, hout⟩
    cases hout

/-! ## The receiver -/

/-- Every block in the receiver waits for more shards. -/
def FecReceiver.AllWaiting (receiver : FecReceiver) : Prop :=
  ∀ blockId block, receiver.blocks blockId = some block → block.Waiting

theorem allWaiting_new : FecReceiver.new.AllWaiting := by
  intro blockId block h
  cases h

/-- The block that a shard is inserted into: one that waits, or a new one. -/
theorem FecReceiver.AllWaiting.entry {receiver : FecReceiver} (h : receiver.AllWaiting)
    (now : Nat) (blockId : UInt16) (d p : UInt8) :
    (receiver.entry now blockId d p).Waiting ∨
      receiver.entry now blockId d p = PendingBlock.new now d p := by
  rw [FecReceiver.entry]
  cases hblock : receiver.blocks blockId with
  | none => exact Or.inr rfl
  | some block => exact Or.inl (h blockId block hblock)

theorem FecReceiver.AllWaiting.shaped {receiver : FecReceiver} (h : receiver.AllWaiting)
    (now : Nat) (blockId : UInt16) (d p : UInt8) : (receiver.entry now blockId d p).Shaped := by
  rcases h.entry now blockId d p with hwait | hnew
  · exact hwait.toShaped
  · rw [hnew]
    exact shaped_new now d p

/-- A payload too short for a header is ignored. -/
theorem receiveShard_of_no_header {payload : Bytes} (hheader : decodeShardHeader payload = none)
    (rs : ReedSolomon) (receiver : FecReceiver) (now : Nat) :
    receiver.receiveShard rs now payload = .ok (receiver, none) := by
  simp only [FecReceiver.receiveShard, hheader]

/-- What a call does with the block it finds: the shard is offered to the block, and the block is
reconstructed and removed if it then holds enough shards. -/
theorem receiveShard_eq {rs : ReedSolomon} {receiver : FecReceiver} (h : receiver.AllWaiting)
    {payload : Bytes} {blockId : UInt16} {i d p : UInt8} {originalLen : UInt16}
    (hheader : decodeShardHeader payload = some (blockId, i, d, p, originalLen)) (now : Nat) :
    receiver.receiveShard rs now payload =
      let block := (receiver.entry now blockId d p).offer i.toNat (payload.drop shardHeaderSize)
      if block.dataShards ≤ block.received then
        (block.reconstruct rs).map fun out => (receiver.setBlock blockId none, out)
      else .ok (receiver.setBlock blockId (some block), none) := by
  simp only [FecReceiver.receiveShard, hheader, insert_eq (h.shaped now blockId d p), bind,
    Except.bind, pure, Except.pure, decide_eq_true_eq]
  show (if _ then _ else _) = _
  refine if_congr Iff.rfl ?_ rfl
  show _ = Except.map _ _
  cases PendingBlock.reconstruct rs _ with
  | error e => rfl
  | ok out => rfl

/-- What a call that returns has done: it has ignored a payload without a header, has completed the
block that it offered the shard to and removed it, or has kept that block. -/
theorem receiveShard_cases {rs : ReedSolomon} {receiver receiver' : FecReceiver}
    (h : receiver.AllWaiting) {now : Nat} {payload : Bytes} {out : Option (List Bytes)}
    (hcall : receiver.receiveShard rs now payload = .ok (receiver', out)) :
    (decodeShardHeader payload = none ∧ receiver' = receiver ∧ out = none) ∨
    ∃ blockId i d p originalLen block,
      decodeShardHeader payload = some (blockId, i, d, p, originalLen) ∧
      block = (receiver.entry now blockId d p).offer i.toNat (payload.drop shardHeaderSize) ∧
      (block.dataShards ≤ block.received ∧ receiver' = receiver.setBlock blockId none ∧
          block.reconstruct rs = .ok out ∨
        block.received < block.dataShards ∧ receiver' = receiver.setBlock blockId (some block) ∧
          out = none) := by
  cases hheader : decodeShardHeader payload with
  | none =>
    rw [receiveShard_of_no_header hheader] at hcall
    cases hcall
    exact Or.inl ⟨rfl, rfl, rfl⟩
  | some header =>
    obtain ⟨blockId, i, d, p, originalLen⟩ := header
    rw [receiveShard_eq h hheader] at hcall
    refine Or.inr ⟨blockId, i, d, p, originalLen, _, rfl, rfl, ?_⟩
    simp only at hcall
    split at hcall
    case isTrue hfull =>
      cases hrec : PendingBlock.reconstruct rs _ with
      | error e =>
        rw [hrec] at hcall
        cases hcall
      | ok out' =>
        rw [hrec] at hcall
        cases hcall
        exact Or.inl ⟨hfull, rfl, rfl⟩
    case isFalse hshort =>
      cases hcall
      exact Or.inr ⟨Nat.lt_of_not_le hshort, rfl, rfl⟩

/-- A call that returns keeps every block waiting. -/
theorem FecReceiver.AllWaiting.receiveShard {rs : ReedSolomon} {receiver receiver' : FecReceiver}
    (h : receiver.AllWaiting) {now : Nat} {payload : Bytes} {out : Option (List Bytes)}
    (hcall : receiver.receiveShard rs now payload = .ok (receiver', out)) :
    receiver'.AllWaiting := by
  obtain ⟨-, rfl, -⟩ | ⟨blockId, i, d, p, -, block, -, hblock, ⟨-, rfl, -⟩ | ⟨hshort, rfl, -⟩⟩ :=
    receiveShard_cases h hcall
  · exact h
  · -- the block is gone, the others are as before
    intro id block' hblock'
    rcases setBlock_cases hblock' with ⟨-, hnone⟩ | hold
    · cases hnone
    · exact h id block' hold
  · -- the block stays, and still misses data
    intro id block' hblock'
    rcases setBlock_cases hblock' with ⟨-, hsome⟩ | hold
    · cases hsome
      refine ⟨?_, hshort⟩
      rw [hblock]
      exact (h.shaped now blockId d p).offer _ _
    · exact h id block' hold

theorem FecReceiver.AllWaiting.expireOld {receiver : FecReceiver} (h : receiver.AllWaiting)
    (now maxAgeMs : Nat) : (receiver.expireOld now maxAgeMs).AllWaiting := by
  intro blockId block hblock
  apply h blockId block
  exact (Option.filter_eq_some_iff.mp hblock).1

end EntrouterLine.Relay
