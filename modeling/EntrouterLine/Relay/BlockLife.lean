import Mathlib.Data.Finset.Card
import EntrouterLine.Relay.ReceiverPanic

/-!
# The life of a pending block

A block is in the receiver from the first shard with its id until it has `dataShards` distinct
shards in its range, or until it is too old. `noteArrival` records, beside the run of a receiver,
which shard indices calls have brought for every id since its block is there. `ArrivalInv` relates
the blocks to that record: the vacant slots of a block are those whose index has not arrived, and
`received` counts the distinct arrived indices in its range. `callEffect_of_ok` derives from it what
a call does with the block of its shard, and that it leaves the other blocks alone.
-/

set_option autoImplicit false

namespace EntrouterLine.Relay

open EntrouterLine.Lib

/-! ## The record -/

/-- The indices brought for the id since its block is in the receiver. -/
def FecReceiver.sinceEntry (receiver : FecReceiver) (arrived : UInt16 → Finset Nat)
    (blockId : UInt16) : Finset Nat :=
  if (receiver.blocks blockId).isSome then arrived blockId else ∅

/-- The record after a call: one more index for the id in the header. -/
def noteArrival (receiver : FecReceiver) :
    ReceiverEvent → (UInt16 → Finset Nat) → UInt16 → Finset Nat
  | .shard _ payload, arrived =>
      match decodeShardHeader payload with
      | none => arrived
      | some (blockId, i, _) =>
          Function.update arrived blockId (insert i.toNat (receiver.sinceEntry arrived blockId))
  | .expire _ _, arrived => arrived

/-- The record of a new receiver. -/
def noArrivals : UInt16 → Finset Nat := fun _ => ∅

/-- A receiver with the record of its run. -/
def recordedStep (rs : ReedSolomon) :
    FecReceiver × (UInt16 → Finset Nat) → ReceiverEvent →
      Except Panic ((FecReceiver × (UInt16 → Finset Nat)) × Option (List Bytes)) :=
  Machine.withHistory noteArrival (receiverStep rs)

theorem noteArrival_eq {payload : Bytes} {blockId : UInt16} {i d p : UInt8} {originalLen : UInt16}
    (hheader : decodeShardHeader payload = some (blockId, i, d, p, originalLen))
    (receiver : FecReceiver) (now : Nat) (arrived : UInt16 → Finset Nat) :
    noteArrival receiver (.shard now payload) arrived =
      Function.update arrived blockId (insert i.toNat (receiver.sinceEntry arrived blockId)) := by
  simp only [noteArrival, hheader]

theorem noteArrival_of_no_header {payload : Bytes} (hheader : decodeShardHeader payload = none)
    (receiver : FecReceiver) (now : Nat) (arrived : UInt16 → Finset Nat) :
    noteArrival receiver (.shard now payload) arrived = arrived := by
  simp only [noteArrival, hheader]

/-! ## One block -/

/-- The indices that have a slot in the block. -/
def PendingBlock.inRange (block : PendingBlock) (arrived : Finset Nat) : Finset Nat :=
  arrived.filter fun i => i < block.dataShards + block.parityShards

/-- The block holds the shards in its range that have arrived, and no others. -/
structure PendingBlock.Accounts (block : PendingBlock) (arrived : Finset Nat) : Prop where
  vacant : ∀ i, block.Vacant i ↔ i < block.dataShards + block.parityShards ∧ i ∉ arrived
  received : block.received = (block.inRange arrived).card

@[simp] theorem offer_dataShards (block : PendingBlock) (i : Nat) (shard : Bytes) :
    (block.offer i shard).dataShards = block.dataShards := by
  rw [PendingBlock.offer]
  split <;> rfl

@[simp] theorem offer_parityShards (block : PendingBlock) (i : Nat) (shard : Bytes) :
    (block.offer i shard).parityShards = block.parityShards := by
  rw [PendingBlock.offer]
  split <;> rfl

theorem vacant_put (block : PendingBlock) (i j : Nat) (shard : Bytes) :
    (block.put i shard).Vacant j ↔ j ≠ i ∧ block.Vacant j := by
  show (block.shards.set i (some shard))[j]? = some none ↔ j ≠ i ∧ block.shards[j]? = some none
  rcases eq_or_ne j i with rfl | hne
  · -- the slot is filled now
    rw [List.getElem?_set_self']
    cases block.shards[j]? <;> simp
  · rw [List.getElem?_set_ne hne.symm]
    simp [hne]

/-- A new block has no shards. -/
theorem accounts_new (now : Nat) (d p : UInt8) : (PendingBlock.new now d p).Accounts ∅ where
  vacant := by
    intro i
    show (List.replicate (d.toNat + p.toNat) none)[i]? = some none ↔ i < d.toNat + p.toNat ∧ _
    rw [List.getElem?_replicate]
    simp
  received := rfl

/-- An index that is new to the block and has a slot in it is counted, any other is not. -/
theorem card_inRange_insert (block : PendingBlock) (i : Nat) (arrived : Finset Nat) :
    (block.inRange (insert i arrived)).card = (block.inRange arrived).card +
      if i < block.dataShards + block.parityShards ∧ i ∉ arrived then 1 else 0 := by
  rw [PendingBlock.inRange, PendingBlock.inRange, Finset.filter_insert]
  by_cases hrange : i < block.dataShards + block.parityShards
  · rw [if_pos hrange, Finset.card_insert_eq_ite]
    by_cases hmem : i ∈ arrived
    · simp [hrange, hmem]
    · simp [hrange, hmem]
  · simp [hrange]

/-- A shard that is offered to a block is accounted for as one more arrival. -/
theorem accounts_offer {block : PendingBlock} {arrived : Finset Nat}
    (h : block.Accounts arrived) (i : Nat) (shard : Bytes) :
    (block.offer i shard).Accounts (insert i arrived) := by
  have hcard := card_inRange_insert block i arrived
  rw [PendingBlock.offer]
  split
  case isTrue hvacant =>
    -- the slot is filled and the shard counted
    constructor
    · intro j
      rw [vacant_put, h.vacant j, put_dataShards, put_parityShards, Finset.mem_insert]
      tauto
    · rw [if_pos ((h.vacant i).mp hvacant), ← h.received] at hcard
      exact hcard.symm
  case isFalse hvacant =>
    -- the index is out of range or has arrived before, and the record gains nothing in range
    have hold : ¬ (i < block.dataShards + block.parityShards ∧ i ∉ arrived) :=
      fun hi => hvacant ((h.vacant i).mpr hi)
    constructor
    · intro j
      rw [h.vacant j, Finset.mem_insert]
      constructor
      · rintro ⟨hj, hnew⟩
        refine ⟨hj, ?_⟩
        rintro (rfl | hmem)
        · exact hold ⟨hj, hnew⟩
        · exact hnew hmem
      · rintro ⟨hj, hnew⟩
        exact ⟨hj, fun hmem => hnew (Or.inr hmem)⟩
    · rw [if_neg hold, Nat.add_zero, ← h.received] at hcard
      exact hcard.symm

/-- A shard out of range, and one that has arrived before, leave the block as it is. -/
theorem offer_of_ignored {block : PendingBlock} {arrived : Finset Nat}
    (h : block.Accounts arrived) {i : Nat}
    (hi : block.dataShards + block.parityShards ≤ i ∨ i ∈ arrived) (shard : Bytes) :
    block.offer i shard = block := by
  rw [PendingBlock.offer, if_neg]
  intro hvacant
  obtain ⟨hlt, hnew⟩ := (h.vacant i).mp hvacant
  rcases hi with hge | hmem
  · exact Nat.not_lt_of_le hge hlt
  · exact hnew hmem

/-- Whether an offered block has enough shards, by the record. -/
theorem offer_full_iff {block : PendingBlock} {arrived : Finset Nat}
    (h : block.Accounts arrived) (i : Nat) (shard : Bytes) :
    (block.offer i shard).dataShards ≤ (block.offer i shard).received ↔
      block.dataShards ≤ (block.inRange (insert i arrived)).card := by
  rw [(accounts_offer h i shard).received, PendingBlock.inRange, PendingBlock.inRange,
    offer_dataShards, offer_parityShards]

/-- What stays in the map of a block that a shard has been offered to. -/
def PendingBlock.remains (block : PendingBlock) : Option PendingBlock :=
  if block.dataShards ≤ block.received then none else some block

theorem remains_eq_none_iff {block : PendingBlock} :
    block.remains = none ↔ block.dataShards ≤ block.received := by
  rw [PendingBlock.remains]
  split
  case isTrue hfull => exact iff_of_true rfl hfull
  case isFalse hshort => simp [hshort]

theorem remains_of_lt {block : PendingBlock} (h : block.received < block.dataShards) :
    block.remains = some block := if_neg (Nat.not_le_of_lt h)

theorem eq_of_remains {block block' : PendingBlock} (h : block.remains = some block') :
    block' = block := by
  rw [PendingBlock.remains] at h
  split at h
  · cases h
  · exact (Option.some.inj h).symm

/-! ## The receiver -/

/-- Every block waits for more shards, and the record accounts for it. -/
structure ArrivalInv (receiver : FecReceiver) (arrived : UInt16 → Finset Nat) : Prop where
  waiting : receiver.AllWaiting
  accounts : ∀ blockId block, receiver.blocks blockId = some block →
    block.Accounts (arrived blockId)

theorem arrivalInv_new : ArrivalInv FecReceiver.new noArrivals where
  waiting := allWaiting_new
  accounts := by
    intro blockId block h
    cases h

/-- The block that a shard is offered to is accounted for, whether it is new or not. -/
theorem ArrivalInv.entry {receiver : FecReceiver} {arrived : UInt16 → Finset Nat}
    (h : ArrivalInv receiver arrived) (now : Nat) (blockId : UInt16) (d p : UInt8) :
    (receiver.entry now blockId d p).Accounts (receiver.sinceEntry arrived blockId) := by
  rw [FecReceiver.entry, FecReceiver.sinceEntry]
  cases hblock : receiver.blocks blockId with
  | none => exact accounts_new now d p
  | some block => exact h.accounts blockId block hblock

/-- The receiver after a call that has returned, by the header of its shard. -/
theorem receiveShard_state {rs : ReedSolomon} {receiver receiver' : FecReceiver}
    (h : receiver.AllWaiting) {now : Nat} {payload : Bytes} {blockId : UInt16} {i d p : UInt8}
    {originalLen : UInt16} {out : Option (List Bytes)}
    (hheader : decodeShardHeader payload = some (blockId, i, d, p, originalLen))
    (hcall : receiver.receiveShard rs now payload = .ok (receiver', out)) :
    receiver' = receiver.setBlock blockId
      ((receiver.entry now blockId d p).offer i.toNat (payload.drop shardHeaderSize)).remains := by
  rcases receiveShard_cases h hcall with ⟨hnone, -, -⟩ |
    ⟨blockId', i', d', p', originalLen', block, hheader', hoffer, hdone⟩
  · rw [hheader] at hnone
    cases hnone
  rw [hheader] at hheader'
  cases hheader'
  rw [← hoffer]
  rcases hdone with ⟨hfull, hafter, -⟩ | ⟨hshort, hafter, -⟩
  · rw [hafter, remains_eq_none_iff.mpr hfull]
  · rw [hafter, remains_of_lt hshort]

theorem ArrivalInv.receiveShard {rs : ReedSolomon} {receiver receiver' : FecReceiver}
    {arrived : UInt16 → Finset Nat} (h : ArrivalInv receiver arrived) {now : Nat} {payload : Bytes}
    {out : Option (List Bytes)}
    (hcall : receiver.receiveShard rs now payload = .ok (receiver', out)) :
    ArrivalInv receiver' (noteArrival receiver (.shard now payload) arrived) where
  waiting := h.waiting.receiveShard hcall
  accounts := by
    intro id block' hblock'
    cases hheader : decodeShardHeader payload with
    | none =>
      rw [receiveShard_of_no_header hheader] at hcall
      cases hcall
      rw [noteArrival_of_no_header hheader]
      exact h.accounts id block' hblock'
    | some header =>
      obtain ⟨blockId, i, d, p, originalLen⟩ := header
      rw [receiveShard_state h.waiting hheader hcall] at hblock'
      rw [noteArrival_eq hheader]
      rcases eq_or_ne id blockId with rfl | hne
      · -- the block of the shard, if it is still there
        rw [setBlock_self] at hblock'
        rw [Function.update_self, eq_of_remains hblock']
        exact accounts_offer (h.entry now id d p) _ _
      · rw [setBlock_of_ne receiver hne] at hblock'
        rw [Function.update_of_ne hne]
        exact h.accounts id block' hblock'

theorem ArrivalInv.expireOld {receiver : FecReceiver} {arrived : UInt16 → Finset Nat}
    (h : ArrivalInv receiver arrived) (now maxAgeMs : Nat) :
    ArrivalInv (receiver.expireOld now maxAgeMs) arrived where
  waiting := h.waiting.expireOld now maxAgeMs
  accounts := by
    intro blockId block hblock
    apply h.accounts blockId block
    exact (Option.filter_eq_some_iff.mp hblock).1

/-- One step keeps the invariant. -/
theorem ArrivalInv.step {rs : ReedSolomon} {s t : FecReceiver × (UInt16 → Finset Nat)}
    {e : ReceiverEvent} {o : Option (List Bytes)} (h : ArrivalInv s.1 s.2)
    (hstep : recordedStep rs s e = .ok (t, o)) : ArrivalInv t.1 t.2 := by
  obtain ⟨hcall, hnote⟩ := Machine.withHistory_inv hstep
  rw [hnote]
  cases e with
  | shard now payload => exact h.receiveShard hcall
  | expire now maxAgeMs =>
    simp only [receiverStep, Except.ok.injEq, Prod.mk.injEq] at hcall
    rw [← hcall.1]
    exact h.expireOld now maxAgeMs

/-- The invariant holds after every run of a new receiver. -/
theorem arrivalInv_run {rs : ReedSolomon} {es : List ReceiverEvent} {receiver : FecReceiver}
    {arrived : UInt16 → Finset Nat} {os : List (Option (List Bytes))}
    (hrun : Machine.run (recordedStep rs) (FecReceiver.new, noArrivals) es =
      .ok ((receiver, arrived), os)) : ArrivalInv receiver arrived := by
  refine Machine.run_induction (P := fun _ s _ => ArrivalInv s.1 s.2) arrivalInv_new ?_ es _ os hrun
  intro es s os e t o hs hstep
  exact hs.step hstep

/-! ## What a call does -/

/-- The effect of a call with the `i`-th shard of a block. `entry` is the block that the call finds
or makes, and `arrived` the indices brought for it before. -/
structure CallEffect (receiver : FecReceiver) (blockId : UInt16) (entry : PendingBlock)
    (arrived : Finset Nat) (i : Nat) (receiver' : FecReceiver) : Prop where
  /-- The block is gone exactly if its distinct shards in range now reach `dataShards`. -/
  removed : receiver'.blocks blockId = none ↔
    entry.dataShards ≤ (entry.inRange (insert i arrived)).card
  /-- A repeated shard and one out of range change nothing in a block that was there. -/
  ignored : ∀ block, receiver.blocks blockId = some block →
    block.dataShards + block.parityShards ≤ i ∨ i ∈ arrived →
    receiver'.blocks blockId = some block
  /-- The other entries stay as they are. -/
  others : ∀ id, id ≠ blockId → receiver'.blocks id = receiver.blocks id

/-- In a state that the record accounts for, every call that returns has that effect. -/
theorem callEffect_of_ok {rs : ReedSolomon} {receiver receiver' : FecReceiver}
    {arrived : UInt16 → Finset Nat} (h : ArrivalInv receiver arrived) {now : Nat} {payload : Bytes}
    {blockId : UInt16} {i d p : UInt8} {originalLen : UInt16} {out : Option (List Bytes)}
    (hheader : decodeShardHeader payload = some (blockId, i, d, p, originalLen))
    (hcall : receiver.receiveShard rs now payload = .ok (receiver', out)) :
    CallEffect receiver blockId (receiver.entry now blockId d p)
      (receiver.sinceEntry arrived blockId) i.toNat receiver' := by
  have hentry := h.entry now blockId d p
  rw [receiveShard_state h.waiting hheader hcall]
  constructor
  · rw [setBlock_self, remains_eq_none_iff]
    exact offer_full_iff hentry _ _
  · -- the block that was there is the one offered, and it still waits
    intro block hblock hi
    have hfound : receiver.entry now blockId d p = block := by
      rw [FecReceiver.entry, hblock]
      rfl
    rw [hfound] at hentry ⊢
    rw [setBlock_self, offer_of_ignored hentry hi]
    exact remains_of_lt (h.waiting blockId block hblock).short
  · intro id hid
    exact setBlock_of_ne receiver hid _

/-- What holds in a state of the receiver, and of every next operation in it, by its record. -/
structure Accounted (rs : ReedSolomon) (receiver : FecReceiver) (arrived : UInt16 → Finset Nat) :
    Prop where
  /-- A slot for every shard of the geometry, the filled ones counted, and some data missing. -/
  waiting : ∀ blockId block, receiver.blocks blockId = some block → block.Waiting
  /-- `received` is the number of distinct shards in range. -/
  counted : ∀ blockId block, receiver.blocks blockId = some block →
    block.received = (block.inRange (arrived blockId)).card
  headerless : ∀ now payload receiver' out, decodeShardHeader payload = none →
    receiver.receiveShard rs now payload = .ok (receiver', out) → receiver' = receiver
  call : ∀ now payload blockId i d p originalLen receiver' out,
    decodeShardHeader payload = some (blockId, i, d, p, originalLen) →
    receiver.receiveShard rs now payload = .ok (receiver', out) →
    CallEffect receiver blockId (receiver.entry now blockId d p)
      (receiver.sinceEntry arrived blockId) i.toNat receiver'
  /-- An expiry removes the blocks that are old enough, and changes no other. -/
  expired : ∀ now maxAgeMs blockId block, receiver.blocks blockId = some block →
    (receiver.expireOld now maxAgeMs).blocks blockId =
      if block.ageMs now < maxAgeMs then some block else none
  /-- An expiry adds no block. -/
  absent : ∀ now maxAgeMs blockId, receiver.blocks blockId = none →
    (receiver.expireOld now maxAgeMs).blocks blockId = none

theorem ArrivalInv.accounted {receiver : FecReceiver} {arrived : UInt16 → Finset Nat}
    (h : ArrivalInv receiver arrived) (rs : ReedSolomon) : Accounted rs receiver arrived where
  waiting := h.waiting
  counted := fun blockId block hblock => (h.accounts blockId block hblock).received
  headerless := by
    intro now payload receiver' out hheader hcall
    rw [receiveShard_of_no_header hheader] at hcall
    cases hcall
    rfl
  call := by
    intro now payload blockId i d p originalLen receiver' out hheader hcall
    exact callEffect_of_ok h hheader hcall
  expired := by
    intro now maxAgeMs blockId block hblock
    simp only [FecReceiver.expireOld, hblock, Option.filter, decide_eq_true_eq]
  absent := by
    intro now maxAgeMs blockId hblock
    simp only [FecReceiver.expireOld, hblock, Option.filter]

/-- After every run of shards and expiries whose calls return, the blocks in the map are accounted
for by the record of the run: a call removes a block exactly if it makes the distinct shards in
range reach `dataShards`, and only an expiry removes one before. -/
theorem pendingBlocks_accounted {rs : ReedSolomon} {es : List ReceiverEvent}
    {receiver : FecReceiver} {os : List (Option (List Bytes))}
    (hrun : Machine.run (receiverStep rs) FecReceiver.new es = .ok (receiver, os)) :
    ∃ arrived, Machine.run (recordedStep rs) (FecReceiver.new, noArrivals) es =
        .ok ((receiver, arrived), os) ∧ Accounted rs receiver arrived := by
  obtain ⟨arrived, hrecorded⟩ := Machine.run_withHistory hrun noArrivals
  exact ⟨arrived, hrecorded, (arrivalInv_run hrecorded).accounted rs⟩

/-- The first of two data shards of a block with one parity shard. -/
def halfBlock : Bytes := [0, 0, 0, 2, 1, 0, 0, 7]

/-- A shard that has no slot in that block. -/
def strayOfHalfBlock : Bytes := [0, 0, 3, 2, 1, 0, 0, 7]

theorem pendingBlocks_accounted_halfBlock : ∃ receiver arrived os,
    Machine.run (recordedStep smallCodec) (FecReceiver.new, noArrivals)
        [.shard 0 strayOfHalfBlock, .shard 1 halfBlock, .expire 2 1, .shard 3 halfBlock] =
      .ok ((receiver, arrived), os) ∧ Accounted smallCodec receiver arrived := by
  have hrun : ∃ receiver os, Machine.run (receiverStep smallCodec) FecReceiver.new
      [.shard 0 strayOfHalfBlock, .shard 1 halfBlock, .expire 2 1, .shard 3 halfBlock] =
      .ok (receiver, os) := ⟨_, _, rfl⟩
  obtain ⟨receiver, os, hrun⟩ := hrun
  obtain ⟨arrived, h⟩ := pendingBlocks_accounted hrun
  exact ⟨receiver, arrived, os, h⟩

/-- An expiry can remove a block that has one of the two shards it needs. -/
theorem expireOld_removes_halfBlock : ∃ receiver arrived os block,
    Machine.run (recordedStep smallCodec) (FecReceiver.new, noArrivals) [.shard 0 halfBlock] =
      .ok ((receiver, arrived), os) ∧
    receiver.blocks 0 = some block ∧
    (block.inRange (arrived 0)).card < block.dataShards ∧
    (receiver.expireOld 0 0).blocks 0 = none := by
  refine ⟨_, _, _, _, rfl, rfl, ?_, rfl⟩
  decide

end EntrouterLine.Relay
