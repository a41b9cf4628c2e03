import EntrouterLine.Lib.Machine
import EntrouterLine.Relay.PendingBlock

/-!
# Panics of the FEC receiver

The header of a shard comes off the wire, and the first shard of a block freezes its geometry. When
the block has enough shards, `FecEncoder::new` is called with that geometry and panics if the code
rejects it. `receiveShard_ok_iff` says exactly when: in every state that a receiver can reach, a
call returns unless its shard starts a block without data shards, or is the last one needed for a
block without parity shards or with more than 256 shards.
-/

set_option autoImplicit false

namespace EntrouterLine.Relay

open EntrouterLine.Lib

inductive ReceiverEvent where
  | shard (now : Nat) (payload : Bytes)
  | expire (now maxAgeMs : Nat)

/-- The two operations of a receiver. -/
def receiverStep (rs : ReedSolomon) (receiver : FecReceiver) :
    ReceiverEvent → Except Panic (FecReceiver × Option (List Bytes))
  | .shard now payload => receiver.receiveShard rs now payload
  | .expire now maxAgeMs => .ok (receiver.expireOld now maxAgeMs, none)

/-- The receiver is reached from a new one by calls that return. -/
def FecReceiver.Reachable (rs : ReedSolomon) (receiver : FecReceiver) : Prop :=
  ∃ es os, Machine.run (receiverStep rs) FecReceiver.new es = .ok (receiver, os)

theorem FecReceiver.Reachable.allWaiting {rs : ReedSolomon} {receiver : FecReceiver}
    (h : receiver.Reachable rs) : receiver.AllWaiting := by
  obtain ⟨es, os, hrun⟩ := h
  refine Machine.run_induction (P := fun _ r _ => r.AllWaiting) allWaiting_new ?_ es receiver os
    hrun
  intro es r os e r' o hr hstep
  cases e with
  | shard now payload => exact hr.receiveShard hstep
  | expire now maxAgeMs =>
    cases hstep
    exact hr.expireOld now maxAgeMs

/-- Offering the block this shard index makes it complete with a geometry that the code rejects: it
has no data shards, or the shard is the last one needed and there are no parity shards or more than
256 shards in all. -/
def PendingBlock.Fatal (block : PendingBlock) (i : Nat) : Prop :=
  block.dataShards = 0 ∨ (block.Vacant i ∧ block.received + 1 = block.dataShards ∧
    (block.parityShards = 0 ∨ 256 < block.dataShards + block.parityShards))

instance (block : PendingBlock) (i : Nat) : Decidable (block.Fatal i) :=
  inferInstanceAs (Decidable (_ ∨ _))

/-- The payload has a shard header, and its shard is fatal to the block it belongs to. -/
def FatalShard (receiver : FecReceiver) (now : Nat) (payload : Bytes) : Prop :=
  ∃ header ∈ decodeShardHeader payload,
    (receiver.entry now header.1 header.2.2.1 header.2.2.2.1).Fatal header.2.1.toNat

/-- A shard is fatal exactly if the block that holds it is complete and rejected. -/
theorem fatal_iff {rs : ReedSolomon} (haccepts : rs.AcceptsSpec) {block : PendingBlock} {i : Nat}
    (hshort : block.received < block.dataShards ∨ block.received = 0) (shard : Bytes) :
    block.Fatal i ↔ (block.offer i shard).dataShards ≤ (block.offer i shard).received ∧
      ¬ rs.accepts (block.offer i shard).dataShards (block.offer i shard).parityShards := by
  rw [haccepts, PendingBlock.Fatal, PendingBlock.offer]
  by_cases hvacant : block.Vacant i
  · simp only [hvacant, if_true, true_and, put_dataShards, put_parityShards, put_received]
    omega
  · simp only [hvacant, if_false, false_and, or_false]
    omega

/-- In every state that a receiver can reach, a call returns unless its shard is fatal. -/
theorem receiveShard_ok_iff {rs : ReedSolomon} (haccepts : rs.AcceptsSpec) {receiver : FecReceiver}
    (hreach : receiver.Reachable rs) (now : Nat) (payload : Bytes) :
    (∃ receiver' out, receiver.receiveShard rs now payload = .ok (receiver', out)) ↔
      ¬ FatalShard receiver now payload := by
  have hwait := hreach.allWaiting
  cases hheader : decodeShardHeader payload with
  | none =>
    -- too short for a header: ignored
    simp [FecReceiver.receiveShard, FatalShard, hheader]
  | some header =>
    obtain ⟨blockId, i, d, p, originalLen⟩ := header
    have hshort : (receiver.entry now blockId d p).received <
        (receiver.entry now blockId d p).dataShards ∨
        (receiver.entry now blockId d p).received = 0 := by
      rcases hwait.entry now blockId d p with hw | hnew
      · exact Or.inl hw.short
      · rw [hnew]
        exact Or.inr rfl
    have hfatal : FatalShard receiver now payload ↔
        (receiver.entry now blockId d p).Fatal i.toNat := by
      simp [FatalShard, hheader]
    rw [hfatal, fatal_iff haccepts hshort (payload.drop shardHeaderSize),
      receiveShard_eq hwait hheader]
    have hshaped := (hwait.shaped now blockId d p).offer i.toNat (payload.drop shardHeaderSize)
    simp only
    split
    case isTrue hfull =>
      -- the block is complete: the call returns exactly if its geometry is accepted
      rw [not_and_not_right]
      have hiff := @reconstruct_ok_iff rs _ hshaped
      rw [or_iff_right (Nat.not_lt_of_le hfull)] at hiff
      constructor
      · rintro ⟨receiver', out, hok⟩ -
        apply hiff.mp
        cases hrec : PendingBlock.reconstruct rs _ with
        | error e =>
          rw [hrec] at hok
          cases hok
        | ok out' => exact ⟨out', rfl⟩
      · intro hacc
        obtain ⟨out, hout⟩ := hiff.mpr (hacc hfull)
        rw [hout]
        exact ⟨_, _, rfl⟩
    case isFalse hmore =>
      exact iff_of_true ⟨_, _, rfl⟩ fun h => hmore h.1

/-- A shard with header fields `dataShards = 0` and `parityShards = 1` and no data. -/
def emptyGeometry : Bytes := [0, 0, 0, 0, 1, 0, 0]

/-- The first shard that a receiver sees can make it panic. -/
theorem emptyGeometry_panics :
    smallCodec.AcceptsSpec ∧ FecReceiver.new.Reachable smallCodec ∧
      FecReceiver.new.receiveShard smallCodec 0 emptyGeometry = .error .invalidFecConfig :=
  ⟨smallCodec_acceptsSpec, ⟨[], [], rfl⟩, rfl⟩

/-- The only shard of a block with one data shard and one parity shard. -/
def oneShard : Bytes := [0, 0, 0, 1, 1, 0, 0, 1, 0, 7]

theorem receiveShard_ok_iff_oneShard :
    ∃ receiver' out, FecReceiver.new.receiveShard smallCodec 0 oneShard = .ok (receiver', out) := by
  refine (receiveShard_ok_iff smallCodec_acceptsSpec ⟨[], [], rfl⟩ 0 oneShard).2 ?_
  rintro ⟨header, hheader, hfatal⟩
  cases hheader
  revert hfatal
  decide

end EntrouterLine.Relay
