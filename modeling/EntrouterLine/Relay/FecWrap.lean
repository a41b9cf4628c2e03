import EntrouterLine.Relay.FecAtMostOnce
import EntrouterLine.Relay.ReceiverPanic

/-!
# Wrapped block ids

Block ids wrap after 65536 blocks, and the receiver's entry of an id can outlive the block it was
made for: a shard that arrives after its block has completed starts an entry of its own, and only
`expireOld` removes it. A shard of the next block with this id is then put in with the old ones, and
the block is reconstructed from shards of both (`staleEntry_mixes_blocks`).

`returned_list_is_emitted`: in every run in which each shard finds no entry, or an entry made by a
shard of its own block, every list returned is the payload list of an emitted block.
-/

set_option autoImplicit false

namespace EntrouterLine.Relay

open EntrouterLine.Lib
open EntrouterLine.Lib.LittleEndian

variable {rs : ReedSolomon} {config : FecConfig}

/-- The step submits payloads that a `u16` length can describe, and delivers emitted shards, each to
an entry that a shard of its own block has made, or to none. -/
def OwnEntry (l : FecLink) : LinkEvent → Prop
  | .submit payload => 0 < payload.length ∧ payload.length < 2 ^ 16
  | .deliver _ n i => (l.shard? n i).isSome ∧
      (l.receiver.blocks (UInt16.ofNat n) ≠ none → l.opened (UInt16.ofNat n) = n)
  | _ => True

/-- Every entry of the receiver holds shards of the block that made it, whose id is the entry's. -/
structure WrapInv (rs : ReedSolomon) (config : FecConfig) (ps : List Bytes) (l : FecLink) : Prop
    extends SenderInv rs config ps l where
  sized : ∀ payload ∈ ps, 0 < payload.length ∧ payload.length < 2 ^ 16
  waiting : l.receiver.AllWaiting
  owned : ∀ id entry, l.receiver.blocks id = some entry →
    ∃ block shards S, l.emitted[l.opened id]? = some block ∧ UInt16.ofNat (l.opened id) = id ∧
      Encodes rs config block.payloads shards ∧ Holds config shards S (some entry)

theorem wrapInv_start (hconfig : config.Accepted) :
    WrapInv rs config [] (FecLink.start config) where
  toSenderInv := senderInv_start hconfig
  sized := by
    intro payload h
    cases h
  waiting := allWaiting_new
  owned := by
    intro id entry h
    cases h

/-- The list is the payload list of an emitted block. -/
def IsEmitted (l : FecLink) (payloads : List Bytes) : Prop :=
  ∃ block ∈ l.emitted, block.payloads = payloads

/-- The `i`-th shard of block `n` is new to the entry of its id, and the last that it waits for. -/
def Completing (l : FecLink) (n i : Nat) : Prop :=
  match l.receiver.blocks (UInt16.ofNat n) with
  | none => l.sender.config.dataShards ≤ 1
  | some entry => entry.dataShards ≤ entry.received + 1 ∧ entry.Vacant i

/-- An entry that waits for shards and gets its last one does so with a new shard. -/
theorem completing_of_holds {l : FecLink} (hconfig : l.sender.config = config) {shards : List Bytes}
    {S : Finset Nat} {n i : Nat} {shard : Bytes}
    (hholds : Holds config shards S (l.receiver.blocks (UInt16.ofNat n)))
    (hi : shards[i]? = some shard) (hfull : config.dataShards ≤ (insert i S).card) :
    Completing l n i := by
  have hmem : i ∉ S := by
    intro hin
    rw [Finset.insert_eq_of_mem hin] at hfull
    exact Nat.not_le_of_lt hholds.short hfull
  rw [Finset.card_insert_of_notMem hmem] at hfull
  rw [Completing]
  rcases hholds.entry_eq with ⟨hnone, rfl⟩ | ⟨createdAt, hsome⟩
  · rw [hnone, hconfig]
    exact hfull
  · rw [hsome]
    refine ⟨hfull, ?_⟩
    show (heldShards shards S)[i]? = some none
    rw [getElem?_heldShards, hi, Option.map_some, if_neg hmem]

/-- A sender event keeps the entries and the blocks they belong to. -/
theorem WrapInv.sent {l : FecLink} {ps qs : List Bytes} (h : WrapInv rs config ps l)
    {payloads : List Bytes} {result : FecSender × Option (List (UInt8 × Bytes))}
    (hsender : SenderInv rs config (ps ++ qs) (l.sent payloads result))
    (hqs : ∀ payload ∈ qs, 0 < payload.length ∧ payload.length < 2 ^ 16) :
    WrapInv rs config (ps ++ qs) (l.sent payloads result) := by
  obtain ⟨new, hnew, -⟩ := emitted_sent l payloads result
  refine ⟨hsender, ?_, h.waiting, ?_⟩
  · intro payload hpayload
    rcases List.mem_append.mp hpayload with hold | hfresh
    · exact h.sized payload hold
    · exact hqs payload hfresh
  · intro id entry hentry
    obtain ⟨block, shards, S, hblock, hrest⟩ := h.owned id entry hentry
    refine ⟨block, shards, S, ?_, hrest⟩
    show (l.sent payloads result).emitted[l.opened id]? = some block
    rw [hnew, List.getElem?_append_left (List.getElem?_eq_some_iff.mp hblock).1]
    exact hblock

/-- An entry that its own block has made holds shards of that block. -/
theorem WrapInv.holds {l : FecLink} {ps : List Bytes} (h : WrapInv rs config ps l)
    (hlaw : Lawful rs config) {n : Nat} {block : EmittedBlock} {shards : List Bytes}
    (hblock : l.emitted[n]? = some block) (hencodes : Encodes rs config block.payloads shards)
    (hown : l.receiver.blocks (UInt16.ofNat n) ≠ none → l.opened (UInt16.ofNat n) = n) :
    ∃ S, Holds config shards S (l.receiver.blocks (UInt16.ofNat n)) := by
  cases hentry : l.receiver.blocks (UInt16.ofNat n) with
  | none => exact ⟨∅, holds_none hlaw.accepted shards⟩
  | some entry =>
    obtain ⟨block', shards', S, hblock', -, hencodes', hholds⟩ := h.owned _ entry hentry
    have hopened : l.opened (UInt16.ofNat n) = n := by
      apply hown
      rw [hentry]
      exact Option.some_ne_none entry
    rw [hopened, hblock, Option.some.injEq] at hblock'
    subst hblock'
    rw [encodes_unique hencodes hencodes'] at hholds
    exact ⟨S, hholds⟩

/-- A shard that finds its own entry, or none, leaves its own entry, or none, and if it returns
anything it completes the entry and returns the payload list of its block. -/
theorem WrapInv.deliver {l : FecLink} {ps : List Bytes} (h : WrapInv rs config ps l)
    (hlaw : Lawful rs config) (now : Nat) {n i : Nat} (hcond : OwnEntry l (.deliver now n i)) :
    ∃ l' out, linkStep rs l (.deliver now n i) = .ok (l', out) ∧ WrapInv rs config ps l' ∧
      l'.emitted = l.emitted ∧ ∀ payloads, out = some payloads → Completing l n i ∧
        ∃ block, l.emitted[n]? = some block ∧ block.payloads = payloads := by
  obtain ⟨hshard, hown⟩ := hcond
  obtain ⟨bytes, hbytes⟩ := Option.isSome_iff_exists.mp hshard
  obtain ⟨block, shards, shard, hblock, hflush, hencodes, hi, rfl⟩ :=
    h.toSenderInv.shard?_eq_some hbytes
  obtain ⟨S, hholds⟩ := h.holds hlaw hblock hencodes hown
  obtain ⟨entry, out, hreceive, hout⟩ :=
    receiveShard_held hlaw hflush hencodes h.waiting hholds hi now
  have hwaiting := h.waiting.receiveShard hreceive
  refine ⟨{ l with
    receiver := l.receiver.setBlock (UInt16.ofNat n) entry, opened := l.openedBy n }, out, ?_, ?_,
    rfl, ?_⟩
  · simp only [linkStep, hbytes, hreceive]
    rfl
  · refine ⟨⟨h.config_eq, h.room, h.blockId_eq, h.emittedAs, h.order⟩, h.sized, hwaiting, ?_⟩
    intro id entry' hentry'
    rcases eq_or_ne id (UInt16.ofNat n) with rfl | hne
    · -- the entry of the shard's id is this block's
      have hopened := openedBy_self hown
      rw [setBlock_self] at hentry'
      subst hentry'
      split at hout
      case isTrue => cases hout.1
      case isFalse =>
        refine ⟨block, shards, insert i S, ?_, ?_, hencodes, hout.2⟩
        · show l.emitted[l.openedBy n (UInt16.ofNat n)]? = some block
          rw [hopened]
          exact hblock
        · show UInt16.ofNat (l.openedBy n (UInt16.ofNat n)) = _
          rw [hopened]
    · -- the entries of other ids are as before
      rw [setBlock_of_ne _ hne] at hentry'
      show ∃ block shards S, l.emitted[l.openedBy n id]? = some block ∧
        UInt16.ofNat (l.openedBy n id) = id ∧ _
      rw [openedBy_of_ne l hne]
      exact h.owned id entry' hentry'
  · rintro payloads rfl
    split at hout
    case isTrue hfull =>
      refine ⟨completing_of_holds h.config_eq hholds hi hfull, block, hblock, ?_⟩
      rw [Option.some.injEq] at hout
      rw [hout.2, recovered_eq hlaw hflush hencodes]
      intro payload hpayload
      exact h.sized payload (h.toSenderInv.mem_submitted hblock payload hpayload)
    case isFalse => cases hout.1

/-- Expiring entries keeps the ones that stay. -/
theorem WrapInv.expire {l : FecLink} {ps : List Bytes} (h : WrapInv rs config ps l)
    (now maxAgeMs : Nat) :
    WrapInv rs config ps { l with receiver := l.receiver.expireOld now maxAgeMs } := by
  refine ⟨⟨h.config_eq, h.room, h.blockId_eq, h.emittedAs, h.order⟩, h.sized,
    h.waiting.expireOld now maxAgeMs, ?_⟩
  intro id entry hentry
  exact h.owned id entry (Option.filter_eq_some_iff.mp hentry).1

/-- One step along `OwnEntry`. -/
theorem WrapInv.step {l : FecLink} {ps : List Bytes} (h : WrapInv rs config ps l)
    (hlaw : Lawful rs config) {e : LinkEvent} (he : OwnEntry l e) :
    ∃ l' out, linkStep rs l e = .ok (l', out) ∧ WrapInv rs config (ps ++ submitted [e]) l' ∧
      l.emitted <+: l'.emitted ∧ ∀ payloads, out = some payloads → IsEmitted l payloads := by
  cases e with
  | submit payload =>
    obtain ⟨payloads, result, hstep, hsender, -⟩ :=
      h.toSenderInv.send hlaw.encodable (Or.inl ⟨payload, rfl⟩)
    refine ⟨_, none, hstep, h.sent hsender ?_, List.prefix_append _ _, fun _ hout => by cases hout⟩
    intro p hp
    rw [List.mem_singleton.mp hp]
    exact he
  | flushPartial =>
    obtain ⟨payloads, result, hstep, hsender, -⟩ := h.toSenderInv.send hlaw.encodable (Or.inr rfl)
    refine ⟨_, none, hstep, h.sent hsender ?_, List.prefix_append _ _, fun _ hout => by cases hout⟩
    intro p hp
    cases hp
  | deliver now n i =>
    obtain ⟨l', out, hstep, hinv, hemitted, hout⟩ := h.deliver hlaw now he
    refine ⟨l', out, hstep, ?_, ?_, ?_⟩
    · rw [show submitted [LinkEvent.deliver now n i] = [] from rfl, List.append_nil]
      exact hinv
    · rw [hemitted]
    · intro payloads hpayloads
      obtain ⟨-, block, hblock, heq⟩ := hout payloads hpayloads
      exact ⟨block, List.mem_of_getElem? hblock, heq⟩
  | expire now maxAgeMs =>
    refine ⟨_, none, rfl, ?_, List.prefix_refl _, fun _ hout => by cases hout⟩
    rw [show submitted [LinkEvent.expire now maxAgeMs] = [] from rfl, List.append_nil]
    exact h.expire now maxAgeMs

/-- In every run of any length, with expiry at any points, in which every shard finds no entry or
one that its own block has made: every list that the receiver returns is the payload list of an
emitted block. -/
theorem returned_list_is_emitted (hlaw : Lawful rs config) {es : List LinkEvent}
    (hcond : Machine.Along (linkStep rs) OwnEntry (FecLink.start config) es) :
    ∃ l os, Machine.run (linkStep rs) (FecLink.start config) es = .ok (l, os) ∧
      ∀ payloads, some payloads ∈ os → IsEmitted l payloads := by
  have hsafe : ∃ l os, Machine.run (linkStep rs) (FecLink.start config) es = .ok (l, os) ∧
      WrapInv rs config (submitted es) l ∧
      ∀ payloads, some payloads ∈ os → IsEmitted l payloads := by
    refine Machine.run_safe
      (P := fun es l os => WrapInv rs config (submitted es) l ∧
        ∀ payloads, some payloads ∈ os → IsEmitted l payloads)
      ⟨wrapInv_start hlaw.accepted, fun _ h => by cases h⟩ ?_ es hcond
    rintro es l os e ⟨hinv, hprev⟩ he
    obtain ⟨l', out, hstep, hinv', hstart, hout⟩ := hinv.step hlaw he
    refine ⟨l', out, hstep, ?_, ?_⟩
    · rw [submitted_snoc]
      exact hinv'
    · intro payloads hmem
      -- what was returned before stays emitted
      have hemitted : IsEmitted l payloads := by
        rcases List.mem_append.mp hmem with hold | hnew
        · exact hprev payloads hold
        · exact hout payloads (List.mem_singleton.mp hnew).symm
      obtain ⟨block, hblock, hpayloads⟩ := hemitted
      exact ⟨block, hstart.subset hblock, hpayloads⟩
  obtain ⟨l, os, hrun, -, hout⟩ := hsafe
  exact ⟨l, os, hrun, hout⟩

/-! ## A stale entry -/

/-- The second event is a shard of a block, the first one of the block 65536 blocks later. -/
def LinkEvent.isLate : LinkEvent → LinkEvent → Bool
  | .deliver _ m _, .deliver _ n _ => m = n + idCount
  | _, _ => false

/-- Two payloads of one byte, a full block of `tripleConfig`. -/
def submitPair (x : UInt8) : List LinkEvent := [.submit [x], .submit [x]]

/-- The block they are emitted in. -/
def pairBlock (id : UInt16) (x : UInt8) : EmittedBlock :=
  ⟨[[x], [x]], [[1, 0, x], [1, 0, x], parityShard [1, 0, x] [1, 0, x]].mapIdx
    (frameShard tripleConfig id)⟩

theorem dataShardsOf_pair (x : UInt8) :
    dataShardsOf tripleConfig [[x], [x]] = [[1, 0, x], [1, 0, x]] := by
  have hlengthPrefixed : lengthPrefixed [x] = [1, 0, x] := by
    have hlen : toBytes 2 (UInt16.ofNat 1).toNat = [1, 0] := by decide
    show toBytes 2 (UInt16.ofNat 1).toNat ++ [x] = _
    rw [hlen]
    rfl
  simp only [dataShardsOf, List.map_cons, List.map_nil, hlengthPrefixed]
  rfl

/-- The second payload flushes the pair. -/
theorem submit_pair (id : UInt16) (x : UInt8) :
    FecSender.submit smallCodec ⟨tripleConfig, id, [[x]], [1]⟩ [x] =
      .ok (⟨tripleConfig, id + 1, [], []⟩, some (pairBlock id x).shards) := by
  have hflush : ∀ lens, FecSender.flush smallCodec ⟨tripleConfig, id, [[x], [x]], lens⟩ =
      .ok (⟨tripleConfig, id + 1, [], []⟩, (pairBlock id x).shards) := by
    intro lens
    unfold FecSender.flush
    simp only [dataShardsOf_pair]
    rfl
  refine (submit_eq _ _).trans ((if_pos (Nat.le_refl 2)).trans ?_)
  show (FecSender.flush smallCodec ⟨tripleConfig, id, [[x], [x]], _⟩).map _ = _
  rw [hflush]
  rfl

theorem run_submitPair {l : FecLink} {id : UInt16} (h : l.sender = ⟨tripleConfig, id, [], []⟩)
    (x : UInt8) :
    Machine.run (linkStep smallCodec) l (submitPair x) =
      .ok ({ l with
        sender := ⟨tripleConfig, id + 1, [], []⟩
        emitted := l.emitted ++ [pairBlock id x] }, [none, none]) := by
  obtain ⟨sender, emitted, receiver, opened⟩ := l
  subst h
  have hfirst : linkStep smallCodec ⟨⟨tripleConfig, id, [], []⟩, emitted, receiver, opened⟩
      (.submit [x]) =
        .ok (⟨⟨tripleConfig, id, [[x]], [1]⟩, emitted ++ [], receiver, opened⟩, none) := rfl
  have hsecond : linkStep smallCodec ⟨⟨tripleConfig, id, [[x]], [1]⟩, emitted, receiver, opened⟩
      (.submit [x]) =
        .ok (⟨⟨tripleConfig, id + 1, [], []⟩, emitted ++ [pairBlock id x], receiver, opened⟩,
          none) := by
    simp only [linkStep, submit_pair]
    rfl
  rw [List.append_nil] at hfirst
  exact Machine.run_cons_ok hfirst (Machine.run_cons_ok hsecond (Machine.run_nil _))

/-- Many full blocks under consecutive ids. -/
theorem run_submitPairs {l : FecLink} {id : UInt16} (h : l.sender = ⟨tripleConfig, id, [], []⟩)
    (x : UInt8) (k : Nat) :
    ∃ os, Machine.run (linkStep smallCodec) l (List.replicate k (submitPair x)).flatten =
      .ok ({ l with
        sender := ⟨tripleConfig, id + UInt16.ofNat k, [], []⟩
        emitted := l.emitted ++
          (List.range k).map fun j => pairBlock (id + UInt16.ofNat j) x }, os) := by
  induction k with
  | zero =>
    refine ⟨[], ?_⟩
    obtain ⟨sender, emitted, receiver, opened⟩ := l
    subst h
    simp
  | succ k ih =>
    obtain ⟨os, hrun⟩ := ih
    refine ⟨os ++ [none, none], ?_⟩
    have hlast := run_submitPair (x := x) (l := { l with
      sender := ⟨tripleConfig, id + UInt16.ofNat k, [], []⟩
      emitted := l.emitted ++ (List.range k).map fun j => pairBlock (id + UInt16.ofNat j) x }) rfl
    rw [List.replicate_succ', List.flatten_append, List.flatten_singleton,
      Machine.run_append hrun hlast]
    simp only [List.range_succ, List.map_append, List.map_cons, List.map_nil, List.append_assoc,
      UInt16.ofNat_add, UInt16.add_assoc]
    rfl

/-- Delivered shards are receive calls of the receiver. -/
theorem run_deliveries {l : FecLink} {ds : List (Nat × Nat)} {payloads : List Bytes}
    (hds : ds.map (fun d => l.shard? d.1 d.2) = payloads.map some) {r : FecReceiver}
    {os : List (Option (List Bytes))}
    (hrun : Machine.run (receiverStep rs) l.receiver (payloads.map (ReceiverEvent.shard 0)) =
      .ok (r, os)) :
    ∃ l', Machine.run (linkStep rs) l (ds.map fun d => .deliver 0 d.1 d.2) = .ok (l', os) ∧
      l'.emitted = l.emitted := by
  induction ds generalizing l payloads os with
  | nil =>
    cases payloads with
    | nil =>
      cases hrun
      exact ⟨l, rfl, rfl⟩
    | cons p payloads => cases hds
  | cons d ds ih =>
    cases payloads with
    | nil => cases hds
    | cons p payloads =>
      obtain ⟨hd, hds⟩ := List.cons.inj hds
      obtain ⟨receiver, out, os', hstep, hrun', rfl⟩ := Machine.run_cons_inv hrun
      change l.receiver.receiveShard rs 0 p = .ok (receiver, out) at hstep
      have hlink : linkStep rs l (.deliver 0 d.1 d.2) =
          .ok ({ l with receiver := receiver, opened := l.openedBy d.1 }, out) := by
        simp only [linkStep, hd, hstep]
        rfl
      obtain ⟨l', hl', hemitted⟩ := ih (l := { l with
        receiver := receiver, opened := l.openedBy d.1 }) hds hrun'
      exact ⟨l', Machine.run_cons_ok hlink hl', hemitted⟩

/-- 65537 full blocks, the first with other payloads than the rest. -/
def manySubmits : List LinkEvent :=
  submitPair 7 ++ (List.replicate idCount (submitPair 1)).flatten

/-- All three shards of the first block, and then one shard of the last, which has the same id. -/
def staleDeliveries : List (Nat × Nat) := [(0, 0), (0, 1), (0, 2), (idCount, 0)]

def staleEntry : List LinkEvent :=
  manySubmits ++ staleDeliveries.map fun d => .deliver 0 d.1 d.2

theorem mem_manySubmits {e : LinkEvent} (h : e ∈ manySubmits) : ∃ payload, e = .submit payload := by
  have hpair : ∀ x, e ∈ submitPair x → ∃ payload, e = .submit payload := by
    intro x hx
    simp only [submitPair, List.mem_cons, List.not_mem_nil, or_false, or_self] at hx
    exact ⟨[x], hx⟩
  rcases List.mem_append.mp h with hfirst | hrest
  · exact hpair 7 hfirst
  · obtain ⟨es, hes, he⟩ := List.mem_flatten.mp hrest
    rw [(List.mem_replicate.mp hes).2] at he
    exact hpair 1 he

theorem nodup_arrivals_staleEntry (n : Nat) : (arrivals n staleEntry).Nodup := by
  have hsubmits : arrivals n manySubmits = [] := by
    rw [arrivals, List.filterMap_eq_nil_iff]
    intro e he
    obtain ⟨payload, rfl⟩ := mem_manySubmits he
    rfl
  have happend : arrivals n staleEntry =
      arrivals n manySubmits ++ arrivals n (staleDeliveries.map fun d => .deliver 0 d.1 d.2) :=
    List.filterMap_append ..
  rw [happend, hsubmits, List.nil_append]
  by_cases hzero : 0 = n
  · subst hzero
    decide
  · by_cases hlast : idCount = n
    · subst hlast
      decide
    · simp [arrivals, staleDeliveries, hzero, hlast]

theorem pairwise_staleEntry : staleEntry.Pairwise (fun e e' => e.isLate e' = false) := by
  rw [staleEntry, List.pairwise_append]
  refine ⟨?_, by decide, ?_⟩
  · apply List.pairwise_of_forall_mem_list
    intro e he e' _
    obtain ⟨payload, rfl⟩ := mem_manySubmits he
    rfl
  · intro e he e' _
    obtain ⟨payload, rfl⟩ := mem_manySubmits he
    rfl

/-- The blocks that `manySubmits` emits. -/
def manyBlocks : List EmittedBlock :=
  [pairBlock 0 7] ++ (List.range idCount).map fun j => pairBlock (0 + 1 + UInt16.ofNat j) 1

theorem getElem?_manyBlocks_last : manyBlocks[idCount]? = some (pairBlock 0 1) := by
  have hright : [pairBlock 0 7].length ≤ idCount := by decide
  have hin : idCount - [pairBlock 0 7].length < idCount := by decide
  have hid : (0 : UInt16) + 1 + UInt16.ofNat (idCount - [pairBlock 0 7].length) = 0 := by decide
  rw [manyBlocks, List.getElem?_append_right hright, List.getElem?_map, List.getElem?_range hin,
    Option.map_some, hid]

theorem not_isEmitted_manyBlocks {l : FecLink} (h : l.emitted = manyBlocks) :
    ¬ IsEmitted l [[1], [2]] := by
  rintro ⟨block, hblock, hpayloads⟩
  rw [h, manyBlocks, List.mem_append, List.mem_singleton, List.mem_map] at hblock
  rcases hblock with rfl | ⟨j, -, rfl⟩
  · revert hpayloads
    decide
  · change [[1], [1]] = ([[1], [2]] : List Bytes) at hpayloads
    revert hpayloads
    decide

/-- The framed bytes of a shard of `pairBlock`. -/
def pairShard (x : UInt8) (i : Nat) : Bytes :=
  (((pairBlock 0 x).shards[i]?).map Prod.snd).getD []

/-- The shards delivered. -/
def staleShards : List Bytes := [pairShard 7 0, pairShard 7 1, pairShard 7 2, pairShard 1 0]

/-- At the receiver the first block returns its payloads, its third shard starts an entry, and the
shard of the last block completes that entry. -/
theorem run_staleShards :
    ∃ r, Machine.run (receiverStep smallCodec) FecReceiver.new
      (staleShards.map (ReceiverEvent.shard 0)) =
        .ok (r, [none, some [[7], [7]], none, some [[1], [2]]]) :=
  ⟨_, rfl⟩

/-- The receiver returns a list that no emitted block has. -/
theorem staleEntry_mixes_blocks :
    Lawful smallCodec tripleConfig ∧ tripleConfig.parityShards < tripleConfig.dataShards ∧
      (∀ n, (arrivals n staleEntry).Nodup) ∧
      staleEntry.Pairwise (fun e e' => e.isLate e' = false) ∧
      ∃ l os, Machine.run (linkStep smallCodec) (FecLink.start tripleConfig) staleEntry =
        .ok (l, os) ∧ some [[1], [2]] ∈ os ∧ ¬ IsEmitted l [[1], [2]] := by
  refine ⟨lawful_triple, by decide, nodup_arrivals_staleEntry, pairwise_staleEntry, ?_⟩
  have hfirst := run_submitPair (l := FecLink.start tripleConfig) rfl 7
  obtain ⟨os, hrest⟩ := run_submitPairs (l := { FecLink.start tripleConfig with
    sender := ⟨tripleConfig, 0 + 1, [], []⟩
    emitted := [] ++ [pairBlock 0 7] }) rfl 1 idCount
  have hsubmits := Machine.run_append hfirst hrest
  -- the link's deliveries are the receiver's calls, which compute
  obtain ⟨r, hreceiver⟩ := run_staleShards
  have hshards : ∀ l : FecLink, l.emitted = manyBlocks →
      staleDeliveries.map (fun d => l.shard? d.1 d.2) = staleShards.map some := by
    intro l hl
    simp only [staleDeliveries, staleShards, List.map_cons, List.map_nil, FecLink.shard?, hl,
      getElem?_manyBlocks_last]
    rfl
  obtain ⟨l', hdeliveries, hemitted⟩ := run_deliveries (l := { FecLink.start tripleConfig with
    sender := ⟨tripleConfig, 0 + 1 + UInt16.ofNat idCount, [], []⟩
    emitted := manyBlocks }) (hshards _ rfl) hreceiver
  refine ⟨l', _, Machine.run_append hsubmits hdeliveries, ?_, not_isEmitted_manyBlocks hemitted⟩
  apply List.mem_append_right
  simp

/-- A full block of which a data shard makes an entry, which the parity shard completes. -/
def parityReturn : List LinkEvent := submitPair 7 ++ [.deliver 0 0 0, .deliver 0 0 2]

theorem returned_list_is_emitted_parityReturn :
    ∃ l os, Machine.run (linkStep smallCodec) (FecLink.start tripleConfig) parityReturn =
      .ok (l, os) ∧ some [[7], [7]] ∈ os ∧ IsEmitted l [[7], [7]] := by
  have hsubmits := run_submitPair (l := FecLink.start tripleConfig) rfl 7
  have hrun : Machine.run (linkStep smallCodec) (FecLink.start tripleConfig) parityReturn =
      .ok (_, [none, none] ++ [none, some [[7], [7]]]) := Machine.run_append hsubmits rfl
  have hcond : Machine.Along (linkStep smallCodec) OwnEntry (FecLink.start tripleConfig)
      parityReturn := by
    refine Machine.Along.append ?_ hsubmits ?_
    · refine Machine.Along.cons rfl ⟨by decide, by decide⟩ ?_
      exact ⟨⟨by decide, by decide⟩, fun _ _ _ => trivial⟩
    · -- the second shard meets the entry of the first
      refine Machine.Along.cons rfl ⟨by decide, fun h => absurd rfl h⟩ ?_
      exact Machine.Along.cons rfl ⟨by decide, fun _ => rfl⟩ trivial
  obtain ⟨l, os, hrun', hemitted⟩ := returned_list_is_emitted lawful_triple hcond
  rw [hrun, Except.ok.injEq, Prod.mk.injEq] at hrun'
  obtain ⟨rfl, rfl⟩ := hrun'
  exact ⟨_, _, hrun, by simp, hemitted _ (by simp)⟩

end EntrouterLine.Relay
