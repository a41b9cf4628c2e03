import EntrouterLine.Relay.FecAtMostOnce

/-!
# Stray shards

Shards that another sender has framed, such as the same one before its restart, can carry the id of
a block that waits at the receiver. The receiver compares neither their shard counts nor their
length with the block. A stray shard that finds its slot vacant fills it, and the block that it
completes is removed before its reconstruction is tried (`strayRun_loses_block`).

`strays_harmless_iff`: a run returns every block of which enough shards arrive, keeps every block
that a stray shard meets, and loses nothing to a failed reconstruction, exactly if no stray shard
finds a vacant slot.
-/

set_option autoImplicit false

namespace EntrouterLine.Relay

open EntrouterLine.Lib

variable {rs : ReedSolomon} {config : FecConfig} {l l' : FecLink} {payload : Bytes}
  {block : PendingBlock} {i d p : UInt8} {now : Nat}

/-! ## Links with stray shards -/

/-- An event of the link, or a shard from elsewhere that reaches the receiver. -/
inductive StrayEvent where
  | own (e : LinkEvent)
  | stray (now : Nat) (payload : Bytes)

def strayStep (rs : ReedSolomon) (l : FecLink) :
    StrayEvent → Except Panic (FecLink × Option (List Bytes))
  | .own e => linkStep rs l e
  | .stray now payload => do
      let (receiver, out) ← l.receiver.receiveShard rs now payload
      return ({ l with receiver := receiver }, out)

def StrayEvent.own? : StrayEvent → Option LinkEvent
  | .own e => some e
  | .stray _ _ => none

/-- The events of the link itself. -/
def ownEvents (es : List StrayEvent) : List LinkEvent := es.filterMap StrayEvent.own?

/-- The payload is a shard with index `i` and the shard counts `d` and `p`, and carries the id of
the pending block. -/
def FecLink.Finds (l : FecLink) (payload : Bytes) (block : PendingBlock) (i d p : UInt8) : Prop :=
  ∃ id originalLen, decodeShardHeader payload = some (id, i, d, p, originalLen) ∧
    l.receiver.blocks id = some block

/-- The shard disagrees with the block in a shard count, or in length with a shard that it holds. -/
def PendingBlock.Mismatches (block : PendingBlock) (d p : UInt8) (shard : Bytes) : Prop :=
  d.toNat ≠ block.dataShards ∨ p.toNat ≠ block.parityShards ∨
    ∃ held, some held ∈ block.shards ∧ held.length ≠ shard.length

/-- A step of the link as `LinkCond` has it, without expiry, or a shard that carries the id of a
pending block and disagrees with it. -/
def StrayCond (l : FecLink) : StrayEvent → Prop
  | .own e => LinkCond l e ∧ e.isExpire = false
  | .stray _ payload => ∃ block i d p, l.Finds payload block i d p ∧
      block.Mismatches d p (payload.drop shardHeaderSize)

/-- A stray shard finds its slot filled, or none. -/
def NoVacancy (l : FecLink) : StrayEvent → Prop
  | .own _ => True
  | .stray _ payload => ∀ block i d p, l.Finds payload block i d p → ¬ block.Vacant i.toNat

/-! ## What strays must not do -/

/-- A stray shard leaves the pending block as it was. -/
def KeepsPending (rs : ReedSolomon) (l : FecLink) : StrayEvent → Prop
  | .own _ => True
  | .stray now payload => ∃ l' out, strayStep rs l (.stray now payload) = .ok (l', out) ∧
      ∀ block i d p, l.Finds payload block i d p → l'.Finds payload block i d p

/-- The shard that an event hands to the receiver, and when. -/
def FecLink.receives? (l : FecLink) : StrayEvent → Option (Nat × Bytes)
  | .own (.deliver now n i) => (l.shard? n i).map fun bytes => (now, bytes)
  | .own _ => none
  | .stray now payload => some (now, payload)

/-- `receive_shard` finds the block complete with this shard, and `reconstruct` returns `Err`. -/
def FecReceiver.FailsOn (rs : ReedSolomon) (receiver : FecReceiver) (now : Nat) (payload : Bytes) :
    Prop :=
  ∃ id i d p originalLen block, decodeShardHeader payload = some (id, i, d, p, originalLen) ∧
    (receiver.entry now id d p).insert i (payload.drop shardHeaderSize) = .ok (block, true) ∧
    block.reconstruct rs = .ok none

/-- The receiver holds the `i`-th shard of the `n`-th emitted block. -/
def FecLink.HoldsShard (l : FecLink) (n i : Nat) : Prop :=
  ∃ bytes block, l.shard? n i = some bytes ∧ l.receiver.blocks (UInt16.ofNat n) = some block ∧
    block.shards[i]? = some (some (bytes.drop shardHeaderSize))

/-- A reconstruction that fails loses no shard of an emitted block. -/
def LosesNothing (rs : ReedSolomon) (l : FecLink) (e : StrayEvent) : Prop :=
  ∀ now payload, l.receives? e = some (now, payload) → l.receiver.FailsOn rs now payload →
    ∀ l' out, strayStep rs l e = .ok (l', out) → ∀ n i, l.HoldsShard n i → l'.HoldsShard n i

/-- Every block of which `dataShards` distinct shards have arrived has been returned on one of them,
if a `u16` describes the lengths of its payloads. -/
def BlocksReturned (config : FecConfig) (es : List StrayEvent) (l : FecLink)
    (os : List (Option (List Bytes))) : Prop :=
  ∀ n block, l.emitted[n]? = some block →
    (∀ payload ∈ block.payloads, 0 < payload.length ∧ payload.length < 2 ^ 16) →
    config.dataShards ≤ (arrivals n (ownEvents es)).toFinset.card →
    ∃ now i, (StrayEvent.own (.deliver now n i), some block.payloads) ∈ es.zip os

/-! ## One stray shard -/

theorem receiveShard_finds (rs : ReedSolomon) (h : l.receiver.AllWaiting)
    (hfinds : l.Finds payload block i d p)
    (hfull : ¬ block.Vacant i.toNat) (now : Nat) :
    l.receiver.receiveShard rs now payload = .ok (l.receiver, none) := by
  obtain ⟨id, originalLen, hheader, hblock⟩ := hfinds
  have hentry : l.receiver.entry now id d p = block := by
    rw [FecReceiver.entry, hblock, Option.getD_some]
  have hoffer : block.offer i.toNat (payload.drop shardHeaderSize) = block := if_neg hfull
  have hsame : l.receiver.setBlock id (some block) = l.receiver := by
    rw [FecReceiver.setBlock, ← hblock, Function.update_eq_self]
  rw [receiveShard_eq h hheader, hentry, hoffer]
  simp only [Nat.not_le_of_lt (h id block hblock).short, if_false, hsame]

/-- A stray shard that finds no vacant slot changes nothing. -/
theorem strayStep_of_noVacancy (h : l.receiver.AllWaiting)
    (hcond : StrayCond l (.stray now payload)) (hfull : NoVacancy l (.stray now payload)) :
    strayStep rs l (.stray now payload) = .ok (l, none) := by
  obtain ⟨block, i, d, p, hfinds, -⟩ := hcond
  have hreceive := receiveShard_finds rs h hfinds (hfull block i d p hfinds) now
  simp only [strayStep, hreceive]
  rfl

/-- One that finds a vacant slot changes the block: it is filled, or completed and gone. -/
theorem not_keepsPending_of_vacant (h : l.receiver.AllWaiting)
    (hfinds : l.Finds payload block i d p) (hvacant : block.Vacant i.toNat) :
    ¬ KeepsPending rs l (.stray now payload) := by
  rintro ⟨l', out, hstep, hkeeps⟩
  obtain ⟨id', originalLen', hheader', hblock'⟩ := hkeeps block i d p hfinds
  obtain ⟨id, originalLen, hheader, hblock⟩ := hfinds
  rw [hheader, Option.some.injEq, Prod.mk.injEq] at hheader'
  rw [← hheader'.1] at hblock'
  have hentry : l.receiver.entry now id d p = block := by
    rw [FecReceiver.entry, hblock, Option.getD_some]
  have hoffer : block.offer i.toNat (payload.drop shardHeaderSize) =
      block.put i.toNat (payload.drop shardHeaderSize) := if_pos hvacant
  simp only [strayStep, receiveShard_eq h hheader, hentry, hoffer] at hstep
  split at hstep
  case isTrue =>
    cases hrec : (block.put i.toNat (payload.drop shardHeaderSize)).reconstruct rs with
    | error e =>
      rw [hrec] at hstep
      cases hstep
    | ok result =>
      rw [hrec] at hstep
      cases hstep
      simp at hblock'
  case isFalse =>
    cases hstep
    rw [setBlock_self, Option.some.injEq] at hblock'
    -- one more slot is filled than before
    have hreceived := congrArg PendingBlock.received hblock'
    simp at hreceived

/-! ## Reconstructions -/

/-- A call whose reconstruction fails removes the block. -/
theorem receiveShard_of_failsOn (hfails : l.receiver.FailsOn rs now payload) :
    ∃ id i d p originalLen, decodeShardHeader payload = some (id, i, d, p, originalLen) ∧
      l.receiver.receiveShard rs now payload = .ok (l.receiver.setBlock id none, none) := by
  obtain ⟨id, i, d, p, originalLen, block, hheader, hinsert, hrec⟩ := hfails
  refine ⟨id, i, d, p, originalLen, hheader, ?_⟩
  simp only [FecReceiver.receiveShard, hheader, hinsert, bind, Except.bind, hrec, if_true]
  rfl

/-- An entry that holds shards of one emitted block only never fails. -/
theorem LinkInv.not_failsOn {ps : List Bytes} {A : Threshold.Assembly Nat Nat}
    (h : LinkInv rs config ps A l) (hlaw : Lawful rs config) {n i : Nat} {bytes : Bytes}
    (hbytes : l.shard? n i = some bytes) (now : Nat) : ¬ l.receiver.FailsOn rs now bytes := by
  intro hfails
  obtain ⟨block, shards, shard, hblock, hflush, hencodes, hi, rfl⟩ :=
    h.toSenderInv.shard?_eq_some hbytes
  obtain ⟨id, _, _, _, _, hheader, hreceive⟩ := receiveShard_of_failsOn hfails
  obtain ⟨originalLen, hframe⟩ := frameShard_bytes config (UInt16.ofNat n) i shard
  rw [hframe, decodeShardHeader_shardHeaderBytes, Option.some.injEq, Prod.mk.injEq] at hheader
  obtain ⟨entry, out, hreceive', hout⟩ := receiveShard_held hlaw hflush hencodes h.waiting
    (h.held n block shards hblock hencodes) hi now
  rw [hreceive', Except.ok.injEq, Prod.mk.injEq, ← hheader.1] at hreceive
  split at hout
  case isTrue =>
    rw [hout.2] at hreceive
    cases hreceive.2
  case isFalse =>
    -- the entry would be gone, although it holds the shard
    have hnone := congrArg (fun r => FecReceiver.blocks r (UInt16.ofNat n)) hreceive.1
    simp only [setBlock_self] at hnone
    rw [hnone] at hout
    rcases hout.2.entry_eq with ⟨-, hempty⟩ | ⟨createdAt, hsome⟩
    · exact Finset.insert_ne_empty _ _ hempty
    · cases hsome

/-- A stray shard that finds no vacant slot starts no reconstruction. -/
theorem not_failsOn_of_noVacancy (h : l.receiver.AllWaiting)
    (hcond : StrayCond l (.stray now payload)) (hfull : NoVacancy l (.stray now payload)) :
    ¬ l.receiver.FailsOn rs now payload := by
  intro hfails
  obtain ⟨block, i, d, p, hfinds, -⟩ := hcond
  have hkeeps := receiveShard_finds rs h hfinds (hfull block i d p hfinds) now
  obtain ⟨id, originalLen, hheader, hblock⟩ := hfinds
  obtain ⟨id', _, _, _, _, hheader', hreceive⟩ := receiveShard_of_failsOn hfails
  rw [hheader, Option.some.injEq, Prod.mk.injEq] at hheader'
  rw [hkeeps, Except.ok.injEq, Prod.mk.injEq, ← hheader'.1] at hreceive
  have hnone := congrArg (fun r => FecReceiver.blocks r id) hreceive.1
  simp only [setBlock_self, hblock] at hnone
  cases hnone

/-- As long as no stray shard finds a vacant slot, no reconstruction fails. -/
theorem LinkInv.losesNothing {ps : List Bytes} {A : Threshold.Assembly Nat Nat}
    (h : LinkInv rs config ps A l) (hlaw : Lawful rs config) {e : StrayEvent} (he : StrayCond l e)
    (hfull : NoVacancy l e) : LosesNothing rs l e := by
  intro now payload hreceives hfails
  cases e with
  | own e =>
    cases e with
    | deliver now' n i =>
      obtain ⟨bytes, hbytes, heq⟩ := Option.map_eq_some_iff.mp hreceives
      cases heq
      exact absurd hfails (h.not_failsOn hlaw hbytes now)
    | submit payload => cases hreceives
    | flushPartial => cases hreceives
    | expire now maxAgeMs => cases hreceives
  | stray now' payload' =>
    cases hreceives
    exact absurd hfails (not_failsOn_of_noVacancy h.waiting he hfull)

/-! ## Runs -/

theorem allWaiting_linkStep (h : l.receiver.AllWaiting) {e : LinkEvent}
    {out : Option (List Bytes)} (hstep : linkStep rs l e = .ok (l', out)) :
    l'.receiver.AllWaiting := by
  cases e with
  | submit payload =>
    obtain ⟨result, rfl, -⟩ := linkStep_send_inv (Or.inl ⟨payload, rfl⟩) hstep
    exact h
  | flushPartial =>
    obtain ⟨result, rfl, -⟩ := linkStep_send_inv (Or.inr rfl) hstep
    exact h
  | deliver now n i =>
    rcases linkStep_deliver_inv hstep with ⟨rfl, -⟩ | ⟨bytes, receiver, -, hreceive, rfl⟩
    · exact h
    · exact h.receiveShard hreceive
  | expire now maxAgeMs =>
    cases hstep
    exact h.expireOld now maxAgeMs

/-- A stray shard touches the receiver only. -/
theorem strayStep_inv {out : Option (List Bytes)}
    (hstep : strayStep rs l (.stray now payload) = .ok (l', out)) :
    ∃ receiver, l.receiver.receiveShard rs now payload = .ok (receiver, out) ∧
      l' = { l with receiver := receiver } := by
  cases hreceive : l.receiver.receiveShard rs now payload with
  | error e =>
    simp only [strayStep, hreceive] at hstep
    cases hstep
  | ok result =>
    simp only [strayStep, hreceive] at hstep
    cases hstep
    exact ⟨result.1, rfl, rfl⟩

theorem allWaiting_strayStep (h : l.receiver.AllWaiting) {e : StrayEvent}
    {out : Option (List Bytes)} (hstep : strayStep rs l e = .ok (l', out)) :
    l'.receiver.AllWaiting := by
  cases e with
  | own e => exact allWaiting_linkStep h hstep
  | stray now payload =>
    obtain ⟨receiver, hreceive, rfl⟩ := strayStep_inv hstep
    exact h.receiveShard hreceive

/-- Blocks stay emitted. -/
theorem emitted_linkStep {e : LinkEvent} {out : Option (List Bytes)}
    (hstep : linkStep rs l e = .ok (l', out)) : l.emitted <+: l'.emitted := by
  cases e with
  | submit payload =>
    rcases emitted_of_send (Or.inl ⟨payload, rfl⟩) hstep with hsame | ⟨block, hnew, -⟩
    · rw [hsame]
    · rw [hnew]
      exact List.prefix_append _ _
  | flushPartial =>
    rcases emitted_of_send (Or.inr rfl) hstep with hsame | ⟨block, hnew, -⟩
    · rw [hsame]
    · rw [hnew]
      exact List.prefix_append _ _
  | deliver now n i => rw [emitted_deliver hstep]
  | expire now maxAgeMs =>
    cases hstep
    exact List.prefix_refl _

/-- What has been returned in a run whose strays are harmless: the assembler accounts for the link's
own events, and every block that it has completed has been returned on one of its shards. -/
structure StrayInv (rs : ReedSolomon) (config : FecConfig) (es : List StrayEvent) (l : FecLink)
    (os : List (Option (List Bytes))) (A : Threshold.Assembly Nat Nat) : Prop
    extends LinkInv rs config (submitted (ownEvents es)) A l where
  length_eq : os.length = es.length
  arrived : ∀ n, A.arrived n = arrivals n (ownEvents es)
  fresh : Threshold.Fresh config.dataShards A
  returned : ∀ n, A.done n ≠ 0 → ∃ block shards now i, l.emitted[n]? = some block ∧
    Encodes rs config block.payloads shards ∧
    (StrayEvent.own (.deliver now n i), some (recovered config shards)) ∈ es.zip os

theorem strayInv_start (hconfig : config.Accepted) :
    StrayInv rs config [] (FecLink.start config) [] Threshold.empty where
  toLinkInv := linkInv_start hconfig
  length_eq := rfl
  arrived := fun _ => rfl
  fresh := Threshold.fresh_empty hconfig.1
  returned := fun _ h => absurd rfl h

theorem ownEvents_snoc_own (es : List StrayEvent) (e : LinkEvent) :
    ownEvents (es ++ [.own e]) = ownEvents es ++ [e] :=
  List.filterMap_append ..

theorem ownEvents_snoc_stray (es : List StrayEvent) (now : Nat) (payload : Bytes) :
    ownEvents (es ++ [.stray now payload]) = ownEvents es :=
  (List.filterMap_append ..).trans (List.append_nil _)

variable {es : List StrayEvent} {os : List (Option (List Bytes))} {A : Threshold.Assembly Nat Nat}

/-- What was returned before one more step stays returned. -/
theorem StrayInv.returned_snoc (h : StrayInv rs config es l os A)
    (hgrow : l.emitted <+: l'.emitted) (e : StrayEvent) (out : Option (List Bytes)) {n : Nat}
    (hdone : A.done n ≠ 0) :
    ∃ block shards now i, l'.emitted[n]? = some block ∧ Encodes rs config block.payloads shards ∧
      (StrayEvent.own (.deliver now n i), some (recovered config shards)) ∈
        (es ++ [e]).zip (os ++ [out]) := by
  obtain ⟨block, shards, now, i, hblock, hencodes, hmem⟩ := h.returned n hdone
  refine ⟨block, shards, now, i, ?_, hencodes, ?_⟩
  · obtain ⟨new, hnew⟩ := hgrow
    rw [← hnew, List.getElem?_append_left (List.getElem?_eq_some_iff.mp hblock).1]
    exact hblock
  · rw [List.zip_append h.length_eq.symm]
    exact List.mem_append_left _ hmem

/-- A stray shard that changes nothing is not in the account. -/
theorem StrayInv.stray (h : StrayInv rs config es l os A) (now : Nat) (payload : Bytes) :
    StrayInv rs config (es ++ [.stray now payload]) l (os ++ [none]) A where
  toLinkInv := by
    rw [ownEvents_snoc_stray]
    exact h.toLinkInv
  length_eq := by simp [h.length_eq]
  arrived := by
    rw [ownEvents_snoc_stray]
    exact h.arrived
  fresh := h.fresh
  returned := fun _ hdone => h.returned_snoc (List.prefix_refl _) _ _ hdone

/-- A step of the link that delivers nothing. -/
theorem StrayInv.quiet (h : StrayInv rs config es l os A) {e : LinkEvent}
    (hinv : LinkInv rs config (submitted (ownEvents (es ++ [.own e]))) A l')
    (hgrow : l.emitted <+: l'.emitted) (harrivals : ∀ n, arrivals n [e] = [])
    (out : Option (List Bytes)) :
    StrayInv rs config (es ++ [.own e]) l' (os ++ [out]) A where
  toLinkInv := hinv
  length_eq := by simp [h.length_eq]
  arrived := by
    intro n
    rw [ownEvents_snoc_own, arrivals_snoc, harrivals, List.append_nil]
    exact h.arrived n
  fresh := h.fresh
  returned := fun _ hdone => h.returned_snoc hgrow _ _ hdone

/-- A delivery arrives at the assembler, and returns the block if it completes it. -/
theorem StrayInv.deliver (h : StrayInv rs config es l os A) {now n i : Nat}
    {out : Option (List Bytes)}
    (hinv : LinkInv rs config (submitted (ownEvents (es ++ [.own (.deliver now n i)])))
      (Threshold.arrive config.dataShards A n i) l')
    (hemitted : l'.emitted = l.emitted) (hreturns : Returns rs config l A (.deliver now n i) out) :
    StrayInv rs config (es ++ [.own (.deliver now n i)]) l' (os ++ [out])
      (Threshold.arrive config.dataShards A n i) where
  toLinkInv := hinv
  length_eq := by simp [h.length_eq]
  arrived := by
    intro m
    rw [ownEvents_snoc_own, arrivals_snoc]
    rcases eq_or_ne m n with rfl | hne
    · rw [Threshold.arrived_arrive_self, h.arrived]
      simp [arrivals]
    · rw [Threshold.arrived_arrive_of_ne hne, h.arrived]
      simp [arrivals, hne.symm]
  fresh := h.fresh.arrive n i
  returned := by
    intro m hdone
    have hgrow : l.emitted <+: l'.emitted := by rw [hemitted]
    by_cases hnow : m = n ∧ Threshold.Completes config.dataShards A n i
    · -- this delivery returns the block
      obtain ⟨rfl, hfull⟩ := hnow
      obtain ⟨block, hblock, shards, hencodes, rfl⟩ := (if_pos hfull).mp hreturns
      refine ⟨block, shards, now, i, ?_, hencodes, ?_⟩
      · rw [hemitted]
        exact hblock
      · rw [List.zip_append h.length_eq.symm]
        apply List.mem_append_right
        exact List.mem_singleton_self _
    · -- the block had been returned before
      apply h.returned_snoc hgrow
      rcases eq_or_ne m n with rfl | hne
      · have hmore : ¬ Threshold.Completes config.dataShards A m i := fun hfull => hnow ⟨rfl, hfull⟩
        rwa [Threshold.done_arrive_of_not_completes hmore] at hdone
      · rwa [Threshold.done_arrive_of_ne hne] at hdone

/-- A step of the link itself. -/
theorem StrayInv.own (h : StrayInv rs config es l os A) (hlaw : Lawful rs config) {e : LinkEvent}
    (he : LinkCond l e) (hexpire : e.isExpire = false) :
    ∃ l' out A', linkStep rs l e = .ok (l', out) ∧
      StrayInv rs config (es ++ [.own e]) l' (os ++ [out]) A' := by
  obtain ⟨l', out, A', hstep, hfollows, hinv, hreturns⟩ := h.toLinkInv.step hlaw he
  have hgrow := emitted_linkStep hstep
  rw [← submitted_snoc, ← ownEvents_snoc_own] at hinv
  refine ⟨l', out, A', hstep, ?_⟩
  cases e with
  | submit payload =>
    cases hfollows
    exact h.quiet hinv hgrow (fun _ => rfl) out
  | flushPartial =>
    cases hfollows
    exact h.quiet hinv hgrow (fun _ => rfl) out
  | deliver now n i =>
    cases hfollows
    exact h.deliver hinv (emitted_deliver hstep) hreturns
  | expire now maxAgeMs => cases hexpire

/-- Every run whose stray shards find no vacant slot succeeds, with its account. -/
theorem stray_run (hlaw : Lawful rs config)
    (hcond : Machine.Along (strayStep rs) StrayCond (FecLink.start config) es)
    (hfull : Machine.Along (strayStep rs) NoVacancy (FecLink.start config) es) :
    ∃ l os, Machine.run (strayStep rs) (FecLink.start config) es = .ok (l, os) ∧
      ∃ A, StrayInv rs config es l os A := by
  refine Machine.run_safe (P := fun es l os => ∃ A, StrayInv rs config es l os A)
    ⟨Threshold.empty, strayInv_start hlaw.accepted⟩ ?_ es (hcond.and hfull)
  rintro es l os e ⟨A, hinv⟩ ⟨he, hnone⟩
  cases e with
  | own e =>
    obtain ⟨l', out, A', hstep, hinv'⟩ := hinv.own hlaw he.1 he.2
    exact ⟨l', out, hstep, A', hinv'⟩
  | stray now payload =>
    exact ⟨l, none, strayStep_of_noVacancy hinv.waiting he hnone, A, hinv.stray now payload⟩

/-- Of a block of which enough shards have arrived, the payloads have been returned. -/
theorem StrayInv.blocksReturned (h : StrayInv rs config es l os A) (hlaw : Lawful rs config) :
    BlocksReturned config es l os := by
  intro n block hblock hsized harrivals
  have hdone : A.done n ≠ 0 := by
    rw [Ne, h.fresh.done, h.arrived]
    exact Nat.not_lt_of_le harrivals
  obtain ⟨block', shards, now, i, hblock', hencodes, hmem⟩ := h.returned n hdone
  rw [hblock, Option.some.injEq] at hblock'
  subst hblock'
  rw [recovered_eq hlaw (h.emittedAs n block hblock).1 hencodes hsized] at hmem
  exact ⟨now, i, hmem⟩

/-- Along such a run every entry holds shards of one emitted block only. -/
theorem along_linkInv (hlaw : Lawful rs config)
    (hcond : Machine.Along (strayStep rs) StrayCond (FecLink.start config) es)
    (hfull : Machine.Along (strayStep rs) NoVacancy (FecLink.start config) es) :
    Machine.Along (strayStep rs)
      (fun l e => (∃ ps A, LinkInv rs config ps A l) ∧ StrayCond l e ∧ NoVacancy l e)
      (FecLink.start config) es := by
  apply (hcond.and hfull).with_invariant (I := fun l => ∃ ps A, LinkInv rs config ps A l)
  · exact ⟨[], Threshold.empty, linkInv_start hlaw.accepted⟩
  · rintro l e l' out ⟨ps, A, hinv⟩ ⟨he, hnone⟩ hstep
    cases e with
    | own e =>
      obtain ⟨l₁, out₁, A', hstep', -, hinv', -⟩ := hinv.step hlaw he.1
      change linkStep rs l e = .ok (l', out) at hstep
      rw [hstep'] at hstep
      cases hstep
      exact ⟨_, A', hinv'⟩
    | stray now payload =>
      rw [strayStep_of_noVacancy hinv.waiting he hnone] at hstep
      cases hstep
      exact ⟨ps, A, hinv⟩

/-- In a run of a link and of shards that carry the ids of pending blocks and disagree with them:
every block of which enough shards arrive is returned, no stray shard changes the block it meets,
and no failed reconstruction loses a shard, exactly if every stray shard finds its slot filled or
out of range. -/
theorem strays_harmless_iff (hlaw : Lawful rs config)
    (hcond : Machine.Along (strayStep rs) StrayCond (FecLink.start config) es) :
    (∃ l os, Machine.run (strayStep rs) (FecLink.start config) es = .ok (l, os) ∧
      BlocksReturned config es l os ∧
      Machine.Along (strayStep rs) (KeepsPending rs) (FecLink.start config) es ∧
      Machine.Along (strayStep rs) (LosesNothing rs) (FecLink.start config) es) ↔
    Machine.Along (strayStep rs) NoVacancy (FecLink.start config) es := by
  constructor
  · -- a stray shard that finds its slot empty changes the block it meets
    rintro ⟨l, os, -, -, hkeeps, -⟩
    have hwaiting := hkeeps.with_invariant (I := fun l => l.receiver.AllWaiting) allWaiting_new
      fun _ _ _ _ h _ hstep => allWaiting_strayStep h hstep
    apply hwaiting.mono
    rintro l e ⟨hwait, hkeep⟩
    cases e with
    | own e => trivial
    | stray now payload =>
      intro block i d p hfinds hvacant
      exact not_keepsPending_of_vacant hwait hfinds hvacant hkeep
  · intro hfull
    obtain ⟨l, os, hrun, A, hinv⟩ := stray_run hlaw hcond hfull
    have hall := along_linkInv hlaw hcond hfull
    refine ⟨l, os, hrun, hinv.blocksReturned hlaw, ?_, ?_⟩
    · apply hall.mono
      rintro l e ⟨⟨ps, A, hlink⟩, he, hnone⟩
      cases e with
      | own e => trivial
      | stray now payload =>
        exact ⟨l, none, strayStep_of_noVacancy hlink.waiting he hnone, fun _ _ _ _ h => h⟩
    · apply hall.mono
      rintro l e ⟨⟨ps, A, hlink⟩, he, hnone⟩
      exact hlink.losesNothing hlaw he hnone

/-! ## A block that is lost -/

/-- The code with the check that it makes before it reconstructs: the shards have one length. -/
def ReedSolomon.strict (rs : ReedSolomon) : ReedSolomon where
  accepts := rs.accepts
  encode := rs.encode
  reconstruct d p held :=
    if ∀ s ∈ held.filterMap id, ∀ t ∈ held.filterMap id, s.length = t.length then
      rs.reconstruct d p held
    else none
  length_reconstruct := by
    intro d p held full h
    split at h
    case isTrue => exact rs.length_reconstruct h
    case isFalse => cases h

/-- Shards of one block pass the check. -/
theorem recovers_strict {d p : Nat} (h : rs.Recovers d p) : rs.strict.Recovers d p where
  encode_ok := h.encode_ok
  reconstruct_ok := by
    intro shards block n held hblock hencode hlen hagrees hcount
    obtain ⟨block', hencode', hisBlock, -⟩ := h.encode_ok hblock
    change rs.encode d p shards = some block at hencode
    rw [hencode, Option.some.injEq] at hencode'
    subst hencode'
    have hlength : ∀ s ∈ held.filterMap id, s.length = n := by
      intro s hs
      obtain ⟨slot, hslot, rfl⟩ := List.mem_filterMap.mp hs
      obtain ⟨i, hi⟩ := List.mem_iff_getElem?.mp hslot
      exact hisBlock.uniform s (List.mem_of_getElem? (hagrees i s hi))
    have hcheck : ∀ s ∈ held.filterMap id, ∀ t ∈ held.filterMap id, s.length = t.length := by
      intro s hs t ht
      rw [hlength s hs, hlength t ht]
    show (if _ then _ else _) = _
    rw [if_pos hcheck]
    exact h.reconstruct_ok hblock hencode hlen hagrees hcount

theorem lawful_strict_triple : Lawful smallCodec.strict tripleConfig :=
  ⟨smallCodec_acceptsSpec, lawful_triple.accepted, recovers_strict lawful_triple.recovers⟩

/-- A shard of another block with the id 0 and the shard counts of `tripleConfig`; its payloads
are longer. -/
def longShard (i : UInt8) : Bytes := shardHeaderBytes 0 i 2 1 0 ++ [2, 0, 9, 9]

/-- A block of two payloads; its first shard, the long shard, and its second shard arrive. -/
def strayAt (i : UInt8) : List StrayEvent :=
  [.own (.submit [7]), .own (.submit [8]), .own (.deliver 0 0 0), .stray 0 (longShard i),
    .own (.deliver 0 0 1)]

/-- The long shard disagrees in length with the shard that has arrived, whatever its index. -/
theorem along_strayAt (i : UInt8) :
    Machine.Along (strayStep smallCodec.strict) StrayCond (FecLink.start tripleConfig)
      (strayAt i) := by
  refine Machine.Along.cons rfl ⟨by decide, rfl⟩ ?_
  refine Machine.Along.cons rfl ⟨by decide, rfl⟩ ?_
  refine Machine.Along.cons rfl ⟨by decide, rfl⟩ ?_
  refine ⟨⟨_, i, 2, 1, ⟨0, 0, decodeShardHeader_shardHeaderBytes 0 i 2 1 0 _, rfl⟩, ?_⟩, ?_⟩
  · -- three bytes against four
    have hdrop : (longShard i).drop shardHeaderSize = [2, 0, 9, 9] :=
      List.drop_left' (length_shardHeaderBytes _ _ _ _ _)
    rw [hdrop]
    exact Or.inr (Or.inr ⟨[1, 0, 7], by decide, by decide⟩)
  · intro l out hstep
    obtain ⟨receiver, -, rfl⟩ := strayStep_inv hstep
    exact ⟨⟨rfl, rfl⟩, fun _ _ _ => trivial⟩

/-- At the index 1 the long shard completes the block: its reconstruction fails, and the second
shard starts an entry of its own. Both data shards have arrived, and nothing is returned. -/
theorem strayRun_loses_block :
    Lawful smallCodec.strict tripleConfig ∧
      Machine.Along (strayStep smallCodec.strict) StrayCond (FecLink.start tripleConfig)
        (strayAt 1) ∧
      ∃ l, Machine.run (strayStep smallCodec.strict) (FecLink.start tripleConfig) (strayAt 1) =
          .ok (l, [none, none, none, none, none]) ∧
        ¬ BlocksReturned tripleConfig (strayAt 1) l [none, none, none, none, none] := by
  refine ⟨lawful_strict_triple, along_strayAt 1, _, rfl, ?_⟩
  intro hreturned
  obtain ⟨now, i, hmem⟩ := hreturned 0 _ rfl (by decide) (by decide)
  have hout := (List.of_mem_zip hmem).2
  simp at hout

/-- At the index 0 its slot is filled. -/
theorem noVacancy_strayAt :
    Machine.Along (strayStep smallCodec.strict) NoVacancy (FecLink.start tripleConfig)
      (strayAt 0) := by
  refine Machine.Along.cons rfl trivial ?_
  refine Machine.Along.cons rfl trivial ?_
  refine Machine.Along.cons rfl trivial ?_
  refine Machine.Along.cons rfl ?_ (Machine.Along.cons rfl trivial trivial)
  rintro block i d p ⟨id, originalLen, hheader, hblock⟩
  cases hheader
  cases hblock
  decide

theorem strays_harmless_iff_longShard :
    ∃ l os, Machine.run (strayStep smallCodec.strict) (FecLink.start tripleConfig) (strayAt 0) =
        .ok (l, os) ∧ BlocksReturned tripleConfig (strayAt 0) l os ∧
      Machine.Along (strayStep smallCodec.strict) (KeepsPending smallCodec.strict)
        (FecLink.start tripleConfig) (strayAt 0) ∧
      Machine.Along (strayStep smallCodec.strict) (LosesNothing smallCodec.strict)
        (FecLink.start tripleConfig) (strayAt 0) :=
  (strays_harmless_iff lawful_strict_triple (along_strayAt 0)).mpr noVacancy_strayAt

end EntrouterLine.Relay
