import EntrouterLine.Relay.FecRoundTrip

/-!
# At-most-once delivery of FEC blocks

A block leaves the receiver's map when it completes, and later shards of it start a new entry. A
second completion needs `dataShards` more distinct shards, which exist exactly if there are at least
as many parity shards as data shards: `returned_at_most_once_iff`.
-/

set_option autoImplicit false

namespace EntrouterLine.Relay

open EntrouterLine.Lib

variable {rs : ReedSolomon} {config : FecConfig}

/-- Every block takes at least one payload. -/
theorem SenderInv.emitted_le {l : FecLink} {ps : List Bytes} (hinv : SenderInv rs config ps l) :
    l.emitted.length ≤ ps.length := by
  have hone : ∀ m ∈ l.emitted.map fun block => block.payloads.length, 1 ≤ m := by
    intro m hm
    obtain ⟨block, hblock, rfl⟩ := List.mem_map.mp hm
    obtain ⟨n, hn⟩ := List.mem_iff_getElem?.mp hblock
    exact List.length_pos_of_ne_nil (hinv.emittedAs n block hn).1.nonempty
  calc l.emitted.length = (l.emitted.map fun block => block.payloads.length).length :=
        (List.length_map _).symm
    _ ≤ (l.emitted.map fun block => block.payloads.length).sum :=
        List.length_le_sum_of_one_le _ hone
    _ = (l.emitted.map EmittedBlock.payloads).flatten.length := by
        rw [List.length_flatten, List.map_map]
        rfl
    _ ≤ ps.length := by
        rw [← hinv.order, List.length_append]
        exact Nat.le_add_right _ _

/-- Once as many payloads as a block has data shards are submitted, a block is out. -/
theorem SenderInv.emitted_pos {l : FecLink} {ps : List Bytes} (hinv : SenderInv rs config ps l)
    (hps : config.dataShards ≤ ps.length) : 0 < l.emitted.length := by
  rw [List.length_pos_iff]
  intro hnil
  have horder := hinv.order
  have hroom := hinv.room
  rw [hnil, List.map_nil, List.flatten_nil, List.nil_append] at horder
  rw [horder] at hroom
  exact Nat.not_lt_of_le hps hroom

/-- In a run of distinct shards, every block with fewer than twice as many shards as it needs is
returned at most once. -/
theorem returnCount_le_one (hlaw : Lawful rs config)
    (hparity : config.parityShards < config.dataShards) {es : List LinkEvent}
    (hcond : Machine.Along (linkStep rs) LinkCond (FecLink.start config) es) {l : FecLink}
    {os : List (Option (List Bytes))}
    (hrun : Machine.run (linkStep rs) (FecLink.start config) es = .ok (l, os)) {n : Nat}
    (hnodup : (arrivals n es).Nodup) : returnCount n es os ≤ 1 := by
  obtain ⟨l', os', hrun', A, -, hhistory⟩ := link_run hlaw hcond
  rw [hrun] at hrun'
  cases hrun'
  rw [← hhistory.done]
  -- a block has too few shards for two completions
  have hparts : (Finset.range config.totalShards).card < 2 * config.dataShards := by
    rw [Finset.card_range, FecConfig.totalShards]
    omega
  apply hhistory.counted.done_le_one hparts
  · rw [hhistory.arrived]
    exact hnodup
  · exact fun i hi => Finset.mem_range.mpr (hhistory.inRange n i hi)

/-! ## Two completions -/

theorem submitted_replicate (k : Nat) (payload : Bytes) :
    submitted (List.replicate k (.submit payload)) = List.replicate k payload := by
  induction k with
  | zero => rfl
  | succ k ih => exact congrArg (payload :: ·) ih

/-- Submitting one payload over and over meets the conditions as long as there are block ids. -/
theorem along_submits (hlaw : Lawful rs config) (payload : Bytes) {k : Nat} (hk : k ≤ idCount) :
    Machine.Along (linkStep rs) LinkCond (FecLink.start config)
      (List.replicate k (.submit payload)) := by
  induction k with
  | zero => trivial
  | succ k ih =>
    have hcond := ih (Nat.le_of_succ_le hk)
    obtain ⟨l, os, hrun, A, hinv, -⟩ := link_run hlaw hcond
    rw [List.replicate_succ', Machine.along_snoc hrun]
    refine ⟨hcond, fun _ => ?_⟩
    have hle := hinv.toSenderInv.emitted_le
    rw [submitted_replicate, List.length_replicate] at hle
    exact Nat.lt_of_le_of_lt hle hk

/-- Delivering emitted shards meets the conditions. -/
theorem along_deliveries {l : FecLink} {n : Nat} {is : List Nat}
    (his : ∀ i ∈ is, (l.shard? n i).isSome) :
    Machine.Along (linkStep rs) LinkCond l (is.map (LinkEvent.deliver 0 n)) := by
  induction is generalizing l with
  | nil => trivial
  | cons i is ih =>
    refine ⟨his i List.mem_cons_self, ?_⟩
    intro l' out hstep
    apply ih
    intro j hj
    rw [FecLink.shard?, emitted_deliver hstep]
    exact his j (List.mem_cons_of_mem i hj)

/-- One full block, and then as many of its shards as two completions take. -/
def doubleDelivery (config : FecConfig) : List LinkEvent :=
  List.replicate config.dataShards (.submit [0]) ++
    (List.range (2 * config.dataShards)).map (LinkEvent.deliver 0 0)

theorem arrivals_doubleDelivery (config : FecConfig) :
    arrivals 0 (doubleDelivery config) = List.range (2 * config.dataShards) := by
  have hsubmits : arrivals 0 (List.replicate config.dataShards (.submit [0])) = [] := by
    rw [arrivals, List.filterMap_eq_nil_iff]
    intro e he
    rw [(List.mem_replicate.mp he).2]
  have hdeliver : arrivals 0 ((List.range (2 * config.dataShards)).map (LinkEvent.deliver 0 0)) =
      List.range (2 * config.dataShards) := by
    rw [arrivals, List.filterMap_map]
    exact List.filterMap_some
  rw [arrivals, doubleDelivery, List.filterMap_append]
  exact (congrArg₂ (· ++ ·) hsubmits hdeliver).trans (List.nil_append _)

theorem arrivals_doubleDelivery_of_ne (config : FecConfig) {n : Nat} (hn : n ≠ 0) :
    arrivals n (doubleDelivery config) = [] := by
  rw [arrivals, List.filterMap_eq_nil_iff]
  intro e he
  rcases List.mem_append.mp he with hsubmit | hdeliver
  · rw [(List.mem_replicate.mp hsubmit).2]
  · obtain ⟨i, -, rfl⟩ := List.mem_map.mp hdeliver
    exact if_neg hn.symm

/-- With at least as many parity shards as data shards, a block is returned twice. -/
theorem doubleDelivery_returns_twice (hlaw : Lawful rs config)
    (hparity : config.dataShards ≤ config.parityShards) :
    Machine.Along (linkStep rs) LinkCond (FecLink.start config) (doubleDelivery config) ∧
      ∃ l os, Machine.run (linkStep rs) (FecLink.start config) (doubleDelivery config) =
        .ok (l, os) ∧ returnCount 0 (doubleDelivery config) os = 2 := by
  have htotal : config.dataShards + config.parityShards ≤ 256 := hlaw.accepted.2.2
  have hfew : config.dataShards ≤ idCount := by
    rw [idCount]
    omega
  have hsubmits := along_submits hlaw [0] hfew
  obtain ⟨l₁, os₁, hrun₁, A₁, hinv₁, -⟩ := link_run hlaw hsubmits
  have hps : config.dataShards ≤
      (submitted (List.replicate config.dataShards (LinkEvent.submit [0]))).length := by
    rw [submitted_replicate, List.length_replicate]
  -- block 0 is out, with all its shards
  obtain ⟨block, hblock⟩ : ∃ block, l₁.emitted[0]? = some block :=
    ⟨_, List.getElem?_eq_getElem (hinv₁.toSenderInv.emitted_pos hps)⟩
  obtain ⟨hflush, shards, hencodes, hshards⟩ := hinv₁.emittedAs 0 block hblock
  have hcount := (encodes_spec hlaw hflush hencodes).1
  have hshard : ∀ i ∈ List.range (2 * config.dataShards), (l₁.shard? 0 i).isSome := by
    intro i hi
    have hlt : i < shards.length := by
      rw [hcount, FecConfig.totalShards]
      have := List.mem_range.mp hi
      omega
    simp [FecLink.shard?, hblock, hshards, hlt]
  have hcond := hsubmits.append hrun₁ (along_deliveries hshard)
  refine ⟨hcond, ?_⟩
  obtain ⟨l, os, hrun, A, -, hhistory⟩ := link_run hlaw hcond
  refine ⟨l, os, hrun, ?_⟩
  obtain ⟨hexact, -⟩ := hhistory.exact_fresh (by
    intro e he
    rcases List.mem_append.mp he with hsubmit | hdeliver
    · rw [(List.mem_replicate.mp hsubmit).2]
      rfl
    · obtain ⟨i, -, rfl⟩ := List.mem_map.mp hdeliver
      rfl)
  have harrived : A.arrived 0 = List.range (2 * config.dataShards) := by
    rw [hhistory.arrived]
    exact arrivals_doubleDelivery config
  have hcounted := hexact.total 0 (by rw [harrived]; exact List.nodup_range)
  have hshort := hhistory.counted.short 0
  rw [harrived, List.length_range] at hcounted
  -- all `2 * dataShards` arrivals are used up or held, and less than `dataShards` are held
  have hdone : A.done 0 = 2 := by
    have hpos : 0 < config.dataShards := hlaw.accepted.1
    nlinarith
  rw [← hdone]
  exact (hhistory.done 0).symm

/-- Every run that emits no more blocks than there are ids and delivers every shard at most once, in
any order, with any losses and expiries, returns every block at most once: this holds if and only
if there are fewer parity shards than data shards. -/
theorem returned_at_most_once_iff (hlaw : Lawful rs config) :
    (∀ es l os, Machine.Along (linkStep rs) LinkCond (FecLink.start config) es →
      (∀ n, (arrivals n es).Nodup) →
        Machine.run (linkStep rs) (FecLink.start config) es = .ok (l, os) →
          ∀ n, returnCount n es os ≤ 1) ↔ config.parityShards < config.dataShards := by
  constructor
  · intro hall
    by_contra hparity
    obtain ⟨hcond, l, os, hrun, htwo⟩ :=
      doubleDelivery_returns_twice hlaw (Nat.le_of_not_lt hparity)
    have hnodup : ∀ n, (arrivals n (doubleDelivery config)).Nodup := by
      intro n
      rcases eq_or_ne n 0 with rfl | hn
      · rw [arrivals_doubleDelivery]
        exact List.nodup_range
      · rw [arrivals_doubleDelivery_of_ne config hn]
        exact List.nodup_nil
    have hone := hall _ l os hcond hnodup hrun 0
    omega
  · intro hparity es l os hcond hnodup hrun n
    exact returnCount_le_one hlaw hparity hcond hrun (hnodup n)

/-- Both shards of a block with one data shard and one parity shard arrive. -/
def bothShards : List LinkEvent := [.submit [7], .deliver 0 0 0, .deliver 0 0 1]

/-- The payload of `bothShards` is returned twice. -/
theorem bothShards_returned_twice :
    Lawful smallCodec replicaConfig ∧
      Machine.Along (linkStep smallCodec) LinkCond (FecLink.start replicaConfig) bothShards ∧
      (∀ n, (arrivals n bothShards).Nodup) ∧
      ∃ l, Machine.run (linkStep smallCodec) (FecLink.start replicaConfig) bothShards =
        .ok (l, [none, some [[7]], some [[7]]]) := by
  refine ⟨lawful_replica, ?_, ?_, _, rfl⟩
  · refine Machine.Along.cons rfl (by decide) ?_
    refine Machine.Along.cons rfl (by decide) ?_
    exact Machine.Along.cons rfl (by decide) trivial
  · intro n
    by_cases hn : 0 = n
    · subst hn
      decide
    · simp [arrivals, bothShards, hn]

/-- Two data shards and one parity shard. -/
def tripleConfig : FecConfig := ⟨2, 1⟩

theorem lawful_triple : Lawful smallCodec tripleConfig :=
  ⟨smallCodec_acceptsSpec, ⟨by decide, by decide, by decide⟩, smallCodec_recovers_two⟩

theorem returned_at_most_once_triple :
    tripleConfig.parityShards < tripleConfig.dataShards ∧
      ∀ es l os, Machine.Along (linkStep smallCodec) LinkCond (FecLink.start tripleConfig) es →
        (∀ n, (arrivals n es).Nodup) →
          Machine.run (linkStep smallCodec) (FecLink.start tripleConfig) es = .ok (l, os) →
            ∀ n, returnCount n es os ≤ 1 := by
  have hparity : tripleConfig.parityShards < tripleConfig.dataShards := by decide
  exact ⟨hparity, (returned_at_most_once_iff lawful_triple).2 hparity⟩

end EntrouterLine.Relay
