import EntrouterLine.Lib.Walk

/-!
# Dijkstra's algorithm with lazy deletion

The labels of a search from `s` are the least costs found so far, bounded by a cap that stands for
"not found", the predecessors, and a queue of costs and nodes. An entry of the queue may be stale:
the node has been found at a smaller cost since. A step takes a least entry from the queue and drops
it if it is stale (`Inv.skip`), or relaxes the edges of its node (`Inv.expand`). Ties may be broken
in any way, and an edge is relaxed by adding its cost up to the cap.

`Inv` is the invariant, over the set of the nodes that have been expanded. When an entry of `t` is
least in the queue, or the queue is empty, the cost of `t` is least among all walks from `s` to `t`
(`Inv.best_of_pops`, `Inv.best_of_empty`), and the predecessors lead back along a walk of this cost
that repeats no node (`Inv.settled`).
-/

set_option autoImplicit false

namespace EntrouterLine.Lib

universe u

variable {α : Type u}

/-- A walk that costs no more than any other walk between its ends. -/
structure Shortest (w : Weights α) (a b : α) (path : List α) : Prop where
  walk : IsWalk w a b path
  least : ∀ path', IsWalk w a b path' → pathCost w path ≤ pathCost w path'

/-- The state of a search. -/
@[ext]
structure Labels (α : Type u) where
  dist : α → ℕ
  prev : α → Option α
  queue : Set (ℕ × α)

/-- `(c, v)` is a least entry of the queue, and `rest` is the queue after it was taken. Another copy
of the entry may be left. -/
structure Labels.Pops (S : Labels α) (c : ℕ) (v : α) (rest : Set (ℕ × α)) : Prop where
  mem : (c, v) ∈ S.queue
  least : ∀ e ∈ S.queue, c ≤ e.1
  sub : ∀ e ∈ rest, e ∈ S.queue
  others : ∀ e ∈ S.queue, e ≠ (c, v) → e ∈ rest

/-- The labels `T` come from `S` by relaxing the edges of `x`, which was taken at cost `c`; `out`
are the costs of these edges. -/
structure Labels.Relaxed (out : α → Option ℕ) (c : ℕ) (x : α) (S T : Labels α) : Prop where
  dist_edge : ∀ t n, out t = some n → T.dist t = min (S.dist t) (c + n)
  dist_other : ∀ t, out t = none → T.dist t = S.dist t
  prev : ∀ t, T.prev t = if T.dist t < S.dist t then some x else S.prev t
  queue : ∀ e, e ∈ T.queue ↔ e ∈ S.queue ∨ T.dist e.2 < S.dist e.2 ∧ e.1 = T.dist e.2

/-- The nodes from `v` back to `s` along the predecessors. -/
inductive Trace (prev : α → Option α) (s : α) : α → List α → Prop where
  | start : Trace prev s s [s]
  | next {v u : α} {l : List α} : v ≠ s → prev v = some u → Trace prev s u l →
      Trace prev s v (v :: l)

/-- What the search keeps. `closed` are the nodes that have been expanded. -/
structure Labels.Inv (w : Weights α) (s : α) (c₀ cap : ℕ) (closed : Set α) (S : Labels α) :
    Prop where
  le_cap : ∀ v, S.dist v ≤ cap
  source : S.dist s = c₀
  ge_source : ∀ v, c₀ ≤ S.dist v
  stale : ∀ e ∈ S.queue, S.dist e.2 ≤ e.1
  queued : ∀ v, S.dist v < cap → v ∉ closed → (S.dist v, v) ∈ S.queue
  below : ∀ v ∈ closed, ∀ e ∈ S.queue, S.dist v ≤ e.1
  relaxed : ∀ v ∈ closed, ∀ t n, w v t = some n → S.dist t ≤ S.dist v + n
  prev_edge : ∀ v u, S.prev v = some u → u ∈ closed ∧ S.dist v < cap ∧
    ∃ n, w u v = some n ∧ S.dist v = S.dist u + n
  traced : ∀ v, S.dist v < cap →
    ∃ l, Trace S.prev s v l ∧ l.Nodup ∧ ∀ u ∈ l, u ≠ v → u ∈ closed

variable {w : Weights α} {s : α} {c₀ cap : ℕ} {closed : Set α} {S T : Labels α}

/-! ## Traces -/

/-- A trace depends on the predecessors of its own nodes only. -/
theorem Trace.congr {prev prev' : α → Option α} {v : α} {l : List α} (h : Trace prev s v l)
    (heq : ∀ u ∈ l, prev' u = prev u) : Trace prev' s v l := by
  induction h with
  | start => exact Trace.start
  | next hne hprev _ ih =>
    refine Trace.next hne ?_ (ih fun u hu => heq u (List.mem_cons_of_mem _ hu))
    rw [heq _ List.mem_cons_self, hprev]

/-- The trace of a node, backwards, is a walk to the node at the node's cost. -/
theorem Labels.Inv.walk (hinv : S.Inv w s c₀ cap closed) {v : α} {l : List α}
    (h : Trace S.prev s v l) :
    IsWalk w s v l.reverse ∧ c₀ + pathCost w l.reverse = S.dist v := by
  induction h with
  | start => exact ⟨IsWalk.refl w s, hinv.source.symm⟩
  | next _ hprev _ ih =>
    obtain ⟨hwalk, hcost⟩ := ih
    obtain ⟨-, -, n, hedge, hdist⟩ := hinv.prev_edge _ _ hprev
    obtain ⟨hwalk', hcost'⟩ := hwalk.snoc hedge
    rw [List.reverse_cons]
    refine ⟨hwalk', ?_⟩
    rw [hcost', hdist]
    omega

/-! ## Steps -/

/-- The invariant holds at the start, with the source in the queue. -/
theorem Labels.inv_start (hdist : S.dist s = c₀) (hother : ∀ v, v ≠ s → S.dist v = cap)
    (hprev : ∀ v, S.prev v = none) (hqueue : ∀ e, e ∈ S.queue ↔ e = (c₀, s)) (hc₀ : c₀ ≤ cap) :
    S.Inv w s c₀ cap ∅ := by
  -- only the source has been found
  have hsource : ∀ v, S.dist v < cap → v = s := by
    intro v hv
    by_contra hne
    rw [hother v hne] at hv
    exact Nat.lt_irrefl _ hv
  constructor
  case source => exact hdist
  case le_cap =>
    intro v
    by_cases hv : v = s
    · rw [hv, hdist]
      exact hc₀
    · rw [hother v hv]
  case ge_source =>
    intro v
    by_cases hv : v = s
    · rw [hv, hdist]
    · rw [hother v hv]
      exact hc₀
  case stale =>
    intro e he
    rw [(hqueue e).mp he, hdist]
  case queued =>
    intro v hv _
    rw [hsource v hv, hdist]
    exact (hqueue _).mpr rfl
  case below =>
    intro v hv
    exact absurd hv (Set.notMem_empty v)
  case relaxed =>
    intro v hv
    exact absurd hv (Set.notMem_empty v)
  case prev_edge =>
    intro v u hu
    rw [hprev v] at hu
    cases hu
  case traced =>
    intro v hv
    rw [hsource v hv]
    refine ⟨[s], Trace.start, List.nodup_singleton s, ?_⟩
    intro u hu hne
    exact absurd (List.mem_singleton.mp hu) hne

/-- Dropping a stale entry. -/
theorem Labels.Inv.skip (hinv : S.Inv w s c₀ cap closed) {c : ℕ} {v : α} {rest : Set (ℕ × α)}
    (hpop : S.Pops c v rest) (hstale : S.dist v < c) :
    Labels.Inv w s c₀ cap closed { S with queue := rest } where
  le_cap := hinv.le_cap
  source := hinv.source
  ge_source := hinv.ge_source
  stale := fun e he => hinv.stale e (hpop.sub e he)
  queued := by
    intro u hu hclosed
    apply hpop.others _ (hinv.queued u hu hclosed)
    -- the dropped entry has another cost
    intro heq
    rw [Prod.mk.injEq] at heq
    rw [heq.2] at heq
    exact absurd heq.1 (Nat.ne_of_lt hstale)
  below := fun u hu e he => hinv.below u hu e (hpop.sub e he)
  relaxed := hinv.relaxed
  prev_edge := hinv.prev_edge
  traced := hinv.traced

/-! ## Relaxing the edges of a node -/

section Relaxed

variable {out : α → Option ℕ} {c : ℕ} {x : α}

theorem Labels.Relaxed.le (hrel : Labels.Relaxed out c x S T) (t : α) : T.dist t ≤ S.dist t := by
  cases hw : out t with
  | none => exact Nat.le_of_eq (hrel.dist_other t hw)
  | some n =>
    rw [hrel.dist_edge t n hw]
    exact Nat.min_le_left _ _

/-- What is found at a smaller cost is found over an edge from `x`. -/
theorem Labels.Relaxed.improved (hrel : Labels.Relaxed out c x S T) {t : α}
    (ht : T.dist t < S.dist t) : ∃ n, out t = some n ∧ T.dist t = c + n := by
  cases hw : out t with
  | none =>
    rw [hrel.dist_other t hw] at ht
    exact absurd ht (Nat.lt_irrefl _)
  | some n =>
    have hdist := hrel.dist_edge t n hw
    exact ⟨n, rfl, by omega⟩

theorem Labels.Relaxed.dist_eq (hrel : Labels.Relaxed out c x S T) {t : α}
    (ht : ¬ T.dist t < S.dist t) : T.dist t = S.dist t :=
  Nat.le_antisymm (hrel.le t) (Nat.not_lt.mp ht)

theorem Labels.Relaxed.prev_eq (hrel : Labels.Relaxed out c x S T) {t : α}
    (ht : T.dist t = S.dist t) : T.prev t = S.prev t := by
  rw [hrel.prev t]
  exact if_neg (by rw [ht]; exact Nat.lt_irrefl _)

/-- The predecessor of a node that has been improved is the node that was expanded. -/
theorem Labels.Relaxed.eq_of_improved (hrel : Labels.Relaxed out c x S T) {v u : α}
    (himp : T.dist v < S.dist v) (hu : T.prev v = some u) : x = u :=
  Option.some.inj (((hrel.prev v).trans (if_pos himp)).symm.trans hu)

/-- A node that has not been improved keeps its predecessor. -/
theorem Labels.Relaxed.prev_of_not_improved (hrel : Labels.Relaxed out c x S T) {v u : α}
    (himp : ¬ T.dist v < S.dist v) (hu : T.prev v = some u) : S.prev v = some u :=
  (hrel.prev_eq (hrel.dist_eq himp)).symm.trans hu

/-- A node that costs at most `c` keeps its cost. -/
theorem Labels.Relaxed.kept (hrel : Labels.Relaxed out c x S T) {t : α} (ht : S.dist t ≤ c) :
    T.dist t = S.dist t := by
  apply hrel.dist_eq
  intro himp
  obtain ⟨n, -, hdist⟩ := hrel.improved himp
  omega

theorem Labels.Relaxed.refl (c : ℕ) (x : α) (S : Labels α) :
    Labels.Relaxed (fun _ => none) c x S S where
  dist_edge := by
    intro t n h
    cases h
  dist_other := fun _ _ => rfl
  prev := fun t => (if_neg (Nat.lt_irrefl _)).symm
  queue := by
    intro e
    simp

variable [DecidableEq α]

/-- Relaxes one edge from `x`, from its first component to its second one, at its third one's cost.
-/
noncomputable def Labels.relaxEdge (c : ℕ) (x : α) (S : Labels α) (e : α × α × ℕ) : Labels α :=
  if e.1 = x ∧ c + e.2.2 < S.dist e.2.1 then
    ⟨Function.update S.dist e.2.1 (c + e.2.2), Function.update S.prev e.2.1 (some x),
      insert (c + e.2.2, e.2.1) S.queue⟩
  else S

/-- One more edge, to a node that none of the edges so far leads to. -/
theorem Labels.Relaxed.snoc (hrel : Labels.Relaxed out c x S T) {t : α} (ht : out t = none)
    (n : ℕ) :
    Labels.Relaxed (Function.update out t (some n)) c x S (T.relaxEdge c x (x, t, n)) := by
  have hold : T.dist t = S.dist t := hrel.dist_other t ht
  by_cases hlt : c + n < T.dist t
  · -- the edge improves `t`, and a new entry is put in the queue
    rw [Labels.relaxEdge, if_pos ⟨rfl, hlt⟩]
    refine ⟨?_, ?_, ?_, ?_⟩
    · intro t' n' hout
      by_cases heq : t' = t
      · subst heq
        rw [Function.update_self, Option.some.injEq] at hout
        simp only [Function.update_self]
        omega
      · rw [Function.update_of_ne heq] at hout
        simp only [Function.update_of_ne heq]
        exact hrel.dist_edge t' n' hout
    · intro t' hout
      by_cases heq : t' = t
      · subst heq
        rw [Function.update_self] at hout
        cases hout
      · rw [Function.update_of_ne heq] at hout
        simp only [Function.update_of_ne heq]
        exact hrel.dist_other t' hout
    · intro t'
      by_cases heq : t' = t
      · subst heq
        simp only [Function.update_self]
        rw [if_pos (by omega)]
      · simp only [Function.update_of_ne heq]
        exact hrel.prev t'
    · rintro ⟨k, t'⟩
      by_cases heq : t' = t
      · subst heq
        simp only [Set.mem_insert_iff, Prod.mk.injEq, and_true, hrel.queue, Function.update_self]
        constructor
        · rintro (rfl | hmem | ⟨himp, -⟩)
          · exact Or.inr ⟨by omega, rfl⟩
          · exact Or.inl hmem
          · omega
        · rintro (hmem | ⟨-, rfl⟩)
          · exact Or.inr (Or.inl hmem)
          · exact Or.inl rfl
      · simp only [Set.mem_insert_iff, Prod.mk.injEq, heq, and_false, false_or, hrel.queue,
          Function.update_of_ne heq]
  · -- the edge is no improvement
    rw [Labels.relaxEdge, if_neg (fun h => hlt h.2)]
    refine ⟨?_, ?_, hrel.prev, hrel.queue⟩
    · intro t' n' hout
      by_cases heq : t' = t
      · subst heq
        rw [Function.update_self, Option.some.injEq] at hout
        omega
      · rw [Function.update_of_ne heq] at hout
        exact hrel.dist_edge t' n' hout
    · intro t' hout
      by_cases heq : t' = t
      · subst heq
        rw [Function.update_self] at hout
        cases hout
      · rw [Function.update_of_ne heq] at hout
        exact hrel.dist_other t' hout

/-- Relaxing one edge after the other, in any order, relaxes all edges of `x`. -/
theorem Labels.relaxed_foldl (c : ℕ) (x : α) (S : Labels α) {es : List (α × α × ℕ)}
    (hnodup : (es.map fun e => (e.1, e.2.1)).Nodup)
    (hout : ∀ t n, out t = some n ↔ (x, t, n) ∈ es) :
    Labels.Relaxed out c x S (es.foldl (Labels.relaxEdge c x) S) := by
  induction es using List.reverseRecOn generalizing out with
  | nil =>
    have hnone : out = fun _ => none := by
      funext t
      cases ht : out t with
      | none => rfl
      | some n => cases (hout t n).mp ht
    rw [hnone]
    exact Labels.Relaxed.refl c x S
  | append_singleton es e ih =>
    obtain ⟨y, t, n⟩ := e
    rw [List.map_append, List.nodup_append] at hnodup
    obtain ⟨hnodup, -, hdisjoint⟩ := hnodup
    rw [List.foldl_append, List.foldl_cons, List.foldl_nil]
    by_cases hy : y = x
    · subst hy
      -- the edges before this one lead elsewhere
      have hnew : ∀ m, (y, t, m) ∉ es := by
        intro m hmem
        exact hdisjoint (y, t) (List.mem_map_of_mem (f := fun e => (e.1, e.2.1)) hmem) (y, t)
          (by simp) rfl
      have hrest : ∀ t' m, Function.update out t none t' = some m ↔ (y, t', m) ∈ es := by
        intro t' m
        by_cases heq : t' = t
        · subst heq
          rw [Function.update_self]
          exact iff_of_false nofun (hnew m)
        · rw [Function.update_of_ne heq, hout]
          simp [heq]
      have hsnoc := (ih hnodup hrest).snoc (Function.update_self t none out) n
      have hn : out t = some n := (hout t n).mpr (by simp)
      rwa [Function.update_idem, ← hn, Function.update_eq_self] at hsnoc
    · have hsame : ∀ T : Labels α, T.relaxEdge c x (y, t, n) = T :=
        fun T => if_neg fun h => hy h.1
      rw [hsame]
      apply ih hnodup
      intro t' m
      rw [hout]
      simp [Ne.symm hy]

end Relaxed

/-! ## Expanding a node -/

/-- An entry of the node's own cost or less is not stale. -/
theorem Labels.Inv.dist_popped (hinv : S.Inv w s c₀ cap closed) {c : ℕ} {x : α}
    {rest : Set (ℕ × α)} (hpop : S.Pops c x rest) (hfresh : ¬ S.dist x < c) : S.dist x = c :=
  Nat.le_antisymm (hinv.stale _ hpop.mem) (Nat.not_lt.mp hfresh)

theorem Labels.Inv.closed_le (hinv : S.Inv w s c₀ cap closed) {c : ℕ} {x : α}
    {rest : Set (ℕ × α)} (hpop : S.Pops c x rest) (hfresh : ¬ S.dist x < c) :
    ∀ v ∈ insert x closed, S.dist v ≤ c := by
  intro v hv
  rcases Set.mem_insert_iff.mp hv with rfl | hv
  · exact Nat.le_of_eq (hinv.dist_popped hpop hfresh)
  · exact hinv.below v hv _ hpop.mem

/-- An expanded node keeps its cost. -/
theorem Labels.Inv.kept (hinv : S.Inv w s c₀ cap closed) {c : ℕ} {x : α} {rest : Set (ℕ × α)}
    (hpop : S.Pops c x rest) (hfresh : ¬ S.dist x < c)
    (hrel : Labels.Relaxed (w x) c x { S with queue := rest } T) :
    ∀ v ∈ insert x closed, T.dist v = S.dist v :=
  fun v hv => hrel.kept (hinv.closed_le hpop hfresh v hv)

/-- A node that keeps its cost keeps its trace, which runs through expanded nodes. -/
theorem Labels.Inv.trace_kept (hinv : S.Inv w s c₀ cap closed) {c : ℕ} {x : α}
    {rest : Set (ℕ × α)} (hpop : S.Pops c x rest) (hfresh : ¬ S.dist x < c)
    (hrel : Labels.Relaxed (w x) c x { S with queue := rest } T) {u : α}
    (heq : T.dist u = S.dist u) (hcap : S.dist u < cap) :
    ∃ l, Trace S.prev s u l ∧ Trace T.prev s u l ∧ l.Nodup ∧ ∀ u' ∈ l, u' ≠ u → u' ∈ closed := by
  obtain ⟨l, htrace, hnodup, hmem⟩ := hinv.traced u hcap
  refine ⟨l, htrace, htrace.congr ?_, hnodup, hmem⟩
  intro u' hu'
  apply hrel.prev_eq
  by_cases hne : u' = u
  · rw [hne, heq]
  · exact hinv.kept hpop hfresh hrel u' (Set.mem_insert_of_mem _ (hmem u' hu' hne))

/-- The traces after an expansion: a node found at a smaller cost is reached from `x`, and the trace
of any other node runs through expanded nodes and is unchanged. -/
theorem Labels.Inv.expand_traced (hinv : S.Inv w s c₀ cap closed) {c : ℕ} {x : α}
    {rest : Set (ℕ × α)} (hpop : S.Pops c x rest) (hfresh : ¬ S.dist x < c)
    (hrel : Labels.Relaxed (w x) c x { S with queue := rest } T) {v : α} (hv : T.dist v < cap) :
    ∃ l, Trace T.prev s v l ∧ l.Nodup ∧ ∀ u ∈ l, u ≠ v → u ∈ insert x closed := by
  have hx := hinv.dist_popped hpop hfresh
  by_cases himp : T.dist v < S.dist v
  · obtain ⟨n, -, hdist⟩ := hrel.improved himp
    have hcap := hinv.le_cap v
    obtain ⟨l, -, htrace, hnodup, hmem⟩ :=
      hinv.trace_kept hpop hfresh hrel (u := x) (hrel.kept (Nat.le_of_eq hx)) (by omega)
    have hall : ∀ u ∈ l, u ∈ insert x closed := by
      intro u hu
      by_cases hux : u = x
      · rw [hux]
        exact Set.mem_insert _ _
      · exact Set.mem_insert_of_mem _ (hmem u hu hux)
    refine ⟨v :: l, Trace.next ?_ ?_ htrace, ?_, ?_⟩
    · rintro rfl
      have hge := hinv.ge_source x
      have hsource := hinv.source
      omega
    · rw [hrel.prev v]
      exact if_pos himp
    · refine List.nodup_cons.mpr ⟨fun hvl => ?_, hnodup⟩
      exact absurd (hinv.kept hpop hfresh hrel v (hall v hvl)) (Nat.ne_of_lt himp)
    · intro u hu hne
      rcases List.mem_cons.mp hu with rfl | hu
      · exact absurd rfl hne
      · exact hall u hu
  · have heq := hrel.dist_eq himp
    obtain ⟨l, -, htrace, hnodup, hmem⟩ :=
      hinv.trace_kept hpop hfresh hrel heq (by rw [← heq]; exact hv)
    exact ⟨l, htrace, hnodup, fun u hu hne => Set.mem_insert_of_mem _ (hmem u hu hne)⟩

/-- The source keeps its cost. -/
theorem Labels.Inv.source_kept (hinv : S.Inv w s c₀ cap closed) {c : ℕ} {x : α}
    {rest : Set (ℕ × α)} (hpop : S.Pops c x rest) (hfresh : ¬ S.dist x < c)
    (hrel : Labels.Relaxed (w x) c x { S with queue := rest } T) : T.dist s = S.dist s := by
  apply hrel.kept
  show S.dist s ≤ c
  rw [hinv.source, ← hinv.dist_popped hpop hfresh]
  exact hinv.ge_source x

/-- Expanding the node of a least entry that is not stale. -/
theorem Labels.Inv.expand (hinv : S.Inv w s c₀ cap closed) {c : ℕ} {x : α} {rest : Set (ℕ × α)}
    (hpop : S.Pops c x rest) (hfresh : ¬ S.dist x < c)
    (hrel : Labels.Relaxed (w x) c x { S with queue := rest } T) :
    T.Inv w s c₀ cap (insert x closed) where
  le_cap := fun v => Nat.le_trans (hrel.le v) (hinv.le_cap v)
  source := by rw [hinv.source_kept hpop hfresh hrel, hinv.source]
  ge_source := by
    intro v
    by_cases himp : T.dist v < S.dist v
    · have hge := hinv.ge_source x
      have hx := hinv.dist_popped hpop hfresh
      obtain ⟨n, -, hdist⟩ := hrel.improved himp
      omega
    · exact Nat.le_trans (hinv.ge_source v) (Nat.not_lt.mp himp)
  stale := by
    intro e he
    rcases (hrel.queue e).mp he with hold | ⟨-, hcost⟩
    · exact Nat.le_trans (hrel.le e.2) (hinv.stale e (hpop.sub e hold))
    · exact Nat.le_of_eq hcost.symm
  queued := by
    intro v hv hclosed
    rw [Set.mem_insert_iff, not_or] at hclosed
    by_cases himp : T.dist v < S.dist v
    · exact (hrel.queue _).mpr (Or.inr ⟨himp, rfl⟩)
    · have heq : T.dist v = S.dist v := hrel.dist_eq himp
      rw [heq] at hv ⊢
      refine (hrel.queue _).mpr (Or.inl (hpop.others _ (hinv.queued v hv hclosed.2) ?_))
      intro hpair
      exact hclosed.1 (Prod.mk.inj hpair).2
  below := by
    intro v hv e he
    rw [hinv.kept hpop hfresh hrel v hv]
    apply Nat.le_trans (hinv.closed_le hpop hfresh v hv)
    rcases (hrel.queue e).mp he with hold | ⟨himp, hcost⟩
    · exact hpop.least e (hpop.sub e hold)
    · obtain ⟨n, -, hdist⟩ := hrel.improved himp
      omega
  relaxed := by
    intro v hv t n hw
    rw [hinv.kept hpop hfresh hrel v hv]
    rcases Set.mem_insert_iff.mp hv with rfl | hv
    · have hx := hinv.dist_popped hpop hfresh
      have hdist : T.dist t = min (S.dist t) (c + n) := hrel.dist_edge t n hw
      omega
    · exact Nat.le_trans (hrel.le t) (hinv.relaxed v hv t n hw)
  prev_edge := by
    intro v u hu
    have hkept := hinv.kept hpop hfresh hrel
    by_cases himp : T.dist v < S.dist v
    · -- `x` has improved `v`
      have hxu := hrel.eq_of_improved himp hu
      subst hxu
      obtain ⟨n, hw, hdist⟩ := hrel.improved himp
      refine ⟨Set.mem_insert _ _, Nat.lt_of_lt_of_le himp (hinv.le_cap v), n, hw, ?_⟩
      rw [hkept x (Set.mem_insert _ _), hinv.dist_popped hpop hfresh]
      exact hdist
    · obtain ⟨hclosed, hcap, n, hw, hdist⟩ :=
        hinv.prev_edge v u (hrel.prev_of_not_improved himp hu)
      have hmem : u ∈ insert x closed := Set.mem_insert_of_mem _ hclosed
      rw [show T.dist v = S.dist v from hrel.dist_eq himp, hkept u hmem]
      exact ⟨hmem, hcap, n, hw, hdist⟩
  traced := fun v hv => hinv.expand_traced hpop hfresh hrel hv

/-! ## The result of a search -/

/-- No walk to `t` costs less than what the search has found, the cost at the start included. -/
def Labels.Best (w : Weights α) (s : α) (c₀ : ℕ) (S : Labels α) (t : α) : Prop :=
  ∀ path, IsWalk w s t path → S.dist t ≤ c₀ + pathCost w path

/-- A walk to a node has been found at its cost, or an entry of the queue does not cost more. -/
theorem Labels.Inv.frontier (hinv : S.Inv w s c₀ cap closed) {t : α} {path : List α}
    (h : IsWalk w s t path) : S.dist t ≤ c₀ + pathCost w path ∨
      ∃ u, (S.dist u, u) ∈ S.queue ∧ S.dist u ≤ c₀ + pathCost w path := by
  refine h.induction (motive := fun v k => S.dist v ≤ c₀ + k ∨
    ∃ u, (S.dist u, u) ∈ S.queue ∧ S.dist u ≤ c₀ + k) ?_ ?_
  · left
    rw [hinv.source]
    exact Nat.le_add_right _ _
  · rintro v v' k n (hle | ⟨u, hmem, hle⟩) hedge
    · by_cases hcap : S.dist v < cap
      · by_cases hclosed : v ∈ closed
        · -- the edge has been relaxed
          have hrel := hinv.relaxed v hclosed v' n hedge
          exact Or.inl (by omega)
        · exact Or.inr ⟨v, hinv.queued v hcap hclosed, by omega⟩
      · have hle' := hinv.le_cap v'
        exact Or.inl (by omega)
    · exact Or.inr ⟨u, hmem, by omega⟩

/-- The search may stop as soon as an entry of `t` is least in the queue. -/
theorem Labels.Inv.best_of_pops (hinv : S.Inv w s c₀ cap closed) {c : ℕ} {t : α}
    {rest : Set (ℕ × α)} (hpop : S.Pops c t rest) : S.Best w s c₀ t := by
  intro path h
  rcases hinv.frontier h with hle | ⟨u, hmem, hle⟩
  · exact hle
  · have hstale : S.dist t ≤ c := hinv.stale _ hpop.mem
    have hleast : c ≤ S.dist u := hpop.least _ hmem
    omega

theorem Labels.Inv.best_of_empty (hinv : S.Inv w s c₀ cap closed) (hempty : ∀ e, e ∉ S.queue)
    (t : α) : S.Best w s c₀ t := by
  intro path h
  rcases hinv.frontier h with hle | ⟨u, hmem, -⟩
  · exact hle
  · exact absurd hmem (hempty _)

/-- What a search that has ended says about `t`: nothing costs less; if it has been found, the
predecessors lead back along a shortest walk that repeats no node; and if not, it has none. -/
structure Labels.Settled (w : Weights α) (s : α) (c₀ cap : ℕ) (S : Labels α) (t : α) : Prop where
  best : S.Best w s c₀ t
  trace : S.dist t < cap → ∃ l, Trace S.prev s t l ∧ l.Nodup ∧ Shortest w s t l.reverse ∧
    c₀ + pathCost w l.reverse = S.dist t
  missing : ¬ S.dist t < cap → S.prev t = none

theorem Labels.Inv.settled (hinv : S.Inv w s c₀ cap closed) {t : α} (hbest : S.Best w s c₀ t) :
    S.Settled w s c₀ cap t := by
  refine ⟨hbest, ?_, ?_⟩
  · intro ht
    obtain ⟨l, htrace, hnodup, -⟩ := hinv.traced t ht
    obtain ⟨hwalk, hcost⟩ := hinv.walk htrace
    refine ⟨l, htrace, hnodup, ⟨hwalk, ?_⟩, hcost⟩
    intro path h
    have hle := hbest path h
    omega
  · intro ht
    cases hprev : S.prev t with
    | none => rfl
    | some u => exact absurd (hinv.prev_edge t u hprev).2.1 ht

/-- A node that a walk below the cap leads to has been found. -/
theorem Labels.Settled.lt_cap {t : α} (h : S.Settled w s c₀ cap t) {path : List α}
    (hwalk : IsWalk w s t path) (hcost : c₀ + pathCost w path < cap) : S.dist t < cap :=
  Nat.lt_of_le_of_lt (h.best path hwalk) hcost

end EntrouterLine.Lib
