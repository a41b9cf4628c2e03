import EntrouterLine.Lib.Dijkstra

/-!
# Which shortest walk a search finds

Where there are several shortest walks to a node, the order in which the nodes are expanded decides
which one the predecessors spell. `Findable` is what can be said of the walk whatever the order is:
every node is reached from one of its nearest predecessors, and directly. The walk that a search
ends with is findable (`Labels.Inv.findable`), and each findable walk is what the search ends with
if it prefers, among the least entries, the node that comes first on the walk
(`Labels.Follows.trace`).

A search is a sequence of rounds (`Labels.Round`); `policy` may restrict which least entry a round
takes.
-/

set_option autoImplicit false

namespace EntrouterLine.Lib

universe u

variable {α : Type u}

/-- A shortest walk that repeats no node, on which no node could be reached from a nearer
predecessor or from an earlier node of the walk at the same cost. -/
structure Findable (w : Weights α) (s t : α) (path : List α) : Prop extends
    Shortest w s t path where
  nodup : path.Nodup
  nearest : ∀ l u v l', path = l ++ u :: v :: l' → ∀ x q n, IsWalk w s x q → w x v = some n →
    pathCost w q + n = pathCost w (l ++ [u, v]) → pathCost w (l ++ [u]) ≤ pathCost w q
  direct : ∀ l u v l', path = l ++ u :: v :: l' → ∀ x ∈ l, ∀ q n, IsWalk w s x q →
    w x v = some n → pathCost w (l ++ [u, v]) < pathCost w q + n

/-- One round of a search that takes the least entries that the policy allows: it drops a stale
entry or expands a node. The second component are the nodes expanded so far. -/
inductive Labels.Round (w : Weights α) (policy : Labels α → ℕ → α → Prop) :
    Labels α × Set α → Labels α × Set α → Prop where
  | skip {S : Labels α} {closed : Set α} {c : ℕ} {v : α} {rest : Set (ℕ × α)}
      (hpop : S.Pops c v rest) (hpolicy : policy S c v) (hstale : S.dist v < c) :
      Labels.Round w policy (S, closed) ({ S with queue := rest }, closed)
  | expand {S T : Labels α} {closed : Set α} {c : ℕ} {x : α} {rest : Set (ℕ × α)}
      (hpop : S.Pops c x rest) (hpolicy : policy S c x) (hfresh : ¬ S.dist x < c)
      (hrel : Labels.Relaxed (w x) c x { S with queue := rest } T) :
      Labels.Round w policy (S, closed) (T, insert x closed)

/-- The search for `t` may stop: nothing is left, or the policy takes an entry of `t`. -/
def Labels.Over (policy : Labels α → ℕ → α → Prop) (t : α) (S : Labels α) : Prop :=
  (∀ e, e ∉ S.queue) ∨ ∃ c rest, S.Pops c t rest ∧ policy S c t

/-- What holds of the predecessors because of the order in which nodes are expanded. -/
structure Labels.Orderly (w : Weights α) (s : α) (closed : Set α) (S : Labels α) : Prop where
  root : S.prev s = none
  nearest : ∀ v u, S.prev v = some u → ∀ x ∈ closed, ∀ n, w x v = some n →
    S.dist v = S.dist x + n → S.dist u ≤ S.dist x
  direct : ∀ v l, Trace S.prev s v l → ∀ x ∈ l.drop 2, ∀ n, w x v = some n →
    S.dist v < S.dist x + n

/-- The policy that prefers the nodes that come first in a list. -/
def Labels.Prefers (order : List α) [DecidableEq α] (S : Labels α) (c : ℕ) (v : α) : Prop :=
  ∀ e ∈ S.queue, e.1 = c → order.idxOf v ≤ order.idxOf e.2

/-- The search follows a path: a node on it that has been expanded is the predecessor of the next
one, which is found at its least cost not before. -/
def Labels.Follows (w : Weights α) (c₀ : ℕ) (path : List α) (closed : Set α) (S : Labels α) :
    Prop :=
  ∀ l u v l', path = l ++ u :: v :: l' →
    (u ∈ closed → S.dist v = c₀ + pathCost w (l ++ [u, v]) ∧ S.prev v = some u) ∧
    (u ∉ closed → c₀ + pathCost w (l ++ [u, v]) < S.dist v)

variable {w : Weights α} {policy : Labels α → ℕ → α → Prop} {s t : α} {c₀ cap : ℕ}
  {closed : Set α} {S T : Labels α} {path : List α}

theorem Findable.refl (w : Weights α) (s : α) : Findable w s s [s] := by
  refine ⟨⟨IsWalk.refl w s, fun _ _ => Nat.zero_le _⟩, List.nodup_singleton s, ?_, ?_⟩
  · intro l u v l' hsplit
    cases l <;> simp at hsplit
  · intro l u v l' hsplit
    cases l <;> simp at hsplit

/-- On a walk that repeats no node, only the first one is the start. -/
theorem Findable.ne_start (hp : Findable w s t path) {l l' : List α} {u v : α}
    (hsplit : path = l ++ u :: v :: l') : v ≠ s := by
  rintro rfl
  have hhead := hp.walk.head
  have hnodup := hp.nodup
  subst hsplit
  cases l with
  | nil =>
    rw [List.nil_append, List.head?_cons, Option.some.injEq] at hhead
    rw [hhead] at hnodup
    simp at hnodup
  | cons a l =>
    rw [List.cons_append, List.head?_cons, Option.some.injEq] at hhead
    rw [hhead] at hnodup
    simp at hnodup

/-- The last node of a list that repeats none is not among the earlier ones. -/
theorem notMem_of_getLast? {l m : List α} (hnodup : (l ++ m).Nodup) (hm : m ≠ [])
    (hlast : (l ++ m).getLast? = some t) : t ∉ l := by
  intro ht
  rw [List.getLast?_append_of_ne_nil _ hm] at hlast
  exact (List.nodup_append.mp hnodup).2.2 t ht t (List.mem_of_getLast? hlast) rfl

theorem Findable.eq_singleton (hp : Findable w s s path) : path = [s] := by
  obtain ⟨l, hl⟩ := List.getLast?_eq_some_iff.mp hp.walk.last
  cases l using List.reverseRecOn with
  | nil => exact hl
  | append_singleton l u =>
    have hsplit : path = l ++ u :: s :: [] := by simp [hl]
    exact absurd rfl (hp.ne_start hsplit)

/-! ## Rounds -/

theorem Labels.Inv.round {p q : Labels α × Set α} (hinv : p.1.Inv w s c₀ cap p.2)
    (h : Labels.Round w policy p q) : q.1.Inv w s c₀ cap q.2 := by
  cases h with
  | skip hpop _ hstale => exact hinv.skip hpop hstale
  | expand hpop _ hfresh hrel => exact hinv.expand hpop hfresh hrel

/-- The rule for a property that rounds preserve along with the invariant. -/
theorem Labels.Inv.rounds {I : Labels α → Set α → Prop} {p q : Labels α × Set α}
    (hround : ∀ p q : Labels α × Set α, p.1.Inv w s c₀ cap p.2 → I p.1 p.2 →
      Labels.Round w policy p q → I q.1 q.2)
    (hinv : p.1.Inv w s c₀ cap p.2) (hI : I p.1 p.2)
    (h : Relation.ReflTransGen (Labels.Round w policy) p q) :
    q.1.Inv w s c₀ cap q.2 ∧ I q.1 q.2 := by
  induction h with
  | refl => exact ⟨hinv, hI⟩
  | tail _ hlast ih => exact ⟨ih.1.round hlast, hround _ _ ih.1 ih.2 hlast⟩

/-- What is settled when the search is over. -/
theorem Labels.Inv.settled_of_over (hinv : S.Inv w s c₀ cap closed) (h : S.Over policy t) :
    S.Settled w s c₀ cap t := by
  rcases h with hempty | ⟨c, rest, hpop, -⟩
  · exact hinv.settled (hinv.best_of_empty hempty t)
  · exact hinv.settled (hinv.best_of_pops hpop)

/-- An expanded node has been found at its least cost. -/
theorem Labels.Inv.best_of_closed (hinv : S.Inv w s c₀ cap closed) (ht : t ∈ closed) :
    S.Best w s c₀ t := by
  intro path h
  rcases hinv.frontier h with hle | ⟨u, hmem, hle⟩
  · exact hle
  · exact Nat.le_trans (hinv.below t ht _ hmem) hle

/-! ## Traces -/

theorem Trace.mem {prev : α → Option α} {v : α} {l : List α} (h : Trace prev s v l) :
    ∃ l', l = v :: l' := by
  cases h with
  | start => exact ⟨[], rfl⟩
  | next => exact ⟨_, rfl⟩

theorem Trace.unique {prev : α → Option α} {v : α} {l l' : List α} (h : Trace prev s v l)
    (h' : Trace prev s v l') : l = l' := by
  induction h generalizing l' with
  | start =>
    cases h' with
    | start => rfl
    | next hne => exact absurd rfl hne
  | next hne hprev _ ih =>
    cases h' with
    | start => exact absurd rfl hne
    | next _ hprev' hrest =>
      rw [hprev, Option.some.injEq] at hprev'
      subst hprev'
      rw [ih hrest]

/-- The trace of a node on a trace. -/
theorem Trace.onward {prev : α → Option α} {v : α} {l l' m : List α} {u : α}
    (h : Trace prev s v m) (hm : m = l ++ u :: l') : Trace prev s u (u :: l') := by
  induction h generalizing l with
  | start =>
    cases l with
    | nil =>
      cases hm
      exact Trace.start
    | cons a l => simp at hm
  | next hne hprev hrest ih =>
    cases l with
    | nil =>
      cases hm
      exact Trace.next hne hprev hrest
    | cons a l =>
      rw [List.cons_append, List.cons.injEq] at hm
      exact ih hm.2

theorem Trace.prev_eq {prev : α → Option α} {v u : α} {l : List α}
    (h : Trace prev s v (v :: u :: l)) : prev v = some u := by
  cases h with
  | next _ hprev hrest =>
    obtain ⟨l', heq⟩ := hrest.mem
    cases heq
    exact hprev

/-! ## The walk that a search ends with is findable -/

theorem Labels.orderly_start (hprev : ∀ v, S.prev v = none) : S.Orderly w s ∅ := by
  refine ⟨hprev s, ?_, ?_⟩
  · intro v u hu
    rw [hprev v] at hu
    cases hu
  · intro v l htrace x hx
    cases htrace with
    | start => simp at hx
    | next _ hu =>
      rw [hprev v] at hu
      cases hu

/-- A node that is improved was not to be had at that cost from any node expanded before, and one
that is not keeps a predecessor no farther than the node expanded now. -/
theorem Labels.Orderly.nearest_expand (hord : S.Orderly w s closed)
    (hinv : S.Inv w s c₀ cap closed) {c : ℕ} {x : α} {rest : Set (ℕ × α)} (hpop : S.Pops c x rest)
    (hfresh : ¬ S.dist x < c) (hrel : Labels.Relaxed (w x) c x { S with queue := rest } T)
    {v u : α} (hu : T.prev v = some u) {x' : α} (hx' : x' ∈ insert x closed) {n : ℕ}
    (hedge : w x' v = some n) (heq : T.dist v = T.dist x' + n) : T.dist u ≤ T.dist x' := by
  have hkept := hinv.kept hpop hfresh hrel
  by_cases himp : T.dist v < S.dist v
  · have hxu := hrel.eq_of_improved himp hu
    subst hxu
    rcases Set.mem_insert_iff.mp hx' with rfl | hclosed
    · exact Nat.le_refl _
    · have hle := hinv.relaxed x' hclosed v n hedge
      rw [hkept x' hx'] at heq
      omega
  · have hdist : T.dist v = S.dist v := hrel.dist_eq himp
    have hprev := hrel.prev_of_not_improved himp hu
    have hclosed := (hinv.prev_edge v u hprev).1
    rw [hkept u (Set.mem_insert_of_mem _ hclosed), hkept x' hx']
    rcases Set.mem_insert_iff.mp hx' with rfl | hx'
    · rw [hinv.dist_popped hpop hfresh]
      exact hinv.closed_le hpop hfresh u (Set.mem_insert_of_mem _ hclosed)
    · rw [hdist, hkept x' (Set.mem_insert_of_mem _ hx')] at heq
      exact hord.nearest v u hprev x' hx' n hedge heq

/-- What comes before the predecessor on a trace has been expanded before. -/
theorem Labels.Orderly.direct_expand (hord : S.Orderly w s closed)
    (hinv : S.Inv w s c₀ cap closed) {c : ℕ} {x : α} {rest : Set (ℕ × α)} (hpop : S.Pops c x rest)
    (hfresh : ¬ S.dist x < c) (hrel : Labels.Relaxed (w x) c x { S with queue := rest } T)
    {v : α} {l : List α} (htrace : Trace T.prev s v l) {y : α} (hy : y ∈ l.drop 2) {n : ℕ}
    (hedge : w y v = some n) : T.dist v < T.dist y + n := by
  have hkept := hinv.kept hpop hfresh hrel
  cases htrace with
  | start =>
    rw [List.drop_succ_cons, List.drop_nil] at hy
    cases hy
  | @next _ u l hne hu hrest =>
    by_cases himp : T.dist v < S.dist v
    · have hxu := hrel.eq_of_improved himp hu
      subst hxu
      -- the nodes before `x` on the trace have been expanded before
      have hcap := hinv.le_cap v
      obtain ⟨n', -, hdist⟩ := hrel.improved himp
      obtain ⟨l', -, hl', hnodup, hmem⟩ :=
        hinv.trace_kept hpop hfresh hrel (hkept x (Set.mem_insert _ _))
          (by rw [hinv.dist_popped hpop hfresh]; omega)
      have heq := hrest.unique hl'
      subst heq
      obtain ⟨l'', rfl⟩ := hrest.mem
      have hyl : y ∈ l'' := hy
      have hyx : y ≠ x := fun h => (List.nodup_cons.mp hnodup).1 (h ▸ hyl)
      have hclosed := hmem y (List.mem_cons_of_mem _ hyl) hyx
      have hle := hinv.relaxed y hclosed v n hedge
      rw [hkept y (Set.mem_insert_of_mem _ hclosed)]
      exact Nat.lt_of_lt_of_le himp hle
    · -- the trace is the one before, and so are the costs on it
      have hdist : T.dist v = S.dist v := hrel.dist_eq himp
      have hcap := (hinv.prev_edge v u (hrel.prev_of_not_improved himp hu)).2.1
      obtain ⟨l', hl, hl', hnodup, hmem⟩ := hinv.trace_kept hpop hfresh hrel hdist hcap
      have heq := (Trace.next hne hu hrest).unique hl'
      subst heq
      have hyl : y ∈ l := List.mem_of_mem_drop hy
      have hyv : y ≠ v := fun h => (List.nodup_cons.mp hnodup).1 (h ▸ hyl)
      have hclosed := hmem y (List.mem_cons_of_mem _ hyl) hyv
      rw [hdist, hkept y (Set.mem_insert_of_mem _ hclosed)]
      exact hord.direct v _ hl y hy n hedge

/-- Expanding a node keeps the order of the predecessors. -/
theorem Labels.Orderly.expand (hord : S.Orderly w s closed) (hinv : S.Inv w s c₀ cap closed)
    {c : ℕ} {x : α} {rest : Set (ℕ × α)} (hpop : S.Pops c x rest) (hfresh : ¬ S.dist x < c)
    (hrel : Labels.Relaxed (w x) c x { S with queue := rest } T) :
    T.Orderly w s (insert x closed) where
  root := by
    rw [hrel.prev_eq (hinv.source_kept hpop hfresh hrel)]
    exact hord.root
  nearest := by
    intro v u hu x' hx' n hedge heq
    exact hord.nearest_expand hinv hpop hfresh hrel hu hx' hedge heq
  direct := by
    intro v l htrace y hy n hedge
    exact hord.direct_expand hinv hpop hfresh hrel htrace hy hedge

theorem Labels.Orderly.round {p q : Labels α × Set α} (hinv : p.1.Inv w s c₀ cap p.2)
    (hord : p.1.Orderly w s p.2) (h : Labels.Round w policy p q) : q.1.Orderly w s q.2 := by
  cases h with
  | skip => exact ⟨hord.root, hord.nearest, hord.direct⟩
  | expand hpop _ hfresh hrel => exact hord.expand hinv hpop hfresh hrel

/-- The predecessors of a node whose least cost is known spell a findable walk. -/
theorem Labels.Inv.findable (hinv : S.Inv w s c₀ cap closed) (hord : S.Orderly w s closed)
    (hbest : S.Best w s c₀ t) (ht : S.dist t < cap) :
    ∃ l, Trace S.prev s t l ∧ Findable w s t l.reverse ∧ c₀ + pathCost w l.reverse = S.dist t := by
  obtain ⟨l, htrace, hnodup, hmem⟩ := hinv.traced t ht
  obtain ⟨hwalk, hcost⟩ := hinv.walk htrace
  -- a step of the walk is a predecessor, and both ends cost what the search has found
  have hstep : ∀ l₁ u v l₂, l.reverse = l₁ ++ u :: v :: l₂ →
      Trace S.prev s v (v :: u :: l₁.reverse) ∧ S.prev v = some u ∧
      c₀ + pathCost w (l₁ ++ [u, v]) = S.dist v ∧ c₀ + pathCost w (l₁ ++ [u]) = S.dist u := by
    intro l₁ u v l₂ hsplit
    have hl : l = l₂.reverse ++ v :: (u :: l₁.reverse) := by
      rw [← List.reverse_reverse l, hsplit]
      simp
    have hv := htrace.onward hl
    have hu : Trace S.prev s u (u :: l₁.reverse) :=
      hv.onward (l := [v]) rfl
    refine ⟨hv, hv.prev_eq, ?_, ?_⟩
    · have h := (hinv.walk hv).2
      simpa using h
    · have h := (hinv.walk hu).2
      simpa using h
  refine ⟨l, htrace, ⟨⟨hwalk, ?_⟩, List.nodup_reverse.mpr hnodup, ?_, ?_⟩, hcost⟩
  · intro path h
    have hle := hbest path h
    omega
  · intro l₁ u v l₂ hsplit x q n hq hedge heq
    obtain ⟨-, hprev, hv, hu⟩ := hstep l₁ u v l₂ hsplit
    have hclosed := (hinv.prev_edge v u hprev).1
    by_cases hx : x ∈ closed
    · have hle := hinv.best_of_closed hx q hq
      have hrel := hinv.relaxed x hx v n hedge
      have hnear := hord.nearest v u hprev x hx n hedge (by omega)
      omega
    · -- what has not been expanded costs at least as much as what has
      rcases hinv.frontier hq with hle | ⟨y, hy, hle⟩
      · by_cases hcap : S.dist x < cap
        · have hbelow := hinv.below u hclosed _ (hinv.queued x hcap hx)
          omega
        · have hcap' := hinv.le_cap u
          omega
      · have hbelow := hinv.below u hclosed _ hy
        omega
  · intro l₁ u v l₂ hsplit x hx q n hq hedge
    obtain ⟨htr, -, hv, -⟩ := hstep l₁ u v l₂ hsplit
    have hdirect := hord.direct v _ htr x (by simpa using hx) n hedge
    have hxl : x ∈ l := by
      rw [← List.mem_reverse, hsplit]
      exact List.mem_append_left _ hx
    have hxt : x ≠ t := by
      rintro rfl
      have hlast := hwalk.last
      have hnodup' := List.nodup_reverse.mpr hnodup
      rw [hsplit] at hlast hnodup'
      exact notMem_of_getLast? hnodup' (List.cons_ne_nil _ _) hlast hx
    have hle := hinv.best_of_closed (hmem x hxl hxt) q hq
    omega

/-! ## Predecessors have no cycle -/

/-- `u` is the predecessor of `v`. -/
def Precedes (prev : α → Option α) (v u : α) : Prop := prev v = some u

/-- What the predecessors of a node lead to is on its trace. -/
theorem Trace.mem_of_precedes {prev : α → Option α} (hroot : prev s = none) {v u : α} {l : List α}
    (h : Trace prev s v l) (hu : Relation.ReflTransGen (Precedes prev) v u) : u ∈ l := by
  induction hu with
  | refl =>
    obtain ⟨l', rfl⟩ := h.mem
    exact List.mem_cons_self
  | @tail u u' _ hstep ih =>
    obtain ⟨l₁, l₂, rfl⟩ := List.append_of_mem ih
    have hprev : prev u = some u' := hstep
    cases h.onward rfl with
    | start =>
      rw [hroot] at hprev
      cases hprev
    | next _ hprev' hrest =>
      rw [hprev', Option.some.injEq] at hprev
      subst hprev
      obtain ⟨l', rfl⟩ := hrest.mem
      simp

/-- Following the predecessors never comes back to a node. -/
theorem Labels.Inv.acyclic (hinv : S.Inv w s c₀ cap closed) (hord : S.Orderly w s closed) (v : α) :
    ¬ Relation.TransGen (Precedes S.prev) v v := by
  intro hcycle
  obtain ⟨u, hstep, hback⟩ := Relation.TransGen.head'_iff.mp hcycle
  have hprev : S.prev v = some u := hstep
  obtain ⟨l, htrace, hnodup, -⟩ := hinv.traced v (hinv.prev_edge v u hprev).2.1
  cases htrace with
  | start =>
    rw [hord.root] at hprev
    cases hprev
  | next _ hprev' hrest =>
    rw [hprev', Option.some.injEq] at hprev
    subst hprev
    -- the trace would come back to its first node
    exact (List.nodup_cons.mp hnodup).1 (hrest.mem_of_precedes hord.root hback)

theorem Trace.precedes {prev : α → Option α} {v : α} {l : List α} (h : Trace prev s v l) :
    Relation.ReflTransGen (Precedes prev) v s := by
  induction h with
  | start => exact Relation.ReflTransGen.refl
  | next _ hprev _ ih => exact Relation.ReflTransGen.head hprev ih

/-! ## Every findable walk can be found -/

theorem Shortest.upTo {l l' : List α} {v : α} (h : Shortest w s t (l ++ v :: l')) :
    Shortest w s v (l ++ [v]) := by
  refine ⟨h.walk.upTo, ?_⟩
  intro q hq
  obtain ⟨hwalk, hcost⟩ := hq.join h.walk
  have hle := h.least _ hwalk
  rw [pathCost_append_cons] at hle
  omega

/-- A search does not find a node below its least cost. -/
theorem Labels.Inv.le_dist (hinv : S.Inv w s c₀ cap closed) (h : Shortest w s t path)
    (hcap : c₀ + pathCost w path < cap) : c₀ + pathCost w path ≤ S.dist t := by
  by_cases ht : S.dist t < cap
  · obtain ⟨l, htrace, -, -⟩ := hinv.traced t ht
    obtain ⟨hwalk, hcost⟩ := hinv.walk htrace
    have hle := h.least _ hwalk
    omega
  · omega

/-- The first node of a list without the property `p`. -/
theorem exists_first {p : α → Prop} {l : List α} {x : α} (hx : x ∈ l) (hp : ¬ p x) :
    ∃ l₁ y l₂, l = l₁ ++ y :: l₂ ∧ ¬ p y ∧ ∀ z ∈ l₁, p z := by
  induction l with
  | nil => cases hx
  | cons a l ih =>
    by_cases ha : p a
    · rcases List.mem_cons.mp hx with rfl | hx
      · exact absurd ha hp
      · obtain ⟨l₁, y, l₂, rfl, hy, hl₁⟩ := ih hx
        refine ⟨a :: l₁, y, l₂, rfl, hy, ?_⟩
        intro z hz
        rcases List.mem_cons.mp hz with rfl | hz
        · exact ha
        · exact hl₁ z hz
    · exact ⟨[], a, l, rfl, ha, fun z hz => nomatch hz⟩

theorem Labels.follows_start (hp : Findable w s t path) (hcap : c₀ + pathCost w path < cap)
    (hother : ∀ v, v ≠ s → S.dist v = cap) : S.Follows w c₀ path ∅ := by
  intro l u v l' hsplit
  refine ⟨fun hu => absurd hu (Set.notMem_empty u), fun _ => ?_⟩
  rw [hother v (hp.ne_start hsplit)]
  have happend : path = (l ++ [u]) ++ v :: l' := by simp [hsplit]
  rw [happend, pathCost_append_cons, List.append_assoc] at hcap
  exact Nat.lt_of_le_of_lt (Nat.add_le_add_left (Nat.le_add_right _ _) _) hcap

/-- Up to the first node on the path that has not been expanded, the costs are known. -/
theorem Labels.Follows.dist_eq (hfol : S.Follows w c₀ path closed)
    (hinv : S.Inv w s c₀ cap closed) (hp : Findable w s t path) {l l' : List α} {y : α}
    (hsplit : path = l ++ y :: l') (hl : ∀ z ∈ l, z ∈ closed) :
    S.dist y = c₀ + pathCost w (l ++ [y]) := by
  induction l using List.reverseRecOn with
  | nil =>
    have hhead := hp.walk.head
    rw [hsplit, List.nil_append, List.head?_cons, Option.some.injEq] at hhead
    rw [hhead, hinv.source]
    rfl
  | append_singleton l z _ =>
    have hz := (hfol l z y l' (by simp [hsplit])).1 (hl z (by simp))
    simpa using hz.1

/-- The first node on the path that has not been expanded waits in the queue at its least cost. -/
theorem Labels.Follows.exists_waiting (hfol : S.Follows w c₀ path closed)
    (hinv : S.Inv w s c₀ cap closed) (hp : Findable w s t path)
    (hcap : c₀ + pathCost w path < cap) {l l' : List α} {u : α}
    (hsplit : path = (l ++ [u]) ++ l') (hu : u ∉ closed) :
    ∃ l₁ y l₂, l ++ [u] = l₁ ++ y :: l₂ ∧ path = l₁ ++ y :: (l₂ ++ l') ∧
      S.dist y = c₀ + pathCost w (l₁ ++ [y]) ∧ (S.dist y, y) ∈ S.queue := by
  obtain ⟨l₁, y, l₂, hfirst, hy, hl₁⟩ :=
    exists_first (p := (· ∈ closed)) (List.mem_append_right l (List.mem_singleton_self u)) hu
  have hpath : path = l₁ ++ y :: (l₂ ++ l') := by
    rw [hsplit, hfirst]
    simp
  have hdist := hfol.dist_eq hinv hp hpath hl₁
  have hle : pathCost w (l₁ ++ [y]) ≤ pathCost w path := by
    rw [hpath, pathCost_append_cons w l₁ y (l₂ ++ l')]
    exact Nat.le_add_right _ _
  exact ⟨l₁, y, l₂, hfirst, hpath, hdist, hinv.queued y (by omega) hy⟩

/-- The nodes of a findable walk are reached at their least costs. -/
theorem Findable.shortest_upTo (hp : Findable w s t path) {l l' : List α} {u v : α}
    (hsplit : path = l ++ u :: v :: l') :
    Shortest w s u (l ++ [u]) ∧ Shortest w s v (l ++ [u, v]) := by
  have hu := hp.toShortest
  have hv := hp.toShortest
  have happend : path = (l ++ [u]) ++ v :: l' := by simp [hsplit]
  rw [hsplit] at hu
  rw [happend] at hv
  exact ⟨hu.upTo, by simpa using hv.upTo⟩

/-- The last step of a walk. -/
theorem Shortest.last_step {l : List α} {u v : α} (h : Shortest w s v (l ++ [u, v])) :
    ∃ n, w u v = some n ∧ pathCost w (l ++ [u, v]) = pathCost w (l ++ [u]) + n := by
  obtain ⟨n, hedge⟩ := Option.isSome_iff_exists.mp (h.walk.edges (u, v) (by
    rw [steps_append_cons]
    simp))
  refine ⟨n, hedge, ?_⟩
  rw [pathCost_append_cons, pathCost_cons_cons, hedge, pathCost_singleton]
  rfl

/-- What an expanded node improves is found at the cost of a walk over it, not below the least. -/
theorem Labels.Inv.improved_walk (hinv : S.Inv w s c₀ cap closed) {c : ℕ} {x v : α}
    {rest : Set (ℕ × α)} (hx : S.dist x = c)
    (hrel : Labels.Relaxed (w x) c x { S with queue := rest } T) (hshort : Shortest w s v path)
    (himp : T.dist v < S.dist v) :
    ∃ q n, IsWalk w s x q ∧ w x v = some n ∧ c₀ + pathCost w q = c ∧ T.dist v = c + n ∧
      pathCost w path ≤ pathCost w q + n := by
  obtain ⟨n, hedge, hdist⟩ := hrel.improved himp
  have hle := hinv.le_cap v
  obtain ⟨l, htrace, -, -⟩ := hinv.traced x (by omega)
  obtain ⟨hwalk, hcost⟩ := hinv.walk htrace
  obtain ⟨hwalk', hcost'⟩ := hwalk.snoc hedge
  have hleast := hshort.least _ hwalk'
  rw [hcost'] at hleast
  exact ⟨l.reverse, n, hwalk, hedge, hcost.trans hx, hdist, hleast⟩

section Order

variable [DecidableEq α]

/-- What does not come after a node of a list is that node or comes before it. -/
theorem mem_of_idxOf_le {l l' : List α} {x y : α}
    (h : (l ++ y :: l').idxOf x ≤ (l ++ y :: l').idxOf y) : x ∈ l ++ [y] := by
  have hy : (l ++ y :: l').idxOf y ≤ l.length := by
    rw [List.idxOf_append]
    split
    case isTrue hmem => exact Nat.le_of_lt (List.idxOf_lt_length_iff.mpr hmem)
    case isFalse => simp
  have hlt : (l ++ y :: l').idxOf x < (l ++ [y]).length := by
    rw [List.length_append, List.length_singleton]
    omega
  have hsplit : l ++ y :: l' = (l ++ [y]) ++ l' := by simp
  rw [hsplit, List.idxOf_append] at hlt
  split at hlt
  case isTrue hmem => exact hmem
  case isFalse => omega

/-- While a node of the path waits, what is expanded at its least cost or above does not come after
it: the first node of the path that waits would have been taken before. -/
theorem Labels.Follows.mem_of_pops (hfol : S.Follows w c₀ path closed)
    (hinv : S.Inv w s c₀ cap closed) (hp : Findable w s t path)
    (hcap : c₀ + pathCost w path < cap) {c : ℕ} {x u : α} {rest : Set (ℕ × α)} {l l' : List α}
    (hpop : S.Pops c x rest) (hprefers : S.Prefers path c x) (hsplit : path = l ++ u :: l')
    (hu : u ∉ closed) (hle : c₀ + pathCost w (l ++ [u]) ≤ c) : x ∈ l ++ [u] := by
  have happend : path = (l ++ [u]) ++ l' := by simp [hsplit]
  obtain ⟨l₁, y, l₂, hfirst, hpath, hdist, hqueued⟩ :=
    hfol.exists_waiting hinv hp hcap happend hu
  have hley : pathCost w (l₁ ++ [y]) ≤ pathCost w (l ++ [u]) := by
    rw [hfirst, pathCost_append_cons w l₁ y l₂]
    exact Nat.le_add_right _ _
  have hleast := hpop.least _ hqueued
  have hidx := hprefers _ hqueued (by
    show S.dist y = c
    omega)
  rw [hpath] at hidx
  rw [hfirst]
  rcases List.mem_append.mp (mem_of_idxOf_le hidx) with hmem | hmem
  · exact List.mem_append_left _ hmem
  · rw [List.mem_singleton.mp hmem]
    simp

/-- Expanding the node that comes first on the path keeps the search on the path. -/
theorem Labels.Follows.expand (hfol : S.Follows w c₀ path closed)
    (hinv : S.Inv w s c₀ cap closed) (hp : Findable w s t path)
    (hcap : c₀ + pathCost w path < cap) {c : ℕ} {x : α} {rest : Set (ℕ × α)}
    (hpop : S.Pops c x rest) (hprefers : S.Prefers path c x) (hfresh : ¬ S.dist x < c)
    (hrel : Labels.Relaxed (w x) c x { S with queue := rest } T) :
    T.Follows w c₀ path (insert x closed) := by
  have hx := hinv.dist_popped hpop hfresh
  intro l u v l' hsplit
  obtain ⟨hdone, hopen⟩ := hfol l u v l' hsplit
  obtain ⟨hshortu, hshort⟩ := hp.shortest_upTo hsplit
  constructor
  · intro hu
    by_cases hclosed : u ∈ closed
    · -- `v` has its least cost already, so that `x` does not improve it
      obtain ⟨hdist, hprev⟩ := hdone hclosed
      have hkept : ¬ T.dist v < S.dist v := by
        intro himp
        obtain ⟨q, n, -, -, hq, hT, hle⟩ := hinv.improved_walk hx hrel hshort himp
        omega
      exact ⟨(hrel.dist_eq hkept).trans hdist, (hrel.prev_eq (hrel.dist_eq hkept)).trans hprev⟩
    · rcases Set.mem_insert_iff.mp hu with rfl | hmem
      · -- `u` is expanded now, and improves `v`
        have hlt := hopen hclosed
        have hbest := hinv.best_of_pops hpop _ hshortu.walk
        obtain ⟨n, hedge, hsum⟩ := hshort.last_step
        have hdist : T.dist v = min (S.dist v) (c + n) := hrel.dist_edge v n hedge
        have himp : T.dist v < S.dist v := by omega
        obtain ⟨q, n', -, hedge', hq, hT, hle⟩ := hinv.improved_walk hx hrel hshort himp
        rw [hedge, Option.some.injEq] at hedge'
        refine ⟨by omega, ?_⟩
        rw [hrel.prev v]
        exact if_pos himp
      · exact absurd hmem hclosed
  · intro hu
    rw [Set.mem_insert_iff, not_or] at hu
    have hlt := hopen hu.2
    by_contra hge
    -- `x` would have to find `v` at its least cost, from a place before `u` on the path
    obtain ⟨q, n, hwalk, hedge, hq, hT, hle⟩ := hinv.improved_walk hx hrel hshort (by omega)
    have hnear := hp.nearest l u v l' hsplit x q n hwalk hedge (by omega)
    have hxl : x ∈ l ++ [u] :=
      hfol.mem_of_pops hinv hp hcap hpop hprefers hsplit hu.2 (by omega)
    rcases List.mem_append.mp hxl with hmem | hmem
    · have hdirect := hp.direct l u v l' hsplit x hmem q n hwalk hedge
      omega
    · exact hu.1 (List.mem_singleton.mp hmem).symm

theorem Labels.Follows.round {p q : Labels α × Set α} (hp : Findable w s t path)
    (hcap : c₀ + pathCost w path < cap) (hinv : p.1.Inv w s c₀ cap p.2)
    (hfol : p.1.Follows w c₀ path p.2) (h : Labels.Round w (Labels.Prefers path) p q) :
    q.1.Follows w c₀ path q.2 := by
  cases h with
  | skip => exact hfol
  | expand hpop hprefers hfresh hrel => exact hfol.expand hinv hp hcap hpop hprefers hfresh hrel

/-- When the search is over, all nodes of the path but the last have been expanded. -/
theorem Labels.Follows.closed_of_over (hfol : S.Follows w c₀ path closed)
    (hinv : S.Inv w s c₀ cap closed) (hp : Findable w s t path)
    (hcap : c₀ + pathCost w path < cap) (hover : S.Over (Labels.Prefers path) t) {l l' : List α}
    {u v : α} (hsplit : path = l ++ u :: v :: l') : u ∈ closed := by
  by_contra hu
  have happend : path = (l ++ [u]) ++ v :: l' := by simp [hsplit]
  obtain ⟨l₁, y, l₂, -, hpath, hdist, hqueued⟩ := hfol.exists_waiting hinv hp hcap happend hu
  have hley : pathCost w (l₁ ++ [y]) ≤ pathCost w path := by
    rw [hpath, pathCost_append_cons w l₁ y (l₂ ++ v :: l')]
    exact Nat.le_add_right _ _
  rcases hover with hempty | ⟨c, rest, hpop, hprefers⟩
  · exact hempty _ hqueued
  · have hleast := hpop.least _ hqueued
    have hstale : S.dist t ≤ c := hinv.stale _ hpop.mem
    have hle := hinv.le_dist hp.toShortest hcap
    have hidx := hprefers _ hqueued (by
      show S.dist y = c
      omega)
    rw [hpath] at hidx
    have ht := mem_of_idxOf_le hidx
    -- the target comes last on the path, and once
    have hnodup := hp.nodup
    have hlast := hp.walk.last
    have hend : path = (l₁ ++ [y]) ++ (l₂ ++ v :: l') := by simp [hpath]
    rw [hend] at hnodup hlast
    exact notMem_of_getLast? hnodup (by simp) hlast ht

/-- A search that prefers the nodes of a findable walk ends with this walk. -/
theorem Labels.Follows.trace (hfol : S.Follows w c₀ path closed)
    (hinv : S.Inv w s c₀ cap closed) (hp : Findable w s t path)
    (hcap : c₀ + pathCost w path < cap) (hover : S.Over (Labels.Prefers path) t) :
    Trace S.prev s t path.reverse := by
  have hupTo : ∀ l y l', path = l ++ y :: l' → Trace S.prev s y (l ++ [y]).reverse := by
    intro l
    induction l using List.reverseRecOn with
    | nil =>
      intro y l' hsplit
      have hhead := hp.walk.head
      rw [hsplit, List.nil_append, List.head?_cons, Option.some.injEq] at hhead
      rw [hhead]
      exact Trace.start
    | append_singleton l z ih =>
      intro y l' hsplit
      have hsplit' : path = l ++ z :: y :: l' := by simp [hsplit]
      have hz := hfol.closed_of_over hinv hp hcap hover hsplit'
      have hprev := ((hfol l z y l' hsplit').1 hz).2
      rw [List.reverse_append, List.reverse_singleton, List.singleton_append]
      exact Trace.next (hp.ne_start hsplit') hprev (ih z (y :: l') hsplit')
  obtain ⟨l, rfl⟩ := List.getLast?_eq_some_iff.mp hp.walk.last
  exact hupTo l t [] rfl

end Order

end EntrouterLine.Lib
