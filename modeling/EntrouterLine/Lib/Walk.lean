import Mathlib.Tactic

/-!
# Walks in a directed graph with costs

A graph is a function that gives every pair of nodes the cost of the edge between them, if there is
one. A walk is the list of its nodes. Walks are extended at either end (`IsWalk.cons`,
`IsWalk.snoc`), taken apart at the front (`IsWalk.uncons`), and proved about from the front to the
back (`IsWalk.induction`). Every walk can be made simple without a greater cost
(`IsWalk.exists_simple`), and a walk that uses no edge twice costs at most what all edges cost
together (`pathCost_le_sum`).
-/

set_option autoImplicit false

namespace EntrouterLine.Lib

universe u

variable {α : Type u}

/-- The cost of the edge from one node to another, if there is one. -/
abbrev Weights (α : Type u) := α → α → Option ℕ

/-- The pairs of consecutive nodes of a path. -/
def steps (path : List α) : List (α × α) := path.zip path.tail

/-- The cost of a path: the sum over its steps. A step that is no edge counts nothing. -/
def pathCost (w : Weights α) (path : List α) : ℕ :=
  ((steps path).map fun e => (w e.1 e.2).getD 0).sum

/-- A path from `a` to `b` whose steps are edges. -/
structure IsWalk (w : Weights α) (a b : α) (path : List α) : Prop where
  head : path.head? = some a
  last : path.getLast? = some b
  edges : ∀ e ∈ steps path, (w e.1 e.2).isSome

variable {w : Weights α} {a b c : α} {path : List α} {n : ℕ}

/-! ## Steps and costs -/

@[simp] theorem steps_nil : steps ([] : List α) = [] := rfl

@[simp] theorem steps_singleton (a : α) : steps [a] = [] := rfl

@[simp] theorem steps_cons_cons (a b : α) (l : List α) :
    steps (a :: b :: l) = (a, b) :: steps (b :: l) := rfl

@[simp] theorem pathCost_singleton (w : Weights α) (a : α) : pathCost w [a] = 0 := rfl

@[simp] theorem pathCost_cons_cons (w : Weights α) (a b : α) (l : List α) :
    pathCost w (a :: b :: l) = (w a b).getD 0 + pathCost w (b :: l) := by
  simp [pathCost]

/-- The steps of a path, split at one of its nodes. -/
theorem steps_append_cons (l : List α) (a : α) (l' : List α) :
    steps (l ++ a :: l') = steps (l ++ [a]) ++ steps (a :: l') := by
  induction l with
  | nil => rfl
  | cons x l ih =>
    cases l with
    | nil => simp
    | cons y l =>
      simp only [List.cons_append, steps_cons_cons] at ih ⊢
      rw [ih]

theorem pathCost_append_cons (w : Weights α) (l : List α) (a : α) (l' : List α) :
    pathCost w (l ++ a :: l') = pathCost w (l ++ [a]) + pathCost w (a :: l') := by
  rw [pathCost, steps_append_cons, List.map_append, List.sum_append]
  rfl

/-- A path with one more node. -/
theorem steps_snoc (h : path.getLast? = some b) (c : α) :
    steps (path ++ [c]) = steps path ++ [(b, c)] := by
  obtain ⟨l, rfl⟩ := List.getLast?_eq_some_iff.mp h
  rw [List.append_assoc, List.singleton_append, steps_append_cons]
  rfl

theorem pathCost_snoc (h : path.getLast? = some b) (c : α) :
    pathCost w (path ++ [c]) = pathCost w path + (w b c).getD 0 := by
  rw [pathCost, steps_snoc h, List.map_append, List.sum_append]
  simp [pathCost]

theorem map_fst_steps (path : List α) : (steps path).map Prod.fst = path.dropLast := by
  induction path with
  | nil => rfl
  | cons x l ih =>
    cases l with
    | nil => rfl
    | cons y l =>
      rw [steps_cons_cons, List.map_cons, ih]
      rfl

theorem map_snd_steps (path : List α) : (steps path).map Prod.snd = path.tail := by
  induction path with
  | nil => rfl
  | cons x l ih =>
    cases l with
    | nil => rfl
    | cons y l =>
      rw [steps_cons_cons, List.map_cons, ih]
      rfl

/-- A path that repeats no node repeats no step. -/
theorem nodup_steps (h : path.Nodup) : (steps path).Nodup := by
  apply List.Nodup.of_map Prod.fst
  rw [map_fst_steps]
  exact h.sublist (List.dropLast_sublist path)

/-- One more step before a path that repeats no node is a new one. -/
theorem nodup_steps_cons (h : path.Nodup) (hhead : path.head? = some b) (a : α) :
    (steps (a :: path)).Nodup := by
  cases path with
  | nil => cases hhead
  | cons x l =>
    rw [steps_cons_cons, List.nodup_cons]
    refine ⟨?_, nodup_steps h⟩
    intro hmem
    -- the path does not come back to its first node
    have hx : x ∈ (steps (x :: l)).map Prod.snd := List.mem_map_of_mem (f := Prod.snd) hmem
    rw [map_snd_steps] at hx
    exact (List.nodup_cons.mp h).1 hx

/-- A path that uses no edge twice costs at most as much as all edges together. -/
theorem pathCost_le_sum (h : (steps path).Nodup) {es : List (α × α)} (hes : steps path ⊆ es) :
    pathCost w path ≤ (es.map fun e => (w e.1 e.2).getD 0).sum := by
  obtain ⟨l, hperm, hsub⟩ := List.subperm_of_subset h hes
  have hsum : (l.map fun e => (w e.1 e.2).getD 0).sum = pathCost w path :=
    (hperm.map _).sum_eq
  rw [← hsum]
  exact (hsub.map _).sum_le_sum fun n _ => Nat.zero_le n

/-- A path that repeats no node has at most one node more than there are edges. -/
theorem length_le_of_nodup (h : path.Nodup) {es : List (α × α)} (hes : steps path ⊆ es) :
    path.length ≤ es.length + 1 := by
  have hle := (List.subperm_of_subset (nodup_steps h) hes).length_le
  have hlen : (steps path).length = path.length - 1 := by
    rw [← List.length_map Prod.snd, map_snd_steps, List.length_tail]
  omega

/-! ## Walks -/

theorem IsWalk.refl (w : Weights α) (a : α) : IsWalk w a a [a] :=
  ⟨rfl, rfl, by simp⟩

theorem IsWalk.ne_nil (h : IsWalk w a b path) : path ≠ [] := by
  rintro rfl
  cases h.head

/-- A walk, and one more edge at its end. -/
theorem IsWalk.snoc (h : IsWalk w a b path) (he : w b c = some n) :
    IsWalk w a c (path ++ [c]) ∧ pathCost w (path ++ [c]) = pathCost w path + n := by
  refine ⟨⟨?_, List.getLast?_concat, ?_⟩, ?_⟩
  · rw [List.head?_append, h.head]
    rfl
  · intro e hmem
    rw [steps_snoc h.last, List.mem_append, List.mem_singleton] at hmem
    rcases hmem with hmem | rfl
    · exact h.edges e hmem
    · rw [he]
      rfl
  · rw [pathCost_snoc h.last, he]
    rfl

/-- An edge, and a walk from its end. -/
theorem IsWalk.cons (h : IsWalk w b c path) (he : w a b = some n) :
    IsWalk w a c (a :: path) ∧ pathCost w (a :: path) = n + pathCost w path := by
  cases path with
  | nil => cases h.head
  | cons x l =>
    have hx : x = b := by
      simpa using h.head
    subst hx
    refine ⟨⟨rfl, ?_, ?_⟩, ?_⟩
    · rw [List.getLast?_cons_cons]
      exact h.last
    · intro e hmem
      rw [steps_cons_cons, List.mem_cons] at hmem
      rcases hmem with rfl | hmem
      · rw [he]
        rfl
      · exact h.edges e hmem
    · rw [pathCost_cons_cons, he]
      rfl

/-- The first edge of a walk, and the walk that is left. -/
theorem IsWalk.uncons {l : List α} (h : IsWalk w a c (a :: b :: l)) :
    (∃ n, w a b = some n ∧ pathCost w (a :: b :: l) = n + pathCost w (b :: l)) ∧
      IsWalk w b c (b :: l) := by
  obtain ⟨n, hn⟩ := Option.isSome_iff_exists.mp (h.edges (a, b) (by simp))
  refine ⟨⟨n, hn, ?_⟩, rfl, ?_, ?_⟩
  · rw [pathCost_cons_cons, hn]
    rfl
  · rw [← h.last, List.getLast?_cons_cons]
  · intro e hmem
    exact h.edges e (by
      rw [steps_cons_cons]
      exact List.mem_cons_of_mem _ hmem)

/-- A walk between different nodes has a first edge. -/
theorem IsWalk.exists_cons (h : IsWalk w a c path) (hne : a ≠ c) :
    ∃ b l, path = a :: b :: l := by
  match path, h with
  | [x], h =>
    have hx : x = a := by simpa using h.head
    have hx' : x = c := by simpa using h.last
    exact absurd (hx.symm.trans hx') hne
  | x :: b :: l, h =>
    have hx : x = a := by simpa using h.head
    exact ⟨b, l, by rw [hx]⟩

/-- To prove something of the end and the cost of every walk from `a`, prove it of the walk without
edges and show that an edge at the end keeps it. -/
theorem IsWalk.induction {motive : α → ℕ → Prop} (hnil : motive a 0)
    (hsnoc : ∀ b c k n, motive b k → w b c = some n → motive c (k + n))
    (h : IsWalk w a b path) : motive b (pathCost w path) := by
  -- from the back, since `hsnoc` speaks about the last edge
  induction path using List.reverseRecOn generalizing b with
  | nil => cases h.head
  | append_singleton l x ih =>
    have hx : x = b := by
      simpa using h.last
    subst hx
    cases hlast : l.getLast? with
    | none =>
      rw [List.getLast?_eq_none_iff] at hlast
      subst hlast
      have hx : x = a := by
        simpa using h.head
      rw [hx]
      exact hnil
    | some y =>
      have hedge : (w y x).isSome := h.edges (y, x) (by
        rw [steps_snoc hlast]
        exact List.mem_append_right _ (List.mem_singleton_self _))
      obtain ⟨n, hn⟩ := Option.isSome_iff_exists.mp hedge
      have hwalk : IsWalk w a y l := by
        refine ⟨?_, hlast, ?_⟩
        · have hhead := h.head
          rw [List.head?_append] at hhead
          cases l with
          | nil => cases hlast
          | cons z l => simpa using hhead
        · intro e hmem
          exact h.edges e (by
            rw [steps_snoc hlast]
            exact List.mem_append_left _ hmem)
      rw [pathCost_snoc hlast, hn]
      exact hsnoc y x _ n (ih hwalk) hn

/-- The rest of a walk from one of its nodes on. -/
theorem IsWalk.suffix {l l' : List α} (h : IsWalk w a c (l ++ b :: l')) :
    IsWalk w b c (b :: l') ∧ pathCost w (b :: l') ≤ pathCost w (l ++ b :: l') := by
  refine ⟨⟨rfl, ?_, ?_⟩, ?_⟩
  · rw [← h.last, List.getLast?_append]
    cases hlast : (b :: l').getLast? with
    | none => simp at hlast
    | some x => rfl
  · intro e hmem
    exact h.edges e (by
      rw [steps_append_cons]
      exact List.mem_append_right _ hmem)
  · rw [pathCost_append_cons]
    exact Nat.le_add_left _ _

/-- The beginning of a walk, up to one of its nodes. -/
theorem IsWalk.upTo {l l' : List α} (h : IsWalk w a c (l ++ b :: l')) :
    IsWalk w a b (l ++ [b]) := by
  refine ⟨?_, List.getLast?_concat, ?_⟩
  · rw [← h.head]
    cases l <;> rfl
  · intro e hmem
    apply h.edges e
    rw [steps_append_cons]
    exact List.mem_append_left _ hmem

/-- Another way to a node of a walk, and the rest of the walk. -/
theorem IsWalk.join {q l l' : List α} (hq : IsWalk w a b q) (h : IsWalk w a c (l ++ b :: l')) :
    IsWalk w a c (q ++ l') ∧ pathCost w (q ++ l') = pathCost w q + pathCost w (b :: l') := by
  obtain ⟨q', rfl⟩ := List.getLast?_eq_some_iff.mp hq.last
  have happend : q' ++ [b] ++ l' = q' ++ b :: l' := by simp
  rw [happend]
  refine ⟨⟨?_, ?_, ?_⟩, pathCost_append_cons w q' b l'⟩
  · rw [← hq.head]
    cases q' <;> rfl
  · rw [← h.suffix.1.last, List.getLast?_append]
    cases hlast : (b :: l').getLast? with
    | none => simp at hlast
    | some x => rfl
  · intro e hmem
    rw [steps_append_cons, List.mem_append] at hmem
    rcases hmem with hmem | hmem
    · exact hq.edges e hmem
    · exact h.suffix.1.edges e hmem

/-- Every walk can be cut down to one that repeats no node and does not cost more. -/
theorem IsWalk.exists_simple (h : IsWalk w a c path) :
    ∃ path', IsWalk w a c path' ∧ path'.Nodup ∧ pathCost w path' ≤ pathCost w path := by
  induction path generalizing a with
  | nil => cases h.head
  | cons x l ih =>
    have hx : x = a := by
      simpa using h.head
    subst hx
    cases l with
    | nil => exact ⟨[x], h, List.nodup_singleton x, Nat.le_refl _⟩
    | cons y l =>
      obtain ⟨⟨n, hedge, hcost⟩, hrest⟩ := h.uncons
      obtain ⟨q, hq, hnodup, hle⟩ := ih hrest
      by_cases hmem : x ∈ q
      · -- the rest comes back to the first node: leave out the detour
        obtain ⟨l₁, l₂, rfl⟩ := List.append_of_mem hmem
        obtain ⟨hwalk, hle'⟩ := hq.suffix
        refine ⟨x :: l₂, hwalk, hnodup.sublist (List.sublist_append_right _ _), ?_⟩
        omega
      · obtain ⟨hwalk, hcost'⟩ := hq.cons hedge
        refine ⟨x :: q, hwalk, List.nodup_cons.mpr ⟨hmem, hnodup⟩, ?_⟩
        omega

end EntrouterLine.Lib
