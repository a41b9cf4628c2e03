import EntrouterLine.Lib.Dijkstra

/-!
# Forwarding hop by hop

Every node sends what it has for the destination to a next node of its own choice. If every node
that can reach the destination chooses the second node of some shortest walk, and every edge costs
at least one, what is sent from any of them arrives: each hop takes it nearer by the cost of the
edge, so the nodes it visits are different and the edges it takes cost as much as a shortest walk
together (`exists_route`).
-/

set_option autoImplicit false

namespace EntrouterLine.Lib

universe u

variable {α : Type u} {w : Weights α} {next : α → Option α} {a b d : α} {path : List α}

/-- The nodes that something for `d` visits from a node on until it is there. -/
inductive Route (next : α → Option α) (d : α) : α → List α → Prop where
  | arrived : Route next d d [d]
  | hop {a b : α} {l : List α} : a ≠ d → next a = some b → Route next d b l →
      Route next d a (a :: l)

/-- There is one route from a node at most. -/
theorem Route.unique {l l' : List α} (h : Route next d a l) (h' : Route next d a l') : l = l' := by
  induction h generalizing l' with
  | arrived =>
    cases h' with
    | arrived => rfl
    | hop hne _ _ => exact absurd rfl hne
  | hop hne hnext _ ih =>
    cases h' with
    | arrived => exact absurd rfl hne
    | hop _ hnext' hrest =>
      rw [hnext, Option.some.injEq] at hnext'
      subst hnext'
      rw [ih hrest]

/-- Shortest walks between two nodes cost the same. -/
theorem Shortest.cost_eq {path' : List α} (h : Shortest w a b path) (h' : Shortest w a b path') :
    pathCost w path = pathCost w path' :=
  Nat.le_antisymm (h.least _ h'.walk) (h'.least _ h.walk)

/-- What is left of a shortest walk after its first edge is a shortest walk. -/
theorem Shortest.uncons {l : List α} (h : Shortest w a d (a :: b :: l)) :
    Shortest w b d (b :: l) ∧
      ∃ n, w a b = some n ∧ pathCost w (a :: b :: l) = n + pathCost w (b :: l) := by
  obtain ⟨⟨n, hedge, hcost⟩, hrest⟩ := h.walk.uncons
  refine ⟨⟨hrest, ?_⟩, n, hedge, hcost⟩
  intro path' hwalk
  -- a cheaper rest would make the whole walk cheaper
  obtain ⟨hwalk', hcost'⟩ := hwalk.cons hedge
  have hle := h.least _ hwalk'
  omega

/-- A shortest walk to the destination from every node of a route costs no more than from its first
node. -/
def Nearer (w : Weights α) (d : α) (n : ℕ) (l : List α) : Prop :=
  ∀ x ∈ l, ∃ path, Shortest w x d path ∧ pathCost w path ≤ n

/-- Next hops on shortest walks lead to the destination, past no node twice and at the least cost.
-/
theorem exists_route (hpos : ∀ a b n, w a b = some n → 1 ≤ n)
    (hnext : ∀ a, a ≠ d → (∃ path, IsWalk w a d path) →
      ∃ b l, next a = some b ∧ Shortest w a d (a :: b :: l))
    (h : Shortest w a d path) :
    ∃ l, Route next d a l ∧ IsWalk w a d l ∧ l.Nodup ∧ pathCost w l = pathCost w path ∧
      Nearer w d (pathCost w path) l := by
  induction hn : pathCost w path using Nat.strong_induction_on generalizing a path with
  | _ n ih =>
    by_cases hd : a = d
    · subst hd
      refine ⟨[a], Route.arrived, IsWalk.refl w a, List.nodup_singleton a, ?_, ?_⟩
      · have hle := h.least [a] (IsWalk.refl w a)
        rw [pathCost_singleton] at hle ⊢
        omega
      · intro x hx
        rw [List.mem_singleton.mp hx]
        exact ⟨path, h, Nat.le_of_eq hn⟩
    · obtain ⟨b, l, hb, hshort⟩ := hnext a hd ⟨path, h.walk⟩
      obtain ⟨hrest, m, hedge, hcost⟩ := hshort.uncons
      have hsame := hshort.cost_eq h
      have hm := hpos a b m hedge
      obtain ⟨l', hroute, hwalk, hnodup, hcost', hnear⟩ :=
        ih (pathCost w (b :: l)) (by omega) hrest rfl
      obtain ⟨hwalk', hcost''⟩ := hwalk.cons hedge
      refine ⟨a :: l', Route.hop hd hb hroute, hwalk', ?_, by omega, ?_⟩
      · refine List.nodup_cons.mpr ⟨fun hmem => ?_, hnodup⟩
        -- all nodes from the next one on are nearer than this one
        obtain ⟨path', hshort', hle⟩ := hnear a hmem
        have heq := hshort'.cost_eq h
        omega
      · intro x hx
        rcases List.mem_cons.mp hx with rfl | hx
        · exact ⟨path, h, Nat.le_of_eq hn⟩
        · obtain ⟨path', hshort', hle⟩ := hnear x hx
          exact ⟨path', hshort', by omega⟩

end EntrouterLine.Lib
