import EntrouterLine.Mesh.NextHop

/-!
# The loops of the router stop

`heapRounds` is the heap loop cut off after a number of pops. A pop lowers the potential of the maps
and the heap, so the loop has ended after as many pops as that potential counts, whatever the costs
are (`heapRounds_eq`). The predecessors that it leaves behind have no cycle: an entry is only
overwritten when a smaller distance is found, over an edge from a node that has been expanded, and
no node improves one that was expanded before. So the loop that follows them from the destination
stops too (`loops_stop`).
-/

set_option autoImplicit false

namespace EntrouterLine.Mesh

open EntrouterLine.Lib
open EntrouterLine.Relay

/-- The heap loop, if it ends within this number of pops. -/
def heapRounds (std : StdOrder) (edges : List (NodeId × NodeId × Duration))
    (destination : NodeId) : Nat → Search → Option Search
  | 0, _ => none
  | pops + 1, s =>
      match std.pop s.heap with
      | none => some s
      | some (⟨costUs, node⟩, heap) =>
          if node = destination then some { s with heap := heap }
          else if s.distance node < costUs then
            heapRounds std edges destination pops { s with heap := heap }
          else
            heapRounds std edges destination pops
              (relaxAll edges costUs node { s with heap := heap })

/-- The loops of `dijkstra` and `dijkstra_via`, from `start` on: the heap loop ends after finitely
many pops, the loop over the predecessors ends after finitely many rounds, the predecessors have no
cycle, and from the destination they lead to the start or to a node that has none. -/
structure LoopsStop (std : StdOrder) (m : LatencyMatrix) (start : NodeId) (c₀ : Nat)
    (destination : NodeId) : Prop where
  pops : ∃ n ≤ m.allEdges.length * u64Max + 2, heapRounds std (std.iterMap m.allEdges) destination n
    (Search.start (std.iterSet m.nodes) start c₀) = some (m.search std start c₀ destination)
  walk : ∃ n ≤ m.allEdges.length + 1, ∃ result,
    walkBack (m.search std start c₀ destination).prev start n destination [destination] =
      .ok result
  acyclic : ∀ v, ¬ Relation.TransGen (Precedes (m.search std start c₀ destination).prev) v v
  ends : ∃ v, Relation.ReflTransGen (Precedes (m.search std start c₀ destination).prev)
    destination v ∧ (v = start ∨ (m.search std start c₀ destination).prev v = none)

variable {std : StdOrder} {m : LatencyMatrix} {destination : NodeId}

/-! ## The heap loop -/

/-- As many pops as the potential counts, and one that finds the heap empty, are enough. -/
theorem heapRounds_eq {edges : List (NodeId × NodeId × Duration)} (s : Search) :
    ∀ n, s.potential edges < n →
      heapRounds std edges destination n s = some (heapLoop std edges destination s) := by
  induction s using heapLoop.induct std edges destination with
  | case1 s hpop =>
    intro n hn
    obtain ⟨n, rfl⟩ := Nat.exists_eq_succ_of_ne_zero (Nat.ne_of_gt (Nat.zero_lt_of_lt hn))
    rw [heapRounds, heapLoop, hpop]
  | case2 s costUs heap hpop =>
    intro n hn
    obtain ⟨n, rfl⟩ := Nat.exists_eq_succ_of_ne_zero (Nat.ne_of_gt (Nat.zero_lt_of_lt hn))
    rw [heapRounds, heapLoop, hpop]
    simp only [if_pos]
  | case3 s costUs node heap hpop hne hstale ih =>
    intro n hn
    obtain ⟨n, rfl⟩ := Nat.exists_eq_succ_of_ne_zero (Nat.ne_of_gt (Nat.zero_lt_of_lt hn))
    rw [heapRounds, heapLoop, hpop]
    simp only [if_neg hne, if_pos hstale]
    apply ih n
    have hlt := potential_pop_lt std edges s hpop
    omega
  | case4 s costUs node heap hpop hne hfresh ih =>
    intro n hn
    obtain ⟨n, rfl⟩ := Nat.exists_eq_succ_of_ne_zero (Nat.ne_of_gt (Nat.zero_lt_of_lt hn))
    rw [heapRounds, heapLoop, hpop]
    simp only [if_neg hne, if_neg hfresh]
    apply ih n
    have hlt := potential_pop_lt std edges s hpop
    have hle := potential_relaxAll_le costUs node { s with heap := heap } (List.Subset.refl edges)
    omega

/-- A cut-off loop that has ended is the loop. -/
theorem heapLoop_of_heapRounds {edges : List (NodeId × NodeId × Duration)} {n : Nat}
    {s t : Search} (h : heapRounds std edges destination n s = some t) :
    heapLoop std edges destination s = t := by
  induction n generalizing s with
  | zero => cases h
  | succ n ih =>
    rw [heapRounds] at h
    rw [heapLoop]
    cases hpop : std.pop s.heap with
    | none =>
      rw [hpop] at h
      exact Option.some.inj h
    | some popped =>
      obtain ⟨⟨costUs, node⟩, heap⟩ := popped
      rw [hpop] at h
      simp only at h ⊢
      split at h
      case isTrue hdest =>
        rw [if_pos hdest]
        exact Option.some.inj h
      case isFalse hdest =>
        rw [if_neg hdest]
        split at h
        case isTrue hstale =>
          rw [if_pos hstale]
          exact ih h
        case isFalse hfresh =>
          rw [if_neg hfresh]
          exact ih h

theorem potential_start_le (edges : List (NodeId × NodeId × Duration)) (nodes : List NodeId)
    (start : NodeId) {c₀ : Nat} (hc₀ : c₀ ≤ u64Max) :
    (Search.start nodes start c₀).potential edges ≤ edges.length * u64Max + 1 := by
  have hsum : (edges.map fun e => (Search.start nodes start c₀).distance e.2.1).sum ≤
      edges.length * u64Max := by
    rw [← List.length_map (f := fun e => (Search.start nodes start c₀).distance e.2.1),
      ← smul_eq_mul]
    apply List.sum_le_card_nsmul
    intro d hd
    obtain ⟨e, -, rfl⟩ := List.mem_map.mp hd
    rw [distance_start]
    split
    case isTrue => exact hc₀
    case isFalse => exact Nat.le_refl _
  exact Nat.add_le_add_right hsum 1

/-! ## All loops -/

theorem heapRounds_search (std : StdOrder) (m : LatencyMatrix) (start : NodeId) {c₀ : Nat}
    (hc₀ : c₀ ≤ u64Max) (destination : NodeId) : ∃ n ≤ m.allEdges.length * u64Max + 2,
      heapRounds std (std.iterMap m.allEdges) destination n
        (Search.start (std.iterSet m.nodes) start c₀) =
          some (m.search std start c₀ destination) := by
  refine ⟨m.allEdges.length * u64Max + 2, Nat.le_refl _, heapRounds_eq _ _ ?_⟩
  have hle := potential_start_le (std.iterMap m.allEdges) (std.iterSet m.nodes) start hc₀
  rw [(std.iterMap_perm m.allEdges).length_eq] at hle
  exact Nat.lt_succ_of_le hle

theorem loopsStop_of_le (std : StdOrder) (m : LatencyMatrix) (start : NodeId) {c₀ : Nat}
    (hc₀ : c₀ ≤ u64Max) (destination : NodeId) : LoopsStop std m start c₀ destination := by
  obtain ⟨S, closed, hinv, hord, hsettled, hdist, hprev⟩ := search_ends std m start hc₀ destination
  refine ⟨heapRounds_search std m start hc₀ destination, ?_, ?_, ?_⟩
  · rw [hprev]
    by_cases hlt : S.dist destination < u64Max
    · obtain ⟨l, htrace, hfindable, -⟩ := hinv.findable hord hsettled.best hlt
      have hlen := length_findable_le hfindable
      rw [List.length_reverse] at hlen
      exact ⟨l.length, hlen, some l, walkBack_trace htrace l.length [] (Nat.le_refl _)⟩
    · refine ⟨1, Nat.le_add_left _ _, ?_⟩
      rw [walkBack, hsettled.missing hlt]
      split
      case isTrue => exact ⟨_, rfl⟩
      case isFalse => exact ⟨_, rfl⟩
  · rw [hprev]
    exact hinv.acyclic hord
  · rw [hprev]
    by_cases hlt : S.dist destination < u64Max
    · obtain ⟨l, htrace, -, -⟩ := hinv.findable hord hsettled.best hlt
      exact ⟨start, htrace.precedes, Or.inl rfl⟩
    · exact ⟨destination, Relation.ReflTransGen.refl, Or.inr (hsettled.missing hlt)⟩

/-- For every matrix, whatever its cycles and costs are, and every destination, the loops of
`dijkstra` stop, and so do those of `dijkstra_via` for every neighbour and every cost of the edge to
it. -/
theorem loops_stop (std : StdOrder) (r : MeshRouter) (destination : NodeId) :
    LoopsStop std r.matrix r.localNode 0 destination ∧
      ∀ (via : NodeId) (firstHopCost : Duration),
        LoopsStop std r.matrix via (edgeCost firstHopCost) destination := by
  constructor
  · exact loopsStop_of_le std r.matrix r.localNode (Nat.zero_le _) destination
  · intro via firstHopCost
    exact loopsStop_of_le std r.matrix via (edgeCost_le firstHopCost) destination

end EntrouterLine.Mesh
