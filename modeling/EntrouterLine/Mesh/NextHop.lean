import EntrouterLine.Lib.SearchOrder
import EntrouterLine.Mesh.Router

/-!
# The next hop is on a shortest path

The maps and the heap of the router are the labels of a search (`Search.labels`), and its loops take
the steps of one: popping keeps a least entry, `relaxAll` relaxes the edges of one node. So when the
heap loop ends, what it has found for the destination is settled (`search_ends`), and the loop
that follows the predecessors collects a shortest path (`dijkstra_spec`).
-/

set_option autoImplicit false

namespace EntrouterLine.Mesh

open EntrouterLine.Lib
open EntrouterLine.Relay

variable {std : StdOrder} {m : LatencyMatrix} {r : MeshRouter} {destination : NodeId}

/-- The edges of the matrix at the costs that the router computes with. -/
def LatencyMatrix.weights (m : LatencyMatrix) : Weights NodeId := fun src dst =>
  (m.getRtt src dst).map edgeCost

/-- The maps and the heap, as the labels of a search. -/
def Search.labels (s : Search) : Labels NodeId :=
  ⟨s.distance, s.prev, {e | ⟨e.1, e.2⟩ ∈ s.heap}⟩

/-- No distance is past `u64::MAX`. -/
def Search.Capped (s : Search) : Prop := ∀ v, s.distance v ≤ u64Max

/-! ## The loop over the edges -/

/-- Saturating addition finds an improvement exactly if addition does. -/
theorem saturatingAdd_lt {c n d : Nat} (hd : d ≤ u64Max) : saturatingAdd c n < d ↔ c + n < d := by
  rw [saturatingAdd]
  omega

theorem saturatingAdd_eq {c n d : Nat} (hd : d ≤ u64Max) (h : c + n < d) :
    saturatingAdd c n = c + n := by
  rw [saturatingAdd]
  omega

/-- The router relaxes an edge as a search does. -/
theorem labels_relax {s : Search} (hs : s.Capped) (costUs : Nat) (node : NodeId)
    (edge : NodeId × NodeId × Duration) :
    (relax costUs node s edge).labels =
        s.labels.relaxEdge costUs node (edge.1, edge.2.1, edgeCost edge.2.2) ∧
      (relax costUs node s edge).Capped := by
  obtain ⟨src, dst, rtt⟩ := edge
  simp only [relax, Labels.relaxEdge, saturatingAdd_lt (hs dst)]
  by_cases hsrc : src = node
  · by_cases hlt : costUs + edgeCost rtt < s.distance dst
    · have hsat := saturatingAdd_eq (hs dst) hlt
      rw [if_neg (not_not_intro hsrc), if_pos hlt, if_pos ⟨hsrc, hlt⟩, hsat]
      constructor
      · apply Labels.ext
        · funext v
          exact (distance_update ..).trans (Function.update_apply ..).symm
        · rfl
        · ext ⟨k, v⟩
          simp [Search.labels, or_comm]
      · intro v
        rw [distance_update]
        split
        case isTrue => exact Nat.le_trans (Nat.le_of_lt hlt) (hs dst)
        case isFalse => exact hs v
    · rw [if_neg (not_not_intro hsrc), if_neg hlt, if_neg (fun h => hlt h.2)]
      exact ⟨rfl, hs⟩
  · rw [if_pos hsrc, if_neg (fun h => hsrc h.1)]
    exact ⟨rfl, hs⟩

theorem labels_relaxAll {s : Search} (hs : s.Capped) (costUs : Nat) (node : NodeId)
    (edges : List (NodeId × NodeId × Duration)) :
    (relaxAll edges costUs node s).labels =
        (edges.map fun e => (e.1, e.2.1, edgeCost e.2.2)).foldl (Labels.relaxEdge costUs node)
          s.labels ∧
      (relaxAll edges costUs node s).Capped := by
  induction edges generalizing s with
  | nil => exact ⟨rfl, hs⟩
  | cons edge edges ih =>
    obtain ⟨hlabels, hcapped⟩ := labels_relax hs costUs node edge
    obtain ⟨hrest, hcapped'⟩ := ih hcapped
    refine ⟨?_, hcapped'⟩
    rw [List.map_cons, List.foldl_cons, ← hlabels, ← hrest]
    rfl

/-- The loop over the edges of the matrix, in any order, relaxes those of the node. -/
theorem relaxed_relaxAll {s : Search} (hs : s.Capped) (costUs : Nat) (node : NodeId)
    {edges : List (NodeId × NodeId × Duration)} (hedges : edges.Perm m.allEdges) :
    Labels.Relaxed (m.weights node) costUs node s.labels (relaxAll edges costUs node s).labels := by
  rw [(labels_relaxAll hs costUs node edges).1]
  apply Labels.relaxed_foldl costUs node s.labels
  · rw [List.map_map]
    exact (hedges.map _).nodup_iff.mpr (nodup_allEdges m)
  · intro t n
    rw [LatencyMatrix.weights, Option.map_eq_some_iff, List.mem_map]
    constructor
    · rintro ⟨rtt, hrtt, rfl⟩
      exact ⟨(node, t, rtt), hedges.mem_iff.mpr (mem_allEdges.mpr hrtt), rfl⟩
    · rintro ⟨⟨a, b, rtt⟩, hmem, heq⟩
      rw [Prod.mk.injEq, Prod.mk.injEq] at heq
      obtain ⟨rfl, rfl, rfl⟩ := heq
      exact ⟨rtt, mem_allEdges.mp (hedges.mem_iff.mp hmem), rfl⟩

theorem edgeCost_le (rtt : Duration) : edgeCost rtt ≤ u64Max := by
  have hlt : edgeCost rtt < 2 ^ 64 := Nat.mod_lt _ (by decide)
  have hcap : u64Max = 2 ^ 64 - 1 := rfl
  omega

/-! ## The heap loop -/

/-- Popping the heap takes a least entry. -/
theorem pops_of_pop {s : Search} {costUs : Nat} {node : NodeId} {heap : List DijkstraState}
    (hpop : std.pop s.heap = some (⟨costUs, node⟩, heap)) :
    s.labels.Pops costUs node (Search.labels { s with heap := heap }).queue := by
  obtain ⟨hperm, hleast⟩ := std.pop_some _ _ _ hpop
  refine ⟨hperm.mem_iff.mpr List.mem_cons_self, ?_, ?_, ?_⟩
  · rintro ⟨k, v⟩ hmem
    rcases List.mem_cons.mp (hperm.mem_iff.mp hmem) with heq | hrest
    · rw [DijkstraState.mk.injEq] at heq
      exact Nat.le_of_eq heq.1.symm
    · exact hleast _ hrest
  · intro e hmem
    exact hperm.mem_iff.mpr (List.mem_cons_of_mem _ hmem)
  · rintro ⟨k, v⟩ hmem hne
    rcases List.mem_cons.mp (hperm.mem_iff.mp hmem) with heq | hrest
    · rw [DijkstraState.mk.injEq] at heq
      exact absurd (Prod.ext heq.1 heq.2) hne
    · exact hrest

/-- The heap loop is a sequence of rounds of a search, and stops when the search is over. The policy
is what is known of the entries that the heap pops. -/
theorem heapLoop_rounds (destination : NodeId) {policy : Labels NodeId → Nat → NodeId → Prop}
    (hpolicy : ∀ (s : Search) costUs node heap, std.pop s.heap = some (⟨costUs, node⟩, heap) →
      policy s.labels costUs node) {edges : List (NodeId × NodeId × Duration)}
    (hedges : edges.Perm m.allEdges) (s : Search) :
    ∀ closed, s.Capped → ∃ S closed',
      Relation.ReflTransGen (Labels.Round m.weights policy) (s.labels, closed) (S, closed') ∧
        S.Over policy destination ∧ (heapLoop std edges destination s).distance = S.dist ∧
        (heapLoop std edges destination s).prev = S.prev := by
  induction s using heapLoop.induct std edges destination with
  | case1 s hpop =>
    -- the heap is empty
    intro closed _
    rw [heapLoop, hpop]
    refine ⟨s.labels, closed, Relation.ReflTransGen.refl, Or.inl ?_, rfl, rfl⟩
    intro e hmem
    have hmem' : (⟨e.1, e.2⟩ : DijkstraState) ∈ s.heap := hmem
    rw [std.pop_none _ hpop] at hmem'
    cases hmem'
  | case2 s costUs heap hpop =>
    -- the destination is popped
    intro closed _
    rw [heapLoop, hpop]
    simp only [if_pos]
    refine ⟨s.labels, closed, Relation.ReflTransGen.refl, Or.inr ?_, rfl, rfl⟩
    exact ⟨costUs, _, pops_of_pop hpop, hpolicy s costUs destination heap hpop⟩
  | case3 s costUs node heap hpop hne hstale ih =>
    -- a stale entry is dropped
    intro closed hs
    rw [heapLoop, hpop]
    simp only [if_neg hne, if_pos hstale]
    obtain ⟨S, closed', hrounds, hend⟩ := ih closed hs
    exact ⟨S, closed', hrounds.head
      (Labels.Round.skip (pops_of_pop hpop) (hpolicy s costUs node heap hpop) hstale), hend⟩
  | case4 s costUs node heap hpop hne hfresh ih =>
    -- the node is expanded
    intro closed hs
    rw [heapLoop, hpop]
    simp only [if_neg hne, if_neg hfresh]
    have hs' : Search.Capped { s with heap := heap } := hs
    obtain ⟨S, closed', hrounds, hend⟩ :=
      ih (insert node closed) (labels_relaxAll hs' costUs node edges).2
    refine ⟨S, closed', hrounds.head ?_, hend⟩
    exact Labels.Round.expand (pops_of_pop hpop) (hpolicy s costUs node heap hpop) hfresh
      (relaxed_relaxAll hs' costUs node hedges)

/-! ## The maps before the loop -/

theorem distance_start (nodes : List NodeId) (node : NodeId) (costUs : Nat) (v : NodeId) :
    (Search.start nodes node costUs).distance v = if v = node then costUs else u64Max := by
  have hfold : ∀ dist : NodeId → Option Nat, (dist v).getD u64Max = u64Max →
      ((nodes.foldl (fun dist node => Function.update dist node (some u64Max)) dist) v).getD
        u64Max =
        u64Max := by
    induction nodes with
    | nil => exact fun _ h => h
    | cons u nodes ih =>
      intro dist hdist
      apply ih _
      show (Function.update dist u (some u64Max) v).getD u64Max = u64Max
      rw [Function.update_apply]
      split
      case isTrue => rfl
      case isFalse => exact hdist
  calc (Search.start nodes node costUs).distance v
      = if v = node then costUs else
          ((nodes.foldl (fun dist node => Function.update dist node (some u64Max))
            fun _ => none) v).getD u64Max :=
          distance_update ⟨_, fun _ => none, []⟩ _ _ node v costUs
    _ = if v = node then costUs else u64Max := by rw [hfold _ rfl]

theorem inv_search_start (m : LatencyMatrix) (nodes : List NodeId) (node : NodeId) {c₀ : Nat}
    (hc₀ : c₀ ≤ u64Max) :
    (Search.start nodes node c₀).labels.Inv m.weights node c₀ u64Max ∅ := by
  refine Labels.inv_start ?_ ?_ (fun _ => rfl) ?_ hc₀
  · exact (distance_start nodes node c₀ node).trans (if_pos rfl)
  · intro v hv
    exact (distance_start nodes node c₀ v).trans (if_neg hv)
  · rintro ⟨k, v⟩
    show (⟨k, v⟩ : DijkstraState) ∈ [⟨c₀, node⟩] ↔ _
    rw [List.mem_singleton, DijkstraState.mk.injEq, Prod.mk.injEq]

/-- The search of the router: the maps after the heap loop. -/
def LatencyMatrix.search (std : StdOrder) (m : LatencyMatrix) (start : NodeId) (c₀ : Nat)
    (destination : NodeId) : Search :=
  heapLoop std (std.iterMap m.allEdges) destination (Search.start (std.iterSet m.nodes) start c₀)

/-- The search of the router, as a search with the invariant `I` that rounds preserve. -/
theorem search_rounds (policy : Labels NodeId → Nat → NodeId → Prop) (std : StdOrder)
    (hpolicy : ∀ (s : Search) costUs node heap, std.pop s.heap = some (⟨costUs, node⟩, heap) →
      policy s.labels costUs node) (m : LatencyMatrix) (start : NodeId) {c₀ : Nat}
    (hc₀ : c₀ ≤ u64Max) (destination : NodeId) {I : Labels NodeId → Set NodeId → Prop}
    (hround : ∀ p q : Labels NodeId × Set NodeId, p.1.Inv m.weights start c₀ u64Max p.2 →
      I p.1 p.2 → Labels.Round m.weights policy p q → I q.1 q.2)
    (hstart : I (Search.start (std.iterSet m.nodes) start c₀).labels ∅) :
    ∃ S closed, S.Inv m.weights start c₀ u64Max closed ∧ I S closed ∧ S.Over policy destination ∧
      (m.search std start c₀ destination).distance = S.dist ∧
      (m.search std start c₀ destination).prev = S.prev := by
  have hinv := inv_search_start m (std.iterSet m.nodes) start hc₀
  obtain ⟨S, closed, hrounds, hover, hdist, hprev⟩ :=
    heapLoop_rounds destination hpolicy (std.iterMap_perm m.allEdges)
      (Search.start (std.iterSet m.nodes) start c₀) ∅ hinv.le_cap
  obtain ⟨hinv', hI⟩ := hinv.rounds hround hstart hrounds
  exact ⟨S, closed, hinv', hI, hover, hdist, hprev⟩

/-- What the search ends with, in every order of the entries and the ties. -/
theorem search_ends (std : StdOrder) (m : LatencyMatrix) (start : NodeId) {c₀ : Nat}
    (hc₀ : c₀ ≤ u64Max) (destination : NodeId) :
    ∃ (S : Labels NodeId) (closed : Set NodeId), S.Inv m.weights start c₀ u64Max closed ∧
      S.Orderly m.weights start closed ∧ S.Settled m.weights start c₀ u64Max destination ∧
      (m.search std start c₀ destination).distance = S.dist ∧
      (m.search std start c₀ destination).prev = S.prev := by
  obtain ⟨S, closed, hinv, hord, hover, hends⟩ :=
    search_rounds (fun _ _ _ => True) std (fun _ _ _ _ _ => trivial) m start hc₀
      destination (I := fun S closed => S.Orderly m.weights start closed)
      (fun _ _ hinv hord hround => hord.round hinv hround)
      (Labels.orderly_start fun _ => rfl)
  exact ⟨S, closed, hinv, hord, hinv.settled_of_over hover, hends⟩

/-! ## Following the predecessors -/

/-- With a round for each of its nodes, the loop collects a trace. -/
theorem walkBack_trace {prev : NodeId → Option NodeId} {start v : NodeId} {l : List NodeId}
    (h : Trace prev start v l) : ∀ (fuel : Nat) (path : List NodeId), l.length ≤ fuel →
      walkBack prev start fuel v (path ++ [v]) = .ok (some (path ++ l)) := by
  induction h with
  | start =>
    intro fuel path hfuel
    cases fuel with
    | zero => simp at hfuel
    | succ fuel => rw [walkBack, if_pos rfl]
  | @next v u l hne hprev _ ih =>
    intro fuel path hfuel
    cases fuel with
    | zero => simp at hfuel
    | succ fuel =>
      rw [List.length_cons, Nat.succ_le_succ_iff] at hfuel
      rw [walkBack, if_neg hne]
      simp only [hprev]
      rw [ih fuel (path ++ [v]) hfuel, List.append_assoc]
      rfl

/-- The steps of a walk are keys of the matrix. -/
theorem steps_subset {start v : NodeId} {path : List NodeId} (h : IsWalk m.weights start v path) :
    steps path ⊆ m.allEdges.map fun e => (e.1, e.2.1) := by
  intro e he
  have hsome := h.edges e he
  rw [LatencyMatrix.weights, Option.isSome_map] at hsome
  obtain ⟨rtt, hrtt⟩ := Option.isSome_iff_exists.mp hsome
  exact List.mem_map.mpr ⟨(e.1, e.2, rtt), mem_allEdges.mpr hrtt, rfl⟩

/-- A walk that a search can find has at most one node more than there are edges. -/
theorem length_findable_le {start v : NodeId} {path : List NodeId}
    (h : Findable m.weights start v path) : path.length ≤ m.allEdges.length + 1 := by
  have hlen := length_le_of_nodup h.nodup (steps_subset h.walk)
  rwa [List.length_map] at hlen

/-- After a search, the loop from the destination back to the start collects a findable walk to a
destination that was found, and stops at once at one that was not. -/
theorem walkBack_search (std : StdOrder) (m : LatencyMatrix) {start destination : NodeId} {c₀ : Nat}
    (hc₀ : c₀ ≤ u64Max) (hne : destination ≠ start ∨ c₀ < u64Max) :
    let s := m.search std start c₀ destination
    let walked := walkBack s.prev start ((std.iterMap m.allEdges).length + 1) destination
      [destination]
    (∃ path, walked = .ok (some path) ∧ Findable m.weights start destination path.reverse ∧
      c₀ + pathCost m.weights path.reverse = s.distance destination ∧
      s.distance destination < u64Max) ∨
    (walked = .ok none ∧ s.prev destination = none ∧ destination ≠ start ∧
      ∀ path, IsWalk m.weights start destination path → u64Max ≤ c₀ + pathCost m.weights path) := by
  intro s walked
  obtain ⟨S, closed, hinv, hord, hsettled, hdist, hprev⟩ := search_ends std m start hc₀ destination
  by_cases hlt : S.dist destination < u64Max
  · left
    obtain ⟨l, htrace, hfindable, hcost⟩ := hinv.findable hord hsettled.best hlt
    refine ⟨l, ?_, hfindable, ?_, ?_⟩
    · rw [← hprev] at htrace
      apply walkBack_trace htrace _ []
      rw [(std.iterMap_perm _).length_eq, ← List.length_reverse]
      exact length_findable_le hfindable
    · rw [hcost, ← hdist]
    · rw [hdist]
      exact hlt
  · right
    have hmissing : s.prev destination = none := by
      rw [hprev]
      exact hsettled.missing hlt
    have hstart : destination ≠ start := by
      rcases hne with hne | hc
      · exact hne
      · rintro rfl
        -- the start itself is found at the cost it starts with
        exact hlt (hsettled.lt_cap (IsWalk.refl _ _) hc)
    refine ⟨?_, hmissing, hstart, ?_⟩
    · show walkBack s.prev start _ destination [destination] = _
      rw [walkBack, if_neg hstart, hmissing]
    · intro path hwalk
      have hbest := hsettled.best path hwalk
      omega

theorem dijkstra_eq (std : StdOrder) (r : MeshRouter) (destination : NodeId) :
    r.dijkstra std destination =
      (walkBack (r.matrix.search std r.localNode 0 destination).prev r.localNode
        ((std.iterMap r.matrix.allEdges).length + 1) destination [destination] >>=
          fun path => pure (path.map List.reverse)) :=
  rfl

/-- `dijkstra` returns a shortest path below `u64::MAX` that repeats no node, if there is a path
below it. -/
theorem dijkstra_spec (std : StdOrder) (r : MeshRouter) {destination : NodeId}
    (hne : destination ≠ r.localNode) :
    (∃ path, r.dijkstra std destination = .ok (some path) ∧ path.Nodup ∧
      Shortest r.matrix.weights r.localNode destination path ∧
      pathCost r.matrix.weights path < u64Max) ∨
    (r.dijkstra std destination = .ok none ∧
      ∀ path, IsWalk r.matrix.weights r.localNode destination path →
        u64Max ≤ pathCost r.matrix.weights path) := by
  rcases walkBack_search std r.matrix (Nat.zero_le _) (Or.inl hne) with
    ⟨path, hwalked, hfindable, hcost, hlt⟩ | ⟨hwalked, -, -, hnone⟩
  · left
    refine ⟨path.reverse, ?_, hfindable.nodup, hfindable.toShortest, ?_⟩
    · rw [dijkstra_eq, hwalked]
      rfl
    · omega
  · right
    refine ⟨?_, ?_⟩
    · rw [dijkstra_eq, hwalked]
      rfl
    · intro path hwalk
      have hle := hnone path hwalk
      omega

/-! ## The route -/

/-- The smoothed round-trip time of an edge in nanoseconds, none counted without an entry. -/
def LatencyMatrix.nanos (m : LatencyMatrix) (e : NodeId × NodeId) : Nat :=
  ((m.getRtt e.1 e.2).map Fin.val).getD 0

/-- A fold that adds the round-trip times of its edges gives their sum, if it is a `Duration`. -/
theorem foldlM_addDuration {f : Duration → NodeId × NodeId → Except Fault Duration}
    (hnone : ∀ total e, m.getRtt e.1 e.2 = none → f total e = .ok total)
    (hsome : ∀ total e rtt, m.getRtt e.1 e.2 = some rtt → f total e = addDuration total rtt)
    (l : List (NodeId × NodeId)) (total : Duration)
    (hsum : total.val + (l.map m.nanos).sum < 2 ^ 64 * 1000000000) :
    ∃ totalRtt, l.foldlM f total = .ok totalRtt ∧
      totalRtt.val = total.val + (l.map m.nanos).sum := by
  induction l generalizing total with
  | nil => exact ⟨total, rfl, rfl⟩
  | cons e l ih =>
    rw [List.map_cons, List.sum_cons] at hsum
    rw [List.foldlM_cons, List.map_cons, List.sum_cons]
    cases hrtt : m.getRtt e.1 e.2 with
    | none =>
      have hzero : m.nanos e = 0 := by rw [LatencyMatrix.nanos, hrtt]; rfl
      obtain ⟨totalRtt, hok, hval⟩ := ih total (by omega)
      rw [hnone total e hrtt]
      exact ⟨totalRtt, hok, by omega⟩
    | some rtt =>
      have hnanos : m.nanos e = rtt.val := by rw [LatencyMatrix.nanos, hrtt]; rfl
      have hlt : total.val + rtt.val < 2 ^ 64 * 1000000000 := by omega
      have hadd : addDuration total rtt = .ok ⟨total.val + rtt.val, hlt⟩ := dif_pos hlt
      obtain ⟨totalRtt, hok, hval⟩ := ih ⟨total.val + rtt.val, hlt⟩ (by
        show total.val + rtt.val + _ < _
        omega)
      rw [hsome total e rtt hrtt, hadd]
      refine ⟨totalRtt, hok, ?_⟩
      rw [hval]
      show total.val + rtt.val + _ = _
      omega

/-- `path_cost` adds up the round-trip times of the steps, if the sum is a `Duration`. -/
theorem pathCost_ok (r : MeshRouter) (path : List NodeId)
    (h : ((steps path).map r.matrix.nanos).sum < 2 ^ 64 * 1000000000) :
    ∃ totalRtt, r.pathCost path = .ok totalRtt ∧
      totalRtt.val = ((steps path).map r.matrix.nanos).sum := by
  have hfold : ∃ totalRtt, r.pathCost path = .ok totalRtt ∧
      totalRtt.val = (0 : Duration).val + ((steps path).map r.matrix.nanos).sum := by
    apply foldlM_addDuration
    · intro total e hnone
      simp only [hnone]
    · intro total e rtt hsome
      simp only [hsome]
    · simpa using h
  simpa using hfold

/-- The entry that `next_hop` makes of the path that `dijkstra` returns. -/
theorem nextHop_of_dijkstra {std : StdOrder} (hne : destination ≠ r.localNode)
    {path : List NodeId} (hpath : r.dijkstra std destination = .ok (some path))
    (hwalk : IsWalk r.matrix.weights r.localNode destination path) {totalRtt : Duration}
    (hcost : r.pathCost path = .ok totalRtt) :
    ∃ hop, path[1]? = some hop ∧
      r.nextHop std destination = .ok (some ⟨hop, totalRtt, path⟩) := by
  obtain ⟨hop, rest, rfl⟩ := hwalk.exists_cons (Ne.symm hne)
  refine ⟨hop, rfl, ?_⟩
  rw [MeshRouter.nextHop, if_neg hne, hpath]
  show (r.pathCost _ >>= _) = _
  rw [hcost]
  rfl

theorem nextHop_of_dijkstra_none {std : StdOrder} (hne : destination ≠ r.localNode)
    (hpath : r.dijkstra std destination = .ok none) : r.nextHop std destination = .ok none := by
  rw [MeshRouter.nextHop, if_neg hne, hpath]
  rfl

/-! ## Whole microseconds -/

/-- The cost of an edge: the whole microseconds of its smoothed round-trip time. -/
def LatencyMatrix.costs (m : LatencyMatrix) : Weights NodeId := fun src dst =>
  (m.getRtt src dst).map asMicros

/-- The sum of all edge costs. -/
def LatencyMatrix.totalCost (m : LatencyMatrix) : Nat :=
  (m.allEdges.map fun e => asMicros e.2.2).sum

theorem asMicros_le_totalCost {src dst : NodeId} {rtt : Duration}
    (h : m.getRtt src dst = some rtt) : asMicros rtt ≤ m.totalCost := by
  apply List.single_le_sum (fun n _ => Nat.zero_le n) _
  exact List.mem_map_of_mem (f := fun e => asMicros e.2.2) (mem_allEdges.mpr h)

/-- When all costs together are below `2 ^ 64 - 1`, the router computes with whole microseconds. -/
theorem weights_eq_costs (hsum : m.totalCost < 2 ^ 64 - 1) : m.weights = m.costs := by
  funext src dst
  rw [LatencyMatrix.weights, LatencyMatrix.costs]
  cases hrtt : m.getRtt src dst with
  | none => rfl
  | some rtt =>
    have hle := asMicros_le_totalCost hrtt
    have hmod : asMicros rtt % 2 ^ 64 = asMicros rtt := Nat.mod_eq_of_lt (by omega)
    exact congrArg some hmod

/-- The steps of a walk, each at its cost, cost at most what all edges do. -/
theorem pathCost_le_totalCost {path : List NodeId} {a b : NodeId} (hwalk : IsWalk m.costs a b path)
    (hnodup : (steps path).Nodup) : pathCost m.costs path ≤ m.totalCost := by
  have hsub : steps path ⊆ m.allEdges.map fun e => (e.1, e.2.1) := by
    intro e he
    have hsome := hwalk.edges e he
    rw [LatencyMatrix.costs, Option.isSome_map] at hsome
    obtain ⟨rtt, hrtt⟩ := Option.isSome_iff_exists.mp hsome
    exact List.mem_map.mpr ⟨(e.1, e.2, rtt), mem_allEdges.mpr hrtt, rfl⟩
  refine Nat.le_trans (pathCost_le_sum hnodup hsub) (Nat.le_of_eq ?_)
  rw [List.map_map, LatencyMatrix.totalCost]
  congr 1
  apply List.map_congr_left
  rintro ⟨src, dst, rtt⟩ hmem
  show ((m.getRtt src dst).map asMicros).getD 0 = asMicros rtt
  rw [mem_allEdges.mp hmem]
  rfl

/-- A route of the matrix is a `Duration`: the nanoseconds that its whole microseconds leave out are
less than one microsecond for each edge. -/
theorem nanos_lt {path : List NodeId} {a b : NodeId} (hwalk : IsWalk m.costs a b path)
    (hnodup : (steps path).Nodup) (hsum : m.totalCost < 2 ^ 64 - 1)
    (hlen : m.allEdges.length < 2 ^ 64) :
    ((steps path).map m.nanos).sum < 2 ^ 64 * 1000000000 := by
  have hone : ∀ e : NodeId × NodeId, m.nanos e ≤ 1000 * (m.costs e.1 e.2).getD 0 + 999 := by
    intro e
    rw [LatencyMatrix.nanos, LatencyMatrix.costs]
    cases m.getRtt e.1 e.2 with
    | none => exact Nat.zero_le _
    | some rtt =>
      show rtt.val ≤ 1000 * (rtt.val / 1000) + 999
      omega
  have hsteps : ∀ l : List (NodeId × NodeId), (l.map m.nanos).sum ≤
      1000 * (l.map fun e => (m.costs e.1 e.2).getD 0).sum + 999 * l.length := by
    intro l
    induction l with
    | nil => exact Nat.le_refl _
    | cons e l ih =>
      simp only [List.map_cons, List.sum_cons, List.length_cons]
      have hle := hone e
      omega
  have hcost := pathCost_le_totalCost hwalk hnodup
  rw [pathCost] at hcost
  have hle := hsteps (steps path)
  have hsub := steps_subset (m := m) (by rw [weights_eq_costs hsum]; exact hwalk)
  have hcount := (List.subperm_of_subset hnodup hsub).length_le
  rw [List.length_map] at hcount
  omega

/-- `next_hop` returns a route along a shortest path that repeats no node, or nothing when there is
no path. -/
theorem nextHop_cases (std : StdOrder) (r : MeshRouter) (destination : NodeId)
    (hne : destination ≠ r.localNode) (hsum : r.matrix.totalCost < 2 ^ 64 - 1)
    (hlen : r.matrix.allEdges.length < 2 ^ 64) :
    (∃ route, r.nextHop std destination = .ok (some route) ∧
      Shortest r.matrix.costs r.localNode destination route.path ∧ route.path.Nodup ∧
        route.path[1]? = some route.nextHop) ∨
    (r.nextHop std destination = .ok none ∧
      ∀ path, ¬IsWalk r.matrix.costs r.localNode destination path) := by
  have hweights := weights_eq_costs hsum
  rcases dijkstra_spec std r hne with ⟨path, hpath, hnodup, hshort, -⟩ | ⟨hpath, hnone⟩
  · left
    have hshort' := hshort
    rw [hweights] at hshort'
    obtain ⟨totalRtt, hcost, -⟩ :=
      pathCost_ok r _ (nanos_lt hshort'.walk (nodup_steps hnodup) hsum hlen)
    obtain ⟨hop, hhop, hresult⟩ := nextHop_of_dijkstra hne hpath hshort.walk hcost
    exact ⟨_, hresult, hshort', hnodup, hhop⟩
  · right
    refine ⟨nextHop_of_dijkstra_none hne hpath, ?_⟩
    -- a walk would be found: cut down to a simple one it is below the cap
    intro path hwalk
    obtain ⟨path', hwalk', hnodup, -⟩ := hwalk.exists_simple
    have hle := pathCost_le_totalCost hwalk' (nodup_steps hnodup)
    have hge := hnone path' (by rw [hweights]; exact hwalk')
    rw [hweights] at hge
    have hcap : u64Max = 2 ^ 64 - 1 := rfl
    omega

/-- `next_hop` returns a route exactly if there is a path to the destination, and then the path of
the route is a shortest one that repeats no node, and its second node is the next hop. The vector
that `all_edges` returns has less than `2 ^ 64` elements, as every vector has. -/
theorem nextHop_shortest (std : StdOrder) (r : MeshRouter) (destination : NodeId)
    (hne : destination ≠ r.localNode) (hsum : r.matrix.totalCost < 2 ^ 64 - 1)
    (hlen : r.matrix.allEdges.length < 2 ^ 64) :
    ∃ result, r.nextHop std destination = .ok result ∧
      (result.isSome ↔ ∃ path, IsWalk r.matrix.costs r.localNode destination path) ∧
      ∀ route, result = some route →
        Shortest r.matrix.costs r.localNode destination route.path ∧ route.path.Nodup ∧
          route.path[1]? = some route.nextHop := by
  rcases nextHop_cases std r destination hne hsum hlen with
    ⟨route, hresult, hspec⟩ | ⟨hresult, hnone⟩
  · refine ⟨some route, hresult, ⟨fun _ => ⟨route.path, hspec.1.walk⟩, fun _ => rfl⟩, ?_⟩
    intro route' heq
    rw [Option.some.injEq] at heq
    rw [← heq]
    exact hspec
  · refine ⟨none, hresult, ⟨nofun, ?_⟩, nofun⟩
    rintro ⟨path, hwalk⟩
    exact absurd hwalk (hnone path)

/-- From Sydney, London is nearer over Singapore than directly. -/
def triangle : LatencyMatrix :=
  ((LatencyMatrix.new.update "syd" "sgp" 50000000 0).update "sgp" "lon" 80000000 0).update "syd"
    "lon"
    200000000 0

theorem nextHop_shortest_triangle :
    ∃ result, (⟨"syd", triangle⟩ : MeshRouter).nextHop StdOrder.firstLeast "lon" = .ok result ∧
      (result.isSome ↔ ∃ path, IsWalk triangle.costs "syd" "lon" path) ∧
      ∀ route, result = some route →
        Shortest triangle.costs "syd" "lon" route.path ∧ route.path.Nodup ∧
          route.path[1]? = some route.nextHop :=
  nextHop_shortest StdOrder.firstLeast ⟨"syd", triangle⟩ "lon" (by decide) (by decide) (by decide)

end EntrouterLine.Mesh
