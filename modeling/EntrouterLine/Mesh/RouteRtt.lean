import EntrouterLine.Mesh.DiversePaths

/-!
# The round-trip time of a route

`next_hop` adds up the round-trip times along its path in nanoseconds (`nextHop_hopSum`).
`dijkstra_via` takes the distance that its search has found, which counts whole microseconds of 64
bits. So an entry of `top_paths` has the sum of its hops exactly if every hop is such a number of
microseconds (`entryVia_hopSum_iff`), and the two functions agree on all routes exactly if this
holds of every hop on a walk that is offered (`route_rtt_iff`).
-/

set_option autoImplicit false

namespace EntrouterLine.Mesh

open EntrouterLine.Lib
open EntrouterLine.Relay

/-- The sum of the smoothed round-trip times over the steps of a path, in nanoseconds. -/
def LatencyMatrix.hopSum (m : LatencyMatrix) (path : List NodeId) : Nat :=
  ((steps path).map m.nanos).sum

/-- The round-trip time of the entry is the sum over the steps of its path. -/
def RouteEntry.SumsHops (m : LatencyMatrix) (route : RouteEntry) : Prop :=
  route.totalRtt.val = m.hopSum route.path

/-- A whole number of microseconds that 64 bits can hold. -/
def WholeMicros (rtt : Duration) : Prop := rtt.val % 1000 = 0 ∧ asMicros rtt < 2 ^ 64

/-- All steps of a path have whole numbers of microseconds. -/
def LatencyMatrix.WholeHops (m : LatencyMatrix) (path : List NodeId) : Prop :=
  ∀ e ∈ steps path, ∀ rtt, m.getRtt e.1 e.2 = some rtt → WholeMicros rtt

variable {m : LatencyMatrix} {r : MeshRouter} {std : StdOrder} {destination via : NodeId}
  {rtt : Duration} {rest : List NodeId}

/-! ## The sum that `next_hop` computes -/

/-- A fold that adds round-trip times and returns has their sum. -/
theorem foldlM_addDuration_ok {f : Duration → NodeId × NodeId → Except Fault Duration}
    (hnone : ∀ total e, m.getRtt e.1 e.2 = none → f total e = .ok total)
    (hsome : ∀ total e rtt, m.getRtt e.1 e.2 = some rtt → f total e = addDuration total rtt)
    {l : List (NodeId × NodeId)} {total totalRtt : Duration} (h : l.foldlM f total = .ok totalRtt) :
    totalRtt.val = total.val + (l.map m.nanos).sum := by
  induction l generalizing total with
  | nil =>
    cases h
    rfl
  | cons e l ih =>
    rw [List.foldlM_cons] at h
    rw [List.map_cons, List.sum_cons, LatencyMatrix.nanos]
    cases hrtt : m.getRtt e.1 e.2 with
    | none =>
      rw [hnone total e hrtt] at h
      have hrest := ih h
      simpa using hrest
    | some rtt =>
      rw [hsome total e rtt hrtt, addDuration] at h
      split at h
      case isTrue hlt =>
        have hrest := ih h
        show totalRtt.val = total.val + (rtt.val + _)
        rw [hrest]
        exact Nat.add_assoc _ _ _
      case isFalse => cases h

theorem pathCost_hopSum {path : List NodeId} {totalRtt : Duration}
    (h : r.pathCost path = .ok totalRtt) : totalRtt.val = r.matrix.hopSum path := by
  have hsum : totalRtt.val = (0 : Duration).val + ((steps path).map r.matrix.nanos).sum := by
    apply foldlM_addDuration_ok _ _ h
    · intro total e hnone
      simp only [hnone]
    · intro total e rtt hsome
      simp only [hsome]
  rw [hsum]
  exact Nat.zero_add _

/-- What `next_hop` returns is made of a path and its cost. -/
theorem pathCost_of_nextHop {route : RouteEntry}
    (h : r.nextHop std destination = .ok (some route)) :
    r.pathCost route.path = .ok route.totalRtt := by
  rw [MeshRouter.nextHop] at h
  split at h
  case isTrue => cases h
  case isFalse =>
    cases hpath : r.dijkstra std destination with
    | error fault =>
      rw [hpath] at h
      cases h
    | ok found =>
      rw [hpath] at h
      -- only a path with a hop gives an entry
      rcases found with _ | _ | ⟨first, _ | ⟨hop, rest⟩⟩
      case none => cases h
      case some.nil => cases h
      case some.cons.nil => cases h
      case some.cons.cons =>
        have hbind : (r.pathCost (first :: hop :: rest) >>= fun totalRtt =>
            pure (some (RouteEntry.mk hop totalRtt (first :: hop :: rest)))) =
              .ok (some route) := h
        cases hcost : r.pathCost (first :: hop :: rest) with
        | error fault =>
          rw [hcost] at hbind
          cases hbind
        | ok totalRtt =>
          rw [hcost] at hbind
          cases hbind
          exact hcost

theorem nextHop_hopSum {route : RouteEntry} (h : r.nextHop std destination = .ok (some route)) :
    route.SumsHops r.matrix :=
  pathCost_hopSum (pathCost_of_nextHop h)

/-! ## The distance that `dijkstra_via` computes -/

/-- Two sums are equal exactly if all terms are, when no term is smaller. -/
theorem sum_map_eq_iff {β : Type} {l : List β} {f g : β → Nat} (hle : ∀ e ∈ l, f e ≤ g e) :
    (l.map f).sum = (l.map g).sum ↔ ∀ e ∈ l, f e = g e := by
  induction l with
  | nil => simp
  | cons e l ih =>
    have hrest := ih fun e' he' => hle e' (List.mem_cons_of_mem _ he')
    have hhead := hle e List.mem_cons_self
    have htail : (l.map f).sum ≤ (l.map g).sum := by
      apply List.sum_le_sum
      intro e' he'
      exact hle e' (List.mem_cons_of_mem _ he')
    rw [List.map_cons, List.map_cons, List.sum_cons, List.sum_cons, List.forall_mem_cons, ← hrest]
    omega

theorem edgeCost_eq_iff (rtt : Duration) :
    1000 * edgeCost rtt ≤ rtt.val ∧ (1000 * edgeCost rtt = rtt.val ↔ WholeMicros rtt) := by
  simp only [edgeCost, WholeMicros, asMicros]
  omega

/-- The cost of a walk, in microseconds, is the sum of its hops exactly if they are whole. -/
theorem pathCost_eq_hopSum_iff {a b : NodeId} {path : List NodeId}
    (hwalk : IsWalk m.weights a b path) :
    1000 * pathCost m.weights path = m.hopSum path ↔ m.WholeHops path := by
  have hstep : ∀ e ∈ steps path, ∃ rtt, m.getRtt e.1 e.2 = some rtt ∧ m.nanos e = rtt.val ∧
      (m.weights e.1 e.2).getD 0 = edgeCost rtt := by
    intro e he
    have hedge := hwalk.edges e he
    rw [LatencyMatrix.weights, Option.isSome_map] at hedge
    obtain ⟨rtt, hrtt⟩ := Option.isSome_iff_exists.mp hedge
    refine ⟨rtt, hrtt, ?_, ?_⟩
    · rw [LatencyMatrix.nanos, hrtt]
      rfl
    · rw [LatencyMatrix.weights, hrtt]
      rfl
  rw [pathCost, LatencyMatrix.hopSum, ← List.sum_map_mul_left, sum_map_eq_iff]
  · constructor
    · intro hall e he rtt hrtt
      obtain ⟨rtt', hrtt', hnanos, hcost⟩ := hstep e he
      rw [hrtt, Option.some.injEq] at hrtt'
      subst hrtt'
      apply (edgeCost_eq_iff rtt).2.mp
      rw [← hcost, ← hnanos]
      exact hall e he
    · intro hall e he
      obtain ⟨rtt, hrtt, hnanos, hcost⟩ := hstep e he
      rw [hcost, hnanos]
      exact (edgeCost_eq_iff rtt).2.mpr (hall e he rtt hrtt)
  · intro e he
    obtain ⟨rtt, -, hnanos, hcost⟩ := hstep e he
    rw [hcost, hnanos]
    exact (edgeCost_eq_iff rtt).1

/-- An entry of `top_paths` has the sum of its hops exactly if these are whole. -/
theorem entryVia_hopSum_iff (h : r.Offers destination via rtt rest) :
    (r.entryVia via rtt rest).SumsHops r.matrix ↔ r.matrix.WholeHops (r.localNode :: rest) := by
  have hedge : r.matrix.weights r.localNode via = some (edgeCost rtt) := by
    rw [LatencyMatrix.weights, h.edge]
    rfl
  obtain ⟨hwalk, hcost⟩ := h.findable.walk.cons hedge
  have hlt : edgeCost rtt + pathCost r.matrix.weights rest < 2 ^ 64 := by
    have hcap : u64Max = 2 ^ 64 - 1 := rfl
    rcases h.below with hlt | rfl
    · omega
    · have hle := edgeCost_le rtt
      rw [h.findable.eq_singleton, pathCost_singleton]
      omega
  rw [← pathCost_eq_hopSum_iff hwalk, hcost, RouteEntry.SumsHops, MeshRouter.entryVia,
    val_fromMicros hlt, Nat.mul_comm]

/-- Every entry that `next_hop` and `top_paths` return has the sum of its hops, and they have the
same one for the same path, exactly if every hop on a walk that the search from a neighbour can
find, and the hop to the neighbour, is a whole number of microseconds of 64 bits. -/
theorem route_rtt_iff (r : MeshRouter) (destination : NodeId) :
    (∀ std std' n,
      (∀ route, r.nextHop std destination = .ok (some route) → route.SumsHops r.matrix) ∧
      (∀ routes, r.topPaths std' destination n = .ok routes →
        ∀ route ∈ routes, route.SumsHops r.matrix) ∧
      (∀ route routes, r.nextHop std destination = .ok (some route) →
        r.topPaths std' destination n = .ok routes → ∀ route' ∈ routes,
          route'.path = route.path → route'.totalRtt = route.totalRtt)) ↔
    ∀ via rtt rest, destination ≠ r.localNode → r.Offers destination via rtt rest →
      r.matrix.WholeHops (r.localNode :: rest) := by
  constructor
  · intro hsums via rtt rest hne hoffers
    -- each walk that can be found is returned in some order of the standard library
    obtain ⟨std, n, routes, htop, hroute⟩ := topPaths_of_offers hne hoffers
    exact (entryVia_hopSum_iff hoffers).mp ((hsums std std n).2.1 routes htop _ hroute)
  · intro hwhole std std' n
    have htops : ∀ routes, r.topPaths std' destination n = .ok routes →
        ∀ route ∈ routes, route.SumsHops r.matrix := by
      intro routes htop route hroute
      by_cases hne : destination = r.localNode
      · rw [MeshRouter.topPaths, if_pos hne] at htop
        cases htop
        cases hroute
      · obtain ⟨via, rtt, rest, hoffers, rfl⟩ := offers_of_topPaths hne htop hroute
        exact (entryVia_hopSum_iff hoffers).mpr (hwhole via rtt rest hne hoffers)
    refine ⟨fun route hok => nextHop_hopSum hok, htops, ?_⟩
    intro route routes hok htop route' hroute' hpath
    apply Fin.ext
    have hsum : route'.totalRtt.val = r.matrix.hopSum route'.path :=
      htops routes htop route' hroute'
    rw [hsum, hpath]
    exact (nextHop_hopSum hok).symm

/-- A link whose first sample was one and a half microseconds. -/
def halfMicro : LatencyMatrix := LatencyMatrix.new.update "a" "b" 1500 0

/-- Both functions return the direct path, `next_hop` with its 1500 ns and `top_paths` with 1000
ns. -/
theorem halfMicro_differs :
    ∃ n routes route, (⟨"a", halfMicro⟩ : MeshRouter).nextHop StdOrder.firstLeast "b" =
        .ok (some ⟨"b", 1500, ["a", "b"]⟩) ∧
      (⟨"a", halfMicro⟩ : MeshRouter).topPaths StdOrder.firstLeast "b" n = .ok routes ∧
      route ∈ routes ∧ route.path = ["a", "b"] ∧ route.totalRtt = 1000 ∧
      halfMicro.hopSum ["a", "b"] = 1500 ∧ ¬route.SumsHops halfMicro := by
  have hrtt : (⟨"a", halfMicro⟩ : MeshRouter).matrix.getRtt "a" "b" = some 1500 := by decide
  obtain ⟨routes, htop, hmem⟩ :=
    topPaths_mem StdOrder.firstLeast ⟨"a", halfMicro⟩ "b" (by decide)
  have hroute : (⟨"a", halfMicro⟩ : MeshRouter).entryVia "b" 1500 ["b"] ∈ routes := by
    refine (hmem _).mpr ⟨"b", by decide, ?_⟩
    rcases dijkstraVia_outcome (r := ⟨"a", halfMicro⟩) StdOrder.firstLeast "b" hrtt with
      ⟨rest, hoffers, hok⟩ | ⟨-, hne, -⟩
    · rw [hok, hoffers.findable.eq_singleton]
    · exact absurd rfl hne
  have hnext : (⟨"a", halfMicro⟩ : MeshRouter).nextHop StdOrder.firstLeast "b" =
      .ok (some ⟨"b", 1500, ["a", "b"]⟩) := by
    have hsearch : halfMicro.search StdOrder.firstLeast "a" 0 "b" = _ :=
      heapLoop_of_heapRounds (n := 3) rfl
    have hpath : (⟨"a", halfMicro⟩ : MeshRouter).dijkstra StdOrder.firstLeast "b" =
        .ok (some ["a", "b"]) := by
      rw [dijkstra_eq, hsearch]
      rfl
    have hcost : (⟨"a", halfMicro⟩ : MeshRouter).pathCost ["a", "b"] = .ok 1500 := by decide
    obtain ⟨hop, hhop, hok⟩ := nextHop_of_dijkstra (by decide) hpath
      ⟨rfl, rfl, by decide⟩ hcost
    cases hhop
    exact hok
  refine ⟨routes.length, routes, _, hnext, ?_, hroute, rfl, by decide, by decide, ?_⟩
  · rw [htop, List.take_length]
  · rw [RouteEntry.SumsHops]
    decide

end EntrouterLine.Mesh
