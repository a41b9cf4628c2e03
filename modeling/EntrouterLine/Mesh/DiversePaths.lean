import EntrouterLine.Mesh.PongAttribution
import EntrouterLine.Mesh.RouterLoops
import EntrouterLine.Mesh.TopPaths

/-!
# Are the diverse paths simple

The search of `dijkstra_via` starts at the neighbour and excludes no node, so it may come back
through the local node. `top_paths` lists what the searches from the neighbours find
(`topPaths_mem`), and they can find every walk that `Offers` describes, each in some order of the
ties (`Offers.found`). So its paths are simple exactly if no walk that is offered goes through the
local node (`paths_simple_iff`). In a star, where all routes lead through the local node, every
path but the direct one comes back to it (`star_path_returns`).
-/

set_option autoImplicit false

namespace EntrouterLine.Mesh

open EntrouterLine.Lib
open EntrouterLine.Lib.LittleEndian
open EntrouterLine.Relay

variable {r : MeshRouter} {std : StdOrder} {destination via : NodeId} {rtt : Duration}
  {rest : List NodeId}

/-! ## A heap that prefers some nodes -/

/-- One entry may be popped before another: it costs less, or as much and its node comes first. -/
def before (order : List NodeId) (a b : DijkstraState) : Bool :=
  decide (a.costUs < b.costUs ∨
    a.costUs = b.costUs ∧ order.idxOf a.node ≤ order.idxOf b.node)

/-- Takes the entry of least cost whose node comes first in the list. -/
def popFirst (order : List NodeId) (heap : List DijkstraState) :
    Option (DijkstraState × List DijkstraState) :=
  match heap.mergeSort (before order) with
  | [] => none
  | x :: rest => some (x, rest)

theorem popFirst_none {order : List NodeId} {heap : List DijkstraState}
    (h : popFirst order heap = none) : heap = [] := by
  rw [popFirst] at h
  split at h
  case h_1 hsort =>
    have hperm := List.mergeSort_perm heap (before order)
    rw [hsort] at hperm
    exact hperm.symm.eq_nil
  case h_2 => cases h

theorem popFirst_some {order : List NodeId} {heap : List DijkstraState} {top : DijkstraState}
    {rest : List DijkstraState} (h : popFirst order heap = some (top, rest)) :
    heap.Perm (top :: rest) ∧ ∀ x ∈ rest, before order top x := by
  rw [popFirst] at h
  split at h
  case h_1 => cases h
  case h_2 x rest' hsort =>
    rw [Option.some.injEq, Prod.mk.injEq] at h
    obtain ⟨rfl, rfl⟩ := h
    have hsorted : (heap.mergeSort (before order)).Pairwise fun a b => before order a b := by
      apply List.pairwise_mergeSort
      · intro a b c hab hbc
        simp only [before, decide_eq_true_eq] at *
        omega
      · intro a b
        simp only [before, Bool.or_eq_true, decide_eq_true_eq]
        omega
    rw [hsort] at hsorted
    refine ⟨?_, (List.pairwise_cons.mp hsorted).1⟩
    rw [← hsort]
    exact (List.mergeSort_perm heap (before order)).symm

theorem perm_iterMap_id (l : List (NodeId × NodeId × Duration)) : (id l).Perm l :=
  List.Perm.refl l

/-- The order of ties in which the nodes of a list come first. -/
def StdOrder.preferring (order : List NodeId) : StdOrder where
  iterMap := id
  iterSet := id
  pop := popFirst order
  iterMap_perm := perm_iterMap_id
  iterSet_perm := List.Perm.refl
  pop_none := fun _ => popFirst_none
  pop_some := by
    intro heap top rest h
    obtain ⟨hperm, hfirst⟩ := popFirst_some h
    refine ⟨hperm, ?_⟩
    intro x hx
    have hbefore := hfirst x hx
    simp only [before, decide_eq_true_eq] at hbefore
    omega

theorem prefers_of_pop {order : List NodeId} (s : Search) (costUs : Nat) (node : NodeId)
    (heap : List DijkstraState)
    (hpop : (StdOrder.preferring order).pop s.heap = some (⟨costUs, node⟩, heap)) :
    Labels.Prefers order s.labels costUs node := by
  obtain ⟨hperm, hfirst⟩ := popFirst_some hpop
  rintro ⟨k, v⟩ hmem hcost
  rcases List.mem_cons.mp (hperm.mem_iff.mp hmem) with heq | hrest
  · rw [DijkstraState.mk.injEq] at heq
    rw [heq.2]
  · have hbefore := hfirst _ hrest
    simp only [before, decide_eq_true_eq] at hbefore
    have hk : k = costUs := hcost
    show order.idxOf node ≤ order.idxOf v
    omega

/-- Every walk that is offered is what `dijkstra_via` finds in some order of the ties. -/
theorem MeshRouter.Offers.found (h : r.Offers destination via rtt rest) :
    r.dijkstraVia (StdOrder.preferring rest) destination via =
      .ok (some (r.entryVia via rtt rest)) := by
  by_cases hvia : via = destination
  · subst hvia
    rcases dijkstraVia_outcome (StdOrder.preferring rest) via h.edge with
      ⟨rest', hoffers, hok⟩ | ⟨-, hne, -⟩
    · rw [hok, hoffers.findable.eq_singleton, h.findable.eq_singleton]
    · exact absurd rfl hne
  · have hlt := h.below.resolve_right hvia
    obtain ⟨S, closed, hinv, hfol, hover, hdist, hprev⟩ :=
      search_rounds (Labels.Prefers rest) (StdOrder.preferring rest) prefers_of_pop r.matrix via
        (edgeCost_le rtt) destination
        (I := fun S closed => S.Follows r.matrix.weights (edgeCost rtt) rest closed)
        (fun p q hinv hfol hround => hfol.round h.findable hlt hinv hround)
        (Labels.follows_start h.findable hlt fun v hv =>
          (distance_start _ via _ v).trans (if_neg hv))
    have htrace := hfol.trace hinv h.findable hlt hover
    obtain ⟨-, hcost⟩ := hinv.walk htrace
    rw [← hprev] at htrace
    have hlen := length_findable_le h.findable
    have hfound := dijkstraVia_of_walkBack (StdOrder.preferring rest) h.edge rest.reverse
      (walkBack_trace htrace _ [] (by
        rw [((StdOrder.preferring rest).iterMap_perm _).length_eq, List.length_reverse]
        exact hlen))
      (by rw [hdist, hcost])
    rw [List.reverse_reverse] at hfound
    exact hfound

/-! ## What `top_paths` lists -/

/-- A `mapM` of calls that all return lists their results. -/
theorem exists_mapM {α β ε : Type} {f : α → Except ε β} {l : List α}
    (h : ∀ x ∈ l, ∃ y, f x = .ok y) :
    ∃ ys, l.mapM f = .ok ys ∧ ∀ y, y ∈ ys ↔ ∃ x ∈ l, f x = .ok y := by
  induction l with
  | nil => exact ⟨[], rfl, by simp⟩
  | cons x l ih =>
    obtain ⟨y, hy⟩ := h x List.mem_cons_self
    obtain ⟨ys, hys, hmem⟩ := ih fun x' hx' => h x' (List.mem_cons_of_mem _ hx')
    refine ⟨y :: ys, ?_, ?_⟩
    · rw [List.mapM_cons, hy, hys]
      rfl
    · intro y'
      rw [List.mem_cons, hmem]
      constructor
      · rintro (rfl | ⟨x', hx', hok⟩)
        · exact ⟨x, List.mem_cons_self, hy⟩
        · exact ⟨x', List.mem_cons_of_mem _ hx', hok⟩
      · rintro ⟨x', hx', hok⟩
        rcases List.mem_cons.mp hx' with rfl | hx'
        · left
          rw [hy, Except.ok.injEq] at hok
          exact hok.symm
        · exact Or.inr ⟨x', hx', hok⟩

/-- `top_paths` always returns: the best `n` of the entries that the searches from the neighbours
find. -/
theorem topPaths_mem (std : StdOrder) (r : MeshRouter) (destination : NodeId)
    (hne : destination ≠ r.localNode) :
    ∃ routes : List RouteEntry, (∀ n, r.topPaths std destination n = .ok (routes.take n)) ∧
      ∀ route, route ∈ routes ↔ ∃ via, (r.matrix.getRtt r.localNode via).isSome ∧
        r.dijkstraVia std destination via = .ok (some route) := by
  obtain ⟨found, hfound, hmem⟩ := exists_mapM (f := r.dijkstraVia std destination)
    (l := std.iterSet (r.neighbors (std.iterMap r.matrix.allEdges))) (by
      intro via hvia
      obtain ⟨rtt, hrtt⟩ := Option.isSome_iff_exists.mp ((mem_neighbors std).mp hvia)
      rcases dijkstraVia_outcome std destination hrtt with ⟨rest, -, hok⟩ | ⟨hok, -⟩
      · exact ⟨_, hok⟩
      · exact ⟨_, hok⟩)
  refine ⟨found.reduceOption.mergeSort fun a b => a.totalRtt ≤ b.totalRtt, ?_, ?_⟩
  · intro n
    rw [MeshRouter.topPaths, if_neg hne]
    show (List.mapM _ _ >>= _) = _
    rw [hfound]
    rfl
  · intro route
    rw [List.mem_mergeSort, List.reduceOption_mem_iff, hmem]
    simp only [mem_neighbors]

/-- An entry of `top_paths` is one for a walk that is offered. -/
theorem offers_of_topPaths (hne : destination ≠ r.localNode) {n : Nat} {routes : List RouteEntry}
    (htop : r.topPaths std destination n = .ok routes) {route : RouteEntry}
    (hroute : route ∈ routes) :
    ∃ via rtt rest, r.Offers destination via rtt rest ∧ route = r.entryVia via rtt rest := by
  obtain ⟨all, hall, hmem⟩ := topPaths_mem std r destination hne
  rw [hall n, Except.ok.injEq] at htop
  subst htop
  obtain ⟨via, hvia, hok⟩ := (hmem route).mp (List.mem_of_mem_take hroute)
  obtain ⟨rtt, hrtt⟩ := Option.isSome_iff_exists.mp hvia
  rcases dijkstraVia_outcome std destination hrtt with ⟨rest, hoffers, hok'⟩ | ⟨hok', -⟩
  · rw [hok, Except.ok.injEq, Option.some.injEq] at hok'
    exact ⟨via, rtt, rest, hoffers, hok'⟩
  · rw [hok, Except.ok.injEq] at hok'
    cases hok'

/-- A walk that is offered is listed in some order of the ties, by a call that asks for enough
paths. -/
theorem topPaths_of_offers (hne : destination ≠ r.localNode)
    (h : r.Offers destination via rtt rest) :
    ∃ std n routes, r.topPaths std destination n = .ok routes ∧
      r.entryVia via rtt rest ∈ routes := by
  obtain ⟨all, hall, hmem⟩ := topPaths_mem (StdOrder.preferring rest) r destination hne
  refine ⟨StdOrder.preferring rest, all.length, all, ?_, ?_⟩
  · rw [hall, List.take_length]
  · apply (hmem _).mpr
    refine ⟨via, ?_, h.found⟩
    rw [h.edge]
    rfl

/-- All paths that `top_paths` returns, in any order of the entries and the ties and for any number
of them, are simple exactly if no walk that the search from a neighbour can find goes through the
local node. -/
theorem paths_simple_iff (r : MeshRouter) (destination : NodeId) (hne : destination ≠ r.localNode) :
    (∀ std n routes, r.topPaths std destination n = .ok routes →
      ∀ route ∈ routes, route.path.Nodup) ↔
    ∀ via rtt rest, r.Offers destination via rtt rest → r.localNode ∉ rest := by
  constructor
  · intro hsimple via rtt rest hoffers
    obtain ⟨std, n, routes, htop, hroute⟩ := topPaths_of_offers hne hoffers
    exact (List.nodup_cons.mp (hsimple std n routes htop _ hroute)).1
  · intro havoids std n routes htop route hroute
    obtain ⟨via, rtt, rest, hoffers, rfl⟩ := offers_of_topPaths hne htop hroute
    exact List.nodup_cons.mpr ⟨havoids via rtt rest hoffers, hoffers.findable.nodup⟩

theorem paths_simple_iff_triangle :
    (∀ std n routes, (⟨"syd", triangle⟩ : MeshRouter).topPaths std "lon" n = .ok routes →
      ∀ route ∈ routes, route.path.Nodup) ↔
    ∀ via rtt rest, (⟨"syd", triangle⟩ : MeshRouter).Offers "lon" via rtt rest → "syd" ∉ rest :=
  paths_simple_iff ⟨"syd", triangle⟩ "lon" (by decide)

/-- Both peers of the local node are probed, and both answer. -/
def starProbes : List ProbeEvent :=
  [.createPing "sgp" 0 fun _ => 0, .createPing "lon" 0 fun _ => 0,
    .handlePong "sgp" (toBytes 4 1) 50000000 50000000 50000000,
    .handlePong "lon" (toBytes 4 2) 80000000 80000000 80000000]

/-- The matrix after these probes. -/
def star : LatencyMatrix :=
  (LatencyMatrix.new.record "syd" "sgp" 50000000 50000000 50000000).record "syd" "lon" 80000000
    80000000 80000000

/-- What `dijkstra_via` returns if a cut-off loop has ended and the predecessors lead back. -/
theorem dijkstraVia_of_heapRounds (std : StdOrder)
    (hrtt : r.matrix.getRtt r.localNode via = some rtt) (n : Nat) (path : List NodeId)
    (hrounds : (heapRounds std (std.iterMap r.matrix.allEdges) destination n
      (Search.start (std.iterSet r.matrix.nodes) via (edgeCost rtt))).map (fun s =>
        (walkBack s.prev via ((std.iterMap r.matrix.allEdges).length + 1) destination [destination],
          s.distance destination)) =
      some (.ok (some path), edgeCost rtt + pathCost r.matrix.weights path.reverse)) :
    r.dijkstraVia std destination via = .ok (some (r.entryVia via rtt path.reverse)) := by
  obtain ⟨s, hs, hfound⟩ := Option.map_eq_some_iff.mp hrounds
  have hsearch : r.matrix.search std via (edgeCost rtt) destination = s :=
    heapLoop_of_heapRounds hs
  rw [Prod.mk.injEq, ← hsearch] at hfound
  exact dijkstraVia_of_walkBack std hrtt path hfound.1 hfound.2

/-- From Singapore, London is only reached through Sydney. -/
theorem dijkstraVia_star :
    (⟨"syd", star⟩ : MeshRouter).dijkstraVia StdOrder.firstLeast "lon" "sgp" =
      .ok (some (MeshRouter.entryVia ⟨"syd", star⟩ "sgp" 50000000 ["sgp", "syd", "lon"])) := by
  have hrtt : star.getRtt "syd" "sgp" = some 50000000 := by decide
  exact dijkstraVia_of_heapRounds StdOrder.firstLeast hrtt 5 ["lon", "syd", "sgp"] rfl

/-- The alternative path to London leaves Sydney and comes back to it. -/
theorem star_path_returns :
    ∃ l os, Machine.run probeStep (ProbeLog.start "syd") starProbes = .ok (l, os) ∧
      ∃ n routes, (⟨"syd", l.prober.matrix⟩ : MeshRouter).topPaths StdOrder.firstLeast "lon" n =
        .ok routes ∧
      ∃ route ∈ routes, route.path = ["syd", "sgp", "syd", "lon"] ∧ ¬route.path.Nodup := by
  have hrun : Machine.run probeStep (ProbeLog.start "syd") starProbes = .ok (_, _) := rfl
  refine ⟨_, _, hrun, ?_⟩
  obtain ⟨routes, htop, hmem⟩ :=
    topPaths_mem StdOrder.firstLeast ⟨"syd", star⟩ "lon" (by decide)
  refine ⟨routes.length, routes, ?_, _, (hmem _).mpr ⟨"sgp", by decide, dijkstraVia_star⟩, rfl, ?_⟩
  · have h := htop routes.length
    rw [List.take_length] at h
    exact h
  · decide

end EntrouterLine.Mesh
