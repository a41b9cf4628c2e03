import Mathlib.Data.List.ReduceOption
import Mathlib.Data.Set.Card
import EntrouterLine.Mesh.NextHop

/-!
# The best paths by first hop

`top_paths` runs a search from every neighbour, starting at the cost of the edge to it. What such a
search finds is a cheapest walk that takes this edge first (`dijkstraVia_cases`), also where the
walk comes back to the local node, so the candidates are the neighbours that can reach the
destination (`topPaths_candidates`). Sorted and cut off, they agree with `next_hop`
(`topPaths_agrees`).
-/

set_option autoImplicit false

namespace EntrouterLine.Mesh

open EntrouterLine.Lib
open EntrouterLine.Relay

variable {m : LatencyMatrix} {r : MeshRouter} {destination : NodeId}

/-- `c` is the minimum cost over all walks that leave `a` by the edge to `v` and end at `b`. -/
structure LeastVia (w : Weights NodeId) (a v b : NodeId) (c : Nat) : Prop where
  attained : ∃ path, IsWalk w a b path ∧ path[1]? = some v ∧ pathCost w path = c
  least : ∀ path, IsWalk w a b path → path[1]? = some v → c ≤ pathCost w path

theorem LeastVia.unique {w : Weights NodeId} {a v b : NodeId} {c c' : Nat}
    (h : LeastVia w a v b c) (h' : LeastVia w a v b c') : c = c' := by
  obtain ⟨path, hwalk, hv, hcost⟩ := h.attained
  obtain ⟨path', hwalk', hv', hcost'⟩ := h'.attained
  have hle := h.least path' hwalk' hv'
  have hge := h'.least path hwalk hv
  omega

/-- The walks that leave by an edge are the walks from its end, with the edge before them. -/
theorem walk_via_iff {w : Weights NodeId} {a v b : NodeId} {path : List NodeId} :
    (IsWalk w a b path ∧ path[1]? = some v) ↔
      ∃ rest n, path = a :: rest ∧ w a v = some n ∧ IsWalk w v b rest := by
  constructor
  · rintro ⟨hwalk, hv⟩
    match path, hwalk, hv with
    | x :: y :: l, hwalk, hv =>
      have hx : x = a := by simpa using hwalk.head
      have hy : y = v := by simpa using hv
      subst hx hy
      obtain ⟨⟨n, hedge, -⟩, hrest⟩ := hwalk.uncons
      exact ⟨y :: l, n, rfl, hedge, hrest⟩
  · rintro ⟨rest, n, rfl, hedge, hrest⟩
    refine ⟨(hrest.cons hedge).1, ?_⟩
    rw [List.getElem?_cons_succ, ← List.head?_eq_getElem?]
    exact hrest.head

/-- A shortest walk from the end of an edge is a cheapest one by that edge. -/
theorem leastVia_of_shortest {w : Weights NodeId} {a v b : NodeId} {n : Nat} {path : List NodeId}
    (h : Shortest w v b path) (hedge : w a v = some n) :
    LeastVia w a v b (n + pathCost w path) := by
  obtain ⟨hwalk, hcost⟩ := h.walk.cons hedge
  refine ⟨⟨a :: path, hwalk, (walk_via_iff.mpr ⟨path, n, rfl, hedge, h.walk⟩).2, hcost⟩, ?_⟩
  intro path' hwalk' hv
  obtain ⟨rest, n', rfl, hedge', hrest⟩ := walk_via_iff.mp ⟨hwalk', hv⟩
  rw [hedge, Option.some.injEq] at hedge'
  subst hedge'
  rw [(hrest.cons hedge).2]
  exact Nat.add_le_add_left (h.least rest hrest) n

/-- The out-neighbours of the local node from which there is a walk to the destination. -/
def MeshRouter.reachableVia (r : MeshRouter) (destination : NodeId) : Set NodeId :=
  {v | (r.matrix.costs r.localNode v).isSome ∧ ∃ path, IsWalk r.matrix.costs v destination path}

/-! ## The search from one neighbour -/

/-- What the search from the neighbour `via` can find: a walk from there to the destination that
costs less than `u64::MAX` together with the edge to the neighbour, unless the neighbour is the
destination. -/
structure MeshRouter.Offers (r : MeshRouter) (destination via : NodeId) (rtt : Duration)
    (rest : List NodeId) : Prop where
  edge : r.matrix.getRtt r.localNode via = some rtt
  findable : Findable r.matrix.weights via destination rest
  below : edgeCost rtt + Lib.pathCost r.matrix.weights rest < u64Max ∨ via = destination

/-- The entry for a walk from the neighbour `via`. -/
def MeshRouter.entryVia (r : MeshRouter) (via : NodeId) (rtt : Duration) (rest : List NodeId) :
    RouteEntry :=
  ⟨via, fromMicros (edgeCost rtt + Lib.pathCost r.matrix.weights rest), r.localNode :: rest⟩

/-- What `dijkstra_via` returns if its loop collects a path. -/
theorem dijkstraVia_of_walkBack (std : StdOrder) {via : NodeId} {rtt : Duration}
    (hrtt : r.matrix.getRtt r.localNode via = some rtt) (path : List NodeId)
    (hwalked : walkBack (r.matrix.search std via (edgeCost rtt) destination).prev via
      ((std.iterMap r.matrix.allEdges).length + 1) destination [destination] = .ok (some path))
    (hcost : (r.matrix.search std via (edgeCost rtt) destination).distance destination =
      edgeCost rtt + pathCost r.matrix.weights path.reverse) :
    r.dijkstraVia std destination via = .ok (some (r.entryVia via rtt path.reverse)) := by
  have hfound : ¬(((r.matrix.search std via (edgeCost rtt) destination).prev destination).isNone ∧
      via ≠ destination) := by
    rintro ⟨hprev, hne⟩
    rw [walkBack, if_neg (Ne.symm hne), Option.isNone_iff_eq_none.mp hprev] at hwalked
    cases hwalked
  simp only [MeshRouter.dijkstraVia, hrtt]
  apply (if_neg hfound).trans
  rw [LatencyMatrix.search] at hwalked hcost
  have hpath : (path ++ [r.localNode]).reverse = r.localNode :: path.reverse := by simp
  rw [hwalked, MeshRouter.entryVia, ← hcost, ← hpath]
  rfl

/-- From a neighbour, `dijkstra_via` returns an entry for a walk that its search can find, or
nothing when no walk is below `u64::MAX`. -/
theorem dijkstraVia_outcome (std : StdOrder) (destination : NodeId) {via : NodeId} {rtt : Duration}
    (hrtt : r.matrix.getRtt r.localNode via = some rtt) :
    (∃ rest, r.Offers destination via rtt rest ∧
      r.dijkstraVia std destination via = .ok (some (r.entryVia via rtt rest))) ∨
    (r.dijkstraVia std destination via = .ok none ∧ destination ≠ via ∧
      ∀ path, IsWalk r.matrix.weights via destination path →
        u64Max ≤ edgeCost rtt + pathCost r.matrix.weights path) := by
  -- a search for its own start ends at once, and the way back is the start alone
  by_cases hvia : destination = via
  · subst hvia
    left
    refine ⟨[destination], ⟨hrtt, Findable.refl _ _, Or.inr rfl⟩, ?_⟩
    obtain ⟨S, closed, hinv, -, -, hdist, -⟩ :=
      search_ends std r.matrix destination (edgeCost_le rtt) destination
    apply dijkstraVia_of_walkBack std hrtt [destination]
    · rw [walkBack, if_pos rfl]
    · rw [hdist, hinv.source]
      rfl
  · rcases walkBack_search std r.matrix (edgeCost_le rtt) (Or.inl hvia) with
      ⟨path, hwalked, hfindable, hcost, hlt⟩ | ⟨hwalked, hprev, -, hnone⟩
    · left
      refine ⟨path.reverse, ⟨hrtt, hfindable, Or.inl ?_⟩, ?_⟩
      · rw [hcost]
        exact hlt
      · exact dijkstraVia_of_walkBack std hrtt path hwalked hcost.symm
    · right
      refine ⟨?_, hvia, hnone⟩
      simp only [MeshRouter.dijkstraVia, hrtt]
      have hmissing :
        ((r.matrix.search std via (edgeCost rtt) destination).prev destination).isNone ∧
        via ≠ destination := ⟨by rw [hprev]; rfl, Ne.symm hvia⟩
      exact if_pos hmissing

/-- From a neighbour, `dijkstra_via` returns the cost of a cheapest walk by the edge to it, or
nothing when there is no walk. -/
theorem dijkstraVia_cases (std : StdOrder) (destination : NodeId)
    (hsum : r.matrix.totalCost < 2 ^ 64 - 1) {via : NodeId}
    (hvia : (r.matrix.getRtt r.localNode via).isSome) :
    (∃ route, r.dijkstraVia std destination via = .ok (some route) ∧ route.nextHop = via ∧
      LeastVia r.matrix.costs r.localNode via destination (asMicros route.totalRtt)) ∨
    (r.dijkstraVia std destination via = .ok none ∧
      ∀ path, ¬IsWalk r.matrix.costs via destination path) := by
  obtain ⟨rtt, hrtt⟩ := Option.isSome_iff_exists.mp hvia
  have hcap : u64Max = 2 ^ 64 - 1 := rfl
  have hle := asMicros_le_totalCost hrtt
  have hedge : r.matrix.costs r.localNode via = some (asMicros rtt) := by
    rw [LatencyMatrix.costs, hrtt]
    rfl
  have hcost : edgeCost rtt = asMicros rtt := Nat.mod_eq_of_lt (by omega)
  rcases dijkstraVia_outcome std destination hrtt with ⟨rest, hoffers, hok⟩ | ⟨hok, -, hnone⟩
  · left
    have hleast := leastVia_of_shortest (weights_eq_costs hsum ▸ hoffers.findable.toShortest) hedge
    have hlt : edgeCost rtt + pathCost r.matrix.weights rest < 2 ^ 64 := by
      rcases hoffers.below with hlt | rfl
      · omega
      · rw [hoffers.findable.eq_singleton, pathCost_singleton]
        omega
    refine ⟨_, hok, rfl, ?_⟩
    rw [MeshRouter.entryVia, asMicros_fromMicros hlt, hcost, weights_eq_costs hsum]
    exact hleast
  · right
    refine ⟨hok, ?_⟩
    intro path hwalk
    -- a walk that repeats no node costs less than the cap, with the first edge too
    obtain ⟨path', hwalk', hnodup, -⟩ := hwalk.exists_simple
    obtain ⟨hlong, hlong'⟩ := hwalk'.cons hedge
    have hle := pathCost_le_totalCost hlong (nodup_steps_cons hnodup hwalk'.head r.localNode)
    have hge := hnone path' (by rw [weights_eq_costs hsum]; exact hwalk')
    rw [weights_eq_costs hsum] at hge
    omega

/-! ## The candidates -/

theorem mem_neighbors (std : StdOrder) {v : NodeId} :
    v ∈ std.iterSet (r.neighbors (std.iterMap r.matrix.allEdges)) ↔
      (r.matrix.getRtt r.localNode v).isSome := by
  rw [(std.iterSet_perm _).mem_iff, MeshRouter.neighbors, List.mem_dedup, List.mem_map]
  constructor
  · rintro ⟨⟨src, dst, rtt⟩, hmem, rfl⟩
    obtain ⟨hmem, hsrc⟩ := List.mem_filter.mp hmem
    have hsrc : src = r.localNode := by simpa using hsrc
    subst hsrc
    rw [mem_allEdges.mp ((std.iterMap_perm _).mem_iff.mp hmem)]
    rfl
  · intro hsome
    obtain ⟨rtt, hrtt⟩ := Option.isSome_iff_exists.mp hsome
    refine ⟨(r.localNode, v, rtt), List.mem_filter.mpr ⟨?_, by simp⟩, rfl⟩
    exact (std.iterMap_perm _).mem_iff.mpr (mem_allEdges.mpr hrtt)

theorem nodup_neighbors (std : StdOrder) :
    (std.iterSet (r.neighbors (std.iterMap r.matrix.allEdges))).Nodup :=
  (std.iterSet_perm _).nodup_iff.mpr (List.nodup_dedup _)

/-- The entries that `dijkstra_via` returns for a list of neighbours: one for each of them from
which there is a walk to the destination. -/
theorem mapM_dijkstraVia (std : StdOrder) (destination : NodeId)
    (hsum : r.matrix.totalCost < 2 ^ 64 - 1) (l : List NodeId)
    (hl : ∀ v ∈ l, (r.matrix.getRtt r.localNode v).isSome) :
    ∃ found, l.mapM (r.dijkstraVia std destination) = .ok found ∧
      (found.reduceOption.map RouteEntry.nextHop).Sublist l ∧
      (∀ v ∈ l, (∃ path, IsWalk r.matrix.costs v destination path) →
        ∃ route ∈ found.reduceOption, route.nextHop = v) ∧
      ∀ route ∈ found.reduceOption, LeastVia r.matrix.costs r.localNode route.nextHop destination
        (asMicros route.totalRtt) := by
  induction l with
  | nil => exact ⟨[], rfl, List.Sublist.refl _, nofun, nofun⟩
  | cons v l ih =>
    obtain ⟨found, hfound, hsub, hall, hleast⟩ := ih fun u hu => hl u (List.mem_cons_of_mem _ hu)
    rcases dijkstraVia_cases std destination hsum (hl v List.mem_cons_self) with
      ⟨route, hroute, rfl, hvia⟩ | ⟨hnothing, hnone⟩
    · -- there is a walk from the first neighbour
      refine ⟨some route :: found, ?_, ?_, ?_, ?_⟩
      · rw [List.mapM_cons, hroute, hfound]
        rfl
      · rw [List.reduceOption_cons_of_some, List.map_cons]
        exact hsub.cons_cons _
      · intro u hu hwalk
        rw [List.reduceOption_cons_of_some]
        rcases List.mem_cons.mp hu with rfl | hu
        · exact ⟨route, List.mem_cons_self, rfl⟩
        · obtain ⟨route', hmem, hhop⟩ := hall u hu hwalk
          exact ⟨route', List.mem_cons_of_mem _ hmem, hhop⟩
      · intro route' hmem
        rw [List.reduceOption_cons_of_some] at hmem
        rcases List.mem_cons.mp hmem with rfl | hmem
        · exact hvia
        · exact hleast route' hmem
    · -- there is none, and the neighbour gives no entry
      refine ⟨none :: found, ?_, ?_, ?_, ?_⟩
      · rw [List.mapM_cons, hnothing, hfound]
        rfl
      · rw [List.reduceOption_cons_of_none]
        exact hsub.cons v
      · intro u hu hwalk
        rw [List.reduceOption_cons_of_none]
        rcases List.mem_cons.mp hu with rfl | hu
        · obtain ⟨path, hwalk⟩ := hwalk
          exact absurd hwalk (hnone path)
        · exact hall u hu hwalk
      · rw [List.reduceOption_cons_of_none]
        exact hleast

/-- What `top_paths` sorts and cuts off: the best entry by every out-neighbour that can reach the
destination. -/
structure Candidates (r : MeshRouter) (destination : NodeId) (routes : List RouteEntry) : Prop where
  nodup : (routes.map RouteEntry.nextHop).Nodup
  complete : ∀ v, v ∈ routes.map RouteEntry.nextHop ↔ v ∈ r.reachableVia destination
  least : ∀ route ∈ routes, LeastVia r.matrix.costs r.localNode route.nextHop destination
    (asMicros route.totalRtt)
  sorted : routes.Pairwise fun a b => a.totalRtt ≤ b.totalRtt

theorem topPaths_candidates (std : StdOrder) (hne : destination ≠ r.localNode)
    (hsum : r.matrix.totalCost < 2 ^ 64 - 1) :
    ∃ routes, Candidates r destination routes ∧
      ∀ n, r.topPaths std destination n = .ok (routes.take n) := by
  obtain ⟨found, hfound, hsub, hall, hleast⟩ := mapM_dijkstraVia std destination hsum
    (std.iterSet (r.neighbors (std.iterMap r.matrix.allEdges))) fun v hv =>
      (mem_neighbors std).mp hv
  have hperm := List.mergeSort_perm found.reduceOption fun a b => a.totalRtt ≤ b.totalRtt
  refine ⟨found.reduceOption.mergeSort fun a b => a.totalRtt ≤ b.totalRtt, ⟨?_, ?_, ?_, ?_⟩, ?_⟩
  · exact (hperm.map _).nodup_iff.mpr ((nodup_neighbors std).sublist hsub)
  · intro v
    rw [(hperm.map _).mem_iff]
    constructor
    · intro hmem
      obtain ⟨route, hroute, rfl⟩ := List.mem_map.mp hmem
      obtain ⟨path, hwalk, hhop, -⟩ := (hleast route hroute).attained
      obtain ⟨rest, n, -, hedge, hrest⟩ := walk_via_iff.mp ⟨hwalk, hhop⟩
      exact ⟨by rw [hedge]; rfl, rest, hrest⟩
    · rintro ⟨hedge, hwalk⟩
      rw [LatencyMatrix.costs, Option.isSome_map] at hedge
      obtain ⟨route, hmem, rfl⟩ := hall v ((mem_neighbors std).mpr hedge) hwalk
      exact List.mem_map_of_mem hmem
  · intro route hmem
    exact hleast route (hperm.mem_iff.mp hmem)
  · exact List.pairwise_mergeSort' (fun a b : RouteEntry => a.totalRtt ≤ b.totalRtt) _
  · intro n
    rw [MeshRouter.topPaths, if_neg hne]
    show (List.mapM _ _ >>= _) = _
    rw [hfound]
    rfl

/-! ## Agreement with `next_hop` -/

section Agreement

variable {routes : List RouteEntry}

theorem Candidates.length_eq (h : Candidates r destination routes) :
    (routes.length : ℕ∞) = (r.reachableVia destination).encard := by
  have hset : r.reachableVia destination = ↑(routes.map RouteEntry.nextHop).toFinset := by
    ext v
    rw [List.coe_toFinset, Set.mem_ofPred_eq, h.complete v]
  rw [hset, Set.encard_coe_eq_coe_finsetCard, List.toFinset_card_of_nodup h.nodup, List.length_map]

/-- A candidate that is cut off costs at least as much as one that is kept. -/
theorem Candidates.kept_le (h : Candidates r destination routes) {n : Nat} {route : RouteEntry}
    (hkept : route ∈ routes.take n) {v : NodeId} (hv : v ∈ r.reachableVia destination)
    (homitted : v ∉ (routes.take n).map RouteEntry.nextHop) {c : Nat}
    (hc : LeastVia r.matrix.costs r.localNode v destination c) : asMicros route.totalRtt ≤ c := by
  obtain ⟨other, hmem, rfl⟩ := List.mem_map.mp ((h.complete v).mpr hv)
  have hcut : other ∈ routes.drop n := by
    have hsplit := hmem
    rw [← List.take_append_drop n routes, List.mem_append] at hsplit
    rcases hsplit with hin | hout
    · exact absurd (List.mem_map_of_mem hin) homitted
    · exact hout
  have hsorted := h.sorted
  rw [← List.take_append_drop n routes, List.pairwise_append] at hsorted
  rw [hc.unique (h.least other hmem)]
  exact Nat.div_le_div_right (hsorted.2.2 route hkept other hcut)

/-- A walk from the local node to another node leaves by the edge to one of the candidates. -/
theorem mem_reachableVia {path : List NodeId} (hne : destination ≠ r.localNode)
    (hwalk : IsWalk r.matrix.costs r.localNode destination path) :
    ∃ v, path[1]? = some v ∧ v ∈ r.reachableVia destination := by
  obtain ⟨v, l, rfl⟩ := hwalk.exists_cons (Ne.symm hne)
  obtain ⟨⟨n, hedge, -⟩, hrest⟩ := hwalk.uncons
  exact ⟨v, rfl, by rw [hedge]; rfl, v :: l, hrest⟩

/-- The first of the candidates is as good as a shortest path. -/
theorem Candidates.first_eq {first : RouteEntry} (h : Candidates r destination (first :: routes))
    (hne : destination ≠ r.localNode) {path : List NodeId}
    (hpath : Shortest r.matrix.costs r.localNode destination path) :
    asMicros first.totalRtt = pathCost r.matrix.costs path := by
  apply Nat.le_antisymm
  · obtain ⟨v, hv, hmem⟩ := mem_reachableVia hne hpath.walk
    obtain ⟨route, hroute, rfl⟩ := List.mem_map.mp ((h.complete v).mpr hmem)
    have hle := (h.least route hroute).least path hpath.walk hv
    rcases List.mem_cons.mp hroute with rfl | hrest
    · exact hle
    · have hsorted := (List.pairwise_cons.mp h.sorted).1 route hrest
      exact Nat.le_trans (Nat.div_le_div_right hsorted) hle
  · obtain ⟨path', hwalk, -, hcost⟩ := (h.least first List.mem_cons_self).attained
    rw [← hcost]
    exact hpath.least path' hwalk

/-- `top_paths` lists the `n` cheapest out-neighbours that can reach the destination, each once, at
the cost of a cheapest walk by the edge to it, and its first entry costs as much as the path of
`next_hop`. -/
theorem topPaths_agrees (std std' : StdOrder) (r : MeshRouter) (destination : NodeId) (n : Nat)
    (hne : destination ≠ r.localNode) (hsum : r.matrix.totalCost < 2 ^ 64 - 1)
    (hlen : r.matrix.allEdges.length < 2 ^ 64) :
    ∃ routes result, r.topPaths std destination n = .ok routes ∧
      r.nextHop std' destination = .ok result ∧
      (routes.map RouteEntry.nextHop).Nodup ∧
      (∀ route ∈ routes, route.nextHop ∈ r.reachableVia destination ∧
        LeastVia r.matrix.costs r.localNode route.nextHop destination (asMicros route.totalRtt)) ∧
      routes.Pairwise (fun a b => a.totalRtt ≤ b.totalRtt) ∧
      (routes.length : ℕ∞) = min (n : ℕ∞) (r.reachableVia destination).encard ∧
      (∀ v ∈ r.reachableVia destination, v ∉ routes.map RouteEntry.nextHop → ∀ c,
        LeastVia r.matrix.costs r.localNode v destination c →
          ∀ route ∈ routes, asMicros route.totalRtt ≤ c) ∧
      (1 ≤ n → (routes ≠ [] ↔ result.isSome) ∧
        ∀ first route, routes.head? = some first → result = some route →
          asMicros first.totalRtt = pathCost r.matrix.costs route.path) := by
  obtain ⟨routes, hcand, htop⟩ := topPaths_candidates std hne hsum
  obtain ⟨result, hresult, hsome, hshort⟩ : ∃ result, r.nextHop std' destination = .ok result ∧
      ((∃ path, IsWalk r.matrix.costs r.localNode destination path) ↔ result.isSome) ∧
      ∀ route, result = some route →
        Shortest r.matrix.costs r.localNode destination route.path := by
    rcases nextHop_cases std' r destination hne hsum hlen with
      ⟨route, hok, hshort, -⟩ | ⟨hok, hnone⟩
    · refine ⟨some route, hok, ⟨fun _ => rfl, fun _ => ⟨route.path, hshort.walk⟩⟩, ?_⟩
      intro route' heq
      rw [Option.some.injEq] at heq
      rw [← heq]
      exact hshort
    · refine ⟨none, hok, ⟨?_, nofun⟩, nofun⟩
      rintro ⟨path, hwalk⟩
      exact absurd hwalk (hnone path)
  have hsub := List.take_sublist n routes
  refine ⟨routes.take n, result, htop n, hresult, ?_, ?_, ?_, ?_, ?_, ?_⟩
  · exact hcand.nodup.sublist (hsub.map _)
  · intro route hmem
    have hmem := hsub.subset hmem
    exact ⟨(hcand.complete _).mp (List.mem_map_of_mem hmem), hcand.least route hmem⟩
  · exact hcand.sorted.sublist hsub
  · rw [← hcand.length_eq, List.length_take]
    exact Nat.mono_cast.map_min
  · intro v hv homitted c hc route hkept
    exact hcand.kept_le hkept hv homitted hc
  · intro hn
    obtain ⟨n, rfl⟩ := Nat.exists_eq_succ_of_ne_zero (Nat.ne_of_gt hn)
    cases routes with
    | nil =>
      refine ⟨iff_of_false (fun h => h rfl) ?_, nofun⟩
      intro hroute
      obtain ⟨path, hwalk⟩ := hsome.mpr hroute
      obtain ⟨v, -, hmem⟩ := mem_reachableVia hne hwalk
      cases (hcand.complete v).mpr hmem
    | cons first rest =>
      constructor
      · refine iff_of_true (by simp) (hsome.mp ?_)
        obtain ⟨path, hwalk, -⟩ := (hcand.least first List.mem_cons_self).attained
        exact ⟨path, hwalk⟩
      · intro first' route hfirst hroute
        rw [List.take_succ_cons, List.head?_cons, Option.some.injEq] at hfirst
        subst hfirst
        exact hcand.first_eq hne (hshort route hroute)

theorem topPaths_agrees_triangle :
    ∃ routes result,
      (⟨"syd", triangle⟩ : MeshRouter).topPaths StdOrder.firstLeast "lon" 1 = .ok routes ∧
      (⟨"syd", triangle⟩ : MeshRouter).nextHop StdOrder.firstLeast "lon" = .ok result ∧
      (routes.map RouteEntry.nextHop).Nodup ∧
      (∀ route ∈ routes, route.nextHop ∈ MeshRouter.reachableVia ⟨"syd", triangle⟩ "lon" ∧
        LeastVia triangle.costs "syd" route.nextHop "lon" (asMicros route.totalRtt)) ∧
      routes.Pairwise (fun a b => a.totalRtt ≤ b.totalRtt) ∧
      (routes.length : ℕ∞) = min ((1 : Nat) : ℕ∞)
        (MeshRouter.reachableVia ⟨"syd", triangle⟩ "lon").encard ∧
      (∀ v ∈ MeshRouter.reachableVia ⟨"syd", triangle⟩ "lon",
        v ∉ routes.map RouteEntry.nextHop → ∀ c, LeastVia triangle.costs "syd" v "lon" c →
          ∀ route ∈ routes, asMicros route.totalRtt ≤ c) ∧
      (1 ≤ 1 → (routes ≠ [] ↔ result.isSome) ∧
        ∀ first route, routes.head? = some first → result = some route →
          asMicros first.totalRtt = pathCost triangle.costs route.path) :=
  topPaths_agrees StdOrder.firstLeast StdOrder.firstLeast ⟨"syd", triangle⟩ "lon" 1 (by decide)
    (by decide) (by decide)

end Agreement

end EntrouterLine.Mesh
