import EntrouterLine.Lib.Dijkstra
import EntrouterLine.Mesh.LatencyMatrix

/-!
# The mesh router

`MeshRouter` runs Dijkstra's algorithm on the latency matrix, from the local node (`next_hop`) or
from a neighbour that the first hop is forced to (`top_paths`). The order in which the standard
library goes through a map or a set, and which of several greatest elements a `BinaryHeap` pops, are
left open (`StdOrder`).

The heap loop always stops: a pop makes the heap shorter, and a push makes a known distance smaller
by at least as much. The loops that follow the predecessors back are run for more rounds than there
can be predecessors; one that has not stopped by then never does (`Fault.diverges`).
-/

set_option autoImplicit false

namespace EntrouterLine.Mesh

open EntrouterLine.Lib
open EntrouterLine.Relay

/-- How a call of the router can fail to return: a loop that does not end, or the panic of
`Duration` addition. -/
inductive Fault where
  | diverges
  | durationOverflow
  deriving DecidableEq

structure RouteEntry where
  nextHop : NodeId
  totalRtt : Duration
  path : List NodeId
  deriving DecidableEq

structure DijkstraState where
  costUs : Nat
  node : NodeId
  deriving DecidableEq

/-- What the standard library leaves open: the order of a map's entries and of a set's elements, and
the greatest element that a heap pops, which is one of least cost here. -/
structure StdOrder where
  iterMap : List (NodeId × NodeId × Duration) → List (NodeId × NodeId × Duration)
  iterSet : List NodeId → List NodeId
  pop : List DijkstraState → Option (DijkstraState × List DijkstraState)
  iterMap_perm : ∀ l, (iterMap l).Perm l
  iterSet_perm : ∀ l, (iterSet l).Perm l
  pop_none : ∀ heap, pop heap = none → heap = []
  pop_some : ∀ heap top rest, pop heap = some (top, rest) →
    heap.Perm (top :: rest) ∧ ∀ x ∈ rest, top.costUs ≤ x.costUs

/-- Takes the first of the entries of least cost from a list. -/
def popLeast : List DijkstraState → Option (DijkstraState × List DijkstraState)
  | [] => none
  | x :: heap =>
      match popLeast heap with
      | none => some (x, [])
      | some (y, rest) => if x.costUs ≤ y.costUs then some (x, heap) else some (y, x :: rest)

theorem popLeast_none {heap : List DijkstraState} (h : popLeast heap = none) : heap = [] := by
  cases heap with
  | nil => rfl
  | cons x heap =>
    simp only [popLeast] at h
    split at h
    · cases h
    · split at h <;> cases h

theorem popLeast_some {heap : List DijkstraState} {top : DijkstraState} {rest : List DijkstraState}
    (h : popLeast heap = some (top, rest)) :
    heap.Perm (top :: rest) ∧ ∀ x ∈ rest, top.costUs ≤ x.costUs := by
  induction heap generalizing top rest with
  | nil => cases h
  | cons x heap ih =>
    simp only [popLeast] at h
    cases hheap : popLeast heap with
    | none =>
      simp only [hheap, Option.some.injEq, Prod.mk.injEq] at h
      obtain ⟨rfl, rfl⟩ := h
      rw [popLeast_none hheap]
      exact ⟨List.Perm.refl _, fun y hy => nomatch hy⟩
    | some found =>
      obtain ⟨y, rest'⟩ := found
      obtain ⟨hperm, hleast⟩ := ih hheap
      simp only [hheap] at h
      split at h
      case isTrue hle =>
        -- the head is least, and comes before an equal one that is further on
        rw [Option.some.injEq, Prod.mk.injEq] at h
        obtain ⟨rfl, rfl⟩ := h
        refine ⟨List.Perm.refl _, ?_⟩
        intro z hz
        rcases List.mem_cons.mp (hperm.mem_iff.mp hz) with rfl | hz
        · exact hle
        · exact Nat.le_trans hle (hleast z hz)
      case isFalse hlt =>
        rw [Option.some.injEq, Prod.mk.injEq] at h
        obtain ⟨rfl, rfl⟩ := h
        refine ⟨(hperm.cons x).trans (List.Perm.swap _ _ _), ?_⟩
        intro z hz
        rcases List.mem_cons.mp hz with rfl | hz
        · exact Nat.le_of_lt (Nat.not_le.mp hlt)
        · exact hleast z hz

/-- One way in which the standard library may do it: everything in the order of insertion. -/
def StdOrder.firstLeast : StdOrder where
  iterMap := id
  iterSet := id
  pop := popLeast
  iterMap_perm := List.Perm.refl
  iterSet_perm := List.Perm.refl
  pop_none := fun _ => popLeast_none
  pop_some := fun _ _ _ => popLeast_some

structure MeshRouter where
  localNode : NodeId
  matrix : LatencyMatrix

/-- `Duration` addition, which panics past the largest `Duration`. -/
def addDuration (a b : Duration) : Except Fault Duration :=
  if h : a.val + b.val < 2 ^ 64 * 1000000000 then .ok ⟨a.val + b.val, h⟩
  else .error .durationOverflow

/-- `u64::saturating_add`. -/
def saturatingAdd (a b : Nat) : Nat := min (a + b) u64Max

/-- The cost of an edge: `rtt.as_micros() as u64`. -/
def edgeCost (rtt : Duration) : Nat := asMicros rtt % 2 ^ 64

/-! ## The heap loop -/

/-- `dist`, `prev` and `heap`. -/
structure Search where
  dist : NodeId → Option Nat
  prev : NodeId → Option NodeId
  heap : List DijkstraState

/-- `*dist.get(node).unwrap_or(&u64::MAX)`. -/
def Search.distance (s : Search) (node : NodeId) : Nat := (s.dist node).getD u64Max

/-- The maps before the loop, with the node it starts from. -/
def Search.start (nodes : List NodeId) (node : NodeId) (costUs : Nat) : Search :=
  let dist := nodes.foldl (fun dist node => Function.update dist node (some u64Max)) fun _ => none
  ⟨Function.update dist node (some costUs), fun _ => none, [⟨costUs, node⟩]⟩

/-- The body of the loop over the edges, for the node popped at `costUs`. -/
def relax (costUs : Nat) (node : NodeId) (s : Search) (edge : NodeId × NodeId × Duration) :
    Search :=
  let (src, dst, rtt) := edge
  if src ≠ node then s
  else
    let newCost := saturatingAdd costUs (edgeCost rtt)
    if newCost < s.distance dst then
      ⟨Function.update s.dist dst (some newCost), Function.update s.prev dst (some node),
        s.heap ++ [⟨newCost, dst⟩]⟩
    else s

/-- The loop over the edges. -/
def relaxAll (edges : List (NodeId × NodeId × Duration)) (costUs : Nat) (node : NodeId)
    (s : Search) : Search :=
  edges.foldl (relax costUs node) s

/-- The distances of the ends of all edges, and the length of the heap. -/
def Search.potential (edges : List (NodeId × NodeId × Duration)) (s : Search) : Nat :=
  (edges.map fun e => s.distance e.2.1).sum + s.heap.length

@[simp] theorem distance_update (s : Search) (prev : NodeId → Option NodeId)
    (heap : List DijkstraState) (node v : NodeId) (cost : Nat) :
    Search.distance ⟨Function.update s.dist node (some cost), prev, heap⟩ v =
      if v = node then cost else s.distance v := by
  by_cases hv : v = node
  · subst hv
    simp [Search.distance]
  · simp [Search.distance, hv]

/-- A smaller distance at one node, which is the end of an edge, makes the sum smaller. -/
theorem sum_distance_lt {edges : List (NodeId × NodeId × Duration)} {f g : NodeId → Nat}
    (hle : ∀ v, f v ≤ g v) {edge : NodeId × NodeId × Duration} (hmem : edge ∈ edges)
    (hlt : f edge.2.1 < g edge.2.1) :
    (edges.map fun e => f e.2.1).sum < (edges.map fun e => g e.2.1).sum :=
  List.sum_lt_sum _ _ (fun e _ => hle e.2.1) ⟨edge, hmem, hlt⟩

/-- Relaxing an edge makes the potential no greater. -/
theorem potential_relax_le {edges : List (NodeId × NodeId × Duration)} (costUs : Nat)
    (node : NodeId)
    (s : Search) {edge : NodeId × NodeId × Duration} (hmem : edge ∈ edges) :
    (relax costUs node s edge).potential edges ≤ s.potential edges := by
  obtain ⟨src, dst, rtt⟩ := edge
  simp only [relax]
  split
  case isTrue => exact Nat.le_refl _
  case isFalse =>
    split
    case isTrue hlt =>
      simp only [Search.potential, distance_update, List.length_append, List.length_singleton]
      have hsum := sum_distance_lt (g := s.distance)
        (f := fun v => if v = dst then saturatingAdd costUs (edgeCost rtt) else s.distance v)
        (by
          intro v
          by_cases hv : v = dst
          · rw [if_pos hv, hv]
            exact Nat.le_of_lt hlt
          · rw [if_neg hv]) hmem (by rw [if_pos rfl]; exact hlt)
      omega
    case isFalse => exact Nat.le_refl _

theorem potential_relaxAll_le {edges es : List (NodeId × NodeId × Duration)} (costUs : Nat)
    (node : NodeId) (s : Search) (hes : es ⊆ edges) :
    (relaxAll es costUs node s).potential edges ≤ s.potential edges := by
  induction es generalizing s with
  | nil => exact Nat.le_refl _
  | cons edge es ih =>
    rw [List.cons_subset] at hes
    exact Nat.le_trans (ih _ hes.2) (potential_relax_le costUs node s hes.1)

/-- A pop makes the potential smaller. -/
theorem potential_pop_lt (std : StdOrder) (edges : List (NodeId × NodeId × Duration)) (s : Search)
    {top : DijkstraState} {rest : List DijkstraState} (hpop : std.pop s.heap = some (top, rest)) :
    Search.potential edges { s with heap := rest } < s.potential edges := by
  have hlen := (std.pop_some _ _ _ hpop).1.length_eq
  simp only [Search.potential, Search.distance, hlen, List.length_cons]
  omega

/-- `while let Some(DijkstraState { cost_us, node }) = heap.pop()`. -/
def heapLoop (std : StdOrder) (edges : List (NodeId × NodeId × Duration)) (destination : NodeId)
    (s : Search) : Search :=
  match _hpop : std.pop s.heap with
  | none => s
  | some (⟨costUs, node⟩, heap) =>
      if node = destination then { s with heap := heap }
      -- a stale entry
      else if s.distance node < costUs then heapLoop std edges destination { s with heap := heap }
      else heapLoop std edges destination (relaxAll edges costUs node { s with heap := heap })
termination_by s.potential edges
decreasing_by
  · exact potential_pop_lt std edges s _hpop
  · exact Nat.lt_of_le_of_lt (potential_relaxAll_le costUs node _ (List.Subset.refl edges))
      (potential_pop_lt std edges s _hpop)

/-! ## Paths -/

/-- `while current != start`, which follows the predecessors back and collects the path. -/
def walkBack (prev : NodeId → Option NodeId) (start : NodeId) :
    Nat → NodeId → List NodeId → Except Fault (Option (List NodeId))
  | 0, _, _ => .error .diverges
  | fuel + 1, current, path =>
      if current = start then .ok (some path)
      else
        match prev current with
        | some p => walkBack prev start fuel p (path ++ [p])
        | none => .ok none

/-- `MeshRouter::path_cost`. -/
def MeshRouter.pathCost (r : MeshRouter) (path : List NodeId) : Except Fault Duration :=
  (steps path).foldlM (fun total w =>
    match r.matrix.getRtt w.1 w.2 with
    | some rtt => addDuration total rtt
    | none => .ok total) 0

/-- `MeshRouter::dijkstra`. -/
def MeshRouter.dijkstra (std : StdOrder) (r : MeshRouter) (destination : NodeId) :
    Except Fault (Option (List NodeId)) := do
  let edges := std.iterMap r.matrix.allEdges
  let nodes := std.iterSet r.matrix.nodes
  let s := heapLoop std edges destination (Search.start nodes r.localNode 0)
  -- `prev` has at most one key for every edge
  let path ← walkBack s.prev r.localNode (edges.length + 1) destination [destination]
  return path.map List.reverse

/-- `MeshRouter::next_hop`. -/
def MeshRouter.nextHop (std : StdOrder) (r : MeshRouter) (destination : NodeId) :
    Except Fault (Option RouteEntry) :=
  if destination = r.localNode then .ok none
  else do
    match ← r.dijkstra std destination with
    | none => return none
    | some path =>
        match path with
        | first :: hop :: rest =>
            let totalRtt ← r.pathCost (first :: hop :: rest)
            return some ⟨hop, totalRtt, first :: hop :: rest⟩
        -- a path of less than two nodes
        | _ => return none

/-- `MeshRouter::dijkstra_via`. -/
def MeshRouter.dijkstraVia (std : StdOrder) (r : MeshRouter) (destination via : NodeId) :
    Except Fault (Option RouteEntry) :=
  match r.matrix.getRtt r.localNode via with
  | none => .ok none
  | some firstHopCost => do
      let edges := std.iterMap r.matrix.allEdges
      let nodes := std.iterSet r.matrix.nodes
      let initialCost := edgeCost firstHopCost
      let s := heapLoop std edges destination (Search.start nodes via initialCost)
      if (s.prev destination).isNone ∧ via ≠ destination then return none
      else
        match ← walkBack s.prev via (edges.length + 1) destination [destination] with
        | none => return none
        | some path =>
            return some ⟨via, fromMicros (s.distance destination),
              (path ++ [r.localNode]).reverse⟩

/-- The neighbours that `top_paths` collects. -/
def MeshRouter.neighbors (r : MeshRouter) (edges : List (NodeId × NodeId × Duration)) :
    List NodeId :=
  ((edges.filter fun e => e.1 = r.localNode).map fun e => e.2.1).dedup

/-- `MeshRouter::top_paths`. -/
def MeshRouter.topPaths (std : StdOrder) (r : MeshRouter) (destination : NodeId) (n : Nat) :
    Except Fault (List RouteEntry) :=
  if destination = r.localNode then .ok []
  else do
    let neighbors := std.iterSet (r.neighbors (std.iterMap r.matrix.allEdges))
    let routes ← neighbors.mapM (r.dijkstraVia std destination)
    let routes := routes.reduceOption.mergeSort fun a b => a.totalRtt ≤ b.totalRtt
    return routes.take n

end EntrouterLine.Mesh
