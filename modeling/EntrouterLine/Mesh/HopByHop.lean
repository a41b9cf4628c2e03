import EntrouterLine.Lib.HopByHop
import EntrouterLine.Mesh.NextHop

/-!
# Forwarding without loops

`route_data` hands a payload for another node to the next hop that the node's own router computes,
and the relay header has no hop limit. Every node computes by itself, in its own order of the
entries and with its own ties. When all nodes hold the same matrix and every edge costs at least a
microsecond, a payload reaches its destination all the same, over no node twice, at the cost of the
path that its source has computed (`hops_reach_destination`).
-/

set_option autoImplicit false

namespace EntrouterLine.Mesh

open EntrouterLine.Lib
open EntrouterLine.Relay

variable {m m' : LatencyMatrix}

/-- The two matrices hold the same entries, each in its own order. -/
def SameContents (m m' : LatencyMatrix) : Prop := m.entries.entries.Perm m'.entries.entries

theorem SameContents.costs_eq (h : SameContents m m') : m.costs = m'.costs := by
  funext src dst
  rw [LatencyMatrix.costs, LatencyMatrix.costs, LatencyMatrix.getRtt, LatencyMatrix.getRtt,
    AList.perm_lookup h]

theorem SameContents.allEdges_perm (h : SameContents m m') : m.allEdges.Perm m'.allEdges :=
  h.map _

theorem SameContents.totalCost_eq (h : SameContents m m') : m.totalCost = m'.totalCost :=
  (h.allEdges_perm.map _).sum_eq

/-- Every node of a walk is a node of the matrix. -/
theorem mem_nodes_of_walk {a b : NodeId} {path : List NodeId} (h : IsWalk m.costs a b path)
    (ha : a ∈ m.nodes) : ∀ x ∈ path, x ∈ m.nodes := by
  induction path generalizing a with
  | nil => cases h.head
  | cons y l ih =>
    have hy : y = a := by simpa using h.head
    subst hy
    intro x hx
    rcases List.mem_cons.mp hx with rfl | hx
    · exact ha
    · cases l with
      | nil => cases hx
      | cons z l =>
        obtain ⟨⟨n, hedge, -⟩, hrest⟩ := h.uncons
        rw [LatencyMatrix.costs, Option.map_eq_some_iff] at hedge
        obtain ⟨rtt, hrtt, -⟩ := hedge
        refine ih hrest (mem_nodes.mpr ⟨y, Or.inr ?_⟩) x hx
        rw [hrtt]
        rfl

/-- Where a node sends a payload for the destination: to the next hop that its router computes. -/
def hopTo (std : NodeId → StdOrder) (routers : NodeId → MeshRouter) (destination node : NodeId) :
    Option NodeId :=
  match (routers node).nextHop (std node) destination with
  | .ok (some route) => some route.nextHop
  | _ => none

/-- From every node that can reach the destination, next hop by next hop, a payload takes edges of
the matrix to the destination, visits no node twice, takes fewer hops than there are nodes, and
takes edges that cost as much as the path computed at the source. -/
theorem hops_reach_destination (std : NodeId → StdOrder) (routers : NodeId → MeshRouter)
    (m : LatencyMatrix) (hlocal : ∀ x, (routers x).localNode = x)
    (hsame : ∀ x, SameContents (routers x).matrix m)
    (hpos : ∀ src dst rtt, m.getRtt src dst = some rtt → 1 ≤ asMicros rtt)
    (hsum : m.totalCost < 2 ^ 64 - 1) (hlen : m.allEdges.length < 2 ^ 64)
    (source destination : NodeId) (hsource : source ∈ m.nodes)
    (hreach : ∃ path, IsWalk m.costs source destination path) :
    ∃ hops, Route (hopTo std routers destination) destination source hops ∧
      IsWalk m.costs source destination hops ∧ hops.Nodup ∧ hops.length - 1 < m.nodes.length ∧
      (source ≠ destination → ∃ route,
        (routers source).nextHop (std source) destination = .ok (some route) ∧
          pathCost m.costs hops = pathCost m.costs route.path) := by
  have hcosts : ∀ x, (routers x).matrix.costs = m.costs := fun x => (hsame x).costs_eq
  -- a node that can reach the destination computes a route along a shortest path
  have hroute : ∀ x, x ≠ destination → (∃ path, IsWalk m.costs x destination path) →
      ∃ route, (routers x).nextHop (std x) destination = .ok (some route) ∧
        Shortest m.costs x destination route.path ∧ route.path[1]? = some route.nextHop := by
    intro x hne hwalk
    have hcases := nextHop_cases (std x) (routers x) destination
      (by rw [hlocal]; exact Ne.symm hne) (by rw [(hsame x).totalCost_eq]; exact hsum)
      (by rw [(hsame x).allEdges_perm.length_eq]; exact hlen)
    rw [hcosts, hlocal] at hcases
    rcases hcases with ⟨route, hresult, hshort, -, hhop⟩ | ⟨-, hnone⟩
    · exact ⟨route, hresult, hshort, hhop⟩
    · obtain ⟨path, hwalk⟩ := hwalk
      exact absurd hwalk (hnone path)
  have hnext : ∀ x, x ≠ destination → (∃ path, IsWalk m.costs x destination path) →
      ∃ y l, hopTo std routers destination x = some y ∧
        Shortest m.costs x destination (x :: y :: l) := by
    intro x hne hwalk
    obtain ⟨route, hresult, hshort, hhop⟩ := hroute x hne hwalk
    obtain ⟨y, l, hpath⟩ := hshort.walk.exists_cons hne
    rw [hpath] at hshort hhop
    rw [hopTo, hresult]
    exact ⟨y, l, hhop.symm, hshort⟩
  have hpos' : ∀ a b n, m.costs a b = some n → 1 ≤ n := by
    intro a b n hedge
    rw [LatencyMatrix.costs, Option.map_eq_some_iff] at hedge
    obtain ⟨rtt, hrtt, rfl⟩ := hedge
    exact hpos a b rtt hrtt
  obtain ⟨path, hshort⟩ : ∃ path, Shortest m.costs source destination path := by
    by_cases hne : source = destination
    · subst hne
      exact ⟨[source], IsWalk.refl _ _, fun _ _ => Nat.zero_le _⟩
    · obtain ⟨route, -, hshort, -⟩ := hroute source hne hreach
      exact ⟨route.path, hshort⟩
  obtain ⟨hops, hhops, hwalk, hnodup, hcost, -⟩ := exists_route hpos' hnext hshort
  refine ⟨hops, hhops, hwalk, hnodup, ?_, ?_⟩
  · have hle := (List.subperm_of_subset hnodup (mem_nodes_of_walk hwalk hsource)).length_le
    have hone := List.length_pos_iff.mpr hwalk.ne_nil
    omega
  · intro hne
    obtain ⟨route, hresult, hshort', -⟩ := hroute source hne hreach
    exact ⟨route, hresult, hcost.trans (hshort.cost_eq hshort')⟩

theorem hops_reach_destination_triangle :
    ∃ hops, Route (hopTo (fun _ => StdOrder.firstLeast) (fun x => ⟨x, triangle⟩) "lon") "lon" "syd"
        hops ∧ IsWalk triangle.costs "syd" "lon" hops ∧ hops.Nodup ∧
      hops.length - 1 < triangle.nodes.length ∧
      ("syd" ≠ "lon" → ∃ route,
        (⟨"syd", triangle⟩ : MeshRouter).nextHop StdOrder.firstLeast "lon" = .ok (some route) ∧
          pathCost triangle.costs hops = pathCost triangle.costs route.path) := by
  have hedges : ∀ e ∈ triangle.allEdges, 1 ≤ asMicros e.2.2 := by decide
  refine hops_reach_destination (fun _ => StdOrder.firstLeast) (fun x => ⟨x, triangle⟩) triangle
    (fun _ => rfl) (fun _ => List.Perm.refl _) ?_ (by decide) (by decide) "syd" "lon" (by decide) ?_
  · intro src dst rtt hrtt
    exact hedges (src, dst, rtt) (mem_allEdges.mpr hrtt)
  · exact ⟨["syd", "lon"], rfl, rfl, by decide⟩

end EntrouterLine.Mesh
