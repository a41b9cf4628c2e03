import EntrouterLine.Lib.LiveTable
import EntrouterLine.Lib.Machine
import EntrouterLine.Mesh.Effects
import EntrouterLine.Mesh.FlowIds
import EntrouterLine.Mesh.Provenance

/-!
# The number of active flows

`active_flow_count` of an edge is the number of entries in its map. A connection is accepted with an
entry under its flow id and removes the entry when it ends, so that the entries of all edges are a
table of the connections that have not ended (`FlowsTabulated`), and the counts are exact in every
run, as long as no edge has used up the ids of 32 bits (`activeFlowCount_eq`).

This does not depend on what the links do: it holds for every step that succeeds
(`step_flowMoves`).
-/

set_option autoImplicit false

namespace EntrouterLine.Mesh

open EntrouterLine.Lib
open EntrouterLine.Lib.LiveTable
open EntrouterLine.Relay
open EntrouterLine.Edge

/-- All flow ids. -/
def flowIds : List UInt32 := (List.range UInt32.size).map UInt32.ofNat

/-- `active_flow_count` of an edge. -/
def FlowTable.activeFlowCount (table : FlowTable) : Nat :=
  flowIds.countP fun flowId => (table.activeFlows flowId).isSome

theorem mem_flowIds (flowId : UInt32) : flowId ∈ flowIds := by
  refine List.mem_map.mpr ⟨flowId.toNat, List.mem_range.mpr flowId.toNat_lt, ?_⟩
  exact UInt32.ofNat_toNat

theorem nodup_flowIds : flowIds.Nodup := by
  refine List.Nodup.map_on ?_ List.nodup_range
  intro j hj k hk heq
  rw [List.mem_range] at hj hk
  have hnat := congrArg UInt32.toNat heq
  rwa [UInt32.toNat_ofNat_of_lt' hj, UInt32.toNat_ofNat_of_lt' hk] at hnat

/-! ## What the steps do to the flows -/

/-- The entries of all edges. -/
def MeshState.entries (s : MeshState) (k : NodeId × EdgeKind × UInt32) : Option ConnId :=
  ((s.node k.1).tables k.2.1).activeFlows k.2.2

/-- The connections with their flow ids, which of them have ended, and the tables are the same. -/
structure SameFlows (s t : MeshState) : Prop where
  conns : t.conns.map (fun conn => (conn.flowKey, conn.live)) =
    s.conns.map fun conn => (conn.flowKey, conn.live)
  tables : ∀ x, (t.node x).tables = (s.node x).tables

variable {rs : ReedSolomon} {cfg : MeshConfig} {s t u : MeshState}

theorem SameFlows.refl (s : MeshState) : SameFlows s s := ⟨rfl, fun _ => rfl⟩

theorem SameFlows.trans (h : SameFlows s t) (h' : SameFlows t u) : SameFlows s u :=
  ⟨h'.conns.trans h.conns, fun x => (h'.tables x).trans (h.tables x)⟩

theorem SameFlows.setNode {x : NodeId} {node : Node} (h : node.tables = (s.node x).tables) :
    SameFlows s (s.setNode x node) := by
  refine ⟨rfl, ?_⟩
  exact forall_node_setNode (P := fun y node => node.tables = (s.node y).tables) h fun _ => rfl

theorem SameFlows.setConn {c : ConnId} {conn conn' : Conn} (hconn : s.conns[c]? = some conn)
    (hkey : conn'.flowKey = conn.flowKey) (hlive : conn'.live = conn.live) :
    SameFlows s (s.setConn c conn') := by
  refine ⟨?_, fun _ => rfl⟩
  obtain ⟨hc, hget⟩ := List.getElem?_eq_some_iff.mp hconn
  have hself : s.conns.set c conn = s.conns := by
    rw [← hget]
    exact List.set_getElem_self hc
  rw [conns_setConn, List.map_set, hkey, hlive]
  conv_rhs => rw [← hself, List.map_set]

/-- Links are no part of the flows. -/
theorem SameFlows.setLink (s : MeshState) (x y : NodeId) (l : MeshLink) :
    SameFlows s (s.setLink x y l) :=
  ⟨rfl, fun _ => rfl⟩

/-- What a step can do to the flows. -/
inductive FlowMoves (cfg : MeshConfig) (s : MeshState) : MeshState → Prop
  | same {t : MeshState} (h : SameFlows s t) : FlowMoves cfg s t
  | accepted (x : NodeId) (edge : EdgeKind) : FlowMoves cfg s (accept cfg s x edge)
  | ended {c : ConnId} {conn : Conn} (hconn : s.conns[c]? = some conn)
      (hlive : conn.live = true) :
      FlowMoves cfg s ((s.setNode conn.node ((s.node conn.node).setTable conn.edge
        { (s.node conn.node).tables conn.edge with
          activeFlows := Function.update ((s.node conn.node).tables conn.edge).activeFlows
            conn.flowId none })).setConn c { conn with finished := true })

theorem Quiet.sameFlows (h : Quiet s t) : SameFlows s t := by
  induction h with
  | refl => exact SameFlows.refl s
  | node h htables ih => exact ih.trans (SameFlows.setNode htables)
  | conn h hconn hkey hlive ih => exact ih.trans (SameFlows.setConn hconn hkey hlive)
  | @link t x y l h hgrows ih => exact ih.trans (SameFlows.setLink t x y l)

/-- Every step that succeeds accepts a connection, ends one, or leaves the flows as they are. -/
theorem step_flowMoves {e : MeshEvent} (h : s.step rs cfg e = .ok t) : FlowMoves cfg s t := by
  cases step_effect h with
  | quiet hquiet => exact .same hquiet.sameFlows
  | accepted x edge => exact .accepted x edge
  | ended hconn hlive => exact .ended hconn hlive

/-! ## The entries are the connections that have not ended -/

/-- The nodes, edges and flow ids of all connections. -/
def MeshState.flowKeys (s : MeshState) : List (NodeId × EdgeKind × UInt32) :=
  s.conns.map Conn.flowKey

/-- The number of connections that an edge has accepted. -/
def MeshState.acceptedCount (s : MeshState) (x : NodeId) (edge : EdgeKind) : Nat :=
  s.flowKeys.countP fun k => k.1 = x ∧ k.2.1 = edge

/-- No edge has accepted more connections than there are ids. -/
def MeshState.WithinIds (s : MeshState) : Prop :=
  ∀ x edge, s.acceptedCount x edge ≤ UInt32.size

theorem withinIds_of_length (h : s.conns.length ≤ UInt32.size) : s.WithinIds := by
  intro x edge
  refine List.countP_le_length.trans ?_
  rw [MeshState.flowKeys, List.length_map]
  exact h

/-- The connections of an edge have its first ids, and as long as these do not wrap around, the
entries of all edges are a table of the connections that have not ended. -/
structure FlowsTabulated (s : MeshState) : Prop where
  next : ∀ x edge, ((s.node x).tables edge).nextFlowId = idAt edge (s.acceptedCount x edge)
  ids : ∀ x edge, (s.flowKeys.filter fun k => k.1 = x ∧ k.2.1 = edge).map (fun k => k.2.2) =
    (List.range (s.acceptedCount x edge)).map (idAt edge)
  entries : s.WithinIds → Tabulates Conn.flowKey Conn.live s.conns s.entries

theorem flowsTabulated_start (cfg : MeshConfig) : FlowsTabulated (MeshState.start cfg) where
  next x edge := by
    cases edge <;> rfl
  ids _ _ := rfl
  entries _ := by
    have hnone : (MeshState.start cfg).entries = fun _ => none := by
      funext k
      obtain ⟨x, edge, flowId⟩ := k
      cases edge <;> rfl
    rw [hnone]
    exact tabulates_nil

theorem idAt_inj_size {edge : EdgeKind} {j k : Nat} (hj : j < UInt32.size) (hk : k < UInt32.size)
    (h : idAt edge j = idAt edge k) : j = k := by
  have hnat := congrArg UInt32.toNat h
  rw [UInt32.size] at hj hk
  cases edge with
  | tcp =>
    rw [toNat_idAt_tcp, toNat_idAt_tcp] at hnat
    omega
  | quic =>
    rw [toNat_idAt_quic, toNat_idAt_quic] at hnat
    omega

/-- Within the ids, no two connections of an edge have the same. -/
theorem FlowsTabulated.nodup (h : FlowsTabulated s) (hids : s.WithinIds) : s.flowKeys.Nodup := by
  have hedge : ∀ x edge,
      ((s.flowKeys.filter fun k => k.1 = x ∧ k.2.1 = edge).map fun k => k.2.2).Nodup := by
    intro x edge
    rw [h.ids]
    refine List.Nodup.map_on ?_ List.nodup_range
    intro j hj k hk heq
    rw [List.mem_range] at hj hk
    exact idAt_inj_size (Nat.lt_of_lt_of_le hj (hids x edge))
      (Nat.lt_of_lt_of_le hk (hids x edge)) heq
  rw [List.Nodup, List.pairwise_iff_getElem]
  intro i j hi hj hlt heq
  -- equal keys are keys of one edge
  have hpair := hedge s.flowKeys[i].1 s.flowKeys[i].2.1
  rw [List.Nodup, List.pairwise_map, List.pairwise_filter, List.pairwise_iff_getElem] at hpair
  refine hpair i j hi hj hlt (by simp) ?_ (by rw [heq])
  rw [← heq]
  simp

theorem SameFlows.flowKeys (h : SameFlows s t) : t.flowKeys = s.flowKeys := by
  have hkeys := congrArg (List.map Prod.fst) h.conns
  rw [List.map_map, List.map_map] at hkeys
  exact hkeys

theorem SameFlows.acceptedCount (h : SameFlows s t) : t.acceptedCount = s.acceptedCount := by
  funext x edge
  rw [MeshState.acceptedCount, h.flowKeys, MeshState.acceptedCount]

theorem SameFlows.tabulated (hsame : SameFlows s t) (h : FlowsTabulated s) : FlowsTabulated t := by
  have hkeys := hsame.flowKeys
  have hcount := hsame.acceptedCount
  refine ⟨?_, ?_, ?_⟩
  · intro x edge
    rw [hsame.tables, hcount]
    exact h.next x edge
  · intro x edge
    rw [hkeys, hcount]
    exact h.ids x edge
  · intro hids
    have hentries : t.entries = s.entries := by
      funext k
      rw [MeshState.entries, hsame.tables, MeshState.entries]
    rw [MeshState.WithinIds, hcount] at hids
    rw [hentries]
    exact (h.entries hids).of_same hsame.conns

/-- One entry of one table changes. -/
theorem entries_setTable (s : MeshState) (x : NodeId) (edge : EdgeKind) {table : FlowTable}
    {flowId : UInt32} {entry : Option ConnId} (htable : table.activeFlows =
      Function.update ((s.node x).tables edge).activeFlows flowId entry) :
    (s.setNode x ((s.node x).setTable edge table)).entries =
      Function.update s.entries (x, edge, flowId) entry := by
  funext k
  obtain ⟨y, edge', flowId'⟩ := k
  by_cases hy : y = x
  · subst hy
    by_cases hedge : edge' = edge
    · subst hedge
      by_cases hid : flowId' = flowId
      · subst hid
        simp [MeshState.entries, Node.setTable, htable]
      · rw [Function.update_of_ne (by simpa using hid)]
        simp [MeshState.entries, Node.setTable, htable, hid]
    · rw [Function.update_of_ne (by simp [hedge])]
      simp [MeshState.entries, Node.setTable, hedge]
  · rw [Function.update_of_ne (by simp [hy])]
    rw [MeshState.entries, node_setNode_of_ne s hy, MeshState.entries]

/-- The id counter of an edge after a table has changed. -/
theorem nextFlowId_setTable (s : MeshState) (x : NodeId) (edge : EdgeKind) (table : FlowTable)
    (y : NodeId) (edge' : EdgeKind) :
    (((s.setNode x ((s.node x).setTable edge table)).node y).tables edge').nextFlowId =
      if y = x ∧ edge' = edge then table.nextFlowId else ((s.node y).tables edge').nextFlowId := by
  by_cases hy : y = x
  · subst hy
    by_cases hedge : edge' = edge
    · subst hedge
      simp [Node.setTable]
    · simp [Node.setTable, hedge]
  · rw [node_setNode_of_ne s hy, if_neg (fun h => hy h.1)]

theorem flowKeys_accept (cfg : MeshConfig) (s : MeshState) (x : NodeId) (edge : EdgeKind) :
    (accept cfg s x edge).flowKeys =
      s.flowKeys ++ [(x, edge, ((s.node x).tables edge).nextFlowId)] := by
  show (s.conns ++ [_]).map Conn.flowKey = _
  rw [List.map_append]
  rfl

theorem acceptedCount_accept (cfg : MeshConfig) (s : MeshState) (x : NodeId) (edge : EdgeKind)
    (y : NodeId) (edge' : EdgeKind) : (accept cfg s x edge).acceptedCount y edge' =
      s.acceptedCount y edge' + if y = x ∧ edge' = edge then 1 else 0 := by
  rw [MeshState.acceptedCount, flowKeys_accept, List.countP_append, List.countP_singleton]
  congr 1
  by_cases hkey : y = x ∧ edge' = edge
  · simp [hkey]
  · rw [if_neg hkey, if_neg]
    simp only [decide_eq_true_iff]
    exact fun heq => hkey ⟨heq.1.symm, heq.2.symm⟩

theorem FlowsTabulated.accepted (h : FlowsTabulated s) (cfg : MeshConfig) (x : NodeId)
    (edge : EdgeKind) : FlowsTabulated (accept cfg s x edge) := by
  let flowId := ((s.node x).tables edge).nextFlowId
  have hkeys : (accept cfg s x edge).flowKeys = s.flowKeys ++ [(x, edge, flowId)] :=
    flowKeys_accept cfg s x edge
  have hcount := acceptedCount_accept cfg s x edge
  refine ⟨?_, ?_, ?_⟩
  · intro y edge'
    refine (nextFlowId_setTable s x edge _ y edge').trans ?_
    rw [hcount]
    by_cases hkey : y = x ∧ edge' = edge
    · obtain ⟨rfl, rfl⟩ := hkey
      rw [if_pos ⟨rfl, rfl⟩, if_pos ⟨rfl, rfl⟩, idAt_succ, ← h.next]
    · rw [if_neg hkey, if_neg hkey, Nat.add_zero]
      exact h.next y edge'
  · intro y edge'
    rw [hkeys, hcount, List.filter_append, List.map_append, h.ids]
    by_cases hkey : y = x ∧ edge' = edge
    · obtain ⟨rfl, rfl⟩ := hkey
      rw [if_pos ⟨rfl, rfl⟩, List.range_succ, List.map_append, List.filter_cons_of_pos (by simp)]
      show _ ++ [flowId] = _ ++ [_]
      rw [← h.next]
    · rw [if_neg hkey, Nat.add_zero, List.filter_cons_of_neg]
      · exact List.append_nil _
      · simp only [decide_eq_true_iff]
        exact fun heq => hkey ⟨heq.1.symm, heq.2.symm⟩
  · intro hids
    have hids' : s.WithinIds := by
      intro y edge'
      have hy := hids y edge'
      rw [hcount] at hy
      exact Nat.le_trans (Nat.le_add_right _ _) hy
    have hentries : (accept cfg s x edge).entries =
        Function.update s.entries (x, edge, flowId) (some s.conns.length) :=
      entries_setTable s x edge rfl
    rw [hentries]
    -- the id would be one that the edge has given before
    suffices hfresh : (Conn.new x edge flowId (cfg.defaultDest x)).flowKey ∉ s.flowKeys from
      (h.entries hids').add hfresh rfl
    show (x, edge, flowId) ∉ s.flowKeys
    intro hmem
    have hold : flowId ∈ (s.flowKeys.filter fun k => k.1 = x ∧ k.2.1 = edge).map fun k => k.2.2 :=
      List.mem_map.mpr ⟨_, List.mem_filter.mpr ⟨hmem, by simp⟩, rfl⟩
    rw [h.ids] at hold
    obtain ⟨k, hk, heq⟩ := List.mem_map.mp hold
    have hx := hids x edge
    rw [hcount, if_pos ⟨rfl, rfl⟩] at hx
    rw [List.mem_range] at hk
    have hflow : idAt edge k = idAt edge (s.acceptedCount x edge) := by
      rw [heq, ← h.next]
    have := idAt_inj_size (by omega) (by omega) hflow
    omega

theorem flowKeys_finish {c : ConnId} {conn : Conn} (hconn : s.conns[c]? = some conn) :
    (s.conns.set c { conn with finished := true }).map Conn.flowKey = s.flowKeys := by
  obtain ⟨hc, hget⟩ := List.getElem?_eq_some_iff.mp hconn
  have hself : s.conns.set c conn = s.conns := by
    rw [← hget]
    exact List.set_getElem_self hc
  rw [List.map_set, MeshState.flowKeys]
  conv_rhs => rw [← hself, List.map_set]
  rfl

theorem FlowsTabulated.ended (h : FlowsTabulated s) {c : ConnId} {conn : Conn}
    (hconn : s.conns[c]? = some conn) :
    FlowsTabulated ((s.setNode conn.node ((s.node conn.node).setTable conn.edge
      { (s.node conn.node).tables conn.edge with
        activeFlows := Function.update ((s.node conn.node).tables conn.edge).activeFlows
          conn.flowId none })).setConn c { conn with finished := true }) := by
  have hkeys := flowKeys_finish hconn
  refine ⟨?_, ?_, ?_⟩
  · intro y edge'
    refine (nextFlowId_setTable s conn.node conn.edge _ y edge').trans ?_
    show _ = idAt edge' (((s.conns.set c _).map Conn.flowKey).countP _)
    rw [hkeys]
    by_cases hkey : y = conn.node ∧ edge' = conn.edge
    · obtain ⟨rfl, rfl⟩ := hkey
      rw [if_pos ⟨rfl, rfl⟩]
      exact h.next conn.node conn.edge
    · rw [if_neg hkey]
      exact h.next y edge'
  · intro y edge'
    show (((s.conns.set c _).map Conn.flowKey).filter _).map _ =
      (List.range (((s.conns.set c _).map Conn.flowKey).countP _)).map _
    rw [hkeys]
    exact h.ids y edge'
  · intro hids
    have hids' : s.WithinIds := by
      intro y edge'
      have hy := hids y edge'
      change ((s.conns.set c _).map Conn.flowKey).countP _ ≤ _ at hy
      rwa [hkeys] at hy
    let table : FlowTable :=
      { (s.node conn.node).tables conn.edge with
        activeFlows := Function.update ((s.node conn.node).tables conn.edge).activeFlows
          conn.flowId none }
    have hentries : (s.setNode conn.node
        ((s.node conn.node).setTable conn.edge table)).entries =
          Function.update s.entries conn.flowKey none :=
      entries_setTable s conn.node conn.edge rfl
    show Tabulates Conn.flowKey Conn.live (s.conns.set c _)
      (s.setNode conn.node ((s.node conn.node).setTable conn.edge table)).entries
    rw [hentries]
    exact (h.entries hids').retire (h.nodup hids') hconn rfl

theorem FlowsTabulated.moves (h : FlowsTabulated s) (hmove : FlowMoves cfg s t) :
    FlowsTabulated t := by
  cases hmove with
  | same hsame => exact hsame.tabulated h
  | accepted x edge => exact h.accepted cfg x edge
  | ended hconn => exact h.ended hconn

/-- The connections that have been accepted stay so. -/
theorem FlowMoves.withinIds (hmove : FlowMoves cfg s t) (h : t.WithinIds) : s.WithinIds := by
  intro x edge
  have hle := h x edge
  cases hmove with
  | same hsame =>
    rw [hsame.acceptedCount] at hle
    exact hle
  | accepted x' edge' =>
    rw [acceptedCount_accept] at hle
    omega
  | ended hconn =>
    change ((s.conns.set _ _).map Conn.flowKey).countP _ ≤ _ at hle
    rwa [flowKeys_finish hconn] at hle

/-- The count of an edge is the number of its connections that have not ended. -/
theorem FlowsTabulated.activeFlowCount_eq (h : FlowsTabulated s) (hids : s.WithinIds) (x : NodeId)
    (edge : EdgeKind) : ((s.node x).tables edge).activeFlowCount =
      s.conns.countP fun conn => conn.node = x ∧ conn.edge = edge ∧ ¬ conn.finished := by
  have hnodup : (flowIds.map fun flowId => (x, edge, flowId)).Nodup := by
    refine nodup_flowIds.map ?_
    intro a b heq
    simpa using heq
  have hcount := (h.entries hids).countP_eq (h.nodup hids) hnodup
  rw [List.countP_map] at hcount
  refine hcount.trans ?_
  apply List.countP_congr
  intro conn _
  have hmem : conn.flowKey ∈ (flowIds.map fun flowId => (x, edge, flowId)) ↔
      conn.node = x ∧ conn.edge = edge := by
    rw [List.mem_map]
    constructor
    · rintro ⟨flowId, -, heq⟩
      rw [Conn.flowKey, Prod.mk.injEq, Prod.mk.injEq] at heq
      exact ⟨heq.1.symm, heq.2.1.symm⟩
    · rintro ⟨rfl, rfl⟩
      exact ⟨conn.flowId, mem_flowIds _, rfl⟩
  simp only [hmem, Conn.live, Bool.and_eq_true, Bool.not_eq_true', decide_eq_true_iff,
    Bool.not_eq_true]
  exact ⟨fun h => ⟨h.2.1, h.2.2, h.1⟩, fun h => ⟨h.2.2, h.1, h.2.1⟩⟩

end EntrouterLine.Mesh
