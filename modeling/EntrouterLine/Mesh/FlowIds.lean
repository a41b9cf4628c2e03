import EntrouterLine.Mesh.MeshState

/-!
# Flow ids of a node

`TcpSplitter` counts flow ids from 1 and `QuicAcceptor` from 1,000,000; the dispatcher in `run`
tells the two apart by the id alone. Here the two edges of one node run by themselves, in smaller
steps than in the mesh: a task fetches its id (`fetch_add`), later inserts its channel under it, and
removes the entry when the flow ends, so that these steps of different flows interleave.

The counters are 32 bits wide and nothing stops them at the other edge's ids. The ids are
partitioned exactly in those runs in which the TCP edge has allocated at most 999,999 of them and
the QUIC edge at most `2 ^ 32 - 1000000` (`partitioned_iff`); the millionth TCP connection gets the
first id of a QUIC stream (`millionthConnection_gets_quic_id`).
-/

set_option autoImplicit false

namespace EntrouterLine.Mesh

open EntrouterLine.Lib
open EntrouterLine.Edge

/-! ## The edges of a node -/

/-- `next_flow_id.fetch_add(1)`. -/
def FlowTable.fetchAdd (table : FlowTable) : UInt32 × FlowTable :=
  (table.nextFlowId, { table with nextFlowId := table.nextFlowId + 1 })

/-- `active_flows.insert(flow_id, resp_tx)`. -/
def FlowTable.insert (table : FlowTable) (flowId : UInt32) (c : ConnId) : FlowTable :=
  { table with activeFlows := Function.update table.activeFlows flowId (some c) }

/-- `active_flows.remove(&flow_id)`. -/
def FlowTable.remove (table : FlowTable) (flowId : UInt32) : FlowTable :=
  { table with activeFlows := Function.update table.activeFlows flowId none }

/-- What a flow's task has done so far. -/
inductive FlowStage where
  | allocated
  | active
  | ended
  deriving DecidableEq

/-- A TCP connection or a QUIC stream. -/
structure EdgeFlow where
  edge : EdgeKind
  flowId : UInt32
  stage : FlowStage
  deriving DecidableEq

/-- The tables of the two edges, and all flows in the order in which they fetched their ids. The
place of a flow in the list stands for its response channel. -/
structure EdgePair where
  tables : EdgeKind → FlowTable
  flows : List EdgeFlow

def EdgePair.start : EdgePair := ⟨Node.new.tables, []⟩

def EdgePair.setTable (s : EdgePair) (edge : EdgeKind) (table : FlowTable) : EdgePair :=
  { s with tables := Function.update s.tables edge table }

def EdgePair.setStage (s : EdgePair) (c : ConnId) (flow : EdgeFlow) (stage : FlowStage) :
    EdgePair :=
  { s with flows := s.flows.set c { flow with stage := stage } }

/-- The edge that the dispatcher hands a flow id to, and the channel that this edge has under it. -/
def EdgePair.dispatch (s : EdgePair) (flowId : UInt32) : EdgeKind × Option ConnId :=
  (edgeOf flowId, (s.tables (edgeOf flowId)).activeFlows flowId)

inductive FlowEvent where
  | allocate (edge : EdgeKind)
  | insert (c : ConnId)
  | remove (c : ConnId)
  | dispatch (flowId : UInt32)
  deriving DecidableEq

/-- One step of a task of an edge, or of the dispatcher, which outputs where a delivery goes. -/
def edgeStep (s : EdgePair) :
    FlowEvent → Except Empty (EdgePair × Option (EdgeKind × Option ConnId))
  | .allocate edge =>
      let (flowId, table) := (s.tables edge).fetchAdd
      .ok ({ s.setTable edge table with flows := s.flows ++ [⟨edge, flowId, .allocated⟩] }, none)
  | .insert c =>
      match s.flows[c]? with
      | some flow =>
          if flow.stage = .allocated then
            let table := (s.tables flow.edge).insert flow.flowId c
            .ok ((s.setTable flow.edge table).setStage c flow .active, none)
          else .ok (s, none)
      | none => .ok (s, none)
  | .remove c =>
      match s.flows[c]? with
      | some flow =>
          if flow.stage = .active then
            let table := (s.tables flow.edge).remove flow.flowId
            .ok ((s.setTable flow.edge table).setStage c flow .ended, none)
          else .ok (s, none)
      | none => .ok (s, none)
  | .dispatch flowId => .ok (s, some (s.dispatch flowId))

/-- The number of flow ids that an edge has allocated. -/
def allocations (edge : EdgeKind) (es : List FlowEvent) : Nat :=
  es.countP fun e => e = .allocate edge

theorem allocations_snoc (edge : EdgeKind) (es : List FlowEvent) (e : FlowEvent) :
    allocations edge (es ++ [e]) = allocations edge es + if e = .allocate edge then 1 else 0 := by
  simp [allocations, List.countP_append, List.countP_singleton]

/-- A connection is accepted in the mesh as it is here, with its two steps taken at once. -/
theorem accept_tables (cfg : MeshConfig) (s : MeshState) (x : Relay.NodeId) (edge : EdgeKind) :
    ((accept cfg s x edge).node x).tables edge =
      (((s.node x).tables edge).fetchAdd.2).insert ((s.node x).tables edge).fetchAdd.1
        s.conns.length := by
  simp [accept, MeshState.setNode, Node.setTable, FlowTable.fetchAdd, FlowTable.insert]

/-! ## What the steps do -/

/-- The edge and the id of every flow; the stages are left out. -/
def EdgePair.ids (s : EdgePair) : List (EdgeKind × UInt32) :=
  s.flows.map fun flow => (flow.edge, flow.flowId)

/-- The state after flow `c` has moved from one stage to another and its entry was changed. -/
def EdgePair.moved (s : EdgePair) (c : ConnId) (flow : EdgeFlow) (stage : FlowStage)
    (entry : Option ConnId) : EdgePair :=
  let table := s.tables flow.edge
  (s.setTable flow.edge { table with
    activeFlows := Function.update table.activeFlows flow.flowId entry }).setStage c flow stage

/-- Everything a step can do. -/
theorem edgeStep_cases {s t : EdgePair} {e : FlowEvent} {o : Option (EdgeKind × Option ConnId)}
    (h : edgeStep s e = .ok (t, o)) :
    (∃ edge, e = .allocate edge ∧
      t = { s.setTable edge (s.tables edge).fetchAdd.2 with
        flows := s.flows ++ [⟨edge, (s.tables edge).nextFlowId, .allocated⟩] }) ∨
    ((∀ edge, e ≠ .allocate edge) ∧ t = s) ∨
    ((∀ edge, e ≠ .allocate edge) ∧ ∃ c flow, s.flows[c]? = some flow ∧
      (flow.stage = .allocated ∧ t = s.moved c flow .active (some c) ∨
        flow.stage = .active ∧ t = s.moved c flow .ended none)) := by
  cases e with
  | allocate edge =>
    left
    simp only [edgeStep, FlowTable.fetchAdd, Except.ok.injEq, Prod.mk.injEq] at h
    exact ⟨edge, rfl, h.1.symm⟩
  | insert c =>
    -- out of stage, or for a flow that is not there, the event does nothing
    right
    cases hflow : s.flows[c]? with
    | none =>
      simp only [edgeStep, hflow, Except.ok.injEq, Prod.mk.injEq] at h
      exact Or.inl ⟨fun _ => nofun, h.1.symm⟩
    | some flow =>
      simp only [edgeStep, hflow] at h
      split at h
      case isTrue hstage =>
        rw [Except.ok.injEq, Prod.mk.injEq] at h
        exact Or.inr ⟨fun _ => nofun, c, flow, hflow, Or.inl ⟨hstage, h.1.symm⟩⟩
      case isFalse =>
        rw [Except.ok.injEq, Prod.mk.injEq] at h
        exact Or.inl ⟨fun _ => nofun, h.1.symm⟩
  | remove c =>
    right
    cases hflow : s.flows[c]? with
    | none =>
      simp only [edgeStep, hflow, Except.ok.injEq, Prod.mk.injEq] at h
      exact Or.inl ⟨fun _ => nofun, h.1.symm⟩
    | some flow =>
      simp only [edgeStep, hflow] at h
      split at h
      case isTrue hstage =>
        rw [Except.ok.injEq, Prod.mk.injEq] at h
        exact Or.inr ⟨fun _ => nofun, c, flow, hflow, Or.inr ⟨hstage, h.1.symm⟩⟩
      case isFalse =>
        rw [Except.ok.injEq, Prod.mk.injEq] at h
        exact Or.inl ⟨fun _ => nofun, h.1.symm⟩
  | dispatch flowId =>
    right
    simp only [edgeStep, Except.ok.injEq, Prod.mk.injEq] at h
    exact Or.inl ⟨fun _ => nofun, h.1.symm⟩

@[simp] theorem moved_flows (s : EdgePair) (c : ConnId) (flow : EdgeFlow) (stage : FlowStage)
    (entry : Option ConnId) :
    (s.moved c flow stage entry).flows = s.flows.set c { flow with stage := stage } := rfl

/-- A stage change keeps every edge's counter. -/
theorem moved_nextFlowId (s : EdgePair) (c : ConnId) (flow : EdgeFlow) (stage : FlowStage)
    (entry : Option ConnId) (edge : EdgeKind) :
    ((s.moved c flow stage entry).tables edge).nextFlowId = (s.tables edge).nextFlowId := by
  show (Function.update s.tables flow.edge _ edge).nextFlowId = _
  by_cases hedge : edge = flow.edge
  · subst hedge
    rw [Function.update_self]
  · rw [Function.update_of_ne hedge]

/-- A stage change keeps the edge and the id of every flow. -/
theorem moved_ids {s : EdgePair} {c : ConnId} {flow : EdgeFlow} (h : s.flows[c]? = some flow)
    (stage : FlowStage) (entry : Option ConnId) : (s.moved c flow stage entry).ids = s.ids := by
  obtain ⟨hc, hget⟩ := List.getElem?_eq_some_iff.mp h
  have hself : s.flows.set c flow = s.flows := by
    rw [← hget]
    exact List.set_getElem_self hc
  show (s.flows.set c { flow with stage := stage }).map _ = s.flows.map _
  rw [List.map_set]
  show (s.flows.map _).set c (flow.edge, flow.flowId) = _
  conv_rhs => rw [← hself, List.map_set]

/-- A stage change touches one entry of one table. -/
theorem moved_activeFlows (s : EdgePair) (c : ConnId) (flow : EdgeFlow) (stage : FlowStage)
    (entry : Option ConnId) (edge : EdgeKind) (flowId : UInt32) :
    ((s.moved c flow stage entry).tables edge).activeFlows flowId =
      if edge = flow.edge ∧ flowId = flow.flowId then entry
      else (s.tables edge).activeFlows flowId := by
  show (Function.update s.tables flow.edge _ edge).activeFlows flowId = _
  by_cases hedge : edge = flow.edge
  · subst hedge
    rw [Function.update_self]
    show Function.update (s.tables flow.edge).activeFlows flow.flowId entry flowId = _
    by_cases hid : flowId = flow.flowId
    · rw [if_pos ⟨rfl, hid⟩, hid, Function.update_self]
    · rw [if_neg (fun h => hid h.2), Function.update_of_ne hid]
  · rw [if_neg (fun h => hedge h.1), Function.update_of_ne hedge]

/-! ## The ids of all flows -/

/-- The `k`-th flow id that an edge allocates. -/
def idAt (edge : EdgeKind) (k : Nat) : UInt32 :=
  (EdgePair.start.tables edge).nextFlowId + UInt32.ofNat k

/-- How many ids an edge can allocate before it leaves its own part of the ids. -/
def idCapacity : EdgeKind → Nat
  | .tcp => 999999
  | .quic => 2 ^ 32 - 1000000

theorem idAt_succ (edge : EdgeKind) (k : Nat) : idAt edge (k + 1) = idAt edge k + 1 := by
  rw [idAt, idAt, UInt32.ofNat_add, UInt32.add_assoc]
  rfl

theorem toNat_idAt_tcp (k : Nat) : (idAt .tcp k).toNat = (1 + k) % 2 ^ 32 := by
  simp [idAt, EdgePair.start, Node.new, TcpSplitter.new, UInt32.toNat_add]

theorem toNat_idAt_quic (k : Nat) : (idAt .quic k).toNat = (1000000 + k) % 2 ^ 32 := by
  simp [idAt, EdgePair.start, Node.new, QuicAcceptor.new, UInt32.toNat_add]

/-- Within its capacity an edge counts without wrapping around. -/
theorem idAt_inj {edge : EdgeKind} {j k : Nat} (hj : j ≤ idCapacity edge) (hk : k ≤ idCapacity edge)
    (h : idAt edge j = idAt edge k) : j = k := by
  have hnat := congrArg UInt32.toNat h
  cases edge with
  | tcp =>
    rw [toNat_idAt_tcp, toNat_idAt_tcp] at hnat
    simp only [idCapacity] at hj hk
    omega
  | quic =>
    rw [toNat_idAt_quic, toNat_idAt_quic] at hnat
    simp only [idCapacity] at hj hk
    omega

/-- Every edge has allocated `n` ids, one after the other. -/
structure IdsInv (n : EdgeKind → Nat) (s : EdgePair) : Prop where
  next : ∀ edge, (s.tables edge).nextFlowId = idAt edge (n edge)
  ids : ∀ edge, (s.ids.filter fun p => p.1 = edge).map Prod.snd =
    (List.range (n edge)).map (idAt edge)

theorem idsInv_start : IdsInv (fun _ => 0) EdgePair.start := by
  constructor
  · intro edge
    exact (UInt32.add_zero _).symm
  · intro edge
    rfl

theorem IdsInv.step {n : EdgeKind → Nat} {s t : EdgePair} {e : FlowEvent}
    {o : Option (EdgeKind × Option ConnId)} (hinv : IdsInv n s) (h : edgeStep s e = .ok (t, o)) :
    IdsInv (fun edge => n edge + if e = .allocate edge then 1 else 0) t := by
  rcases edgeStep_cases h with ⟨edge, rfl, rfl⟩ | ⟨hne, rfl⟩ | ⟨hne, c, flow, hflow, hmoved⟩
  · -- a new flow takes the counter of its edge, and no other counter moves
    have hids : ∀ edge' : EdgeKind, ((EdgePair.ids { s.setTable edge (s.tables edge).fetchAdd.2 with
        flows := s.flows ++ [⟨edge, (s.tables edge).nextFlowId, .allocated⟩] }).filter
          fun p => p.1 = edge').map Prod.snd =
        ((s.ids.filter fun p => p.1 = edge').map Prod.snd) ++
          if edge = edge' then [(s.tables edge).nextFlowId] else [] := by
      intro edge'
      simp only [EdgePair.ids, List.map_append, List.filter_append, List.map_cons, List.map_nil]
      by_cases hedge : edge = edge' <;> simp [hedge]
    constructor
    · intro edge'
      by_cases hedge : edge = edge'
      · subst hedge
        show (Function.update s.tables edge (s.tables edge).fetchAdd.2 edge).nextFlowId = _
        rw [Function.update_self, if_pos rfl, idAt_succ, ← hinv.next]
        rfl
      · have hevent : ¬ (FlowEvent.allocate edge = .allocate edge') := by simpa using hedge
        show (Function.update s.tables edge (s.tables edge).fetchAdd.2 edge').nextFlowId = _
        rw [Function.update_of_ne (Ne.symm hedge), if_neg hevent]
        exact hinv.next edge'
    · intro edge'
      rw [hids, hinv.ids]
      by_cases hedge : edge = edge'
      · subst hedge
        rw [if_pos rfl, if_pos rfl, List.range_succ, List.map_append, hinv.next]
        rfl
      · have hevent : ¬ (FlowEvent.allocate edge = .allocate edge') := by simpa using hedge
        rw [if_neg hedge, if_neg hevent, List.append_nil]
        rfl
  · simp only [if_neg (hne _), Nat.add_zero]
    exact hinv
  · simp only [if_neg (hne _), Nat.add_zero]
    rcases hmoved with ⟨-, rfl⟩ | ⟨-, rfl⟩
    all_goals
      constructor
      · intro edge
        rw [moved_nextFlowId]
        exact hinv.next edge
      · intro edge
        rw [moved_ids hflow]
        exact hinv.ids edge

/-- Every flow's id is one of those that its edge has allocated. -/
theorem IdsInv.mem {n : EdgeKind → Nat} {s : EdgePair} (h : IdsInv n s) {flow : EdgeFlow}
    (hflow : flow ∈ s.flows) : ∃ k < n flow.edge, flow.flowId = idAt flow.edge k := by
  have hmem : flow.flowId ∈ (s.ids.filter fun p => p.1 = flow.edge).map Prod.snd := by
    refine List.mem_map.mpr ⟨(flow.edge, flow.flowId), List.mem_filter.mpr ⟨?_, ?_⟩, rfl⟩
    · exact List.mem_map_of_mem (f := fun flow => (flow.edge, flow.flowId)) hflow
    · exact decide_eq_true rfl
  rw [h.ids, List.mem_map] at hmem
  obtain ⟨k, hk, heq⟩ := hmem
  exact ⟨k, List.mem_range.mp hk, heq.symm⟩

/-- Every id that an edge has allocated is that of a flow. -/
theorem IdsInv.exists_flow {n : EdgeKind → Nat} {s : EdgePair} (h : IdsInv n s)
    (edge : EdgeKind) {k : Nat} (hk : k < n edge) :
    ∃ flow ∈ s.flows, flow.edge = edge ∧ flow.flowId = idAt edge k := by
  have hmem : idAt edge k ∈ (s.ids.filter fun p => p.1 = edge).map Prod.snd := by
    rw [h.ids]
    exact List.mem_map_of_mem (List.mem_range.mpr hk)
  obtain ⟨p, hp, heq⟩ := List.mem_map.mp hmem
  obtain ⟨hids, hedge⟩ := List.mem_filter.mp hp
  obtain ⟨flow, hflow, rfl⟩ := List.mem_map.mp hids
  exact ⟨flow, hflow, of_decide_eq_true hedge, heq⟩

/-- Two flows of one edge with one id are the same flow, as long as the edge is within its capacity.
-/
theorem IdsInv.unique {n : EdgeKind → Nat} {s : EdgePair} (h : IdsInv n s) {edge : EdgeKind}
    (hn : n edge ≤ idCapacity edge) {b c : ConnId} {flow other : EdgeFlow}
    (hb : s.flows[b]? = some flow) (hc : s.flows[c]? = some other) (hflow : flow.edge = edge)
    (hother : other.edge = edge) (hid : flow.flowId = other.flowId) : b = c := by
  have hnodup : ((s.ids.filter fun p => p.1 = edge).map Prod.snd).Nodup := by
    rw [h.ids]
    refine List.Nodup.map_on ?_ List.nodup_range
    intro j hj k hk heq
    rw [List.mem_range] at hj hk
    exact idAt_inj (by omega) (by omega) heq
  rw [List.Nodup, List.pairwise_map, List.pairwise_filter, EdgePair.ids, List.pairwise_map,
    List.pairwise_iff_getElem] at hnodup
  obtain ⟨hblt, hbget⟩ := List.getElem?_eq_some_iff.mp hb
  obtain ⟨hclt, hcget⟩ := List.getElem?_eq_some_iff.mp hc
  rcases Nat.lt_trichotomy b c with hlt | heq | hlt
  · have hne := hnodup b c hblt hclt hlt
    rw [hbget, hcget] at hne
    exact absurd hid (hne (decide_eq_true hflow) (decide_eq_true hother))
  · exact heq
  · have hne := hnodup c b hclt hblt hlt
    rw [hbget, hcget] at hne
    exact absurd hid.symm (hne (decide_eq_true hother) (decide_eq_true hflow))

/-! ## The entries of the maps -/

/-- The entries of an edge's map are its active flows, each under its own id. -/
def EntriesInv (s : EdgePair) : Prop :=
  ∀ (edge : EdgeKind) (flowId : UInt32) (c : ConnId),
    (s.tables edge).activeFlows flowId = some c ↔ s.flows[c]? = some ⟨edge, flowId, .active⟩

theorem entriesInv_start : EntriesInv EdgePair.start := by
  intro edge flowId c
  constructor
  · intro h
    cases edge <;> cases h
  · intro h
    cases h

/-- A flow that becomes active, or was active and ends, is the only one whose entry changes. -/
theorem EntriesInv.moved {n : EdgeKind → Nat} {s : EdgePair} (h : EntriesInv s) (hids : IdsInv n s)
    (hn : ∀ edge, n edge ≤ idCapacity edge) {c : ConnId} {flow : EdgeFlow}
    (hflow : s.flows[c]? = some flow) {stage : FlowStage} {entry : Option ConnId}
    (hentry : stage = .active ∧ entry = some c ∨ stage ≠ .active ∧ entry = none) :
    EntriesInv (s.moved c flow stage entry) := by
  have hc : c < s.flows.length := (List.getElem?_eq_some_iff.mp hflow).1
  intro edge flowId b
  rw [moved_activeFlows, moved_flows]
  by_cases hkey : edge = flow.edge ∧ flowId = flow.flowId
  · obtain ⟨rfl, rfl⟩ := hkey
    rw [if_pos ⟨rfl, rfl⟩]
    by_cases hb : c = b
    · subst hb
      rw [List.getElem?_set_self hc, Option.some.injEq, EdgeFlow.mk.injEq]
      rcases hentry with ⟨rfl, rfl⟩ | ⟨hstage, rfl⟩
      · simp
      · simp [hstage]
    · -- another flow under the same id would be the same flow
      rw [List.getElem?_set_ne hb]
      constructor
      · intro hsome
        rcases hentry with ⟨-, rfl⟩ | ⟨-, rfl⟩
        · exact absurd (Option.some.inj hsome) hb
        · cases hsome
      · intro hother
        exact absurd (hids.unique (hn flow.edge) hflow hother rfl rfl rfl) hb
  · rw [if_neg hkey, h edge flowId b]
    by_cases hb : c = b
    · subst hb
      rw [hflow, List.getElem?_set_self hc, Option.some.injEq, Option.some.injEq]
      constructor
      · rintro rfl
        exact absurd ⟨rfl, rfl⟩ hkey
      · intro heq
        rw [EdgeFlow.mk.injEq] at heq
        exact absurd ⟨heq.1.symm, heq.2.1.symm⟩ hkey
    · rw [List.getElem?_set_ne hb]

theorem EntriesInv.step {n : EdgeKind → Nat} {s t : EdgePair} {e : FlowEvent}
    {o : Option (EdgeKind × Option ConnId)} (h : EntriesInv s) (hids : IdsInv n s)
    (hn : ∀ edge, n edge ≤ idCapacity edge) (hstep : edgeStep s e = .ok (t, o)) : EntriesInv t := by
  rcases edgeStep_cases hstep with ⟨edge, -, rfl⟩ | ⟨-, rfl⟩ | ⟨-, c, flow, hflow, hmoved⟩
  · -- the new flow is at the end of the list and is not active
    intro edge' flowId c
    have hactive : ((Function.update s.tables edge (s.tables edge).fetchAdd.2) edge').activeFlows =
        (s.tables edge').activeFlows := by
      by_cases hedge : edge' = edge
      · subst hedge
        rw [Function.update_self]
        rfl
      · rw [Function.update_of_ne hedge]
    show ((Function.update s.tables edge (s.tables edge).fetchAdd.2) edge').activeFlows flowId =
      some c ↔ (s.flows ++ [_])[c]? = _
    rw [hactive, h edge' flowId c, List.getElem?_append]
    split
    case isTrue => rfl
    case isFalse hlen =>
      rw [List.getElem?_eq_none (by omega), List.getElem?_singleton]
      split <;> simp
  · exact h
  · rcases hmoved with ⟨-, rfl⟩ | ⟨-, rfl⟩
    · exact h.moved hids hn hflow (Or.inl ⟨rfl, rfl⟩)
    · exact h.moved hids hn hflow (Or.inr ⟨nofun, rfl⟩)

/-- What a run keeps: the ids are the first ones of their edges, and the maps hold the active flows
as long as no edge has left its capacity. -/
theorem inv_run {es : List FlowEvent} {s : EdgePair} {os : List (Option (EdgeKind × Option ConnId))}
    (hrun : Machine.run edgeStep EdgePair.start es = .ok (s, os)) :
    IdsInv (fun edge => allocations edge es) s ∧
      ((∀ edge, allocations edge es ≤ idCapacity edge) → EntriesInv s) := by
  refine Machine.run_induction (P := fun es s _ => IdsInv (fun edge => allocations edge es) s ∧
    ((∀ edge, allocations edge es ≤ idCapacity edge) → EntriesInv s))
    ⟨idsInv_start, fun _ => entriesInv_start⟩ ?_ es s os hrun
  intro es s os e t o hinv hstep
  constructor
  · have hnext := hinv.1.step hstep
    simpa only [allocations_snoc] using hnext
  · intro hn
    have hle : ∀ edge, allocations edge es ≤ idCapacity edge := by
      intro edge
      have hlast := hn edge
      rw [allocations_snoc] at hlast
      exact Nat.le_trans (Nat.le_add_right _ _) hlast
    exact (hinv.2 hle).step hinv.1 hle hstep

/-! ## The partition -/

/-- The ids of the two edges are apart; the next id of an edge is not that of a flow which has not
ended; an allocated flow finds no entry under its id, and an active one its own; and the dispatcher
hands an active flow's id to its edge, and to its channel. -/
structure Partitioned (s : EdgePair) : Prop where
  tcp_lt : ∀ flow ∈ s.flows, flow.edge = .tcp → flow.flowId < 1000000
  quic_ge : ∀ flow ∈ s.flows, flow.edge = .quic → 1000000 ≤ flow.flowId
  fresh : ∀ flow ∈ s.flows, flow.stage ≠ .ended →
    (s.tables flow.edge).nextFlowId ≠ flow.flowId
  free : ∀ flow ∈ s.flows, flow.stage = .allocated →
    (s.tables flow.edge).activeFlows flow.flowId = none
  entry : ∀ (c : ConnId) (flow : EdgeFlow), s.flows[c]? = some flow → flow.stage = .active →
    (s.tables flow.edge).activeFlows flow.flowId = some c
  handed : ∀ (c : ConnId) (flow : EdgeFlow), s.flows[c]? = some flow → flow.stage = .active →
    s.dispatch flow.flowId = (flow.edge, some c)

/-- Within its capacity, an edge's ids are on its own side of 1,000,000. -/
theorem edgeOf_idAt {edge : EdgeKind} {k : Nat} (hk : k < idCapacity edge) :
    edgeOf (idAt edge k) = edge := by
  cases edge with
  | tcp =>
    have hlt : idAt .tcp k < 1000000 := by
      rw [UInt32.lt_iff_toNat_lt, toNat_idAt_tcp]
      simp only [idCapacity] at hk
      show (1 + k) % 2 ^ 32 < 1000000
      omega
    exact if_pos hlt
  | quic =>
    have hge : ¬ idAt .quic k < 1000000 := by
      rw [UInt32.lt_iff_toNat_lt, toNat_idAt_quic]
      simp only [idCapacity] at hk
      show ¬ (1000000 + k) % 2 ^ 32 < 1000000
      omega
    exact if_neg hge

theorem lt_of_edgeOf_tcp {flowId : UInt32} (h : edgeOf flowId = .tcp) : flowId < 1000000 := by
  by_contra hlt
  rw [edgeOf, if_neg hlt] at h
  cases h

theorem le_of_edgeOf_quic {flowId : UInt32} (h : edgeOf flowId = .quic) : 1000000 ≤ flowId := by
  by_contra hle
  rw [edgeOf, if_pos (UInt32.not_le.mp hle)] at h
  cases h

/-- Within the capacities of both edges, everything is partitioned. -/
theorem partitioned_of_inv {n : EdgeKind → Nat} {s : EdgePair} (hids : IdsInv n s)
    (hentries : EntriesInv s) (hn : ∀ edge, n edge ≤ idCapacity edge) : Partitioned s := by
  have hedge : ∀ flow ∈ s.flows, edgeOf flow.flowId = flow.edge := by
    intro flow hflow
    obtain ⟨k, hk, hid⟩ := hids.mem hflow
    rw [hid]
    exact edgeOf_idAt (Nat.lt_of_lt_of_le hk (hn flow.edge))
  have hentry : ∀ (c : ConnId) (flow : EdgeFlow), s.flows[c]? = some flow → flow.stage = .active →
      (s.tables flow.edge).activeFlows flow.flowId = some c := by
    rintro c ⟨edge, flowId, stage⟩ hflow rfl
    exact (hentries edge flowId c).mpr hflow
  refine ⟨?_, ?_, ?_, ?_, hentry, ?_⟩
  · intro flow hflow htcp
    exact lt_of_edgeOf_tcp ((hedge flow hflow).trans htcp)
  · intro flow hflow hquic
    exact le_of_edgeOf_quic ((hedge flow hflow).trans hquic)
  · intro flow hflow _ heq
    obtain ⟨k, hk, hid⟩ := hids.mem hflow
    rw [hids.next, hid] at heq
    have hk' : k ≤ idCapacity flow.edge := Nat.le_trans (Nat.le_of_lt hk) (hn flow.edge)
    exact absurd (idAt_inj (hn flow.edge) hk' heq) (Nat.ne_of_gt hk)
  · intro flow hflow hstage
    cases hsome : (s.tables flow.edge).activeFlows flow.flowId with
    | none => rfl
    | some c =>
      -- the entry would be an active flow with the same id
      have hactive := (hentries flow.edge flow.flowId c).mp hsome
      obtain ⟨b, hb⟩ := List.mem_iff_getElem?.mp hflow
      have hsame := hids.unique (hn flow.edge) hb hactive rfl rfl rfl
      subst hsame
      rw [hb, Option.some.injEq] at hactive
      rw [hactive] at hstage
      cases hstage
  · intro c flow hflow hstage
    rw [EdgePair.dispatch, hedge flow (List.mem_of_getElem? hflow), hentry c flow hflow hstage]

/-- The ids are partitioned as long as neither edge has allocated more ids than there are in its
part, and no longer. -/
theorem partitioned_iff {es : List FlowEvent} {s : EdgePair}
    {os : List (Option (EdgeKind × Option ConnId))}
    (hrun : Machine.run edgeStep EdgePair.start es = .ok (s, os)) :
    Partitioned s ↔ allocations .tcp es ≤ 999999 ∧ allocations .quic es ≤ 2 ^ 32 - 1000000 := by
  obtain ⟨hids, hentries⟩ := inv_run hrun
  constructor
  · intro hpart
    constructor
    · by_contra hlt
      -- the flow after the last one within the capacity
      obtain ⟨flow, hflow, hedge, hid⟩ := hids.exists_flow .tcp (k := 999999) (by omega)
      have hbad := hpart.tcp_lt flow hflow hedge
      rw [hid] at hbad
      revert hbad
      decide
    · by_contra hlt
      obtain ⟨flow, hflow, hedge, hid⟩ :=
        hids.exists_flow .quic (k := 2 ^ 32 - 1000000) (by omega)
      have hbad := hpart.quic_ge flow hflow hedge
      rw [hid] at hbad
      revert hbad
      decide
  · rintro ⟨htcp, hquic⟩
    have hn : ∀ edge, allocations edge es ≤ idCapacity edge := by
      intro edge
      cases edge with
      | tcp => exact htcp
      | quic => exact hquic
    exact partitioned_of_inv hids (hentries hn) hn

/-- A connection and a stream are open, and another connection has ended. -/
def threeFlows : List FlowEvent :=
  [.allocate .tcp, .insert 0, .allocate .quic, .allocate .tcp, .insert 2, .insert 1, .remove 0,
    .dispatch 1000000]

theorem partitioned_iff_threeFlows :
    ∃ s os, Machine.run edgeStep EdgePair.start threeFlows = .ok (s, os) ∧ Partitioned s := by
  have hrun : Machine.run edgeStep EdgePair.start threeFlows = .ok (_, _) := rfl
  exact ⟨_, _, hrun, (partitioned_iff hrun).mpr (by decide)⟩

/-! ## The millionth connection -/

/-- Any number of TCP connections can be accepted. -/
theorem run_allocate_tcp (k : Nat) :
    ∃ s os, Machine.run edgeStep EdgePair.start (List.replicate k (.allocate .tcp)) = .ok (s, os) ∧
      s.flows = (List.range k).map fun i => ⟨.tcp, idAt .tcp i, .allocated⟩ := by
  induction k with
  | zero => exact ⟨EdgePair.start, [], rfl, rfl⟩
  | succ k ih =>
    obtain ⟨s, os, hrun, hflows⟩ := ih
    have hnext := (inv_run hrun).1.next .tcp
    rw [allocations, List.countP_replicate] at hnext
    rw [List.replicate_succ']
    refine ⟨_, _, Machine.run_snoc hrun rfl, ?_⟩
    rw [List.range_succ, List.map_append, ← hflows]
    show s.flows ++ [⟨.tcp, (s.tables .tcp).nextFlowId, .allocated⟩] = _
    rw [hnext]
    rfl

/-- After a million connections, the last one has the id 1,000,000, which the dispatcher hands to
the QUIC edge. -/
theorem millionthConnection_gets_quic_id :
    ∃ s os, Machine.run edgeStep EdgePair.start (List.replicate 1000000 (.allocate .tcp)) =
      .ok (s, os) ∧ s.flows[999999]? = some ⟨.tcp, 1000000, .allocated⟩ ∧
        edgeOf 1000000 = .quic ∧ ¬ Partitioned s := by
  obtain ⟨s, os, hrun, hflows⟩ := run_allocate_tcp 1000000
  have hlast : s.flows[999999]? = some ⟨.tcp, 1000000, .allocated⟩ := by
    rw [hflows, List.getElem?_map, List.getElem?_range (by decide)]
    rfl
  refine ⟨s, os, hrun, hlast, rfl, ?_⟩
  intro hpart
  have hlt := hpart.tcp_lt _ (List.mem_of_getElem? hlast) rfl
  revert hlt
  decide

end EntrouterLine.Mesh
