import EntrouterLine.Mesh.ProbedRoute
import EntrouterLine.Mesh.Provenance

/-!
# The mesh with its routers

In `MeshState.step` the answers of `next_hop` are left open. Here every node has a prober, and each
answer is computed by the node's own router from what its own prober has measured. Probes, clients,
forwarders and the network take their steps in any order.

A router knows the edges between its node and the peers of its node only, so the only next hop that
it ever finds for a destination is the destination. `Direct` is the invariant that follows: all
that a link carries comes from a client of its sender and goes to its receiver, and the branch of
`route_data` that forwards a payload is never taken.
-/

set_option autoImplicit false

namespace EntrouterLine.Mesh

open EntrouterLine.Lib
open EntrouterLine.Relay
open EntrouterLine.Edge

/-! ## The machine -/

/-- The peers of every node, the node that its clients' data goes to, and its FEC parameters. -/
structure ProbedConfig where
  peers : PeerGraph
  defaultDest : NodeId → NodeId
  fecConfig : NodeId → FecConfig

def ProbedConfig.mesh (cfg : ProbedConfig) : MeshConfig :=
  ⟨cfg.defaultDest, fun x y => y ∈ cfg.peers x, cfg.fecConfig⟩

structure ProbedMesh where
  mesh : MeshState
  probes : ProbeNet

def ProbedMesh.start (cfg : ProbedConfig) : ProbedMesh :=
  ⟨MeshState.start cfg.mesh, ProbeNet.start⟩

/-- The node whose router a step asks, and the destination it asks for. -/
def MeshState.asks (s : MeshState) : MeshEvent → Option (NodeId × NodeId)
  | .send c _ => (s.conns[c]?).map fun conn => (conn.node, conn.destNode)
  | .route x _ =>
      match (s.node x).routing with
      | [] => none
      | t :: _ => (decodeRelayHeader t.payload).map fun fields => (x, fields.2.1)
  | _ => none

/-- The step with this answer of the router. -/
def MeshEvent.answer (hop : Option NodeId) : MeshEvent → MeshEvent
  | .send c _ => .send c hop
  | .route x _ => .route x hop
  | e => e

/-- `MeshRouter::next_hop` at the node `x`. -/
def ProbedMesh.nextHop (std : StdOrder) (s : ProbedMesh) (x destination : NodeId) :
    Except Fault (Option NodeId) :=
  ((MeshRouter.mk x (s.probes.prober x).matrix).nextHop std destination).map
    (Option.map RouteEntry.nextHop)

/-- The step with the answer that the router gives. -/
def ProbedMesh.answered (std : StdOrder) (s : ProbedMesh) (e : MeshEvent) :
    Except Fault MeshEvent :=
  match s.mesh.asks e with
  | none => .ok (e.answer none)
  | some (x, destination) => (s.nextHop std x destination).map e.answer

inductive ProbedEvent where
  | task (std : StdOrder) (e : MeshEvent)
  | probe (e : ProbeNetEvent)

inductive ProbedFault where
  | router (fault : Fault)
  | fec (panic : Panic)

/-- One step. The answer that a step of the mesh comes with is replaced by the router's. -/
def probedStep (rs : ReedSolomon) (cfg : ProbedConfig) (s : ProbedMesh) :
    ProbedEvent → Except ProbedFault (ProbedMesh × Unit)
  | .task std e =>
      match s.answered std e with
      | .error fault => .error (.router fault)
      | .ok e' =>
          match s.mesh.step rs cfg.mesh e' with
          | .error panic => .error (.fec panic)
          | .ok mesh => .ok (⟨mesh, s.probes⟩, ())
  | .probe e =>
      match probeNetStep cfg.peers s.probes e with
      | .ok (probes, _) => .ok (⟨s.mesh, probes⟩, ())

/-! ## What a router answers -/

variable {peers : PeerGraph} {x : NodeId} {p : Prober}

/-- `next_hop` returns, and a hop that it finds is the destination, a peer. -/
theorem OwnPeers.nextHop_direct (h : OwnPeers peers x p) (std : StdOrder) (destination : NodeId) :
    ∃ result, (MeshRouter.mk x p.matrix).nextHop std destination = .ok result ∧
      ∀ route, result = some route → route.nextHop = destination ∧ destination ∈ peers x := by
  by_cases hne : destination = x
  · refine ⟨none, ?_, nofun⟩
    rw [MeshRouter.nextHop, if_pos hne]
  · rcases h.nextHop_cases std hne with ⟨rtt, hrtt, -, hresult⟩ | ⟨-, hresult⟩
    · refine ⟨_, hresult, ?_⟩
      rintro route ⟨⟩
      have hsome : (p.matrix.getRtt x destination).isSome := by rw [hrtt]; rfl
      rcases h.edges x destination hsome with ⟨-, hpeer⟩ | ⟨heq, -⟩
      · exact ⟨rfl, hpeer⟩
      · exact absurd heq hne
    · exact ⟨none, hresult, nofun⟩

/-- `next_hop` finds a peer once an edge to it has been measured that does not count as unreachable.
-/
theorem OwnPeers.nextHop_measured (h : OwnPeers peers x p) (std : StdOrder) {destination : NodeId}
    (hne : destination ≠ x) {rtt : Duration} (hrtt : p.matrix.getRtt x destination = some rtt)
    (hreachable : edgeCost rtt < u64Max) :
    ∃ route, (MeshRouter.mk x p.matrix).nextHop std destination = .ok (some route) ∧
      route.nextHop = destination := by
  rcases h.nextHop_cases std hne with ⟨rtt', -, -, hresult⟩ | ⟨hnone, -⟩
  · exact ⟨_, hresult, rfl⟩
  · exact absurd hreachable (Nat.not_lt.mpr (hnone rtt hrtt))

/-- A next hop that the step comes with is the destination, and a peer. -/
def MeshState.DirectAnswer (peers : PeerGraph) (s : MeshState) : MeshEvent → Prop
  | .send c (some hop) => ∀ conn, s.conns[c]? = some conn →
      hop = conn.destNode ∧ hop ∈ peers conn.node
  | _ => True

/-- The router answers every step, and directly. -/
theorem ProbedMesh.answered_direct {s : ProbedMesh}
    (hown : ∀ x, OwnPeers peers x (s.probes.prober x)) (std : StdOrder) (e : MeshEvent) :
    ∃ hop, s.answered std e = .ok (e.answer hop) ∧
      s.mesh.DirectAnswer peers (e.answer hop) := by
  rw [ProbedMesh.answered]
  cases hasks : s.mesh.asks e with
  | none =>
    refine ⟨none, rfl, ?_⟩
    cases e <;> trivial
  | some question =>
    obtain ⟨x, destination⟩ := question
    obtain ⟨result, hresult, hdirect⟩ := (hown x).nextHop_direct std destination
    refine ⟨result.map RouteEntry.nextHop, ?_, ?_⟩
    · simp only [ProbedMesh.nextHop, hresult]
      rfl
    · cases e with
      | send c given =>
        cases result with
        | none => trivial
        | some route =>
          intro conn hconn
          rw [MeshState.asks, hconn] at hasks
          cases hasks
          obtain ⟨hhop, hpeer⟩ := hdirect route rfl
          rw [hhop]
          exact ⟨rfl, hpeer⟩
      | _ => trivial

/-- Once the edge to its node's destination is measured, a connection's data is sent there. -/
theorem ProbedMesh.answered_send {s : ProbedMesh} {c : ConnId} {conn : Conn}
    (hconn : s.mesh.conns[c]? = some conn)
    (hown : OwnPeers peers conn.node (s.probes.prober conn.node))
    (hne : conn.destNode ≠ conn.node) {rtt : Duration}
    (hrtt : (s.probes.prober conn.node).matrix.getRtt conn.node conn.destNode = some rtt)
    (hreachable : edgeCost rtt < u64Max) (std : StdOrder) (given : Option NodeId) :
    s.answered std (.send c given) = .ok (.send c (some conn.destNode)) := by
  obtain ⟨route, hroute, hhop⟩ := hown.nextHop_measured std hne hrtt hreachable
  rw [ProbedMesh.answered, MeshState.asks, hconn]
  simp only [Option.map_some, ProbedMesh.nextHop, hroute, Except.map, hhop, MeshEvent.answer]

/-! ## Everything goes one hop -/

/-- The data comes from a client of `x` and goes to `y`, a peer of `x`. -/
def Hop (cfg : ProbedConfig) (conns : List Conn) (x y : NodeId) (source : Option ConnId) : Prop :=
  ∃ (c : ConnId) (conn : Conn), source = some c ∧ conns[c]? = some conn ∧ conn.node = x ∧
    conn.destNode = y ∧ y ∈ cfg.peers x

/-- All that a node has got came in one hop. -/
structure Node.Direct (cfg : ProbedConfig) (conns : List Conn) (x : NodeId) (node : Node) :
    Prop where
  routing : ∀ t ∈ node.routing, Hop cfg conns node.fromPeer x t.source
  queued : ∀ d ∈ node.localQueue, Hop cfg conns d.sourceNode x d.source
  handed : ∀ d ∈ node.handed, Hop cfg conns d.sourceNode x d.source

structure Direct (cfg : ProbedConfig) (s : MeshState) : Prop where
  dests : ∀ conn ∈ s.conns, conn.destNode = cfg.defaultDest conn.node
  links : ∀ x y, ∀ t ∈ (s.link (x, y)).log, Hop cfg s.conns x y t.source
  nodes : ∀ x, (s.node x).Direct cfg s.conns x

variable {rs : ReedSolomon} {cfg : ProbedConfig} {s t : MeshState}

theorem direct_start (cfg : ProbedConfig) : Direct cfg (MeshState.start cfg.mesh) :=
  ⟨nofun, fun _ _ => nofun, fun _ => ⟨nofun, nofun, nofun⟩⟩

theorem Hop.grows {conns conns' : List Conn} {x y : NodeId} {source : Option ConnId}
    (h : Hop cfg conns x y source) (hgrows : Grows conns conns') : Hop cfg conns' x y source := by
  obtain ⟨c, conn, hsource, hconn, hnode, hdest, hpeer⟩ := h
  obtain ⟨conn', hconn', hnode', -, hdest', -⟩ := hgrows c conn hconn
  exact ⟨c, conn', hsource, hconn', hnode'.trans hnode, hdest'.trans hdest, hpeer⟩

theorem Node.Direct.grows {conns conns' : List Conn} {x : NodeId} {node : Node}
    (h : node.Direct cfg conns x) (hgrows : Grows conns conns') : node.Direct cfg conns' x :=
  ⟨fun t ht => (h.routing t ht).grows hgrows, fun d hd => (h.queued d hd).grows hgrows,
    fun d hd => (h.handed d hd).grows hgrows⟩

/-- The invariant speaks about who the connections are, and they only grow. -/
theorem Direct.setConns (h : Direct cfg s) {conns : List Conn} (hgrows : Grows s.conns conns)
    (hdests : ∀ conn ∈ conns, conn.destNode = cfg.defaultDest conn.node) :
    Direct cfg { s with conns := conns } :=
  ⟨hdests, fun x y t ht => (h.links x y t ht).grows hgrows, fun x => (h.nodes x).grows hgrows⟩

theorem Direct.setConn (h : Direct cfg s) {c : ConnId} {conn conn' : Conn}
    (hconn : s.conns[c]? = some conn) (hnode : conn'.node = conn.node)
    (hflow : conn'.flowId = conn.flowId) (hdest : conn'.destNode = conn.destNode)
    (hread : conn.bytesRead <+: conn'.bytesRead) : Direct cfg (s.setConn c conn') := by
  apply h.setConns (grows_set hconn hnode hflow hdest hread)
  intro other hother
  rcases List.mem_or_eq_of_mem_set hother with hold | rfl
  · exact h.dests other hold
  · rw [hdest, hnode]
    exact h.dests conn (List.mem_of_getElem? hconn)

theorem Direct.setNode (h : Direct cfg s) {x : NodeId} {node : Node}
    (hnode : node.Direct cfg s.conns x) : Direct cfg (s.setNode x node) :=
  ⟨h.dests, h.links,
    forall_node_setNode (P := fun y node => node.Direct cfg s.conns y) hnode h.nodes⟩

theorem Direct.setTable (h : Direct cfg s) (x : NodeId) (edge : EdgeKind) (table : FlowTable) :
    Direct cfg (s.setNode x ((s.node x).setTable edge table)) :=
  h.setNode ⟨(h.nodes x).routing, (h.nodes x).queued, (h.nodes x).handed⟩

theorem Direct.setLink (h : Direct cfg s) {x y : NodeId} {l : MeshLink}
    (hlink : ∀ t ∈ l.log, Hop cfg s.conns x y t.source) : Direct cfg (s.setLink x y l) :=
  ⟨h.dests, forall_link_setLink
    (P := fun x y l => ∀ t ∈ l.log, Hop cfg s.conns x y t.source) hlink h.links, h.nodes⟩

theorem Direct.took (h : Direct cfg s) {x y : NodeId} {added : List Tagged} {l' : MeshLink}
    (htook : (s.link (x, y)).Took rs (cfg.fecConfig x) added l')
    (hadded : ∀ t ∈ added, Hop cfg s.conns x y t.source) : Direct cfg (s.setLink x y l') := by
  apply h.setLink
  intro t ht
  rw [htook.log_eq] at ht
  rcases List.mem_append.mp ht with hold | hnew
  · exact h.links x y t hold
  · exact hadded t hnew

/-- One payload less to route. -/
theorem Node.Direct.unrouted {conns : List Conn} {x : NodeId} {node : Node} {t : Tagged}
    {rest : List Tagged} (h : node.Direct cfg conns x) (hrouting : node.routing = t :: rest) :
    Node.Direct cfg conns x { node with routing := rest } := by
  refine ⟨?_, h.queued, h.handed⟩
  intro t' ht'
  apply h.routing
  rw [hrouting]
  exact List.mem_cons_of_mem _ ht'

/-- The header of a payload that goes to `y` names `y`. -/
theorem Direct.decode (h : Direct cfg s)
    (hshort : ∀ x, (nodeBytes (cfg.defaultDest x)).length ≤ 255) {x y : NodeId} {t : Tagged}
    (hhop : Hop cfg s.conns x y t.source) (hgenuine : Genuine s.conns t) :
    ∃ flowId data, decodeRelayHeader t.payload = some (flowId, y, data) := by
  obtain ⟨c, conn, hsource, hconn, -, rfl, -⟩ := hhop
  obtain ⟨c', conn', piece, hconn', -, -, rfl⟩ := hgenuine
  -- the payload's source is the one connection that it was built by
  cases hsource
  rw [hconn, Option.some.injEq] at hconn'
  subst hconn'
  have hname : wireDest conn.destNode = some conn.destNode := by
    rw [h.dests conn (List.mem_of_getElem? hconn)]
    exact wireDest_eq (hshort conn.node)
  refine ⟨conn.flowId, piece, ?_⟩
  rw [Conn.payload, decodeRelayHeader_encodeRelayHeader, hname, Option.map_some]

/-- A payload that the forwarder routes is addressed to its node. -/
theorem Direct.dest_eq (h : Direct cfg s) (hprov : Provenance rs cfg.mesh s)
    (hshort : ∀ x, (nodeBytes (cfg.defaultDest x)).length ≤ 255) {x : NodeId} {t : Tagged}
    {rest : List Tagged} (hrouting : (s.node x).routing = t :: rest) {flowId : UInt32}
    {destNode : NodeId} {data : Bytes}
    (hdecode : decodeRelayHeader t.payload = some (flowId, destNode, data)) : destNode = x := by
  have hmem : t ∈ (s.node x).routing := by
    rw [hrouting]
    exact List.mem_cons_self
  obtain ⟨flowId', data', hdecode'⟩ :=
    h.decode hshort ((h.nodes x).routing t hmem) (hprov.routing x t hmem)
  rw [hdecode'] at hdecode
  cases hdecode
  rfl

theorem Direct.delivers (h : Direct cfg s) {x : NodeId} {delivery : LocalDelivery}
    (hdelivers : Delivers s x delivery t) : Direct cfg t := by
  cases hdelivers with
  | dropped => exact h
  | accepted htable hconn => exact h.setConn hconn rfl rfl rfl (List.prefix_refl _)

/-- Every move with a direct answer keeps the invariant. -/
theorem Direct.moves (h : Direct cfg s) (hprov : Provenance rs cfg.mesh s)
    (hshort : ∀ x, (nodeBytes (cfg.defaultDest x)).length ≤ 255) {e : MeshEvent}
    (hanswer : s.DirectAnswer cfg.peers e) (hmove : Moves rs cfg.mesh s e t) : Direct cfg t := by
  cases hmove with
  | idle => exact h
  | accept x edge =>
    have hnode := h.setTable x edge ⟨((s.node x).tables edge).nextFlowId + 1, Function.update
      ((s.node x).tables edge).activeFlows ((s.node x).tables edge).nextFlowId
        (some s.conns.length)⟩
    apply hnode.setConns (grows_append s.conns _)
    intro conn hconn
    rcases List.mem_append.mp hconn with hold | hnew
    · exact h.dests conn hold
    · rw [List.mem_singleton.mp hnew]
      rfl
  | read hconn hreading hpending hpos hfits =>
    exact h.setConn hconn rfl rfl rfl (List.prefix_append _ _)
  | @sent c conn piece rest hop l' hconn hpending hdest htook =>
    obtain ⟨hhop, hpeer⟩ := hanswer conn hconn
    have hlink := h.took htook (by
      intro t ht
      rw [List.mem_singleton.mp ht]
      exact ⟨c, conn, rfl, hconn, rfl, hhop.symm, hpeer⟩)
    exact hlink.setConn hconn rfl rfl rfl (List.prefix_refl _)
  | sendFailed hconn hpending => exact h.setConn hconn rfl rfl rfl (List.prefix_refl _)
  | task hconn hstep =>
    apply h.setConn hconn hstep.node_eq hstep.flowId_eq hstep.destNode_eq
    rw [hstep.bytesRead_eq]
  | ended hconn =>
    exact Direct.setConn (h.setTable _ _ _) hconn rfl rfl rfl (List.prefix_refl _)
  | @received fromPeer x now n i l' out hidle hgave =>
    have hlink : Direct cfg (s.setLink fromPeer x l') := by
      apply h.setLink
      rw [MeshLink.log, hgave.blocks_eq, hgave.waiting_eq]
      exact h.links fromPeer x
    apply hlink.setNode
    -- what the link returns was submitted to it
    exact ⟨fun t ht => h.links fromPeer x t (hgave.mem_log t ht), (h.nodes x).queued,
      (h.nodes x).handed⟩
  | @routedHere x nextHop payload rest flowId data hrouting hdecode =>
    apply h.setNode
    have hnode := (h.nodes x).unrouted hrouting
    refine ⟨hnode.routing, ?_, hnode.handed⟩
    intro d hd
    rcases List.mem_append.mp hd with hold | hnew
    · exact hnode.queued d hold
    · rw [List.mem_singleton.mp hnew]
      apply (h.nodes x).routing payload
      rw [hrouting]
      exact List.mem_cons_self
  | routedOn hrouting hdecode hdest htook =>
    exact absurd (h.dest_eq hprov hshort hrouting hdecode) hdest
  | dropped hrouting hbad => exact h.setNode ((h.nodes _).unrouted hrouting)
  | flushed htook =>
    apply h.took htook
    intro t ht
    cases ht
  | expired => exact h.setLink (h.links _ _)
  | @dispatched x delivery rest t hqueue hdelivers =>
    refine Direct.delivers (h.setNode ?_) hdelivers
    refine ⟨(h.nodes x).routing, ?_, ?_⟩
    · intro d hd
      apply (h.nodes x).queued
      rw [hqueue]
      exact List.mem_cons_of_mem _ hd
    · intro d hd
      rcases List.mem_append.mp hd with hold | hnew
      · exact (h.nodes x).handed d hold
      · rw [List.mem_singleton.mp hnew]
        apply (h.nodes x).queued
        rw [hqueue]
        exact List.mem_cons_self

/-! ## Runs -/

/-- The shards that the step delivers find their own entries. -/
def ShardsMeetOwn (s : ProbedMesh) : ProbedEvent → Prop
  | .task _ e => ShardsFindOwnEntries s.mesh e
  | .probe _ => True

/-- What every run keeps: the probers are as a run of their own leaves them. -/
structure OneHop (rs : ReedSolomon) (cfg : ProbedConfig) (s : ProbedMesh) : Prop where
  probed : ∃ es os, Machine.run (probeNetStep cfg.peers) ProbeNet.start es = .ok (s.probes, os)
  prov : Provenance rs cfg.mesh s.mesh
  direct : Direct cfg s.mesh

theorem OneHop.own {s : ProbedMesh} (h : OneHop rs cfg s) (x : NodeId) :
    OwnPeers cfg.peers x (s.probes.prober x) := by
  obtain ⟨es, os, hrun⟩ := h.probed
  exact (probeNet_inv cfg.peers es s.probes os hrun).own x

theorem shardsFindOwnEntries_answer {s : MeshState} {e : MeshEvent}
    (h : ShardsFindOwnEntries s e) (hop : Option NodeId) :
    ShardsFindOwnEntries s (e.answer hop) := by
  cases e with
  | shard fromPeer x now n i => exact h
  | _ => trivial

theorem probedStep_task {s : ProbedMesh} {std : StdOrder} {e e' : MeshEvent} {mesh : MeshState}
    (hanswered : s.answered std e = .ok e') (hstep : s.mesh.step rs cfg.mesh e' = .ok mesh) :
    probedStep rs cfg s (.task std e) = .ok (⟨mesh, s.probes⟩, ()) := by
  simp only [probedStep, hanswered, hstep]

/-- What a step does to the mesh: nothing, or the move that the router's answer leads to. -/
theorem OneHop.step_moves {s : ProbedMesh} (h : OneHop rs cfg s)
    (hlaw : ∀ x, Lawful rs (cfg.fecConfig x))
    (hshort : ∀ x, (nodeBytes (cfg.defaultDest x)).length ≤ 255) {e : ProbedEvent}
    (hown : ShardsMeetOwn s e) :
    ∃ t, probedStep rs cfg s e = .ok (t, ()) ∧ OneHop rs cfg t ∧
      (t.mesh = s.mesh ∨ ∃ std e₀ e', e = .task std e₀ ∧ s.answered std e₀ = .ok e' ∧
        Moves rs cfg.mesh s.mesh e' t.mesh) := by
  cases e with
  | task std e =>
    obtain ⟨hop, hanswered, hdirect⟩ := ProbedMesh.answered_direct h.own std e
    obtain ⟨mesh, hstep, hmove⟩ := Mesh.step_moves hlaw h.prov.sound
      (shardsFindOwnEntries_answer hown hop)
    exact ⟨⟨mesh, s.probes⟩, probedStep_task hanswered hstep,
      ⟨h.probed, h.prov.moves hmove, h.direct.moves h.prov hshort hdirect hmove⟩,
      Or.inr ⟨std, e, _, rfl, hanswered, hmove⟩⟩
  | probe e =>
    obtain ⟨es, os, hrun⟩ := h.probed
    cases hstep : probeNetStep cfg.peers s.probes e with
    | error p => cases p
    | ok result =>
      obtain ⟨probes, o⟩ := result
      refine ⟨⟨s.mesh, probes⟩, ?_, ⟨⟨_, _, Machine.run_snoc hrun hstep⟩, h.prov, h.direct⟩,
        Or.inl rfl⟩
      simp only [probedStep, hstep]

theorem OneHop.step {s : ProbedMesh} (h : OneHop rs cfg s)
    (hlaw : ∀ x, Lawful rs (cfg.fecConfig x))
    (hshort : ∀ x, (nodeBytes (cfg.defaultDest x)).length ≤ 255) {e : ProbedEvent}
    (hown : ShardsMeetOwn s e) :
    ∃ t, probedStep rs cfg s e = .ok (t, ()) ∧ OneHop rs cfg t := by
  obtain ⟨t, hstep, ht, -⟩ := h.step_moves hlaw hshort hown
  exact ⟨t, hstep, ht⟩

/-- In every run whose shards find their own entries, whatever the order of the steps, no router
fails, and all data takes one hop: a link carries payloads of its sender's clients to its receiver,
a peer of the sender, and what a node hands to its edges has come from the node that accepted the
client. -/
theorem all_data_takes_one_hop (hlaw : ∀ x, Lawful rs (cfg.fecConfig x))
    (hshort : ∀ x, (nodeBytes (cfg.defaultDest x)).length ≤ 255) {es : List ProbedEvent}
    (hown : Machine.Along (probedStep rs cfg) ShardsMeetOwn (ProbedMesh.start cfg) es) :
    ∃ s os, Machine.run (probedStep rs cfg) (ProbedMesh.start cfg) es = .ok (s, os) ∧
      (∀ x y, ∀ t ∈ (s.mesh.link (x, y)).log,
        Hop cfg s.mesh.conns x y t.source ∧
          ∃ flowId data, decodeRelayHeader t.payload = some (flowId, y, data)) ∧
      ∀ x, ∀ d ∈ (s.mesh.node x).handed, Hop cfg s.mesh.conns d.sourceNode x d.source := by
  obtain ⟨s, os, hrun, h⟩ := Machine.run_safe (P := fun _ s _ => OneHop rs cfg s)
    ⟨⟨[], [], rfl⟩, provenance_start hlaw, direct_start cfg⟩
    (fun _ s _ e h hown => by
      obtain ⟨t, hstep, ht⟩ := h.step hlaw hshort hown
      exact ⟨t, (), hstep, ht⟩) es hown
  refine ⟨s, os, hrun, ?_, fun x => (h.direct.nodes x).handed⟩
  intro x y t ht
  have hhop := h.direct.links x y t ht
  exact ⟨hhop, h.direct.decode hshort hhop (h.prov.logged x y t ht)⟩

/-! ## Two nodes -/

/-- The line of three nodes; the clients of Sydney and of London send to Singapore. -/
def lineMesh : ProbedConfig := ⟨linePeers, fun _ => "sgp", fun _ => replicaConfig⟩

/-- Sydney measures its peer. -/
def sydneyMeasures : List ProbedEvent :=
  [.probe (.probe "syd" "sgp" 0 fun _ => 0), .probe (.deliver 0 50000000 50000000 50000000),
    .probe (.deliver 1 50000000 50000000 50000000)]

/-- Then a byte of a client of Sydney goes to Singapore. -/
def sydneySends : List ProbedEvent :=
  sydneyMeasures ++ [.task .firstLeast (.accept "syd" .tcp), .task .firstLeast (.read 0 [7]),
    .task .firstLeast (.send 0 none), .task .firstLeast (.shard "syd" "sgp" 0 0 0),
    .task .firstLeast (.route "sgp" none), .task .firstLeast (.dispatch "sgp")]

theorem all_data_takes_one_hop_sydney :
    ∃ s os, Machine.run (probedStep smallCodec lineMesh) (ProbedMesh.start lineMesh) sydneySends =
        .ok (s, os) ∧
      (∀ x y, ∀ t ∈ (s.mesh.link (x, y)).log,
        Hop lineMesh s.mesh.conns x y t.source ∧
          ∃ flowId data, decodeRelayHeader t.payload = some (flowId, y, data)) ∧
      ∀ x, ∀ d ∈ (s.mesh.node x).handed,
        Hop lineMesh s.mesh.conns d.sourceNode x d.source := by
  apply all_data_takes_one_hop (fun _ => lawful_replica)
    (fun _ => show (nodeBytes "sgp").length ≤ 255 by decide)
  refine Machine.Along.cons rfl trivial ?_
  refine Machine.Along.cons rfl trivial ?_
  refine Machine.Along.cons rfl trivial ?_
  refine Machine.Along.cons rfl trivial ?_
  refine Machine.Along.cons rfl trivial ?_
  -- the router of Sydney has measured the edge to Singapore
  have hown := (probeNet_inv linePeers [.probe "syd" "sgp" 0 fun _ => 0,
    .deliver 0 50000000 50000000 50000000, .deliver 1 50000000 50000000 50000000] _ _ rfl).own "syd"
  refine Machine.Along.cons (probedStep_task
    (ProbedMesh.answered_send rfl hown (by decide) rfl (by decide) _ _) rfl) trivial ?_
  refine Machine.Along.cons rfl (fun h => absurd rfl h) ?_
  refine Machine.Along.cons rfl trivial ?_
  exact Machine.Along.cons rfl trivial trivial

end EntrouterLine.Mesh
