import EntrouterLine.Mesh.FlowIsolation

/-!
# What arrives is what was sent

Links, forwarders and dispatchers move data and do not change it. The invariant is `Intact`: the
data of every local delivery, and with it all that is put into a client's channel, is a stretch of
the bytes that the delivery's source connection has read.
-/

set_option autoImplicit false

namespace EntrouterLine.Mesh

open EntrouterLine.Lib
open EntrouterLine.Relay
open EntrouterLine.Edge

/-! ## The invariant -/

/-- The data stands in one piece in what its source has read. -/
def Stretch (conns : List Conn) (source : Option ConnId) (data : Bytes) : Prop :=
  ∃ (c : ConnId) (conn : Conn), source = some c ∧ conns[c]? = some conn ∧ data <:+: conn.bytesRead

/-- The data behind the header does. -/
def Tagged.Intact (conns : List Conn) (t : Tagged) : Prop :=
  ∀ flowId destNode data, decodeRelayHeader t.payload = some (flowId, destNode, data) →
    Stretch conns t.source data

structure Node.Intact (conns : List Conn) (node : Node) : Prop where
  routing : ∀ t ∈ node.routing, t.Intact conns
  queued : ∀ d ∈ node.localQueue, Stretch conns d.source d.data
  handed : ∀ d ∈ node.handed, Stretch conns d.source d.data

/-- A connection sends what it has read, and is given what others have. -/
structure Conn.Intact (conns : List Conn) (conn : Conn) : Prop where
  pending : ∀ piece ∈ conn.pending, piece <:+: conn.bytesRead
  accepted : ∀ d ∈ conn.accepted, Stretch conns d.source d.data

structure Intact (s : MeshState) : Prop where
  conns : ∀ conn ∈ s.conns, conn.Intact s.conns
  links : ∀ x y, ∀ t ∈ (s.link (x, y)).log, t.Intact s.conns
  nodes : ∀ x, (s.node x).Intact s.conns

variable {rs : ReedSolomon} {cfg : MeshConfig} {s t : MeshState} {conns conns' : List Conn}

theorem intact_start (cfg : MeshConfig) : Intact (MeshState.start cfg) :=
  ⟨List.forall_mem_nil _, fun _ _ => List.forall_mem_nil _,
    fun _ => ⟨List.forall_mem_nil _, List.forall_mem_nil _, List.forall_mem_nil _⟩⟩

theorem Stretch.grows {source : Option ConnId} {data : Bytes} (h : Stretch conns source data)
    (hgrows : Grows conns conns') : Stretch conns' source data := by
  obtain ⟨c, conn, hsource, hconn, hdata⟩ := h
  obtain ⟨conn', hconn', -, -, -, hread⟩ := hgrows c conn hconn
  exact ⟨c, conn', hsource, hconn', hdata.trans hread.isInfix⟩

theorem Tagged.Intact.grows {t : Tagged} (h : t.Intact conns) (hgrows : Grows conns conns') :
    t.Intact conns' :=
  fun flowId destNode data hdecode => (h flowId destNode data hdecode).grows hgrows

theorem Node.Intact.grows {node : Node} (h : node.Intact conns) (hgrows : Grows conns conns') :
    node.Intact conns' :=
  ⟨fun t ht => (h.routing t ht).grows hgrows, fun d hd => (h.queued d hd).grows hgrows,
    fun d hd => (h.handed d hd).grows hgrows⟩

theorem Conn.Intact.grows {conn : Conn} (h : conn.Intact conns) (hgrows : Grows conns conns') :
    conn.Intact conns' :=
  ⟨h.pending, fun d hd => (h.accepted d hd).grows hgrows⟩

/-- The invariant speaks about what connections have read, and that only grows. -/
theorem Intact.setConns (h : Intact s) (hgrows : Grows s.conns conns')
    (hconns : ∀ conn ∈ conns', conn.Intact conns') : Intact { s with conns := conns' } :=
  ⟨hconns, fun x y t ht => (h.links x y t ht).grows hgrows, fun x => (h.nodes x).grows hgrows⟩

theorem Intact.setConn (h : Intact s) {c : ConnId} {conn conn' : Conn}
    (hconn : s.conns[c]? = some conn) (hnode : conn'.node = conn.node)
    (hflow : conn'.flowId = conn.flowId) (hdest : conn'.destNode = conn.destNode)
    (hread : conn.bytesRead <+: conn'.bytesRead) (hintact : conn'.Intact s.conns) :
    Intact (s.setConn c conn') := by
  have hgrows := grows_set hconn hnode hflow hdest hread
  apply h.setConns hgrows
  intro other hother
  rcases List.mem_or_eq_of_mem_set hother with hold | rfl
  · exact (h.conns other hold).grows hgrows
  · exact hintact.grows hgrows

theorem Intact.setNode (h : Intact s) {x : NodeId} {node : Node} (hnode : node.Intact s.conns) :
    Intact (s.setNode x node) :=
  ⟨h.conns, h.links,
    forall_node_setNode (P := fun _ node => node.Intact s.conns) hnode h.nodes⟩

theorem Intact.setTable (h : Intact s) (x : NodeId) (edge : EdgeKind) (table : FlowTable) :
    Intact (s.setNode x ((s.node x).setTable edge table)) :=
  h.setNode ⟨(h.nodes x).routing, (h.nodes x).queued, (h.nodes x).handed⟩

theorem Intact.setLink (h : Intact s) {x y : NodeId} {l : MeshLink}
    (hlink : ∀ t ∈ l.log, t.Intact s.conns) : Intact (s.setLink x y l) :=
  ⟨h.conns, forall_link_setLink (P := fun _ _ l => ∀ t ∈ l.log, t.Intact s.conns) hlink h.links,
    h.nodes⟩

theorem Intact.took (h : Intact s) {x y : NodeId} {added : List Tagged} {l' : MeshLink}
    (htook : (s.link (x, y)).Took rs (cfg.fecConfig x) added l')
    (hadded : ∀ t ∈ added, t.Intact s.conns) : Intact (s.setLink x y l') := by
  apply h.setLink
  intro t ht
  rw [htook.log_eq] at ht
  rcases List.mem_append.mp ht with hold | hnew
  · exact h.links x y t hold
  · exact hadded t hnew

/-! ## Moves keep it -/

theorem mem_routing {x : NodeId} {t : Tagged} {rest : List Tagged}
    (hrouting : (s.node x).routing = t :: rest) : t ∈ (s.node x).routing := by
  rw [hrouting]
  exact List.mem_cons_self

/-- One payload less to route. -/
theorem Node.Intact.unrouted {node : Node} {t : Tagged} {rest : List Tagged}
    (h : node.Intact conns) (hrouting : node.routing = t :: rest) :
    Node.Intact conns { node with routing := rest } := by
  refine ⟨?_, h.queued, h.handed⟩
  intro t' ht'
  apply h.routing
  rw [hrouting]
  exact List.mem_cons_of_mem _ ht'

/-- The header of a payload gives back the piece that the connection has sent. -/
theorem Conn.intact_payload {c : ConnId} {conn : Conn} (hconn : conns[c]? = some conn)
    {piece : Bytes} (hpiece : piece <:+: conn.bytesRead) :
    (conn.payload c piece).Intact conns := by
  intro flowId destNode data hdecode
  rw [Conn.payload, decodeRelayHeader_encodeRelayHeader] at hdecode
  obtain ⟨dest, -, heq⟩ := Option.map_eq_some_iff.mp hdecode
  cases heq
  exact ⟨c, conn, rfl, hconn, hpiece⟩

/-- A read leaves the pieces of what has been read. -/
theorem Intact.read (h : Intact s) {c : ConnId} {conn : Conn} (data : Bytes)
    (hconn : s.conns[c]? = some conn) :
    Intact (s.setConn c { conn with
      bytesRead := conn.bytesRead ++ data
      pending := conn.edge.pieces data }) := by
  refine h.setConn hconn rfl rfl rfl (List.prefix_append _ _) ⟨?_, ?_⟩
  · -- the pieces make up the read
    intro piece hpiece
    have hdata : piece <:+: data := by
      rw [← flatten_pieces conn.edge data]
      exact List.infix_of_mem_flatten hpiece
    exact hdata.trans (List.suffix_append _ _).isInfix
  · exact (h.conns conn (List.mem_of_getElem? hconn)).accepted

theorem Intact.delivers (h : Intact s) {x : NodeId} {delivery : LocalDelivery}
    (hstretch : Stretch s.conns delivery.source delivery.data)
    (hdelivers : Delivers s x delivery t) : Intact t := by
  cases hdelivers with
  | dropped => exact h
  | @accepted edge c conn htable hconn =>
    have hintact := h.conns conn (List.mem_of_getElem? hconn)
    refine h.setConn hconn rfl rfl rfl (List.prefix_refl _) ⟨hintact.pending, ?_⟩
    intro d hd
    rcases List.mem_append.mp hd with hold | hnew
    · exact hintact.accepted d hold
    · rw [List.mem_singleton.mp hnew]
      exact hstretch

/-- Every move keeps the invariant, whatever the routers answer. -/
theorem Intact.moves (h : Intact s) {e : MeshEvent} (hmove : Moves rs cfg s e t) : Intact t := by
  have hold : ∀ {c : ConnId} {conn : Conn}, s.conns[c]? = some conn → conn.Intact s.conns :=
    fun hconn => h.conns _ (List.mem_of_getElem? hconn)
  cases hmove with
  | idle => exact h
  | accept x edge =>
    have hnode := h.setTable x edge ⟨((s.node x).tables edge).nextFlowId + 1, Function.update
      ((s.node x).tables edge).activeFlows ((s.node x).tables edge).nextFlowId
        (some s.conns.length)⟩
    have hgrows := grows_append s.conns
      [Conn.new x edge ((s.node x).tables edge).nextFlowId (cfg.defaultDest x)]
    apply hnode.setConns hgrows
    intro conn hconn
    rcases List.mem_append.mp hconn with hmem | hnew
    · exact (h.conns conn hmem).grows hgrows
    · rw [List.mem_singleton.mp hnew]
      exact ⟨List.forall_mem_nil _, List.forall_mem_nil _⟩
  | read hconn hreading hpending hpos hfits => exact h.read _ hconn
  | @sent c conn piece rest hop l' hconn hpending hdest htook =>
    have hpieces := (hold hconn).pending
    rw [hpending] at hpieces
    have hlink := h.took htook (by
      intro t ht
      rw [List.mem_singleton.mp ht]
      exact Conn.intact_payload hconn (hpieces piece List.mem_cons_self))
    refine hlink.setConn hconn rfl rfl rfl (List.prefix_refl _) ⟨?_, (hold hconn).accepted⟩
    exact fun p hp => hpieces p (List.mem_cons_of_mem _ hp)
  | sendFailed hconn hpending =>
    exact h.setConn hconn rfl rfl rfl (List.prefix_refl _)
      ⟨List.forall_mem_nil _, (hold hconn).accepted⟩
  | @task e c conn conn' hconn hstep =>
    have hintact := hold hconn
    refine h.setConn hconn hstep.node_eq hstep.flowId_eq hstep.destNode_eq ?_ ⟨?_, ?_⟩
    · rw [hstep.bytesRead_eq]
    · rw [hstep.pending_eq, hstep.bytesRead_eq]
      exact hintact.pending
    · rw [hstep.accepted_eq]
      exact hintact.accepted
  | ended hconn =>
    exact Intact.setConn (h.setTable _ _ _) hconn rfl rfl rfl (List.prefix_refl _)
      ⟨(hold hconn).pending, (hold hconn).accepted⟩
  | @received fromPeer x now n i l' out hidle hgave =>
    have hlink : Intact (s.setLink fromPeer x l') := by
      apply h.setLink
      rw [MeshLink.log, hgave.blocks_eq, hgave.waiting_eq]
      exact h.links fromPeer x
    apply hlink.setNode
    -- what the link returns was submitted to it
    exact ⟨fun t ht => h.links fromPeer x t (hgave.mem_log t ht), (h.nodes x).queued,
      (h.nodes x).handed⟩
  | @routedHere x nextHop payload rest flowId data hrouting hdecode =>
    apply h.setNode
    have hnode := (h.nodes x).unrouted hrouting
    refine ⟨hnode.routing, ?_, hnode.handed⟩
    intro d hd
    rcases List.mem_append.mp hd with hqueued | hnew
    · exact hnode.queued d hqueued
    · -- the delivery is what stands behind the header
      rw [List.mem_singleton.mp hnew]
      exact (h.nodes x).routing payload (mem_routing hrouting) flowId x data hdecode
  | @routedOn x hop payload rest flowId destNode data l' hrouting hdecode hdest htook =>
    -- the payload is forwarded with its header
    have hlink := h.took htook (by
      intro t ht
      rw [List.mem_singleton.mp ht]
      exact (h.nodes x).routing payload (mem_routing hrouting))
    exact hlink.setNode ((h.nodes x).unrouted hrouting)
  | dropped hrouting hbad => exact h.setNode ((h.nodes _).unrouted hrouting)
  | flushed htook => exact h.took htook (List.forall_mem_nil _)
  | expired => exact h.setLink (h.links _ _)
  | @dispatched x delivery rest t hqueue hdelivers =>
    have hnode := h.nodes x
    have hqueued := hnode.queued
    rw [hqueue] at hqueued
    have hnext := hqueued delivery List.mem_cons_self
    refine Intact.delivers (h.setNode ?_) hnext hdelivers
    refine ⟨hnode.routing, ?_, ?_⟩
    · exact fun d hd => hqueued d (List.mem_cons_of_mem _ hd)
    · intro d hd
      rcases List.mem_append.mp hd with hhanded | hnew
      · exact hnode.handed d hhanded
      · rw [List.mem_singleton.mp hnew]
        exact hnext

/-! ## Runs -/

/-- In every run whose shards find their own entries, whatever the routers answer: everything put
into a client's channel is a stretch of what one connection has read, which sends to the client's
node and has the client's flow id. -/
theorem accepted_was_read (hlaw : ∀ x, Lawful rs (cfg.fecConfig x)) {es : List MeshEvent}
    (hown : Machine.Along (meshStep rs cfg) ShardsFindOwnEntries (MeshState.start cfg) es) :
    ∃ s os, Machine.run (meshStep rs cfg) (MeshState.start cfg) es = .ok (s, os) ∧
      ∀ (k : ConnId) (conn : Conn), s.conns[k]? = some conn → ∀ d ∈ conn.accepted,
        ∃ (c : ConnId) (source : Conn), d.source = some c ∧ s.conns[c]? = some source ∧
          wireDest source.destNode = some conn.node ∧ source.flowId = conn.flowId ∧
            d.data <:+: source.bytesRead := by
  obtain ⟨s, os, hrun, hprov, hintact⟩ := provenance_run (P := Intact) hlaw (fun _ _ h => h)
    (intact_start cfg) (fun _ _ _ _ h _ hmove => h.moves hmove) hown
  refine ⟨s, os, hrun, ?_⟩
  intro k conn hconn d hd
  obtain ⟨⟨c, source, hsource, -, hc, hdest, hflow⟩, hflowId⟩ := hprov.accepted k conn hconn d hd
  obtain ⟨c', source', hc', hsource', hdata⟩ :=
    (hintact.conns conn (List.mem_of_getElem? hconn)).accepted d hd
  -- a delivery has one source
  rw [hc, Option.some.injEq] at hc'
  subst hc'
  rw [hsource, Option.some.injEq] at hsource'
  subst hsource'
  exact ⟨c, source, hc, hsource, hdest, hflow.trans hflowId, hdata⟩

/-- Two clients of one flow id get their bytes to a third. -/
theorem accepted_was_read_twoSources :
    ∃ s os, Machine.run (meshStep smallCodec toSgp) (MeshState.start toSgp) twoSources =
        .ok (s, os) ∧
      ∀ (k : ConnId) (conn : Conn), s.conns[k]? = some conn → ∀ d ∈ conn.accepted,
        ∃ (c : ConnId) (source : Conn), d.source = some c ∧ s.conns[c]? = some source ∧
          wireDest source.destNode = some conn.node ∧ source.flowId = conn.flowId ∧
            d.data <:+: source.bytesRead := by
  apply accepted_was_read lawful_toSgp
  refine Machine.Along.cons rfl trivial ?_
  refine Machine.Along.cons rfl trivial ?_
  refine Machine.Along.cons rfl trivial ?_
  refine Machine.Along.cons rfl trivial ?_
  refine Machine.Along.cons rfl (fun h => absurd rfl h) ?_
  refine Machine.Along.cons rfl trivial ?_
  refine Machine.Along.cons rfl trivial ?_
  refine Machine.Along.cons rfl trivial ?_
  refine Machine.Along.cons rfl trivial ?_
  refine Machine.Along.cons rfl trivial ?_
  refine Machine.Along.cons rfl (fun h => absurd rfl h) ?_
  refine Machine.Along.cons rfl trivial ?_
  exact Machine.Along.cons rfl trivial trivial

end EntrouterLine.Mesh
