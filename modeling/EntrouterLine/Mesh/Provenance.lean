import EntrouterLine.Lib.Machine
import EntrouterLine.Mesh.Moves

/-!
# Where payloads and deliveries come from

`Provenance` is the invariant of the mesh: every payload on its way is what its source connection
built from a piece of a read, and every local delivery is at the node that its source connection
names, under its source connection's flow id. So is everything in a client's response channel, whose
connection has that flow id and is at that node. Each move keeps it (`Provenance.moves`), and so
does every run whose shards find their own entries (`provenance_run`).
-/

set_option autoImplicit false

namespace EntrouterLine.Mesh

open EntrouterLine.Lib
open EntrouterLine.Relay
open EntrouterLine.Edge

variable {rs : ReedSolomon} {cfg : MeshConfig} {s t : MeshState}

/-- The payload is what its source has built from a piece of a read. -/
def Genuine (conns : List Conn) (t : Tagged) : Prop :=
  ∃ (c : ConnId) (conn : Conn) (piece : Bytes), conns[c]? = some conn ∧ conn.bytesRead ≠ [] ∧
    piece.length ≤ readBufSize ∧ t = conn.payload c piece

/-- The delivery is at the node, and under the flow id, that its source names. -/
def Addressed (conns : List Conn) (x : NodeId) (delivery : LocalDelivery) : Prop :=
  ∃ (c : ConnId) (conn : Conn), conns[c]? = some conn ∧ conn.bytesRead ≠ [] ∧
    delivery.source = some c ∧ wireDest conn.destNode = some x ∧ conn.flowId = delivery.flowId

/-- A piece of a read that is still to be sent. -/
def Conn.Unsent (conn : Conn) (piece : Bytes) : Prop :=
  conn.bytesRead ≠ [] ∧ piece.length ≤ readBufSize

structure Provenance (rs : ReedSolomon) (cfg : MeshConfig) (s : MeshState) : Prop where
  links : ∀ x y, (s.link (x, y)).Inv rs (cfg.fecConfig x)
  logged : ∀ x y, ∀ t ∈ (s.link (x, y)).log, Genuine s.conns t
  routing : ∀ x, ∀ t ∈ (s.node x).routing, Genuine s.conns t
  queued : ∀ x, ∀ delivery ∈ (s.node x).localQueue, Addressed s.conns x delivery
  handed : ∀ x, ∀ delivery ∈ (s.node x).handed, Addressed s.conns x delivery
  pending : ∀ (c : ConnId) (conn : Conn), s.conns[c]? = some conn → ∀ piece ∈ conn.pending,
    conn.Unsent piece
  tables : ∀ x edge flowId c, ((s.node x).tables edge).activeFlows flowId = some c →
    ∃ conn, s.conns[c]? = some conn ∧ conn.node = x ∧ conn.flowId = flowId
  accepted : ∀ (c : ConnId) (conn : Conn), s.conns[c]? = some conn →
    ∀ delivery ∈ conn.accepted, Addressed s.conns conn.node delivery ∧
      delivery.flowId = conn.flowId

theorem Genuine.sized {conns : List Conn} {t : Tagged} (h : Genuine conns t) : t.Sized := by
  obtain ⟨c, conn, piece, -, -, hpiece, rfl⟩ := h
  exact sized_payload conn c hpiece

theorem Provenance.sound (h : Provenance rs cfg s) : Sound rs cfg s where
  links := h.links
  routing := fun x t ht => (h.routing x t ht).sized
  pending := fun c conn hconn piece hpiece => (h.pending c conn hconn piece hpiece).2

/-! ## Connections only grow -/

/-- The connections keep who they are, and what they have read. -/
def Grows (conns conns' : List Conn) : Prop :=
  ∀ (c : ConnId) (conn : Conn), conns[c]? = some conn → ∃ conn', conns'[c]? = some conn' ∧
    conn'.node = conn.node ∧ conn'.flowId = conn.flowId ∧ conn'.destNode = conn.destNode ∧
      conn.bytesRead <+: conn'.bytesRead

theorem grows_append (conns new : List Conn) : Grows conns (conns ++ new) := by
  intro c conn hconn
  refine ⟨conn, ?_, rfl, rfl, rfl, List.prefix_refl _⟩
  rw [List.getElem?_append_left (List.getElem?_eq_some_iff.mp hconn).1]
  exact hconn

theorem getElem?_set_cases {conns : List Conn} {c k : ConnId} {conn' conn : Conn}
    (h : (conns.set c conn')[k]? = some conn) :
    (k = c ∧ conn = conn') ∨ (k ≠ c ∧ conns[k]? = some conn) := by
  rcases eq_or_ne k c with rfl | hne
  · rw [List.getElem?_set] at h
    simp only [if_true] at h
    split at h
    · exact Or.inl ⟨rfl, (Option.some.inj h).symm⟩
    · cases h
  · rw [List.getElem?_set_ne hne.symm] at h
    exact Or.inr ⟨hne, h⟩

theorem getElem?_set_self_of_some {conns : List Conn} {c : ConnId} {conn : Conn}
    (h : conns[c]? = some conn) (conn' : Conn) : (conns.set c conn')[c]? = some conn' :=
  List.getElem?_set_self (List.getElem?_eq_some_iff.mp h).1

theorem grows_set {conns : List Conn} {c : ConnId} {conn conn' : Conn}
    (hconn : conns[c]? = some conn) (hnode : conn'.node = conn.node)
    (hflow : conn'.flowId = conn.flowId) (hdest : conn'.destNode = conn.destNode)
    (hread : conn.bytesRead <+: conn'.bytesRead) : Grows conns (conns.set c conn') := by
  intro k other hother
  rcases eq_or_ne k c with rfl | hne
  · rw [hconn, Option.some.injEq] at hother
    subst hother
    exact ⟨conn', getElem?_set_self_of_some hconn conn', hnode, hflow, hdest, hread⟩
  · refine ⟨other, ?_, rfl, rfl, rfl, List.prefix_refl _⟩
    rw [List.getElem?_set_ne hne.symm]
    exact hother

/-- Connection `k` after the move `e`: it is new and has read nothing, or it is the one it was, and
has read more only if the move was its read. -/
def Continues (s : MeshState) (e : MeshEvent) (k : ConnId) (conn' : Conn) : Prop :=
  conn'.bytesRead = [] ∨ ∃ conn, s.conns[k]? = some conn ∧ conn'.node = conn.node ∧
    conn'.flowId = conn.flowId ∧ conn'.destNode = conn.destNode ∧
      (conn'.bytesRead = conn.bytesRead ∨ ∃ data, e = .read k data)

theorem continues_of_same {e : MeshEvent} {k : ConnId} {conn conn' : Conn}
    (hconn : s.conns[k]? = some conn) (hnode : conn'.node = conn.node)
    (hflow : conn'.flowId = conn.flowId) (hdest : conn'.destNode = conn.destNode)
    (hread : conn'.bytesRead = conn.bytesRead) : Continues s e k conn' :=
  Or.inr ⟨conn, hconn, hnode, hflow, hdest, Or.inl hread⟩

/-- One connection changes, and stays who it is: so does every connection. -/
theorem continues_of_set {e : MeshEvent} {c k : ConnId} {conn new conn' : Conn}
    (hconn' : (s.conns.set c new)[k]? = some conn') (hconn : s.conns[c]? = some conn)
    (hnode : new.node = conn.node) (hflow : new.flowId = conn.flowId)
    (hdest : new.destNode = conn.destNode)
    (hread : new.bytesRead = conn.bytesRead ∨ ∃ data, e = .read c data) :
    Continues s e k conn' := by
  rcases getElem?_set_cases hconn' with ⟨rfl, rfl⟩ | ⟨-, hother⟩
  · exact Or.inr ⟨conn, hconn, hnode, hflow, hdest, hread⟩
  · exact continues_of_same hother rfl rfl rfl rfl

theorem Moves.continues {e : MeshEvent} (hmove : Moves rs cfg s e t) {k : ConnId} {conn' : Conn}
    (hconn' : t.conns[k]? = some conn') : Continues s e k conn' := by
  cases hmove with
  | idle => exact continues_of_same hconn' rfl rfl rfl rfl
  | accept x edge =>
    change (s.conns ++ [_])[k]? = some conn' at hconn'
    rw [List.getElem?_append] at hconn'
    split at hconn'
    case isTrue => exact continues_of_same hconn' rfl rfl rfl rfl
    case isFalse =>
      -- the new connection
      rw [List.mem_singleton.mp (List.mem_of_getElem? hconn')]
      exact Or.inl rfl
  | read hconn hreading hpending hpos hfits =>
    exact continues_of_set hconn' hconn rfl rfl rfl (Or.inr ⟨_, rfl⟩)
  | sent hconn hpending hdest htook =>
    exact continues_of_set hconn' hconn rfl rfl rfl (Or.inl rfl)
  | sendFailed hconn hpending => exact continues_of_set hconn' hconn rfl rfl rfl (Or.inl rfl)
  | task hconn hstep =>
    exact continues_of_set hconn' hconn hstep.node_eq hstep.flowId_eq hstep.destNode_eq
      (Or.inl hstep.bytesRead_eq)
  | ended hconn => exact continues_of_set hconn' hconn rfl rfl rfl (Or.inl rfl)
  | received hidle hgave => exact continues_of_same hconn' rfl rfl rfl rfl
  | routedHere hrouting hdecode => exact continues_of_same hconn' rfl rfl rfl rfl
  | routedOn hrouting hdecode hdest htook => exact continues_of_same hconn' rfl rfl rfl rfl
  | dropped hrouting hbad => exact continues_of_same hconn' rfl rfl rfl rfl
  | flushed htook => exact continues_of_same hconn' rfl rfl rfl rfl
  | expired => exact continues_of_same hconn' rfl rfl rfl rfl
  | dispatched hqueue hdelivers =>
    cases hdelivers with
    | dropped => exact continues_of_same hconn' rfl rfl rfl rfl
    | accepted htable hconn => exact continues_of_set hconn' hconn rfl rfl rfl (Or.inl rfl)

theorem Genuine.grows {conns conns' : List Conn} {t : Tagged} (h : Genuine conns t)
    (hgrows : Grows conns conns') : Genuine conns' t := by
  obtain ⟨c, conn, piece, hconn, hread, hpiece, rfl⟩ := h
  obtain ⟨conn', hconn', -, hflow, hdest, hpre⟩ := hgrows c conn hconn
  refine ⟨c, conn', piece, hconn', ?_, hpiece, ?_⟩
  · intro hnil
    rw [hnil, List.prefix_nil] at hpre
    exact hread hpre
  · rw [Conn.payload, Conn.payload, hflow, hdest]

theorem Addressed.grows {conns conns' : List Conn} {x : NodeId} {delivery : LocalDelivery}
    (h : Addressed conns x delivery) (hgrows : Grows conns conns') :
    Addressed conns' x delivery := by
  obtain ⟨c, conn, hconn, hread, hsource, hdest, hflow⟩ := h
  obtain ⟨conn', hconn', -, hflow', hdest', hpre⟩ := hgrows c conn hconn
  refine ⟨c, conn', hconn', ?_, hsource, ?_, ?_⟩
  · intro hnil
    rw [hnil, List.prefix_nil] at hpre
    exact hread hpre
  · rw [hdest', hdest]
  · rw [hflow', hflow]

/-- A genuine payload that its header addresses to `x` makes a delivery that is addressed to `x`. -/
theorem Genuine.addressed {conns : List Conn} {t : Tagged} (h : Genuine conns t) {x : NodeId}
    {flowId : UInt32} {data : Bytes}
    (hdecode : decodeRelayHeader t.payload = some (flowId, x, data))
    (sourceNode : NodeId) : Addressed conns x ⟨flowId, data, sourceNode, t.source⟩ := by
  obtain ⟨c, conn, piece, hconn, hread, -, rfl⟩ := h
  rw [Conn.payload, decodeRelayHeader_encodeRelayHeader] at hdecode
  obtain ⟨dest, hdest, heq⟩ := Option.map_eq_some_iff.mp hdecode
  cases heq
  exact ⟨c, conn, hconn, hread, rfl, hdest, rfl⟩

/-! ## Moves keep the invariant -/

/-- Everything that says where data comes from survives when the connections grow; what a move does
to the connections themselves is `hpending` and `haccepted`. -/
theorem Provenance.setConns (h : Provenance rs cfg s) {conns' : List Conn}
    (hgrows : Grows s.conns conns')
    (hpending : ∀ (c : ConnId) (conn : Conn), conns'[c]? = some conn → ∀ piece ∈ conn.pending,
      conn.Unsent piece)
    (haccepted : ∀ (c : ConnId) (conn : Conn), conns'[c]? = some conn →
      ∀ delivery ∈ conn.accepted, Addressed conns' conn.node delivery ∧
        delivery.flowId = conn.flowId) :
    Provenance rs cfg { s with conns := conns' } where
  links := h.links
  logged := fun x y t ht => (h.logged x y t ht).grows hgrows
  routing := fun x t ht => (h.routing x t ht).grows hgrows
  queued := fun x delivery hd => (h.queued x delivery hd).grows hgrows
  handed := fun x delivery hd => (h.handed x delivery hd).grows hgrows
  pending := hpending
  tables := by
    intro x edge flowId c hflow
    obtain ⟨conn, hconn, hnode, hflowId⟩ := h.tables x edge flowId c hflow
    obtain ⟨conn', hconn', hnode', hflow', -⟩ := hgrows c conn hconn
    exact ⟨conn', hconn', hnode'.trans hnode, hflow'.trans hflowId⟩
  accepted := haccepted

/-- A connection that stays who it is may change, if its pieces and its channel stay in order. -/
theorem Provenance.setConn (h : Provenance rs cfg s) {c : ConnId} {conn conn' : Conn}
    (hconn : s.conns[c]? = some conn) (hnode : conn'.node = conn.node)
    (hflow : conn'.flowId = conn.flowId) (hdest : conn'.destNode = conn.destNode)
    (hread : conn.bytesRead <+: conn'.bytesRead)
    (hpending : ∀ piece ∈ conn'.pending, conn'.Unsent piece)
    (haccepted : ∀ delivery ∈ conn'.accepted, delivery ∈ conn.accepted ∨
      Addressed s.conns conn.node delivery ∧ delivery.flowId = conn.flowId) :
    Provenance rs cfg (s.setConn c conn') := by
  have hgrows := grows_set hconn hnode hflow hdest hread
  apply h.setConns hgrows
  · intro k other hother
    rcases getElem?_set_cases hother with ⟨rfl, rfl⟩ | ⟨-, hother⟩
    · exact hpending
    · exact h.pending k other hother
  · intro k other hother delivery hd
    rcases getElem?_set_cases hother with ⟨rfl, rfl⟩ | ⟨-, hother⟩
    · rw [hnode, hflow]
      have hok : Addressed s.conns conn.node delivery ∧ delivery.flowId = conn.flowId := by
        rcases haccepted delivery hd with hold | hnew
        · exact h.accepted k conn hconn delivery hold
        · exact hnew
      exact ⟨hok.1.grows hgrows, hok.2⟩
    · obtain ⟨haddressed, hflowId⟩ := h.accepted k other hother delivery hd
      exact ⟨haddressed.grows hgrows, hflowId⟩

/-- A node may change, if its payloads, its deliveries and its tables stay in order. -/
theorem Provenance.setNode (h : Provenance rs cfg s) {x : NodeId} {node : Node}
    (hrouting : ∀ t ∈ node.routing, Genuine s.conns t)
    (hqueued : ∀ delivery ∈ node.localQueue, Addressed s.conns x delivery)
    (hhanded : ∀ delivery ∈ node.handed, Addressed s.conns x delivery)
    (htables : ∀ edge flowId c, (node.tables edge).activeFlows flowId = some c →
      ∃ conn, s.conns[c]? = some conn ∧ conn.node = x ∧ conn.flowId = flowId) :
    Provenance rs cfg (s.setNode x node) where
  links := h.links
  logged := h.logged
  routing :=
    forall_node_setNode (P := fun _ node => ∀ t ∈ node.routing, Genuine s.conns t) hrouting
      h.routing
  queued :=
    forall_node_setNode (P := fun y node => ∀ delivery ∈ node.localQueue,
      Addressed s.conns y delivery) hqueued h.queued
  handed :=
    forall_node_setNode (P := fun y node => ∀ delivery ∈ node.handed,
      Addressed s.conns y delivery) hhanded h.handed
  pending := h.pending
  tables :=
    forall_node_setNode (P := fun y node => ∀ edge flowId c,
      (node.tables edge).activeFlows flowId = some c →
        ∃ conn, s.conns[c]? = some conn ∧ conn.node = y ∧ conn.flowId = flowId) htables h.tables
  accepted := h.accepted

/-- A link may change, if it keeps its invariant and logs nothing but genuine payloads. -/
theorem Provenance.setLink (h : Provenance rs cfg s) {x y : NodeId} {l : MeshLink}
    (hinv : l.Inv rs (cfg.fecConfig x)) (hlog : ∀ t ∈ l.log, Genuine s.conns t) :
    Provenance rs cfg (s.setLink x y l) where
  links := forall_link_setLink (P := fun x _ l => l.Inv rs (cfg.fecConfig x)) hinv h.links
  logged := forall_link_setLink (P := fun _ _ l => ∀ t ∈ l.log, Genuine s.conns t) hlog h.logged
  routing := h.routing
  queued := h.queued
  handed := h.handed
  pending := h.pending
  tables := h.tables
  accepted := h.accepted

/-- A link takes genuine payloads. -/
theorem Provenance.took (h : Provenance rs cfg s) {x y : NodeId} {added : List Tagged}
    {l' : MeshLink} (htook : (s.link (x, y)).Took rs (cfg.fecConfig x) added l')
    (hadded : ∀ t ∈ added, Genuine s.conns t) : Provenance rs cfg (s.setLink x y l') := by
  apply h.setLink htook.inv
  intro t ht
  rw [htook.log_eq] at ht
  rcases List.mem_append.mp ht with hold | hnew
  · exact h.logged x y t hold
  · exact hadded t hnew

/-- What a link returns for a block was submitted to it. -/
theorem MeshLink.Gave.mem_log {l l' : MeshLink} {config : FecConfig} {n i : Nat} {out : List Tagged}
    (hgave : l.Gave rs config n i l' out) : ∀ t ∈ out, t ∈ l.log := by
  intro t ht
  rcases hgave.returned with ⟨rfl, -⟩ | ⟨-, hblock, -⟩
  · cases ht
  · exact List.mem_append_left _ (List.mem_flatten_of_mem (List.mem_of_getElem? hblock) ht)

theorem provenance_start (hlaw : ∀ x, Lawful rs (cfg.fecConfig x)) :
    Provenance rs cfg (MeshState.start cfg) where
  links := fun x _ => meshLinkInv_new (hlaw x).accepted
  logged := by
    intro x y t h
    cases h
  routing := by
    intro x t h
    cases h
  queued := by
    intro x delivery h
    cases h
  handed := by
    intro x delivery h
    cases h
  pending := by
    intro c conn h
    cases h
  tables := by
    intro x edge flowId c h
    cases edge <;> cases h
  accepted := by
    intro c conn h
    cases h

/-- The table of an edge after the flow id of a connection has been removed from it. -/
theorem Provenance.ended (h : Provenance rs cfg s) (x : NodeId) (edge : EdgeKind) (gone : UInt32) :
    Provenance rs cfg (s.setNode x ((s.node x).setTable edge { (s.node x).tables edge with
      activeFlows := Function.update ((s.node x).tables edge).activeFlows gone none })) := by
  refine h.setNode (h.routing x) (h.queued x) (h.handed x) ?_
  intro edge' flowId c hflow
  rcases activeFlows_setTable_cases rfl hflow with ⟨-, -, hnone⟩ | hold
  · cases hnone
  · exact h.tables x edge' flowId c hold

/-- A new connection has an entry of its own flow id, and has neither read nor been given anything.
-/
theorem Provenance.accept (h : Provenance rs cfg s) (x : NodeId) (edge : EdgeKind) :
    Provenance rs cfg (accept cfg s x edge) := by
  have hgrows := grows_append s.conns
    [Conn.new x edge ((s.node x).tables edge).nextFlowId (cfg.defaultDest x)]
  have hnew : ∀ (c : ConnId) (conn : Conn), (s.conns ++
      [Conn.new x edge ((s.node x).tables edge).nextFlowId (cfg.defaultDest x)])[c]? = some conn →
        s.conns[c]? = some conn ∨
          conn = Conn.new x edge ((s.node x).tables edge).nextFlowId (cfg.defaultDest x) := by
    intro c conn hconn
    rw [List.getElem?_append] at hconn
    split at hconn
    · exact Or.inl hconn
    · exact Or.inr (List.mem_singleton.mp (List.mem_of_getElem? hconn))
  have hconns : Provenance rs cfg { s with conns := s.conns ++
      [Conn.new x edge ((s.node x).tables edge).nextFlowId (cfg.defaultDest x)] } := by
    apply h.setConns hgrows
    · intro c conn hconn piece hpiece
      rcases hnew c conn hconn with hold | rfl
      · exact h.pending c conn hold piece hpiece
      · cases hpiece
    · intro c conn hconn delivery hd
      rcases hnew c conn hconn with hold | rfl
      · obtain ⟨haddressed, hflow⟩ := h.accepted c conn hold delivery hd
        exact ⟨haddressed.grows hgrows, hflow⟩
      · cases hd
  refine hconns.setNode (hconns.routing x) (hconns.queued x) (hconns.handed x) ?_
  intro edge' flowId c hflow
  rcases activeFlows_setTable_cases rfl hflow with ⟨-, rfl, hself⟩ | hold
  · -- the entry of the new connection
    cases hself
    exact ⟨_, List.getElem?_concat_length, rfl, rfl⟩
  · exact hconns.tables x edge' flowId c hold

/-- Handing a delivery to an edge keeps the invariant: the channel's connection has its flow id. -/
theorem Provenance.delivers (h : Provenance rs cfg s) {x : NodeId} {delivery : LocalDelivery}
    (haddressed : Addressed s.conns x delivery) (hdelivers : Delivers s x delivery t) :
    Provenance rs cfg t := by
  cases hdelivers with
  | dropped => exact h
  | accepted htable hconn =>
    -- the table leads to a connection of this node and this flow id
    obtain ⟨conn', hconn', hnode, hflow⟩ := h.tables x _ _ _ htable
    rw [hconn, Option.some.injEq] at hconn'
    subst hconn'
    refine h.setConn hconn rfl rfl rfl (List.prefix_refl _)
      (fun p hp => h.pending _ _ hconn p hp) ?_
    intro d hd
    rcases List.mem_append.mp hd with hold | hnew
    · exact Or.inl hold
    · rw [List.mem_singleton.mp hnew, hnode]
      exact Or.inr ⟨haddressed, hflow.symm⟩

/-- A read leaves pieces that are still to be sent. -/
theorem Provenance.read (h : Provenance rs cfg s) {c : ConnId} {conn : Conn} {data : Bytes}
    (hconn : s.conns[c]? = some conn) (hpos : 0 < data.length) (hfits : data.length ≤ readBufSize) :
    Provenance rs cfg (s.setConn c { conn with
      bytesRead := conn.bytesRead ++ data
      pending := conn.edge.pieces data }) := by
  refine h.setConn hconn rfl rfl rfl (List.prefix_append _ _) ?_ (fun d hd => Or.inl hd)
  intro piece hpiece
  refine ⟨List.append_ne_nil_of_right_ne_nil _ (List.ne_nil_of_length_pos hpos), ?_⟩
  calc piece.length ≤ conn.edge.pieceSize data := length_le_of_mem_pieces hpiece
    _ ≤ data.length := pieceSize_le _ _
    _ ≤ readBufSize := hfits

/-- A connection sends its next piece: the payload is genuine. -/
theorem Provenance.sent (h : Provenance rs cfg s) {c : ConnId} {conn : Conn} {piece : Bytes}
    {rest : List Bytes} {hop : NodeId} {l' : MeshLink} (hconn : s.conns[c]? = some conn)
    (hpending : conn.pending = piece :: rest)
    (htook : (s.link (conn.node, hop)).Took rs (cfg.fecConfig conn.node)
      [conn.payload c piece] l') :
    Provenance rs cfg ((s.setLink conn.node hop l').setConn c { conn with pending := rest }) := by
  have hunsent := h.pending c conn hconn
  rw [hpending] at hunsent
  obtain ⟨hread, hsize⟩ := hunsent piece List.mem_cons_self
  have hlink := h.took htook (by
    intro t ht
    rw [List.mem_singleton.mp ht]
    exact ⟨c, conn, piece, hconn, hread, hsize, rfl⟩)
  refine hlink.setConn hconn rfl rfl rfl (List.prefix_refl _) ?_ (fun d hd => Or.inl hd)
  exact fun p hp => hunsent p (List.mem_cons_of_mem _ hp)

/-- A task of a connection takes a step. -/
theorem Provenance.task (h : Provenance rs cfg s) {c : ConnId} {conn conn' : Conn}
    (hconn : s.conns[c]? = some conn) (hstep : conn.TaskStep conn') :
    Provenance rs cfg (s.setConn c conn') := by
  have hpre : conn.bytesRead <+: conn'.bytesRead := by rw [hstep.bytesRead_eq]
  apply h.setConn hconn hstep.node_eq hstep.flowId_eq hstep.destNode_eq hpre
  · intro p hp
    rw [hstep.pending_eq] at hp
    have hunsent := h.pending c conn hconn p hp
    exact ⟨by rw [hstep.bytesRead_eq]; exact hunsent.1, hunsent.2⟩
  · intro d hd
    rw [hstep.accepted_eq] at hd
    exact Or.inl hd

/-- A link gives what was put into it to the forwarder at its end. -/
theorem Provenance.received (h : Provenance rs cfg s) {fromPeer x : NodeId} {n i : Nat}
    {l' : MeshLink} {out : List Tagged}
    (hgave : (s.link (fromPeer, x)).Gave rs (cfg.fecConfig fromPeer) n i l' out) :
    Provenance rs cfg ((s.setLink fromPeer x l').setNode x
      { s.node x with routing := out, fromPeer := fromPeer }) := by
  have hlog : l'.log = (s.link (fromPeer, x)).log := by
    rw [MeshLink.log, MeshLink.log, hgave.blocks_eq, hgave.waiting_eq]
  have hlink := h.setLink (y := x) hgave.inv (by
    intro t ht
    rw [hlog] at ht
    exact h.logged fromPeer x t ht)
  refine hlink.setNode ?_ (h.queued x) (h.handed x) (h.tables x)
  intro t ht
  exact h.logged fromPeer x t (hgave.mem_log t ht)

/-- A forwarder takes the next payload that it is routing: the rest stays genuine. -/
theorem Provenance.unrouted (h : Provenance rs cfg s) {x : NodeId} {t : Tagged} {rest : List Tagged}
    (hrouting : (s.node x).routing = t :: rest) {queue : List LocalDelivery}
    (hqueue : ∀ delivery ∈ queue, Addressed s.conns x delivery) :
    Provenance rs cfg (s.setNode x { s.node x with routing := rest, localQueue := queue }) := by
  refine h.setNode ?_ hqueue (h.handed x) (h.tables x)
  intro t' ht'
  apply h.routing x t'
  rw [hrouting]
  exact List.mem_cons_of_mem _ ht'

/-- The payload that a forwarder takes next is genuine. -/
theorem Provenance.genuine_head (h : Provenance rs cfg s) {x : NodeId} {t : Tagged}
    {rest : List Tagged} (hrouting : (s.node x).routing = t :: rest) : Genuine s.conns t := by
  apply h.routing x
  rw [hrouting]
  exact List.mem_cons_self

/-- The dispatcher hands the next delivery of the queue to an edge. -/
theorem Provenance.dispatched (h : Provenance rs cfg s) {x : NodeId} {delivery : LocalDelivery}
    {rest : List LocalDelivery} (hqueue : (s.node x).localQueue = delivery :: rest)
    (hdelivers : Delivers (s.setNode x { s.node x with
      localQueue := rest
      handed := (s.node x).handed ++ [delivery] }) x delivery t) : Provenance rs cfg t := by
  have hqueued := h.queued x
  rw [hqueue] at hqueued
  have hnode : Provenance rs cfg (s.setNode x { s.node x with
      localQueue := rest
      handed := (s.node x).handed ++ [delivery] }) := by
    refine h.setNode (h.routing x) ?_ ?_ (h.tables x)
    · exact fun d hd => hqueued d (List.mem_cons_of_mem _ hd)
    · intro d hd
      rcases List.mem_append.mp hd with hold | hnew
      · exact h.handed x d hold
      · rw [List.mem_singleton.mp hnew]
        exact hqueued delivery List.mem_cons_self
  exact hnode.delivers (hqueued delivery List.mem_cons_self) hdelivers

/-- Every move keeps the invariant. -/
theorem Provenance.moves (h : Provenance rs cfg s) {e : MeshEvent} (hmove : Moves rs cfg s e t) :
    Provenance rs cfg t := by
  cases hmove with
  | idle => exact h
  | accept x edge => exact h.accept x edge
  | read hconn hreading hpending hpos hfits => exact h.read hconn hpos hfits
  | sent hconn hpending hdest htook => exact h.sent hconn hpending htook
  | sendFailed hconn hpending =>
    -- the pieces that were left are dropped
    refine h.setConn hconn rfl rfl rfl (List.prefix_refl _) ?_ (fun d hd => Or.inl hd)
    intro p hp
    cases hp
  | task hconn hstep => exact h.task hconn hstep
  | ended hconn =>
    -- the flow id leaves the table, and the connection stays as it was
    refine (h.ended _ _ _).setConn hconn rfl rfl rfl (List.prefix_refl _)
      (fun p hp => h.pending _ _ hconn p hp) ?_
    exact fun d hd => Or.inl hd
  | received hidle hgave => exact h.received hgave
  | routedHere hrouting hdecode =>
    apply h.unrouted hrouting
    intro delivery hd
    rcases List.mem_append.mp hd with hold | hnew
    · exact h.queued _ delivery hold
    · rw [List.mem_singleton.mp hnew]
      exact (h.genuine_head hrouting).addressed hdecode _
  | routedOn hrouting hdecode hdest htook =>
    have hlink := h.took htook (by
      intro t' ht'
      rw [List.mem_singleton.mp ht']
      exact h.genuine_head hrouting)
    exact hlink.unrouted hrouting (h.queued _)
  | dropped hrouting hbad => exact h.unrouted hrouting (h.queued _)
  | flushed htook =>
    apply h.took htook
    intro t ht
    cases ht
  | expired =>
    apply h.setLink ((h.links _ _).expire _)
    exact h.logged _ _
  | dispatched hqueue hdelivers => exact h.dispatched hqueue hdelivers

/-- A step whose shards find their own entries succeeds, as a move, and keeps the invariant. -/
theorem Provenance.step (hlaw : ∀ x, Lawful rs (cfg.fecConfig x)) (h : Provenance rs cfg s)
    {e : MeshEvent} (hown : ShardsFindOwnEntries s e) :
    ∃ t, meshStep rs cfg s e = .ok (t, ()) ∧ Moves rs cfg s e t ∧ Provenance rs cfg t := by
  obtain ⟨t, hstep, hmove⟩ := step_moves hlaw h.sound hown
  refine ⟨t, ?_, hmove, h.moves hmove⟩
  rw [meshStep, hstep]
  rfl

/-- Invariant rule of the mesh: what the moves of a run keep, together with `Provenance`, holds
after the run. -/
theorem provenance_run (hlaw : ∀ x, Lawful rs (cfg.fecConfig x)) {C : MeshState → MeshEvent → Prop}
    (hown : ∀ s e, C s e → ShardsFindOwnEntries s e) {P : MeshState → Prop}
    (hstart : P (MeshState.start cfg))
    (hmoves : ∀ s e t, Provenance rs cfg s → P s → C s e → Moves rs cfg s e t → P t)
    {es : List MeshEvent} (hcond : Machine.Along (meshStep rs cfg) C (MeshState.start cfg) es) :
    ∃ s os, Machine.run (meshStep rs cfg) (MeshState.start cfg) es = .ok (s, os) ∧
      Provenance rs cfg s ∧ P s := by
  refine Machine.run_safe (P := fun _ s _ => Provenance rs cfg s ∧ P s)
    ⟨provenance_start hlaw, hstart⟩ ?_ es hcond
  rintro es s os e ⟨hprov, hP⟩ he
  obtain ⟨t, hstep, hmove, hprov'⟩ := hprov.step hlaw (hown s e he)
  exact ⟨t, (), hstep, hprov', hmoves s e t hprov hP he hmove⟩

end EntrouterLine.Mesh
