import EntrouterLine.Mesh.Links

/-!
# What a step of the mesh does

`Moves` lists what a step can do to the state, with the guards under which it does so. As long as
the links keep their invariant and every payload on its way has a length that FEC can describe, a
step whose shards find their own entries succeeds, and does one of these things (`step_moves`).
Invariants of the mesh are proved from `Moves` and not from the definition of the step.
-/

set_option autoImplicit false

namespace EntrouterLine.Mesh

open EntrouterLine.Relay
open EntrouterLine.Edge

variable {rs : ReedSolomon} {cfg : MeshConfig} {s : MeshState}

/-! ## Parts of the state -/

@[simp] theorem node_setNode_self (s : MeshState) (x : NodeId) (node : Node) :
    (s.setNode x node).node x = node :=
  Function.update_self _ _ _

theorem node_setNode_of_ne (s : MeshState) {x y : NodeId} (h : y ≠ x) (node : Node) :
    (s.setNode x node).node y = s.node y :=
  Function.update_of_ne h _ _

/-- What holds of the new node and of the others as they were holds of every node. -/
theorem forall_node_setNode {P : NodeId → Node → Prop} {x : NodeId} {node : Node} (hx : P x node)
    (h : ∀ y, P y (s.node y)) (y : NodeId) : P y ((s.setNode x node).node y) := by
  rcases eq_or_ne y x with rfl | hne
  · rw [node_setNode_self]
    exact hx
  · rw [node_setNode_of_ne s hne]
    exact h y

@[simp] theorem link_setNode (s : MeshState) (x : NodeId) (node : Node) :
    (s.setNode x node).link = s.link := rfl

@[simp] theorem conns_setNode (s : MeshState) (x : NodeId) (node : Node) :
    (s.setNode x node).conns = s.conns := rfl

@[simp] theorem link_setLink_self (s : MeshState) (x y : NodeId) (l : MeshLink) :
    (s.setLink x y l).link (x, y) = l :=
  Function.update_self _ _ _

theorem link_setLink_of_ne (s : MeshState) {x y : NodeId} {pair : NodeId × NodeId}
    (h : pair ≠ (x, y)) (l : MeshLink) : (s.setLink x y l).link pair = s.link pair :=
  Function.update_of_ne h _ _

/-- What holds of the new link and of the others as they were holds of every link. -/
theorem forall_link_setLink {P : NodeId → NodeId → MeshLink → Prop} {x y : NodeId} {l : MeshLink}
    (hxy : P x y l) (h : ∀ x y, P x y (s.link (x, y))) (x' y' : NodeId) :
    P x' y' ((s.setLink x y l).link (x', y')) := by
  by_cases hpair : (x', y') = (x, y)
  · rw [hpair, link_setLink_self]
    cases hpair
    exact hxy
  · rw [link_setLink_of_ne s hpair]
    exact h x' y'

@[simp] theorem node_setLink (s : MeshState) (x y : NodeId) (l : MeshLink) :
    (s.setLink x y l).node = s.node := rfl

@[simp] theorem conns_setLink (s : MeshState) (x y : NodeId) (l : MeshLink) :
    (s.setLink x y l).conns = s.conns := rfl

@[simp] theorem node_setConn (s : MeshState) (c : ConnId) (conn : Conn) :
    (s.setConn c conn).node = s.node := rfl

@[simp] theorem link_setConn (s : MeshState) (c : ConnId) (conn : Conn) :
    (s.setConn c conn).link = s.link := rfl

@[simp] theorem conns_setConn (s : MeshState) (c : ConnId) (conn : Conn) :
    (s.setConn c conn).conns = s.conns.set c conn := rfl

/-- A lookup after one entry of one table has changed: that entry, or one that was there before. -/
theorem activeFlows_setTable_cases {node : Node} {edge edge' : EdgeKind} {table : FlowTable}
    {changed flowId : UInt32} {entry : Option ConnId} {c : ConnId}
    (htable : table.activeFlows = Function.update (node.tables edge).activeFlows changed entry)
    (h : ((node.setTable edge table).tables edge').activeFlows flowId = some c) :
    (edge' = edge ∧ flowId = changed ∧ entry = some c) ∨
      (node.tables edge').activeFlows flowId = some c := by
  change (Function.update node.tables edge table edge').activeFlows flowId = some c at h
  rcases eq_or_ne edge' edge with rfl | hne
  · rw [Function.update_self, htable] at h
    rcases eq_or_ne flowId changed with rfl | hflow
    · rw [Function.update_self] at h
      exact Or.inl ⟨rfl, rfl, h⟩
    · rw [Function.update_of_ne hflow] at h
      exact Or.inr h
  · rw [Function.update_of_ne hne] at h
    exact Or.inr h

/-! ## Moves -/

/-- The payload that a connection sends for a piece of a read. -/
def Conn.payload (conn : Conn) (c : ConnId) (piece : Bytes) : Tagged :=
  ⟨encodeRelayHeader conn.flowId conn.destNode piece, some c⟩

/-! The functions of the source that can abort, inverted: what they have done where they succeed. -/

theorem forwardTo_inv {t : MeshState} {x destNode : NodeId} {payload : Tagged}
    {nextHop : Option NodeId} (h : forwardTo rs cfg s x destNode payload nextHop = .ok (.ok t)) :
    ∃ hop l, (s.link (x, hop)).submit rs payload = .ok l ∧ t = s.setLink x hop l := by
  unfold forwardTo at h
  split at h
  case h_1 => cases h
  case h_2 hop _ =>
    split at h
    case isTrue =>
      cases hsubmit : (s.link (x, hop)).submit rs payload with
      | error panic =>
        rw [hsubmit] at h
        cases h
      | ok l =>
        rw [hsubmit] at h
        cases h
        exact ⟨hop, l, hsubmit, rfl⟩
    case isFalse => cases h

/-- The task sends nothing, or it ends, or the next piece goes to the link to the next hop. -/
theorem sendToNode_cases {t : MeshState} {c : ConnId} {nextHop : Option NodeId}
    (h : sendToNode rs cfg s c nextHop = .ok t) :
    t = s ∨ ∃ conn, s.conns[c]? = some conn ∧
      (t = s.setConn c { conn with pending := [], reading := false } ∨
        ∃ piece rest hop l,
          (s.link (conn.node, hop)).submit rs (conn.payload c piece) = .ok l ∧
          t = (s.setLink conn.node hop l).setConn c { conn with pending := rest }) := by
  unfold sendToNode at h
  split at h
  case h_1 =>
    cases h
    exact Or.inl rfl
  case h_2 conn hconn =>
    split at h
    case h_1 =>
      cases h
      exact Or.inl rfl
    case h_2 piece rest _ =>
      refine Or.inr ⟨conn, hconn, ?_⟩
      change (forwardTo rs cfg s conn.node conn.destNode (conn.payload c piece) nextHop >>= _) = _
        at h
      cases hforward : forwardTo rs cfg s conn.node conn.destNode (conn.payload c piece)
          nextHop with
      | error panic =>
        rw [hforward] at h
        cases h
      | ok result =>
        rw [hforward] at h
        cases result with
        | error err =>
          cases h
          exact Or.inl rfl
        | ok s' =>
          cases h
          obtain ⟨hop, l, hsubmit, rfl⟩ := forwardTo_inv hforward
          exact Or.inr ⟨piece, rest, hop, l, hsubmit, rfl⟩

/-- The forwarder waits, because it routes nothing or the channel is full; or the first payload
leaves the list: it is dropped, goes into the channel, or to the link to the next hop. -/
theorem routeData_cases {t : MeshState} {x : NodeId} {nextHop : Option NodeId}
    (h : routeData rs cfg s x nextHop = .ok t) :
    (t = s ∧ ((s.node x).routing = [] ∨ localCapacity ≤ (s.node x).localQueue.length)) ∨
      ∃ payload rest, (s.node x).routing = payload :: rest ∧
        (t = s.setNode x { s.node x with routing := rest } ∨
          (∃ delivery, t = s.setNode x { s.node x with
            routing := rest
            localQueue := (s.node x).localQueue ++ [delivery] }) ∨
          ∃ hop l, (s.link (x, hop)).submit rs payload = .ok l ∧
            t = (s.setLink x hop l).setNode x { s.node x with routing := rest }) := by
  unfold routeData at h
  split at h
  case h_1 hidle =>
    cases h
    exact Or.inl ⟨rfl, Or.inl hidle⟩
  case h_2 payload rest hrouting =>
    split at h
    case h_1 =>
      cases h
      exact Or.inr ⟨payload, rest, hrouting, Or.inl rfl⟩
    case h_2 flowId destNode data _ =>
      split at h
      case isTrue =>
        split at h
        case isTrue =>
          cases h
          exact Or.inr ⟨payload, rest, hrouting, Or.inr (Or.inl ⟨_, rfl⟩)⟩
        case isFalse hfull =>
          cases h
          exact Or.inl ⟨rfl, Or.inr (Nat.le_of_not_lt hfull)⟩
      case isFalse =>
        cases hforward : forwardTo rs cfg s x destNode payload nextHop with
        | error panic =>
          rw [hforward] at h
          cases h
        | ok result =>
          rw [hforward] at h
          refine Or.inr ⟨payload, rest, hrouting, ?_⟩
          cases result with
          | error err =>
            cases h
            exact Or.inl rfl
          | ok s' =>
            cases h
            obtain ⟨hop, l, hsubmit, rfl⟩ := forwardTo_inv hforward
            exact Or.inr (Or.inr ⟨hop, l, hsubmit, rfl⟩)

theorem handleInbound_cases {t : MeshState} {fromPeer x : NodeId} {now n i : Nat}
    (h : handleInbound rs cfg s fromPeer x now n i = .ok t) :
    t = s ∨ (s.node x).routing = [] ∧ ∃ l payloads,
      (s.link (fromPeer, x)).receive rs now n i = .ok (l, payloads) ∧
      t = (s.setLink fromPeer x l).setNode x
        { s.node x with routing := payloads, fromPeer := fromPeer } := by
  unfold handleInbound at h
  split at h
  case isTrue hready =>
    cases hreceive : (s.link (fromPeer, x)).receive rs now n i with
    | error panic =>
      rw [hreceive] at h
      cases h
    | ok result =>
      rw [hreceive] at h
      cases h
      exact Or.inr ⟨hready.2, _, _, rfl, rfl⟩
  case isFalse =>
    cases h
    exact Or.inl rfl

theorem flushSender_cases {t : MeshState} {x peer : NodeId}
    (h : flushSender rs s x peer = .ok t) :
    t = s ∨ ∃ l, (s.link (x, peer)).flushPartial rs = .ok l ∧ t = s.setLink x peer l := by
  unfold flushSender at h
  split at h
  case isTrue =>
    cases hflush : (s.link (x, peer)).flushPartial rs with
    | error panic =>
      rw [hflush] at h
      cases h
    | ok l =>
      rw [hflush] at h
      cases h
      exact Or.inr ⟨l, rfl, rfl⟩
  case isFalse =>
    cases h
    exact Or.inl rfl

/-- A step of one of the tasks of a connection that changes neither its identity nor what it has
read, has still to send or has been given. -/
structure Conn.TaskStep (conn conn' : Conn) : Prop where
  node_eq : conn'.node = conn.node
  flowId_eq : conn'.flowId = conn.flowId
  destNode_eq : conn'.destNode = conn.destNode
  pending_eq : conn'.pending = conn.pending
  bytesRead_eq : conn'.bytesRead = conn.bytesRead
  accepted_eq : conn'.accepted = conn.accepted
  reading : conn'.reading = true → conn.reading = true

/-- What `deliver` does: nothing, or the delivery goes into the channel of the flow's connection. -/
inductive Delivers (s : MeshState) (x : NodeId) (delivery : LocalDelivery) : MeshState → Prop
  | dropped : Delivers s x delivery s
  | accepted {edge : EdgeKind} {c : ConnId} {conn : Conn}
      (htable : ((s.node x).tables edge).activeFlows delivery.flowId = some c)
      (hconn : s.conns[c]? = some conn) :
      Delivers s x delivery (s.setConn c { conn with
        channel := conn.channel ++ [delivery.data]
        accepted := conn.accepted ++ [delivery] })

/-- What one step can do to the mesh. -/
inductive Moves (rs : ReedSolomon) (cfg : MeshConfig) (s : MeshState) : MeshEvent → MeshState → Prop
  | idle (e : MeshEvent) : Moves rs cfg s e s
  | accept (x : NodeId) (edge : EdgeKind) : Moves rs cfg s (.accept x edge) (accept cfg s x edge)
  | read {c : ConnId} {conn : Conn} {data : Bytes} (hconn : s.conns[c]? = some conn)
      (hreading : conn.reading = true) (hpending : conn.pending = [])
      (hpos : 0 < data.length) (hfits : data.length ≤ readBufSize) :
      Moves rs cfg s (.read c data) (s.setConn c { conn with
        bytesRead := conn.bytesRead ++ data
        pending := conn.edge.pieces data })
  | sent {c : ConnId} {conn : Conn} {piece : Bytes} {rest : List Bytes} {hop : NodeId}
      {l' : MeshLink} (hconn : s.conns[c]? = some conn) (hpending : conn.pending = piece :: rest)
      (hdest : conn.destNode ≠ conn.node)
      (htook : (s.link (conn.node, hop)).Took rs (cfg.fecConfig conn.node)
        [conn.payload c piece] l') :
      Moves rs cfg s (.send c (some hop))
        ((s.setLink conn.node hop l').setConn c { conn with pending := rest })
  | sendFailed {c : ConnId} {conn : Conn} {nextHop : Option NodeId}
      (hconn : s.conns[c]? = some conn) (hpending : conn.pending ≠ []) :
      Moves rs cfg s (.send c nextHop) (s.setConn c { conn with pending := [], reading := false })
  | task {e : MeshEvent} {c : ConnId} {conn conn' : Conn} (hconn : s.conns[c]? = some conn)
      (hstep : conn.TaskStep conn') : Moves rs cfg s e (s.setConn c conn')
  | ended {c : ConnId} {conn : Conn} (hconn : s.conns[c]? = some conn) :
      Moves rs cfg s (.endConnection c)
        ((s.setNode conn.node ((s.node conn.node).setTable conn.edge
          { (s.node conn.node).tables conn.edge with
            activeFlows := Function.update ((s.node conn.node).tables conn.edge).activeFlows
              conn.flowId none })).setConn c { conn with finished := true })
  | received {fromPeer x : NodeId} {now n i : Nat} {l' : MeshLink} {out : List Tagged}
      (hidle : (s.node x).routing = [])
      (hgave : (s.link (fromPeer, x)).Gave rs (cfg.fecConfig fromPeer) n i l' out) :
      Moves rs cfg s (.shard fromPeer x now n i) ((s.setLink fromPeer x l').setNode x
        { s.node x with routing := out, fromPeer := fromPeer })
  | routedHere {x : NodeId} {nextHop : Option NodeId} {t : Tagged} {rest : List Tagged}
      {flowId : UInt32} {data : Bytes} (hrouting : (s.node x).routing = t :: rest)
      (hdecode : decodeRelayHeader t.payload = some (flowId, x, data)) :
      Moves rs cfg s (.route x nextHop) (s.setNode x { s.node x with
        routing := rest
        localQueue := (s.node x).localQueue ++
          [⟨flowId, data, (s.node x).fromPeer, t.source⟩] })
  | routedOn {x hop : NodeId} {t : Tagged} {rest : List Tagged} {flowId : UInt32}
      {destNode : NodeId} {data : Bytes} {l' : MeshLink}
      (hrouting : (s.node x).routing = t :: rest)
      (hdecode : decodeRelayHeader t.payload = some (flowId, destNode, data))
      (hdest : destNode ≠ x)
      (htook : (s.link (x, hop)).Took rs (cfg.fecConfig x) [t] l') :
      Moves rs cfg s (.route x (some hop))
        ((s.setLink x hop l').setNode x { s.node x with routing := rest })
  | dropped {x : NodeId} {nextHop : Option NodeId} {t : Tagged} {rest : List Tagged}
      (hrouting : (s.node x).routing = t :: rest)
      (hbad : ∀ flowId destNode data, decodeRelayHeader t.payload = some (flowId, destNode, data) →
        destNode ≠ x ∧ ∀ hop, nextHop = some hop → cfg.isPeer x hop = false) :
      Moves rs cfg s (.route x nextHop) (s.setNode x { s.node x with routing := rest })
  | flushed {x peer : NodeId} {l' : MeshLink}
      (htook : (s.link (x, peer)).Took rs (cfg.fecConfig x) [] l') :
      Moves rs cfg s (.flush x peer) (s.setLink x peer l')
  | expired {x peer : NodeId} {now : Nat} :
      Moves rs cfg s (.expire x peer now) (s.setLink peer x ((s.link (peer, x)).expire now))
  | dispatched {x : NodeId} {delivery : LocalDelivery} {rest : List LocalDelivery} {t : MeshState}
      (hqueue : (s.node x).localQueue = delivery :: rest)
      (hdelivers : Delivers (s.setNode x { s.node x with
        localQueue := rest
        handed := (s.node x).handed ++ [delivery] }) x delivery t) :
      Moves rs cfg s (.dispatch x) t

/-! ## Steps are moves -/

/-- What a step relies on: the links keep their invariant, and every payload that can be submitted
has a length that FEC can describe. -/
structure Sound (rs : ReedSolomon) (cfg : MeshConfig) (s : MeshState) : Prop where
  links : ∀ x y, (s.link (x, y)).Inv rs (cfg.fecConfig x)
  routing : ∀ x, ∀ t ∈ (s.node x).routing, t.Sized
  pending : ∀ (c : ConnId) (conn : Conn), s.conns[c]? = some conn → ∀ piece ∈ conn.pending,
    piece.length ≤ readBufSize

theorem sized_payload (conn : Conn) (c : ConnId) {piece : Bytes} (h : piece.length ≤ readBufSize) :
    (conn.payload c piece).Sized := by
  have hlen := length_encodeRelayHeader conn.flowId conn.destNode piece
  rw [relayHeaderSize] at hlen
  have hbuf : readBufSize = 16384 := rfl
  constructor
  · show 0 < (encodeRelayHeader conn.flowId conn.destNode piece).length
    omega
  · show (encodeRelayHeader conn.flowId conn.destNode piece).length < 2 ^ 16
    omega

/-- `forward_to` fails, or the link to the next hop takes the payload. -/
theorem forwardTo_cases (hlaw : ∀ x, Lawful rs (cfg.fecConfig x))
    (hlinks : ∀ x y, (s.link (x, y)).Inv rs (cfg.fecConfig x)) (x destNode : NodeId) {t : Tagged}
    (ht : t.Sized) (nextHop : Option NodeId) :
    (∃ err, forwardTo rs cfg s x destNode t nextHop = .ok (.error err) ∧
        (destNode = x ∨ ∀ hop, nextHop = some hop → cfg.isPeer x hop = false)) ∨
      ∃ hop l', nextHop = some hop ∧ destNode ≠ x ∧
        forwardTo rs cfg s x destNode t nextHop = .ok (.ok (s.setLink x hop l')) ∧
        (s.link (x, hop)).Took rs (cfg.fecConfig x) [t] l' := by
  by_cases hdest : destNode = x
  · refine Or.inl ⟨.noRoute destNode, ?_, Or.inl hdest⟩
    rw [forwardTo, if_pos hdest]
  · rw [forwardTo, if_neg hdest]
    cases nextHop with
    | none => exact Or.inl ⟨.noRoute destNode, rfl, Or.inr fun _ h => by cases h⟩
    | some hop =>
      cases hpeer : cfg.isPeer x hop with
      | false =>
        refine Or.inl ⟨.noTunnel hop, ?_, Or.inr ?_⟩
        · simp only [hpeer, Bool.false_eq_true, if_false]
        · intro hop' h
          cases h
          exact hpeer
      | true =>
        obtain ⟨l', hsubmit, htook⟩ := (hlinks x hop).submit (hlaw x) ht
        refine Or.inr ⟨hop, l', rfl, hdest, ?_, htook⟩
        simp only [hpeer, if_true, hsubmit]
        rfl

theorem sendToNode_moves (hlaw : ∀ x, Lawful rs (cfg.fecConfig x)) (h : Sound rs cfg s) (c : ConnId)
    (nextHop : Option NodeId) :
    ∃ t, sendToNode rs cfg s c nextHop = .ok t ∧ Moves rs cfg s (.send c nextHop) t := by
  rw [sendToNode]
  cases hconn : s.conns[c]? with
  | none => exact ⟨s, rfl, .idle _⟩
  | some conn =>
    cases hpending : conn.pending with
    | nil => exact ⟨s, by simp only [hpending], .idle _⟩
    | cons piece rest =>
      have hpiece : piece.length ≤ readBufSize := by
        apply h.pending c conn hconn
        rw [hpending]
        exact List.mem_cons_self
      simp only [hpending]
      rcases forwardTo_cases hlaw h.links conn.node conn.destNode (sized_payload conn c hpiece)
        nextHop with ⟨err, hforward, -⟩ | ⟨hop, l', rfl, hdest, hforward, htook⟩
      · refine ⟨_, ?_, .sendFailed hconn (by rw [hpending]; exact List.cons_ne_nil _ _)⟩
        change (forwardTo rs cfg s conn.node conn.destNode (conn.payload c piece) nextHop >>= _) = _
        rw [hforward]
        rfl
      · refine ⟨_, ?_, .sent hconn hpending hdest htook⟩
        change (forwardTo rs cfg s conn.node conn.destNode (conn.payload c piece) _ >>= _) = _
        rw [hforward]
        rfl

theorem routeData_moves (hlaw : ∀ x, Lawful rs (cfg.fecConfig x)) (h : Sound rs cfg s) (x : NodeId)
    (nextHop : Option NodeId) :
    ∃ t, routeData rs cfg s x nextHop = .ok t ∧ Moves rs cfg s (.route x nextHop) t := by
  rw [routeData]
  cases hrouting : (s.node x).routing with
  | nil => exact ⟨s, rfl, .idle _⟩
  | cons t rest =>
    have ht : t.Sized := by
      apply h.routing x
      rw [hrouting]
      exact List.mem_cons_self
    cases hdecode : decodeRelayHeader t.payload with
    | none =>
      refine ⟨_, by simp only [hdecode], .dropped hrouting ?_⟩
      intro flowId destNode data hsome
      rw [hdecode] at hsome
      cases hsome
    | some fields =>
      obtain ⟨flowId, destNode, data⟩ := fields
      by_cases hdest : destNode = x
      · subst hdest
        -- a full queue keeps the packet where it is
        by_cases hroom : (s.node destNode).localQueue.length < localCapacity
        · exact ⟨_, by simp only [hdecode, hroom, if_true], .routedHere hrouting hdecode⟩
        · exact ⟨s, by simp only [hdecode, hroom, if_true, if_false], .idle _⟩
      · rcases forwardTo_cases hlaw h.links x destNode ht nextHop with
          ⟨err, hforward, hfail⟩ | ⟨hop, l', rfl, -, hforward, htook⟩
        · refine ⟨_, ?_, .dropped hrouting ?_⟩
          · simp only [hdecode, hdest, if_false, hforward]
            rfl
          · intro flowId' destNode' data' hsome
            rw [hdecode] at hsome
            cases hsome
            exact ⟨hdest, hfail.resolve_left hdest⟩
        · refine ⟨_, ?_, .routedOn hrouting hdecode hdest htook⟩
          simp only [hdecode, hdest, if_false, hforward]
          rfl

theorem handleInbound_moves (hlaw : ∀ x, Lawful rs (cfg.fecConfig x)) (h : Sound rs cfg s)
    (fromPeer x : NodeId) (now n i : Nat) (hown : FindsOwnEntry (s.link (fromPeer, x)).fec n) :
    ∃ t, handleInbound rs cfg s fromPeer x now n i = .ok t ∧
      Moves rs cfg s (.shard fromPeer x now n i) t := by
  rw [handleInbound]
  by_cases hready : cfg.isPeer x fromPeer = true ∧ (s.node x).routing = []
  · obtain ⟨l', out, hreceive, hgave⟩ :=
      (h.links fromPeer x).receive (hlaw fromPeer) now i hown
    refine ⟨_, ?_, .received hready.2 hgave⟩
    rw [if_pos hready, hreceive]
    rfl
  · exact ⟨s, if_neg hready, .idle _⟩

theorem flushSender_moves (hlaw : ∀ x, Lawful rs (cfg.fecConfig x)) (h : Sound rs cfg s)
    (x peer : NodeId) :
    ∃ t, flushSender rs s x peer = .ok t ∧ Moves rs cfg s (.flush x peer) t := by
  rw [flushSender]
  by_cases hready : (s.node x).routing = []
  · obtain ⟨l', hflush, htook⟩ := (h.links x peer).flushPartial (hlaw x)
    refine ⟨_, ?_, .flushed htook⟩
    rw [if_pos hready, hflush]
    rfl
  · exact ⟨s, if_neg hready, .idle _⟩

/-! The steps of the edges always succeed. -/

theorem readClient_moves (c : ConnId) (data : Bytes) :
    Moves rs cfg s (.read c data) (readClient s c data) := by
  rw [readClient]
  cases hconn : s.conns[c]? with
  | none => exact .idle _
  | some conn =>
    show Moves rs cfg s _ (if _ then _ else _)
    split
    case isTrue hready =>
      obtain ⟨hreading, hpending, hpos, hfits⟩ := hready
      exact .read hconn hreading hpending hpos hfits
    case isFalse => exact .idle _

theorem endRead_moves (c : ConnId) : Moves rs cfg s (.endRead c) (endRead s c) := by
  rw [endRead]
  cases hconn : s.conns[c]? with
  | none => exact .idle _
  | some conn =>
    show Moves rs cfg s _ (if _ then _ else _)
    split
    case isTrue => exact .task hconn ⟨rfl, rfl, rfl, rfl, rfl, rfl, fun h => by cases h⟩
    case isFalse => exact .idle _

theorem writeClient_moves (c : ConnId) (ok : Bool) :
    Moves rs cfg s (.write c ok) (writeClient s c ok) := by
  rw [writeClient]
  cases hconn : s.conns[c]? with
  | none => exact .idle _
  | some conn =>
    show Moves rs cfg s _ (if _ then _ else _)
    split
    case isTrue =>
      cases hchannel : conn.channel with
      | nil => exact .idle _
      | cons response rest => exact .task hconn ⟨rfl, rfl, rfl, rfl, rfl, rfl, id⟩
    case isFalse => exact .idle _

theorem endWrite_moves (c : ConnId) : Moves rs cfg s (.endWrite c) (endWrite s c) := by
  rw [endWrite]
  cases hconn : s.conns[c]? with
  | none => exact .idle _
  | some conn =>
    show Moves rs cfg s _ (if _ then _ else _)
    split
    case isTrue => exact .task hconn ⟨rfl, rfl, rfl, rfl, rfl, rfl, id⟩
    case isFalse => exact .idle _

theorem endConnection_moves (c : ConnId) :
    Moves rs cfg s (.endConnection c) (endConnection s c) := by
  rw [endConnection]
  cases hconn : s.conns[c]? with
  | none => exact .idle _
  | some conn =>
    show Moves rs cfg s _ (if _ then _ else _)
    split
    case isTrue => exact .ended hconn
    case isFalse => exact .idle _

theorem deliver_delivers (s : MeshState) (x : NodeId) (edge : EdgeKind) (delivery : LocalDelivery) :
    Delivers s x delivery (deliver s x edge delivery) := by
  rw [deliver]
  cases htable : ((s.node x).tables edge).activeFlows delivery.flowId with
  | none => exact .dropped
  | some c =>
    cases hconn : s.conns[c]? with
    | none =>
      simp only [hconn]
      exact .dropped
    | some conn =>
      simp only [hconn]
      split
      case isTrue => exact .accepted htable hconn
      case isFalse => exact .dropped

theorem dispatch_moves (x : NodeId) : Moves rs cfg s (.dispatch x) (dispatch s x) := by
  rw [dispatch]
  cases hqueue : (s.node x).localQueue with
  | nil => exact .idle _
  | cons delivery rest => exact .dispatched hqueue (deliver_delivers _ x _ delivery)

theorem expireReceiver_moves (x peer : NodeId) (now : Nat) :
    Moves rs cfg s (.expire x peer now) (expireReceiver s x peer now) := by
  rw [expireReceiver]
  split
  case isTrue => exact .expired
  case isFalse => exact .idle _

/-- The shards that the event delivers find their own entries. -/
def ShardsFindOwnEntries (s : MeshState) : MeshEvent → Prop
  | .shard fromPeer x _ n _ => FindsOwnEntry (s.link (fromPeer, x)).fec n
  | _ => True

/-- A step of a sound mesh succeeds, and is a move. -/
theorem step_moves (hlaw : ∀ x, Lawful rs (cfg.fecConfig x)) (h : Sound rs cfg s) {e : MeshEvent}
    (hown : ShardsFindOwnEntries s e) : ∃ t, s.step rs cfg e = .ok t ∧ Moves rs cfg s e t := by
  cases e with
  | accept x edge => exact ⟨_, rfl, .accept x edge⟩
  | read c data => exact ⟨_, rfl, readClient_moves c data⟩
  | send c nextHop => exact sendToNode_moves hlaw h c nextHop
  | endRead c => exact ⟨_, rfl, endRead_moves c⟩
  | write c ok => exact ⟨_, rfl, writeClient_moves c ok⟩
  | endWrite c => exact ⟨_, rfl, endWrite_moves c⟩
  | endConnection c => exact ⟨_, rfl, endConnection_moves c⟩
  | shard fromPeer x now n i => exact handleInbound_moves hlaw h fromPeer x now n i hown
  | route x nextHop => exact routeData_moves hlaw h x nextHop
  | flush x peer => exact flushSender_moves hlaw h x peer
  | expire x peer now => exact ⟨_, rfl, expireReceiver_moves x peer now⟩
  | dispatch x => exact ⟨_, rfl, dispatch_moves x⟩

end EntrouterLine.Mesh
