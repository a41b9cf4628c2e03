import EntrouterLine.Mesh.FlowIsolation
import EntrouterLine.Mesh.StreamView

/-!
# The order of a relayed stream

The data of one connection crosses FEC links whose blocks complete in whatever order their shards
arrive, and forwarders that choose the next node payload by payload. The relay header carries no
sequence number, so a block that completes before an earlier one, or without it, is delivered as it
is (`lostBlock_leaves_gap`). What is handed to the destination's edge is a prefix of what the source
has read in every run in which the payloads of the flow take one course, and every link of the
course completes the blocks that carry the flow in the order in which it emitted them
(`handedBytes_isPrefix`).

The proof follows the moves of the mesh: seen from one connection, each is a step of `Lib.Course`,
or changes nothing.
-/

set_option autoImplicit false

namespace EntrouterLine.Mesh

open EntrouterLine.Lib
open EntrouterLine.Lib.Course
open EntrouterLine.Relay
open EntrouterLine.Edge

variable {rs : ReedSolomon} {cfg : MeshConfig} {s t : MeshState}

/-- A flow: the connection it is read from, its source and destination nodes, and its id. -/
structure Flow where
  conn : ConnId
  source : NodeId
  dest : NodeId
  flowId : UInt32

/-- The connection is the one that the flow is read from. -/
structure Flow.Of (f : Flow) (conn : Conn) : Prop where
  node_eq : conn.node = f.source
  dest_eq : conn.destNode = f.dest
  flowId_eq : conn.flowId = f.flowId

theorem Flow.Of.of_same {f : Flow} {conn conn' : Conn} (h : f.Of conn')
    (hnode : conn'.node = conn.node) (hdest : conn'.destNode = conn.destNode)
    (hflow : conn'.flowId = conn.flowId) : f.Of conn :=
  ⟨hnode.symm.trans h.node_eq, hdest.symm.trans h.dest_eq, hflow.symm.trans h.flowId_eq⟩

/-- The bytes that a node has handed to its edges under a flow id. -/
def handedBytes (s : MeshState) (x : NodeId) (flowId : UInt32) : Bytes :=
  (((s.node x).handed.filter fun d => d.flowId = flowId).map LocalDelivery.data).flatten

variable {next : NodeId → Option NodeId} {f : Flow}

/-- The step keeps to the course of the flow: the source sends to the node after it, and so does
every node on the way, which has a tunnel to that node. A block that carries the flow completes
after all earlier ones that do. No other connection reads data for the destination under the flow's
id. -/
def StreamCond (cfg : MeshConfig) (next : NodeId → Option NodeId) (f : Flow) (s : MeshState) :
    MeshEvent → Prop
  | .read a _ => a ≠ f.conn → ∀ other, s.conns[a]? = some other → other.flowId = f.flowId →
      wireDest other.destNode ≠ some f.dest
  | .send a nextHop => a = f.conn → nextHop = none ∨ nextHop = next f.source
  | .shard fromPeer x _ n i => FindsOwnEntry (s.link (fromPeer, x)).fec n ∧
      (Completing (s.link (fromPeer, x)).fec n i →
        (s.link (fromPeer, x)).InOrder f.conn ((s.link (fromPeer, x)).returned ++ [n]))
  | .route x nextHop => ∀ t rest, (s.node x).routing = t :: rest → t.source = some f.conn →
      x ≠ f.dest → nextHop = next x ∧ ∃ hop, next x = some hop ∧ cfg.isPeer x hop = true
  | _ => True

theorem StreamCond.findsOwn {e : MeshEvent} (h : StreamCond cfg next f s e) :
    ShardsFindOwnEntries s e := by
  cases e with
  | shard fromPeer x now n i => exact h.1
  | _ => trivial

/-! ## One connection to a flow -/

/-- No other connection has sent data to the destination of the flow under its id. -/
def Flow.Sole (f : Flow) (s : MeshState) : Prop :=
  ∀ (a : ConnId) (other : Conn), s.conns[a]? = some other → a ≠ f.conn → other.bytesRead ≠ [] →
    other.flowId = f.flowId → wireDest other.destNode ≠ some f.dest

theorem Flow.Sole.moves (h : f.Sole s) {e : MeshEvent} (hcond : StreamCond cfg next f s e)
    (hmove : Moves rs cfg s e t) : f.Sole t := by
  intro a other' hother' hne hread' hflow'
  obtain ⟨other, hother, -, hflow, hdest, hread⟩ := (hmove.continues hother').resolve_left hread'
  rw [hdest]
  rw [hflow] at hflow'
  rcases hread with hsame | ⟨data, rfl⟩
  · -- it had read before, and was none of the flow's rivals
    rw [hsame] at hread'
    exact h a other hother hne hread' hflow'
  · exact hcond hne other hother hflow'

/-! ## The stream in the mesh -/

/-- The traffic of the flow is in order, and the pieces it consists of are what `conn` has read. -/
def InOrder (next : NodeId → Option NodeId) (f : Flow) (s : MeshState) (conn : Conn) : Prop :=
  ∃ offered, offered.flatten = conn.bytesRead ∧
    Ordered next f.source f.dest (viewOf f.conn conn s offered)

/-- Whatever connection the flow is read from, its traffic is in order. -/
def InStream (next : NodeId → Option NodeId) (f : Flow) (s : MeshState) : Prop :=
  ∀ conn, s.conns[f.conn]? = some conn → f.Of conn → InOrder next f s conn

/-- Nodes and links change in nothing that belongs to the flow. -/
theorem InStream.of_view_eq (h : InStream next f s) (hconns : t.conns = s.conns)
    (hview : ∀ conn offered, f.Of conn →
      viewOf f.conn conn t offered = viewOf f.conn conn s offered) :
    InStream next f t := by
  intro conn hconn hof
  rw [hconns] at hconn
  obtain ⟨offered, hread, hordered⟩ := h conn hconn hof
  refine ⟨offered, hread, ?_⟩
  rw [hview conn offered hof]
  exact hordered

/-- Nodes and links take a step of the course. -/
theorem InStream.of_step (h : InStream next f s) (hcourse : OneCourse next f.source)
    (hconns : t.conns = s.conns)
    (hstep : ∀ conn offered, s.conns[f.conn]? = some conn → f.Of conn →
      Ordered next f.source f.dest (viewOf f.conn conn s offered) →
        Step next f.source f.dest (viewOf f.conn conn s offered) (viewOf f.conn conn t offered)) :
    InStream next f t := by
  intro conn hconn hof
  rw [hconns] at hconn
  obtain ⟨offered, hread, hordered⟩ := h conn hconn hof
  exact ⟨offered, hread, hordered.step hcourse (hstep conn offered hconn hof hordered)⟩

/-- A connection changes, and stays in order if it is the one of the flow. -/
theorem InStream.setConn (h : InStream next f s) {k : ConnId} {conn conn' : Conn}
    (hconn : s.conns[k]? = some conn) (hof : f.Of conn' → f.Of conn)
    (hself : k = f.conn → f.Of conn → InOrder next f s conn → InOrder next f s conn') :
    InStream next f (s.setConn k conn') := by
  intro other hother hofOther
  rcases getElem?_set_cases hother with ⟨rfl, rfl⟩ | ⟨-, hold⟩
  · exact hself rfl (hof hofOther) (h conn hconn (hof hofOther))
  · exact h other hold hofOther

/-- A connection changes in nothing that its stream depends on. -/
theorem InStream.setConn_of_same (h : InStream next f s) {k : ConnId} {conn conn' : Conn}
    (hconn : s.conns[k]? = some conn) (hof : f.Of conn' → f.Of conn)
    (hdest : conn'.destNode = conn.destNode) (hread : conn'.bytesRead = conn.bytesRead)
    (hpending : conn'.pending = conn.pending) (hreading : conn'.reading = conn.reading) :
    InStream next f (s.setConn k conn') := by
  apply h.setConn hconn hof
  rintro - - ⟨offered, hoffered, hordered⟩
  refine ⟨offered, hoffered.trans hread.symm, ?_⟩
  rw [viewOf, hdest, hpending, hreading]
  exact hordered

/-- The tables of the edges are no part of the stream. -/
theorem InStream.setTable (h : InStream next f s) (x : NodeId) (edge : EdgeKind)
    (table : FlowTable) : InStream next f (s.setNode x ((s.node x).setTable edge table)) := by
  refine h.of_view_eq rfl ?_
  intro conn offered _
  exact viewOf_setTable f.conn conn s x edge table offered

/-! ## Moves at the source -/

/-- A new connection has offered nothing, and nothing of it is on its way. -/
theorem InStream.accept (h : InStream next f s) (hprov : Provenance rs cfg s) (x : NodeId)
    (edge : EdgeKind) : InStream next f (accept cfg s x edge) := by
  intro conn hconn hof
  change (s.conns ++ [_])[f.conn]? = some conn at hconn
  rw [List.getElem?_append] at hconn
  split at hconn
  case isTrue => exact h.setTable x edge _ conn hconn hof
  case isFalse hnew =>
    have hnone : s.conns[f.conn]? = none := List.getElem?_eq_none (Nat.le_of_not_lt hnew)
    rw [List.mem_singleton.mp (List.mem_of_getElem? hconn)]
    refine ⟨[], rfl, ?_⟩
    change Ordered next f.source f.dest
      (viewOf f.conn _ (s.setNode x ((s.node x).setTable edge _)) [])
    rw [viewOf_setTable, viewOf_unknown hprov hnone rfl rfl]
    exact ordered_start

/-- A read offers its pieces. -/
theorem InStream.read (h : InStream next f s) (hcourse : OneCourse next f.source) {k : ConnId}
    {conn : Conn} {data : Bytes} (hconn : s.conns[k]? = some conn) (hreading : conn.reading = true)
    (hpending : conn.pending = []) :
    InStream next f (s.setConn k { conn with
      bytesRead := conn.bytesRead ++ data
      pending := conn.edge.pieces data }) := by
  refine h.setConn hconn (fun hof => hof.of_same rfl rfl rfl) ?_
  rintro - - ⟨offered, hread, hordered⟩
  refine ⟨offered ++ conn.edge.pieces data, ?_, ?_⟩
  · rw [List.flatten_append, hread, flatten_pieces]
  · exact hordered.step hcourse (.offer hreading hpending)

/-- A piece is sent to the next node. -/
theorem InStream.sent (h : InStream next f s) (hprov : Provenance rs cfg s)
    (hcourse : OneCourse next f.source) {k : ConnId} {conn : Conn} {piece : Bytes}
    {rest : List Bytes} {hop : NodeId} {l' : MeshLink} (hconn : s.conns[k]? = some conn)
    (hpending : conn.pending = piece :: rest) (hdest : conn.destNode ≠ conn.node)
    (htook : (s.link (conn.node, hop)).Took rs (cfg.fecConfig conn.node) [conn.payload k piece] l')
    (hnext : k = f.conn → next f.source = some hop) :
    InStream next f ((s.setLink conn.node hop l').setConn k { conn with pending := rest }) := by
  have hinv := hprov.links conn.node hop
  by_cases hk : k = f.conn
  · -- the connection of the flow sends: a step of the course
    subst hk
    intro conn' hconn' hof
    have hnew := getElem?_set_self_of_some hconn { conn with pending := rest }
    change (s.conns.set f.conn _)[f.conn]? = some conn' at hconn'
    rw [hnew, Option.some.injEq] at hconn'
    subst hconn'
    have hofConn : f.Of conn := hof.of_same rfl rfl rfl
    obtain ⟨offered, hread, hordered⟩ := h conn hconn hofConn
    refine ⟨offered, hread, ?_⟩
    have hstep : Step next f.source f.dest (viewOf f.conn conn s offered)
        { viewOf f.conn conn s offered with
          pending := rest
          logged := putIn (viewOf f.conn conn s offered).logged f.source hop piece } := by
      refine .send hpending (hnext rfl) ?_
      rw [← hofConn.node_eq, ← hofConn.dest_eq]
      exact hdest.symm
    have hview : viewOf f.conn { conn with pending := rest } (s.setLink conn.node hop l') offered =
        _ := viewOf_took hinv htook offered
    rw [streamData_payload conn f.conn piece, hofConn.node_eq] at hview
    change Ordered next f.source f.dest
      (viewOf f.conn { conn with pending := rest } (s.setLink conn.node hop l') offered)
    rw [hofConn.node_eq, hview]
    exact hordered.step hcourse hstep
  · -- another connection sends
    have hadded : ∀ t ∈ [conn.payload k piece], t.source ≠ some f.conn := by
      intro t ht hsource
      rw [List.mem_singleton.mp ht] at hsource
      exact hk (Option.some.inj hsource)
    have hlink : InStream next f (s.setLink conn.node hop l') := by
      refine h.of_view_eq rfl ?_
      intro other offered _
      exact viewOf_took_of_nil hinv htook hadded offered
    refine hlink.setConn hconn (fun hof => hof.of_same rfl rfl rfl) ?_
    exact fun hself => absurd hself hk

/-- The read task ends, with what it has still to send or without it. -/
theorem InStream.stopped (h : InStream next f s) (hcourse : OneCourse next f.source) {k : ConnId}
    {conn conn' : Conn} (hconn : s.conns[k]? = some conn) (hof : f.Of conn' → f.Of conn)
    (hdest : conn'.destNode = conn.destNode) (hread : conn'.bytesRead = conn.bytesRead)
    (hpending : conn'.pending = conn.pending ∨ conn'.pending = [])
    (hreading : conn'.reading = false) : InStream next f (s.setConn k conn') := by
  apply h.setConn hconn hof
  rintro - - ⟨offered, hoffered, hordered⟩
  refine ⟨offered, hoffered.trans hread.symm, ?_⟩
  have hstopped : Ordered next f.source f.dest
      { viewOf f.conn conn s offered with pending := conn'.pending, live := false } :=
    hordered.step hcourse (.stop hpending)
  rw [viewOf, hdest, hreading]
  exact hstopped

/-! ## Moves in the network -/

/-- What a link returns continues the stream: the block comes next among those that carry it. -/
theorem given_isPrefix {l l' : MeshLink} {config : FecConfig} {n i : Nat} {out : List Tagged}
    {c : ConnId} (destNode : NodeId) (hgave : l.Gave rs config n i l' out)
    (horder : Completing l.fec n i → l.InOrder c (l.returned ++ [n]))
    (hgiven : streamData c destNode l.given <+: streamData c destNode l.log) :
    streamData c destNode l.given ++ streamData c destNode out <+: streamData c destNode l.log := by
  rcases hgave.returned with ⟨rfl, -⟩ | ⟨hcompleting, -, hreturned⟩
  · -- no block has completed
    rw [← streamData_append, List.append_nil]
    exact hgiven
  · rw [← streamData_append, ← hgave.given_eq, MeshLink.given, hgave.blocks_eq, hreturned]
    exact streamData_isPrefix_of_inOrder destNode (horder hcompleting)

/-- A shard makes a link give what it may complete. -/
theorem InStream.received (h : InStream next f s) (hcourse : OneCourse next f.source)
    {fromPeer x : NodeId} {n i : Nat} {config : FecConfig} {l' : MeshLink} {out : List Tagged}
    (hidle : (s.node x).routing = [])
    (hgave : (s.link (fromPeer, x)).Gave rs config n i l' out)
    (horder : Completing (s.link (fromPeer, x)).fec n i →
      (s.link (fromPeer, x)).InOrder f.conn ((s.link (fromPeer, x)).returned ++ [n])) :
    InStream next f ((s.setLink fromPeer x l').setNode x
      { s.node x with routing := out, fromPeer := fromPeer }) := by
  refine h.of_step hcourse rfl ?_
  intro conn offered _ _ hordered
  rw [viewOf_gave hgave]
  apply Step.give
  · show streamData f.conn conn.destNode (s.node x).routing = []
    rw [hidle]
    rfl
  · exact given_isPrefix conn.destNode hgave horder (hordered.inOrder fromPeer x)

/-- A payload of another connection leaves the forwarder. -/
theorem InStream.unrouted (h : InStream next f s) {x : NodeId} {t : Tagged} {rest : List Tagged}
    (hrouting : (s.node x).routing = t :: rest) (hsource : t.source ≠ some f.conn)
    {queue : List LocalDelivery}
    (hqueue : deliveredData f.conn queue = deliveredData f.conn (s.node x).localQueue) :
    InStream next f (s.setNode x { s.node x with routing := rest, localQueue := queue }) := by
  refine h.of_view_eq rfl ?_
  intro conn offered _
  apply viewOf_setNode_of_same
  · rw [hrouting, streamData_cons_of_ne conn.destNode hsource]
  · rw [deliveredData_append, deliveredData_append, hqueue]

/-- A payload of the flow is at a forwarder: its connection has built it. -/
theorem payload_of_routing (hprov : Provenance rs cfg s) {x : NodeId} {t : Tagged}
    {rest : List Tagged} (hrouting : (s.node x).routing = t :: rest) {c : ConnId}
    (hsource : t.source = some c) {conn : Conn} (hconn : s.conns[c]? = some conn) :
    ∃ piece, t = conn.payload c piece :=
  (hprov.genuine_head hrouting).eq_payload hsource hconn

/-- A payload reaches its destination, and its data is queued for the edge. -/
theorem InStream.routedHere (h : InStream next f s) (hprov : Provenance rs cfg s)
    (hcourse : OneCourse next f.source) (hdest : wireDest f.dest = some f.dest) {x : NodeId}
    {t : Tagged} {rest : List Tagged} {flowId : UInt32} {data : Bytes}
    (hrouting : (s.node x).routing = t :: rest)
    (hdecode : decodeRelayHeader t.payload = some (flowId, x, data)) :
    InStream next f (s.setNode x { s.node x with
      routing := rest
      localQueue := (s.node x).localQueue ++
        [⟨flowId, data, (s.node x).fromPeer, t.source⟩] }) := by
  by_cases hsource : t.source = some f.conn
  · refine h.of_step hcourse rfl ?_
    intro conn offered hconn hof _
    obtain ⟨piece, rfl⟩ := payload_of_routing hprov hrouting hsource hconn
    -- the header names the destination of the flow, so this node is it
    rw [Conn.payload, decodeRelayHeader_encodeRelayHeader, hof.dest_eq, hdest,
      Option.map_some] at hdecode
    cases hdecode
    rw [viewOf_arrive f.dest rest rfl]
    apply Step.arrive
    show streamData f.conn conn.destNode (s.node f.dest).routing = _
    rw [hrouting, streamData_cons_payload]
  · -- data of another connection is queued
    apply h.unrouted hrouting hsource
    rw [deliveredData_append, deliveredData_of_ne hsource, List.append_nil]

/-- A payload is forwarded to the next node. -/
theorem InStream.routedOn (h : InStream next f s) (hprov : Provenance rs cfg s)
    (hcourse : OneCourse next f.source) (hdest : wireDest f.dest = some f.dest) {x hop : NodeId}
    {t : Tagged} {rest : List Tagged} {flowId : UInt32} {destNode : NodeId} {data : Bytes}
    {l' : MeshLink} (hrouting : (s.node x).routing = t :: rest)
    (hdecode : decodeRelayHeader t.payload = some (flowId, destNode, data)) (hne : destNode ≠ x)
    (htook : (s.link (x, hop)).Took rs (cfg.fecConfig x) [t] l')
    (hnext : t.source = some f.conn → x ≠ f.dest → next x = some hop) :
    InStream next f ((s.setLink x hop l').setNode x { s.node x with routing := rest }) := by
  have hinv := hprov.links x hop
  by_cases hsource : t.source = some f.conn
  · refine h.of_step hcourse rfl ?_
    intro conn offered hconn hof _
    obtain ⟨piece, rfl⟩ := payload_of_routing hprov hrouting hsource hconn
    rw [Conn.payload, decodeRelayHeader_encodeRelayHeader, hof.dest_eq, hdest,
      Option.map_some] at hdecode
    cases hdecode
    rw [viewOf_forward hinv htook]
    refine Step.forward ?_ (hnext rfl hne.symm) hne.symm
    show streamData f.conn conn.destNode (s.node x).routing = _
    rw [hrouting, streamData_cons_payload]
  · -- a payload of another connection is forwarded
    have hadded : ∀ t' ∈ [t], t'.source ≠ some f.conn := by
      intro t' ht'
      rw [List.mem_singleton.mp ht']
      exact hsource
    have hlink : InStream next f (s.setLink x hop l') := by
      refine h.of_view_eq rfl ?_
      intro conn offered _
      exact viewOf_took_of_nil hinv htook hadded offered
    exact hlink.unrouted hrouting hsource rfl

/-- A payload that cannot be forwarded is none of the flow: on the course it could. -/
theorem InStream.unforwarded (h : InStream next f s) (hprov : Provenance rs cfg s)
    (hdest : wireDest f.dest = some f.dest) {x : NodeId} {nextHop : Option NodeId}
    (hcond : StreamCond cfg next f s (.route x nextHop)) {t : Tagged} {rest : List Tagged}
    (hrouting : (s.node x).routing = t :: rest)
    (hbad : ∀ flowId destNode data, decodeRelayHeader t.payload = some (flowId, destNode, data) →
      destNode ≠ x ∧ ∀ hop, nextHop = some hop → cfg.isPeer x hop = false) :
    InStream next f (s.setNode x { s.node x with routing := rest }) := by
  intro conn hconn hof
  by_cases hsource : t.source = some f.conn
  · obtain ⟨piece, hpayload⟩ := payload_of_routing hprov hrouting hsource hconn
    have hdecode : decodeRelayHeader t.payload = some (conn.flowId, f.dest, piece) := by
      rw [hpayload, Conn.payload, decodeRelayHeader_encodeRelayHeader, hof.dest_eq, hdest]
      rfl
    -- there is a next node and a tunnel to it, so forwarding did not fail
    obtain ⟨hne, hnone⟩ := hbad _ _ _ hdecode
    obtain ⟨hnext, hop, hhop, hpeer⟩ := hcond t rest hrouting hsource hne.symm
    rw [hnone hop (hnext.trans hhop)] at hpeer
    cases hpeer
  · exact h.unrouted hrouting hsource rfl conn hconn hof

/-- The dispatcher takes a delivery from the queue. -/
theorem InStream.handedOver (h : InStream next f s) {x : NodeId} {delivery : LocalDelivery}
    {rest : List LocalDelivery} (hqueue : (s.node x).localQueue = delivery :: rest) :
    InStream next f (s.setNode x { s.node x with
      localQueue := rest
      handed := (s.node x).handed ++ [delivery] }) := by
  refine h.of_view_eq rfl ?_
  intro conn offered _
  refine viewOf_setNode_of_same offered rfl ?_
  rw [hqueue, List.append_assoc, List.singleton_append]

/-- The edge puts a delivery into a response channel, or drops it. -/
theorem InStream.delivers (h : InStream next f s) {x : NodeId} {delivery : LocalDelivery}
    (hdelivers : Delivers s x delivery t) : InStream next f t := by
  cases hdelivers with
  | dropped => exact h
  | accepted htable hconn =>
    exact h.setConn_of_same hconn (fun hof => hof.of_same rfl rfl rfl)
      rfl rfl rfl rfl

/-- Every move that keeps to the course keeps the stream in order. -/
theorem InStream.moves (h : InStream next f s) (hprov : Provenance rs cfg s)
    (hcourse : OneCourse next f.source) (hdest : wireDest f.dest = some f.dest) {e : MeshEvent}
    (hcond : StreamCond cfg next f s e) (hmove : Moves rs cfg s e t) : InStream next f t := by
  cases hmove with
  | idle => exact h
  | accept x edge => exact h.accept hprov x edge
  | read hconn hreading hpending hpos hfits => exact h.read hcourse hconn hreading hpending
  | sent hconn hpending hne htook =>
    apply h.sent hprov hcourse hconn hpending hne htook
    intro hself
    rcases hcond hself with hnone | hnext
    · cases hnone
    · exact hnext.symm
  | sendFailed hconn hpending =>
    exact h.stopped hcourse hconn (fun hof => hof.of_same rfl rfl rfl) rfl rfl
      (Or.inr rfl) rfl
  | task hconn hstep =>
    rename_i k conn conn'
    have hof : f.Of conn' → f.Of conn := fun hof =>
      hof.of_same hstep.node_eq hstep.destNode_eq hstep.flowId_eq
    -- a read task either goes on or stops the stream where it is
    cases hreading : conn'.reading with
    | false =>
      exact h.stopped hcourse hconn hof hstep.destNode_eq hstep.bytesRead_eq
        (Or.inl hstep.pending_eq) hreading
    | true =>
      apply h.setConn_of_same hconn hof hstep.destNode_eq hstep.bytesRead_eq hstep.pending_eq
      rw [hreading, hstep.reading hreading]
  | ended hconn =>
    exact (h.setTable _ _ _).setConn_of_same hconn
      (fun hof => hof.of_same rfl rfl rfl) rfl rfl rfl rfl
  | received hidle hgave => exact h.received hcourse hidle hgave hcond.2
  | routedHere hrouting hdecode => exact h.routedHere hprov hcourse hdest hrouting hdecode
  | routedOn hrouting hdecode hne htook =>
    apply h.routedOn hprov hcourse hdest hrouting hdecode hne htook
    intro hsource hx
    exact (hcond _ _ hrouting hsource hx).1.symm
  | dropped hrouting hbad => exact h.unforwarded hprov hdest hcond hrouting hbad
  | flushed htook =>
    refine h.of_view_eq rfl ?_
    intro conn offered _
    exact viewOf_took_of_nil (hprov.links _ _) htook (fun t ht => by cases ht) offered
  | expired =>
    refine h.of_view_eq rfl ?_
    intro conn offered _
    exact viewOf_expire _ _ _ offered
  | dispatched hqueue hdelivers => exact (h.handedOver hqueue).delivers hdelivers

/-! ## What the destination is handed -/

/-- Everything handed over for the flow comes from its connection. -/
theorem handed_source (hprov : Provenance rs cfg s) (hsole : f.Sole s) {d : LocalDelivery}
    (hd : d ∈ (s.node f.dest).handed) (hflow : d.flowId = f.flowId) : d.source = some f.conn := by
  obtain ⟨a, other, hother, hread, hsource, hdest, hflowId⟩ := hprov.handed f.dest d hd
  by_cases ha : a = f.conn
  · rw [hsource, ha]
  · exact absurd hdest (hsole a other hother ha hread (hflowId.trans hflow))

/-- If the stream is in order, what has been handed over for the flow is a prefix of what has been
read. -/
theorem InStream.handed_isPrefix (h : InStream next f s) (hprov : Provenance rs cfg s)
    (hsole : f.Sole s) {conn : Conn} (hconn : s.conns[f.conn]? = some conn) (hof : f.Of conn) :
    handedBytes s f.dest f.flowId <+: conn.bytesRead := by
  -- by flow id or by source, the same deliveries are meant
  have hfilter : ((s.node f.dest).handed.filter fun d => d.flowId = f.flowId).map
      LocalDelivery.data = deliveredData f.conn (s.node f.dest).handed := by
    refine (deliveredData_eq_filter ?_).symm
    intro d hd
    constructor
    · exact handed_source hprov hsole hd
    · intro hsource
      obtain ⟨a, other, hother, -, ha, -, hflowId⟩ := hprov.handed f.dest d hd
      rw [hsource, Option.some.injEq] at ha
      subst ha
      rw [hconn, Option.some.injEq] at hother
      subst hother
      rw [← hflowId, hof.flowId_eq]
  obtain ⟨offered, hread, hordered⟩ := h conn hconn hof
  obtain ⟨rest, hrest⟩ := hordered.arrived_isPrefix
  change deliveredData f.conn ((s.node f.dest).handed ++ (s.node f.dest).localQueue) ++ rest =
    offered at hrest
  rw [handedBytes, hfilter, ← hread, ← hrest, deliveredData_append, List.append_assoc,
    List.flatten_append]
  exact List.prefix_append _ _

/-- A node that no header can name is handed nothing. -/
theorem handedBytes_eq_nil (hprov : Provenance rs cfg s) {x : NodeId}
    (hdest : wireDest x ≠ some x) (flowId : UInt32) : handedBytes s x flowId = [] := by
  have hnone : (s.node x).handed = [] := by
    apply List.eq_nil_iff_forall_not_mem.mpr
    intro d hd
    obtain ⟨a, other, -, -, -, hother, -⟩ := hprov.handed x d hd
    exact hdest (wireDest_of_wireDest hother)
  rw [handedBytes, hnone]
  rfl

/-- In every run along the condition, what is handed to the destination's edge for the flow is a
prefix of what its source has read. -/
theorem handedBytes_isPrefix (hlaw : ∀ x, Lawful rs (cfg.fecConfig x))
    (hcourse : OneCourse next f.source) {es : List MeshEvent}
    (hcond : Machine.Along (meshStep rs cfg) (StreamCond cfg next f) (MeshState.start cfg) es) :
    ∃ s os, Machine.run (meshStep rs cfg) (MeshState.start cfg) es = .ok (s, os) ∧
      ∀ conn, s.conns[f.conn]? = some conn → f.Of conn →
        handedBytes s f.dest f.flowId <+: conn.bytesRead := by
  -- a destination whose name does not fit into a header is never reached
  have hstart : wireDest f.dest = some f.dest →
      f.Sole (MeshState.start cfg) ∧ InStream next f (MeshState.start cfg) := by
    intro _
    constructor
    · intro a other h
      cases h
    · intro conn h
      cases h
  obtain ⟨s, os, hrun, hprov, hstream⟩ := provenance_run
    (P := fun s => wireDest f.dest = some f.dest → f.Sole s ∧ InStream next f s) hlaw
    (fun s e h => h.findsOwn) hstart
    (fun s e t hprov hP hC hmove hdest =>
      ⟨(hP hdest).1.moves hC hmove, (hP hdest).2.moves hprov hcourse hdest hC hmove⟩) hcond
  refine ⟨s, os, hrun, ?_⟩
  intro conn hconn hof
  by_cases hdest : wireDest f.dest = some f.dest
  · obtain ⟨hsole, hinStream⟩ := hstream hdest
    exact hinStream.handed_isPrefix hprov hsole hconn hof
  · rw [handedBytes_eq_nil hprov hdest]
    exact List.nil_prefix

/-! ## A lost block -/

/-- Flow 1 of `syd-01`, whose client is the first one accepted. -/
def sydFlow : Flow := ⟨0, "syd-01", "sgp-01", 1⟩

/-- The client of `syd-01` sends two bytes, each in a block of its own. -/
def sendsTwo : List MeshEvent :=
  [.accept "syd-01" .tcp, .read 0 [1], .send 0 (some "sgp-01"), .read 0 [2],
    .send 0 (some "sgp-01")]

/-- The first block is lost, and the second one arrives. -/
def lostBlock : List MeshEvent :=
  sendsTwo ++ [.shard "syd-01" "sgp-01" 0 1 0, .route "sgp-01" none, .dispatch "sgp-01"]

/-- `[2]` is handed over, and the client was read `[1, 2]` from. -/
theorem lostBlock_leaves_gap :
    (∀ x, Lawful smallCodec (toSgp.fecConfig x)) ∧
      ∃ s os, Machine.run (meshStep smallCodec toSgp) (MeshState.start toSgp) lostBlock =
          .ok (s, os) ∧
        ∃ conn, s.conns[sydFlow.conn]? = some conn ∧ sydFlow.Of conn ∧
          ¬ handedBytes s sydFlow.dest sydFlow.flowId <+: conn.bytesRead := by
  refine ⟨lawful_toSgp, _, _, rfl, _, rfl, ⟨rfl, rfl, rfl⟩, ?_⟩
  show ¬ [2] <+: [1, 2]
  decide

/-- Both blocks arrive, in the order in which they were sent. -/
def bothBlocks : List MeshEvent :=
  sendsTwo ++ [.shard "syd-01" "sgp-01" 0 0 0, .route "sgp-01" none, .dispatch "sgp-01",
    .shard "syd-01" "sgp-01" 0 1 0, .route "sgp-01" none, .dispatch "sgp-01"]

/-- The course of `sydFlow`: one link. -/
def sydCourse (x : NodeId) : Option NodeId := if x = "syd-01" then some "sgp-01" else none

theorem sydCourse_eq_some {x y : NodeId} (h : sydCourse x = some y) :
    x = "syd-01" ∧ y = "sgp-01" := by
  rw [sydCourse] at h
  split at h
  case isTrue hx => exact ⟨hx, (Option.some.inj h).symm⟩
  case isFalse => cases h

theorem oneCourse_sydCourse : OneCourse sydCourse sydFlow.source where
  unique := by
    intro x x' y hx hx'
    rw [(sydCourse_eq_some hx).1, (sydCourse_eq_some hx').1]
  fresh := by
    intro x hx
    have hsource := (sydCourse_eq_some hx).2
    exact absurd hsource (by decide)

theorem handedBytes_isPrefix_bothBlocks :
    ∃ s os, Machine.run (meshStep smallCodec toSgp) (MeshState.start toSgp) bothBlocks =
        .ok (s, os) ∧
      ∀ conn, s.conns[sydFlow.conn]? = some conn → sydFlow.Of conn →
        handedBytes s sydFlow.dest sydFlow.flowId <+: conn.bytesRead := by
  apply handedBytes_isPrefix lawful_toSgp oneCourse_sydCourse
  refine Machine.Along.cons rfl trivial ?_
  refine Machine.Along.cons rfl (fun h => absurd rfl h) ?_
  refine Machine.Along.cons rfl (fun _ => Or.inr rfl) ?_
  refine Machine.Along.cons rfl (fun h => absurd rfl h) ?_
  refine Machine.Along.cons rfl (fun _ => Or.inr rfl) ?_
  refine Machine.Along.cons rfl ⟨fun h => absurd rfl h, fun _ => by decide⟩ ?_
  refine Machine.Along.cons rfl (fun _ _ _ _ h => absurd rfl h) ?_
  refine Machine.Along.cons rfl trivial ?_
  refine Machine.Along.cons rfl ⟨fun h => absurd rfl h, fun _ => by decide⟩ ?_
  refine Machine.Along.cons rfl (fun _ _ _ _ h => absurd rfl h) ?_
  exact Machine.Along.cons rfl trivial trivial

end EntrouterLine.Mesh
