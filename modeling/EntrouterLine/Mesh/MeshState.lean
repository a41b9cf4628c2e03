import EntrouterLine.Edge.EdgeRead
import EntrouterLine.Relay.FecLink

/-!
# A mesh of relay nodes

Every node runs the program: two edges that accept client connections, a forwarder, and a FEC link
to each of its peers. `MeshState.step` takes one atomic step of one task of one node, or lets the
network hand a node one shard of a block that one of its peers has emitted. The order of the steps,
the bytes that clients send, and what `MeshRouter::next_hop` answers are left open.

Sources are not part of the program: every relay payload and every local delivery carries the
connection whose bytes it was made from, if it is known, so that one can say where data comes from.
A payload that comes out of a FEC block gets the source of the payload at its place in the block.
-/

set_option autoImplicit false

namespace EntrouterLine.Mesh

open EntrouterLine.Relay
open EntrouterLine.Edge

/-- Number of a client connection, in the order in which the nodes accepted them. -/
abbrev ConnId := Nat

/-- A relay payload and the connection it comes from. -/
structure Tagged where
  payload : Bytes
  source : Option ConnId
  deriving DecidableEq

/-- Traffic delivered to the local edge, and the connection it comes from. -/
structure LocalDelivery where
  flowId : UInt32
  data : Bytes
  sourceNode : NodeId
  source : Option ConnId
  deriving DecidableEq

/-- `next_flow_id` and `active_flows` of an edge. The sender half of a response channel is the
number of the connection whose channel it is. -/
structure FlowTable where
  nextFlowId : UInt32
  activeFlows : UInt32 → Option ConnId

def TcpSplitter.new : FlowTable := ⟨1, fun _ => none⟩

def QuicAcceptor.new : FlowTable := ⟨1000000, fun _ => none⟩

/-- Capacity of the response channel of a flow. -/
def channelCapacity : EdgeKind → Nat
  | .tcp => 2048
  | .quic => 256

/-- A client connection: what `handle_connection` and its two tasks keep of it. `pending` are the
pieces of the last read that are not sent yet, `channel` is the response channel. `bytesRead` and
`accepted` record everything read from the client and everything put into the channel. -/
structure Conn where
  node : NodeId
  edge : EdgeKind
  flowId : UInt32
  destNode : NodeId
  pending : List Bytes
  reading : Bool
  channel : List Bytes
  writing : Bool
  finished : Bool
  bytesRead : Bytes
  accepted : List LocalDelivery

def Conn.new (node : NodeId) (edge : EdgeKind) (flowId : UInt32) (destNode : NodeId) : Conn :=
  ⟨node, edge, flowId, destNode, [], true, [], true, false, [], []⟩

/-- A node: its edges, the payloads that its forwarder is routing and the peer they came from, the
local delivery channel, and all deliveries handed to an edge so far. -/
structure Node where
  tables : EdgeKind → FlowTable
  routing : List Tagged
  fromPeer : NodeId
  localQueue : List LocalDelivery
  handed : List LocalDelivery

def Node.new : Node :=
  ⟨fun edge => match edge with
    | .tcp => TcpSplitter.new
    | .quic => QuicAcceptor.new,
    [], "", [], []⟩

/-! ## Links -/

/-- The FEC link from one node to another, with the sources of the payloads in its blocks and in the
sender's buffer, and the numbers of the blocks returned so far. -/
structure MeshLink where
  fec : FecLink
  blocks : List (List Tagged)
  waiting : List Tagged
  returned : List Nat

def MeshLink.new (config : FecConfig) : MeshLink := ⟨FecLink.start config, [], [], []⟩

/-- All payloads submitted to the link, in order. -/
def MeshLink.log (l : MeshLink) : List Tagged := l.blocks.flatten ++ l.waiting

/-- The link after its sender has taken these payloads and perhaps emitted a block. -/
def MeshLink.sent (l : MeshLink) (added : List Tagged) (fec : FecLink) : MeshLink :=
  if fec.emitted.length = l.fec.emitted.length then
    { l with fec := fec, waiting := l.waiting ++ added }
  else { l with fec := fec, blocks := l.blocks ++ [l.waiting ++ added], waiting := [] }

def MeshLink.submit (rs : ReedSolomon) (l : MeshLink) (t : Tagged) : Except Panic MeshLink := do
  let (fec, _) ← linkStep rs l.fec (.submit t.payload)
  return l.sent [t] fec

def MeshLink.flushPartial (rs : ReedSolomon) (l : MeshLink) : Except Panic MeshLink := do
  let (fec, _) ← linkStep rs l.fec .flushPartial
  return l.sent [] fec

/-- Payloads returned for a block, each with the source of the payload at its place. -/
def tagged (block : List Tagged) (payloads : List Bytes) : List Tagged :=
  payloads.mapIdx fun i payload => ⟨payload, block[i]?.bind Tagged.source⟩

/-- The receiver takes the `i`-th shard of block `n`, if there is one. -/
def MeshLink.receive (rs : ReedSolomon) (l : MeshLink) (now n i : Nat) :
    Except Panic (MeshLink × List Tagged) := do
  let (fec, out) ← linkStep rs l.fec (.deliver now n i)
  match out with
  | none => return ({ l with fec := fec }, [])
  | some payloads =>
      return ({ l with fec := fec, returned := l.returned ++ [n] },
        tagged (l.blocks.getD n []) payloads)

/-- `expire_old(500)` at the receiver. -/
def MeshLink.expire (l : MeshLink) (now : Nat) : MeshLink :=
  { l with fec := { l.fec with receiver := l.fec.receiver.expireOld now 500 } }

/-! ## The state of the mesh -/

structure MeshConfig where
  defaultDest : NodeId → NodeId
  isPeer : NodeId → NodeId → Bool
  fecConfig : NodeId → FecConfig

structure MeshState where
  node : NodeId → Node
  link : NodeId × NodeId → MeshLink
  conns : List Conn

def MeshState.start (cfg : MeshConfig) : MeshState :=
  ⟨fun _ => Node.new, fun pair => MeshLink.new (cfg.fecConfig pair.1), []⟩

def MeshState.setNode (s : MeshState) (x : NodeId) (node : Node) : MeshState :=
  { s with node := Function.update s.node x node }

def MeshState.setLink (s : MeshState) (x y : NodeId) (l : MeshLink) : MeshState :=
  { s with link := Function.update s.link (x, y) l }

def MeshState.setConn (s : MeshState) (c : ConnId) (conn : Conn) : MeshState :=
  { s with conns := s.conns.set c conn }

def Node.setTable (node : Node) (edge : EdgeKind) (table : FlowTable) : Node :=
  { node with tables := Function.update node.tables edge table }

/-! ## The forwarder -/

inductive ForwarderError where
  | noRoute (dest : NodeId)
  | noTunnel (peer : NodeId)
  deriving DecidableEq

/-- `Forwarder::forward_to`. The answer of `MeshRouter::next_hop` is given; it is always `None` for
the local node. -/
def forwardTo (rs : ReedSolomon) (cfg : MeshConfig) (s : MeshState) (node destNode : NodeId)
    (relayPayload : Tagged) (nextHop : Option NodeId) :
    Except Panic (Except ForwarderError MeshState) :=
  -- no route leads to the local node
  match if destNode = node then none else nextHop with
  | none => .ok (.error (.noRoute destNode))
  | some hop =>
      if cfg.isPeer node hop then do
        let l ← (s.link (node, hop)).submit rs relayPayload
        return .ok (s.setLink node hop l)
      else .ok (.error (.noTunnel hop))

/-- `local_tx`, the local delivery channel, holds this many deliveries. -/
def localCapacity : Nat := 4096

/-- `Forwarder::route_data`, on the first payload that the forwarder is routing. It waits while the
local delivery channel is full, and drops a payload that cannot be forwarded. -/
def routeData (rs : ReedSolomon) (cfg : MeshConfig) (s : MeshState) (x : NodeId)
    (nextHop : Option NodeId) : Except Panic MeshState :=
  match (s.node x).routing with
  | [] => .ok s
  | t :: rest =>
      match decodeRelayHeader t.payload with
      -- an invalid header
      | none => .ok (s.setNode x { s.node x with routing := rest })
      | some (flowId, destNode, data) =>
          if destNode = x then
            if (s.node x).localQueue.length < localCapacity then
              let delivery := ⟨flowId, data, (s.node x).fromPeer, t.source⟩
              .ok (s.setNode x { s.node x with
                routing := rest
                localQueue := (s.node x).localQueue ++ [delivery] })
            else .ok s
          else do
            match ← forwardTo rs cfg s x destNode t nextHop with
            | .ok s => return s.setNode x { s.node x with routing := rest }
            -- the error is only logged
            | .error _ => return s.setNode x { s.node x with routing := rest }

/-- `Forwarder::handle_inbound` on a shard from a peer. The forwarder takes no packet and runs no
flush while it is still routing payloads. -/
def handleInbound (rs : ReedSolomon) (cfg : MeshConfig) (s : MeshState) (fromPeer x : NodeId)
    (now n i : Nat) : Except Panic MeshState :=
  if cfg.isPeer x fromPeer ∧ (s.node x).routing = [] then do
    let (l, payloads) ← (s.link (fromPeer, x)).receive rs now n i
    return (s.setLink fromPeer x l).setNode x
      { s.node x with routing := payloads, fromPeer := fromPeer }
  else .ok s

/-- `Forwarder::flush_fec`, the sender of one peer. -/
def flushSender (rs : ReedSolomon) (s : MeshState) (x peer : NodeId) : Except Panic MeshState :=
  if (s.node x).routing = [] then do
    let l ← (s.link (x, peer)).flushPartial rs
    return s.setLink x peer l
  else .ok s

/-- `Forwarder::flush_fec`, the receiver of one peer. -/
def expireReceiver (s : MeshState) (x peer : NodeId) (now : Nat) : MeshState :=
  if (s.node x).routing = [] then s.setLink peer x ((s.link (peer, x)).expire now) else s

/-! ## The edges -/

/-- A connection is accepted: it gets the next flow id and a response channel. -/
def accept (cfg : MeshConfig) (s : MeshState) (x : NodeId) (edge : EdgeKind) : MeshState :=
  let table := (s.node x).tables edge
  let flowId := table.nextFlowId
  { s.setNode x ((s.node x).setTable edge ⟨flowId + 1,
      Function.update table.activeFlows flowId (some s.conns.length)⟩) with
    conns := s.conns ++ [Conn.new x edge flowId (cfg.defaultDest x)] }

/-- The read task reads from the client, once it has sent the last read. -/
def readClient (s : MeshState) (c : ConnId) (data : Bytes) : MeshState :=
  match s.conns[c]? with
  | none => s
  | some conn =>
      if conn.reading ∧ conn.pending = [] ∧ 0 < data.length ∧ data.length ≤ readBufSize then
        s.setConn c { conn with
          bytesRead := conn.bytesRead ++ data
          pending := conn.edge.pieces data }
      else s

/-- The read task calls `send_to_node` with the next piece, and ends if that fails. -/
def sendToNode (rs : ReedSolomon) (cfg : MeshConfig) (s : MeshState) (c : ConnId)
    (nextHop : Option NodeId) : Except Panic MeshState :=
  match s.conns[c]? with
  | none => .ok s
  | some conn =>
      match conn.pending with
      | [] => .ok s
      | piece :: rest => do
          let payload := ⟨encodeRelayHeader conn.flowId conn.destNode piece, some c⟩
          match ← forwardTo rs cfg s conn.node conn.destNode payload nextHop with
          | .ok s => return s.setConn c { conn with pending := rest }
          -- the pieces that are left are not sent
          | .error _ => return s.setConn c { conn with pending := [], reading := false }

/-- The read task ends at the end of the stream or at a read error. -/
def endRead (s : MeshState) (c : ConnId) : MeshState :=
  match s.conns[c]? with
  | none => s
  | some conn => if conn.pending = [] then s.setConn c { conn with reading := false } else s

/-- The write task takes the next response, and ends if it cannot write it to the client. -/
def writeClient (s : MeshState) (c : ConnId) (ok : Bool) : MeshState :=
  match s.conns[c]? with
  | none => s
  | some conn =>
      if conn.writing then
        match conn.channel with
        | [] => s
        | _ :: rest => s.setConn c { conn with channel := rest, writing := ok }
      else s

/-- The write task ends once its channel is empty and no sender of it is left. -/
def endWrite (s : MeshState) (c : ConnId) : MeshState :=
  match s.conns[c]? with
  | none => s
  | some conn =>
      if conn.channel = [] ∧
          ((s.node conn.node).tables conn.edge).activeFlows conn.flowId ≠ some c then
        s.setConn c { conn with writing := false }
      else s

/-- `handle_connection` ends once one of its tasks has: it removes the flow id from the table. -/
def endConnection (s : MeshState) (c : ConnId) : MeshState :=
  match s.conns[c]? with
  | none => s
  | some conn =>
      if ¬ conn.finished ∧ (¬ conn.reading ∨ ¬ conn.writing) then
        let table := (s.node conn.node).tables conn.edge
        (s.setNode conn.node ((s.node conn.node).setTable conn.edge { table with
          activeFlows := Function.update table.activeFlows conn.flowId none })).setConn c
            { conn with finished := true }
      else s

/-- `TcpSplitter::deliver` and `QuicAcceptor::deliver`: `try_send` to the channel of the flow, if it
has one. The delivery is dropped if the channel is full or closed. -/
def deliver (s : MeshState) (x : NodeId) (edge : EdgeKind) (delivery : LocalDelivery) : MeshState :=
  match ((s.node x).tables edge).activeFlows delivery.flowId with
  | none => s
  | some c =>
      match s.conns[c]? with
      | none => s
      | some conn =>
          if conn.writing ∧ conn.channel.length < channelCapacity conn.edge then
            s.setConn c { conn with
              channel := conn.channel ++ [delivery.data]
              accepted := conn.accepted ++ [delivery] }
          else s

/-- The edge that the dispatcher in `run` hands a flow id to. -/
def edgeOf (flowId : UInt32) : EdgeKind := if flowId < 1000000 then .tcp else .quic

/-- The dispatcher takes the next local delivery and hands it to an edge. -/
def dispatch (s : MeshState) (x : NodeId) : MeshState :=
  match (s.node x).localQueue with
  | [] => s
  | delivery :: rest =>
      deliver (s.setNode x { s.node x with
        localQueue := rest
        handed := (s.node x).handed ++ [delivery] }) x (edgeOf delivery.flowId) delivery

/-! ## Steps -/

inductive MeshEvent where
  | accept (x : NodeId) (edge : EdgeKind)
  | read (c : ConnId) (data : Bytes)
  | send (c : ConnId) (nextHop : Option NodeId)
  | endRead (c : ConnId)
  | write (c : ConnId) (ok : Bool)
  | endWrite (c : ConnId)
  | endConnection (c : ConnId)
  | shard (fromPeer x : NodeId) (now n i : Nat)
  | route (x : NodeId) (nextHop : Option NodeId)
  | flush (x peer : NodeId)
  | expire (x peer : NodeId) (now : Nat)
  | dispatch (x : NodeId)
  deriving DecidableEq

/-- One step of the mesh. -/
def MeshState.step (rs : ReedSolomon) (cfg : MeshConfig) (s : MeshState) :
    MeshEvent → Except Panic MeshState
  | .accept x edge => .ok (accept cfg s x edge)
  | .read c data => .ok (readClient s c data)
  | .send c nextHop => sendToNode rs cfg s c nextHop
  | .endRead c => .ok (endRead s c)
  | .write c ok => .ok (writeClient s c ok)
  | .endWrite c => .ok (endWrite s c)
  | .endConnection c => .ok (endConnection s c)
  | .shard fromPeer x now n i => handleInbound rs cfg s fromPeer x now n i
  | .route x nextHop => routeData rs cfg s x nextHop
  | .flush x peer => flushSender rs s x peer
  | .expire x peer now => .ok (expireReceiver s x peer now)
  | .dispatch x => .ok (dispatch s x)

/-- The mesh as a machine without outputs. -/
def meshStep (rs : ReedSolomon) (cfg : MeshConfig) (s : MeshState) (e : MeshEvent) :
    Except Panic (MeshState × Unit) :=
  (s.step rs cfg e).map fun t => (t, ())

end EntrouterLine.Mesh
