import EntrouterLine.Relay.FecLink
import EntrouterLine.Relay.RelayHeader

/-!
# The send side of the forwarder

`send_to_node` and the relaying `route_data` both end in `forward_to`, which looks up the next hop,
its tunnel and its FEC sender, and submits the payload; `flush_fec` drains the senders every 5 ms,
and `add_tunnel` fills the three maps one after the other. Any number of these calls run at once. A
step here is one access to a map, or what is done under the lock of one sender: after the lock is
released, `forward_to` only spawns the send task and returns.
-/

set_option autoImplicit false

namespace EntrouterLine.Relay

open EntrouterLine.Lib

inductive ForwarderError where
  | noRoute (destNode : NodeId)
  | sendFailed
  | noTunnel (peerId : NodeId)
  deriving DecidableEq

/-- An `Arc<Tunnel>`, by number. -/
abbrev TunnelRef := Nat

/-- The three maps of the forwarder, and the configuration of new senders. -/
structure Forwarder where
  fecConfig : FecConfig
  tunnels : NodeId → Option TunnelRef
  fecSenders : NodeId → Option FecSender
  fecReceivers : NodeId → Option FecReceiver

def Forwarder.new (fecConfig : FecConfig) : Forwarder :=
  ⟨fecConfig, fun _ => none, fun _ => none, fun _ => none⟩

/-- `fec_senders.entry(peer_id).or_insert_with(..)`. -/
def Forwarder.insertSender (f : Forwarder) (peerId : NodeId) : Forwarder :=
  { f with
    fecSenders := Function.update f.fecSenders peerId
      (some ((f.fecSenders peerId).getD (FecSender.new f.fecConfig))) }

/-- `fec_receivers.entry(peer_id).or_insert_with(..)`. -/
def Forwarder.insertReceiver (f : Forwarder) (peerId : NodeId) : Forwarder :=
  { f with
    fecReceivers := Function.update f.fecReceivers peerId
      (some ((f.fecReceivers peerId).getD FecReceiver.new)) }

/-- `tunnels.insert(peer_id, tunnel)`. -/
def Forwarder.insertTunnel (f : Forwarder) (peerId : NodeId) (tunnel : TunnelRef) : Forwarder :=
  { f with tunnels := Function.update f.tunnels peerId (some tunnel) }

def Forwarder.setSender (f : Forwarder) (peerId : NodeId) (sender : FecSender) : Forwarder :=
  { f with fecSenders := Function.update f.fecSenders peerId (some sender) }

/-! ## Calls in progress -/

/-- How far a call of `add_tunnel` is. -/
inductive AddStage where
  | start
  | senderInserted
  | receiverInserted
  | done
  deriving DecidableEq

structure AddCall where
  peerId : NodeId
  tunnel : TunnelRef
  stage : AddStage

/-- How far a call of `forward_to` is, with what it has looked up. -/
inductive CallStage where
  | start
  | routed (nextHop : NodeId)
  | withTunnel (nextHop : NodeId) (tunnel : TunnelRef)
  | withSender (nextHop : NodeId) (tunnel : TunnelRef)
  | withoutSender (nextHop : NodeId) (tunnel : TunnelRef)
  | returned

structure ForwardCall where
  destNode : NodeId
  relayPayload : Bytes
  stage : CallStage

/-- What a call of `forward_to` returns, with the next hop it has chosen. -/
structure Returned where
  nextHop : Option NodeId
  relayPayload : Bytes
  result : Except ForwarderError Unit

/-- A spawned task that sends the shards of a block through a tunnel. The block is from the sender
of `peerId`. -/
structure SendTask where
  peerId : NodeId
  tunnel : TunnelRef
  block : EmittedBlock

/-- The forwarder with all calls so far, the send tasks in the order in which they were spawned, the
payloads sent without FEC, and the blocks that `flush_fec` has drained and dropped. -/
structure ForwarderRun where
  forwarder : Forwarder
  adds : List AddCall
  calls : List ForwardCall
  tasks : List SendTask
  unprotected : List (NodeId × Bytes)
  dropped : List (NodeId × EmittedBlock)

def ForwarderRun.start (fecConfig : FecConfig) : ForwarderRun :=
  ⟨Forwarder.new fecConfig, [], [], [], [], []⟩

/-- The entry of the tunnel map that a call refers to, and the tunnel it has found there. -/
def CallStage.holds : CallStage → Option (NodeId × TunnelRef)
  | .withTunnel nextHop tunnel => some (nextHop, tunnel)
  | .withSender nextHop tunnel => some (nextHop, tunnel)
  | .withoutSender nextHop tunnel => some (nextHop, tunnel)
  | _ => none

/-- Some call of `forward_to` refers to the tunnel of the peer. It does so until it returns, and an
insertion under the same key has to wait. -/
def ForwarderRun.tunnelHeld (s : ForwarderRun) (peerId : NodeId) : Bool :=
  s.calls.any fun call => call.stage.holds.any fun ref => ref.1 = peerId

def ForwarderRun.setAdd (s : ForwarderRun) (j : Nat) (add : AddCall) (stage : AddStage) :
    ForwarderRun :=
  { s with adds := s.adds.set j { add with stage := stage } }

def ForwarderRun.setCall (s : ForwarderRun) (k : Nat) (call : ForwardCall) (stage : CallStage) :
    ForwarderRun :=
  { s with calls := s.calls.set k { call with stage := stage } }

def ForwarderRun.spawn (s : ForwarderRun) (peerId : NodeId) (tunnel : TunnelRef)
    (payloads : List Bytes) (shards : Option (List (UInt8 × Bytes))) : ForwarderRun :=
  { s with
    tasks := s.tasks ++ shards.toList.map fun shards => ⟨peerId, tunnel, ⟨payloads, shards⟩⟩ }

/-! ## Steps -/

/-- The next step of a call of `add_tunnel`. -/
def ForwarderRun.addStep (s : ForwarderRun) (j : Nat) (add : AddCall) : ForwarderRun :=
  match add.stage with
  | .start =>
      { s.setAdd j add .senderInserted with forwarder := s.forwarder.insertSender add.peerId }
  | .senderInserted =>
      { s.setAdd j add .receiverInserted with forwarder := s.forwarder.insertReceiver add.peerId }
  | .receiverInserted =>
      if s.tunnelHeld add.peerId then s
      else { s.setAdd j add .done with forwarder := s.forwarder.insertTunnel add.peerId add.tunnel }
  | .done => s

/-- The locked part of `forward_to`, and its return. -/
def ForwarderRun.submit (rs : ReedSolomon) (s : ForwarderRun) (k : Nat) (call : ForwardCall)
    (nextHop : NodeId) (tunnel : TunnelRef) (sender : FecSender) :
    Except Panic (ForwarderRun × Option Returned) := do
  let (sender', shards) ← sender.submit rs call.relayPayload
  let s := { s with forwarder := s.forwarder.setSender nextHop sender' }
  let s := s.spawn nextHop tunnel (sender.buffer ++ [call.relayPayload]) shards
  return (s.setCall k call .returned, some ⟨some nextHop, call.relayPayload, .ok ()⟩)

/-- The next step of a call of `forward_to`. `route` is what `next_hop` finds, and `sent` whether a
direct send succeeds. -/
def ForwarderRun.callStep (rs : ReedSolomon) (s : ForwarderRun) (k : Nat) (call : ForwardCall)
    (route : Option NodeId) (sent : Bool) : Except Panic (ForwarderRun × Option Returned) :=
  match call.stage with
  | .start =>
      match route with
      | none => .ok (s.setCall k call .returned,
          some ⟨none, call.relayPayload, .error (.noRoute call.destNode)⟩)
      | some nextHop => .ok (s.setCall k call (.routed nextHop), none)
  | .routed nextHop =>
      match s.forwarder.tunnels nextHop with
      | none => .ok (s.setCall k call .returned,
          some ⟨some nextHop, call.relayPayload, .error (.noTunnel nextHop)⟩)
      | some tunnel => .ok (s.setCall k call (.withTunnel nextHop tunnel), none)
  | .withTunnel nextHop tunnel =>
      match s.forwarder.fecSenders nextHop with
      | some _ => .ok (s.setCall k call (.withSender nextHop tunnel), none)
      | none => .ok (s.setCall k call (.withoutSender nextHop tunnel), none)
  | .withSender nextHop tunnel =>
      match s.forwarder.fecSenders nextHop with
      | some sender => s.submit rs k call nextHop tunnel sender
      -- no entry is ever removed
      | none => .ok (s, none)
  | .withoutSender nextHop _ =>
      let s' := s.setCall k call .returned
      if sent then
        .ok ({ s' with unprotected := s.unprotected ++ [(nextHop, call.relayPayload)] },
          some ⟨some nextHop, call.relayPayload, .ok ()⟩)
      else .ok (s', some ⟨some nextHop, call.relayPayload, .error .sendFailed⟩)
  | .returned => .ok (s, none)

/-- `flush_fec` at the entry of one sender, which it keeps locked until the send task is spawned. -/
def ForwarderRun.flushFec (rs : ReedSolomon) (s : ForwarderRun) (peerId : NodeId)
    (sender : FecSender) : Except Panic (ForwarderRun × Option Returned) := do
  let (sender', shards) ← sender.flushPartial rs
  let s := { s with forwarder := s.forwarder.setSender peerId sender' }
  match shards, s.forwarder.tunnels peerId with
  | some shards, some tunnel => return (s.spawn peerId tunnel sender.buffer (some shards), none)
  | some shards, none =>
      return ({ s with dropped := s.dropped ++ [(peerId, ⟨sender.buffer, shards⟩)] }, none)
  | none, _ => return (s, none)

inductive ForwarderEvent where
  | addTunnel (peerId : NodeId) (tunnel : TunnelRef)
  | addStep (j : Nat)
  | sendToNode (destNode : NodeId) (flowId : UInt32) (data : Bytes)
  | relay (destNode : NodeId) (payload : Bytes)
  | callStep (k : Nat) (route : Option NodeId) (sent : Bool)
  | flushFec (peerId : NodeId)
  deriving DecidableEq

/-- A call begins, a call in progress takes its next step, or a tick of `flush_fec` comes to the
sender of a peer. -/
def forwarderStep (rs : ReedSolomon) (s : ForwarderRun) :
    ForwarderEvent → Except Panic (ForwarderRun × Option Returned)
  | .addTunnel peerId tunnel => .ok ({ s with adds := s.adds ++ [⟨peerId, tunnel, .start⟩] }, none)
  | .addStep j =>
      match s.adds[j]? with
      | some add => .ok (s.addStep j add, none)
      | none => .ok (s, none)
  | .sendToNode destNode flowId data =>
      .ok ({ s with calls := s.calls ++
        [⟨destNode, encodeRelayHeader flowId destNode data, .start⟩] }, none)
  | .relay destNode payload =>
      .ok ({ s with calls := s.calls ++ [⟨destNode, payload, .start⟩] }, none)
  | .callStep k route sent =>
      match s.calls[k]? with
      | some call => s.callStep rs k call route sent
      | none => .ok (s, none)
  | .flushFec peerId =>
      match s.forwarder.fecSenders peerId with
      | some sender => s.flushFec rs peerId sender
      | none => .ok (s, none)

end EntrouterLine.Relay
