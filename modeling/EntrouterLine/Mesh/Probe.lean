import EntrouterLine.Lib.LittleEndian
import EntrouterLine.Mesh.LatencyMatrix

/-!
# The prober of a node

`Prober` counts probes from 1, keeps the peer and the sending time of each outstanding one, and
turns a PONG that carries the id of an outstanding probe into a round-trip time, which it records
for the peer in both directions (`handlePong_cases`). `handle_pong` is the only writer of the
latency matrix.
-/

set_option autoImplicit false

namespace EntrouterLine.Mesh

open EntrouterLine.Lib.LittleEndian
open EntrouterLine.Relay

/-- `pending` maps the id of a probe to its peer and the time at which it was sent. -/
structure Prober where
  nodeId : NodeId
  matrix : LatencyMatrix
  pending : UInt32 → Option (NodeId × Instant)
  nextProbeId : UInt32

def Prober.new (nodeId : NodeId) (matrix : LatencyMatrix) : Prober :=
  ⟨nodeId, matrix, fun _ => none, 1⟩

/-- The age at which a pending probe is stale: 10 s. -/
def staleAfter : Nat := 10000000000

/-- `create_ping`: the payload of the PING, and the prober with the probe pending. `clock id` is the
time at which `retain` comes to the probe `id`. -/
def Prober.createPing (p : Prober) (peerId : NodeId) (sendTime : Instant)
    (clock : UInt32 → Instant) :
    Bytes × Prober :=
  let probeId := p.nextProbeId
  let pending := Function.update p.pending probeId (some (peerId, sendTime))
  (toBytes 4 probeId.toNat,
    { p with
      pending := fun id => (pending id).filter fun probe =>
        (elapsed (clock id) probe.2).val < staleAfter
      nextProbeId := p.nextProbeId + 1 })

/-- `create_pong` echoes the payload. -/
def createPong (pingPayload : Bytes) : Bytes := pingPayload

/-- The probe id at the front of a PONG. -/
def pongId (payload : Bytes) : UInt32 := UInt32.ofNat (ofBytes (payload.take 4))

/-- The matrix of `nodeId` with a round-trip time to the peer in both directions. -/
def LatencyMatrix.record (m : LatencyMatrix) (nodeId peerId : NodeId) (rtt : Duration)
    (now now' : Instant) : LatencyMatrix :=
  (m.update nodeId peerId rtt now).update peerId nodeId rtt now'

/-- The prober after the answer to a pending probe. -/
def Prober.answer (p : Prober) (probeId : UInt32) (peerId : NodeId) (rtt : Duration)
    (now now' : Instant) : Prober :=
  { p with
    pending := Function.update p.pending probeId none
    matrix := p.matrix.record p.nodeId peerId rtt now now' }

/-- `handle_pong`. The clock is read when the probe has been removed, and by both updates. -/
def Prober.handlePong (p : Prober) (_fromPeer : NodeId) (payload : Bytes)
    (received now now' : Instant) : Prober :=
  if payload.length < 4 then p
  else
    let probeId := pongId payload
    match p.pending probeId with
    | some (peerId, sendTime) => p.answer probeId peerId (elapsed received sendTime) now now'
    | none => p

theorem pongId_toBytes (probeId : UInt32) : pongId (toBytes 4 probeId.toNat) = probeId := by
  have hlen : (toBytes 4 probeId.toNat).take 4 = toBytes 4 probeId.toNat :=
    List.take_of_length_le (by rw [length_toBytes])
  rw [pongId, hlen, ofBytes_toBytes_of_lt probeId.toNat_lt]
  exact UInt32.ofNat_toNat

/-- A probe that is pending after `create_ping` is the new one, or was pending before. -/
theorem pending_createPing {p : Prober} {peerId : NodeId} {sendTime : Instant}
    {clock : UInt32 → Instant} {id : UInt32} {probe : NodeId × Instant}
    (h : (p.createPing peerId sendTime clock).2.pending id = some probe) :
    (id = p.nextProbeId ∧ probe = (peerId, sendTime)) ∨
      (id ≠ p.nextProbeId ∧ p.pending id = some probe) := by
  have hupdate := (Option.filter_eq_some_iff.mp h).1
  by_cases hid : id = p.nextProbeId
  · subst hid
    rw [Function.update_self, Option.some.injEq] at hupdate
    exact Or.inl ⟨rfl, hupdate.symm⟩
  · rw [Function.update_of_ne hid] at hupdate
    exact Or.inr ⟨hid, hupdate⟩

/-- A probe that is pending after an answer was pending before, and is not the one answered. -/
theorem pending_answer {p : Prober} {probeId : UInt32} {peerId : NodeId} {rtt : Duration}
    {now now' : Instant} {id : UInt32} {probe : NodeId × Instant}
    (h : (p.answer probeId peerId rtt now now').pending id = some probe) :
    id ≠ probeId ∧ p.pending id = some probe := by
  have hupdate : Function.update p.pending probeId none id = some probe := h
  by_cases hid : id = probeId
  · subst hid
    rw [Function.update_self] at hupdate
    cases hupdate
  · rw [Function.update_of_ne hid] at hupdate
    exact ⟨hid, hupdate⟩

/-- Everything `handle_pong` can do. -/
theorem handlePong_cases (p : Prober) (fromPeer : NodeId) (payload : Bytes)
    (received now now' : Instant) :
    (p.handlePong fromPeer payload received now now' = p ∧
      (payload.length < 4 ∨ p.pending (pongId payload) = none)) ∨
    (4 ≤ payload.length ∧ ∃ peerId sendTime,
      p.pending (pongId payload) = some (peerId, sendTime) ∧
      p.handlePong fromPeer payload received now now' =
        p.answer (pongId payload) peerId (elapsed received sendTime) now now') := by
  by_cases hlen : payload.length < 4
  · exact Or.inl ⟨if_pos hlen, Or.inl hlen⟩
  · cases hpending : p.pending (pongId payload) with
    | none =>
      refine Or.inl ⟨?_, Or.inr rfl⟩
      simp only [Prober.handlePong, if_neg hlen, hpending]
    | some probe =>
      obtain ⟨peerId, sendTime⟩ := probe
      refine Or.inr ⟨Nat.not_lt.mp hlen, peerId, sendTime, rfl, ?_⟩
      simp only [Prober.handlePong, if_neg hlen, hpending]

/-- The pairs that have an entry after a round-trip time to the peer has been recorded. -/
theorem isSome_getRtt_record (m : LatencyMatrix) (nodeId peerId a b : NodeId) (rtt : Duration)
    (now now' : Instant) : ((m.record nodeId peerId rtt now now').getRtt a b).isSome ↔
      (a, b) = (nodeId, peerId) ∨ (a, b) = (peerId, nodeId) ∨ (m.getRtt a b).isSome := by
  rw [LatencyMatrix.record, isSome_getRtt_update, isSome_getRtt_update]
  tauto

/-- Recording a round-trip time to one peer changes no entry of another. -/
theorem lookup_record_of_ne {m : LatencyMatrix} {nodeId peerId a b : NodeId} (rtt : Duration)
    (now now' : Instant) (h : (a, b) ≠ (nodeId, peerId)) (h' : (a, b) ≠ (peerId, nodeId)) :
    (m.record nodeId peerId rtt now now').entries.lookup (a, b) = m.entries.lookup (a, b) := by
  rw [LatencyMatrix.record, lookup_update_of_ne rtt now' h', lookup_update_of_ne rtt now h]

/-- A PONG that echoes a PING gives its round-trip time, here 30 ms; a second one gives nothing. -/
example :
    let (ping, p) := (Prober.new "local" .new).createPing "remote" 5000000 fun _ => 5000000
    let p' := p.handlePong "remote" (createPong ping) 35000000 35000000 35000000
    let p'' := p'.handlePong "remote" (createPong ping) 90000000 90000000 90000000
    p'.matrix.getRtt "local" "remote" = some 30000000 ∧
      p''.matrix.getRtt "remote" "local" = some 30000000 := by
  decide

end EntrouterLine.Mesh
