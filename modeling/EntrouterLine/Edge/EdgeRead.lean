import EntrouterLine.Lib.Chunks
import EntrouterLine.Relay.RelayHeader

/-!
# What an edge makes of a read

A read task of `TcpSplitter` cuts the bytes of one read into chunks of `MAX_RELAY_DATA` bytes; one
of `QuicAcceptor` passes them on whole. Either way each piece becomes a relay payload of its own.
-/

set_option autoImplicit false

namespace EntrouterLine.Edge

open EntrouterLine.Lib.Chunks
open EntrouterLine.Relay

/-- `MAX_RELAY_DATA`. -/
def maxRelayData : Nat := 1400

/-- The length of the buffer `[0u8; 16384]` of a read task. -/
def readBufSize : Nat := 16384

/-- The two edges: `TcpSplitter` and `QuicAcceptor`. -/
inductive EdgeKind where
  | tcp
  | quic
  deriving DecidableEq

/-- The pieces of one read that `send_to_node` is called with. -/
def EdgeKind.pieces : EdgeKind → Bytes → List Bytes
  | .tcp, data => chunks maxRelayData data
  | .quic, data => [data]

/-- The length of the longest piece of a read. -/
def EdgeKind.pieceSize : EdgeKind → Bytes → Nat
  | .tcp, data => min data.length maxRelayData
  | .quic, data => data.length

theorem flatten_pieces (edge : EdgeKind) (data : Bytes) : (edge.pieces data).flatten = data := by
  cases edge with
  | tcp => exact flatten_chunks (by decide) data
  | quic => exact List.append_nil data

theorem length_le_of_mem_pieces {edge : EdgeKind} {data piece : Bytes}
    (h : piece ∈ edge.pieces data) : piece.length ≤ edge.pieceSize data := by
  cases edge with
  | tcp => exact length_le_of_mem_chunks h
  | quic =>
    rw [List.mem_singleton.mp h]
    exact Nat.le_refl _

theorem exists_length_eq_pieceSize {edge : EdgeKind} {data : Bytes} (h : 0 < data.length) :
    ∃ piece ∈ edge.pieces data, piece.length = edge.pieceSize data := by
  cases edge with
  | tcp => exact exists_length_eq_min (by decide) h
  | quic => exact ⟨data, List.mem_singleton_self data, rfl⟩

theorem pieceSize_le (edge : EdgeKind) (data : Bytes) : edge.pieceSize data ≤ data.length := by
  cases edge with
  | tcp => exact Nat.min_le_left _ _
  | quic => exact Nat.le_refl _

/-- One read of a connection of an edge. -/
structure EdgeRead where
  edge : EdgeKind
  flowId : UInt32
  destNode : NodeId
  data : Bytes

/-- The relay payloads of a read, as `send_to_node` builds them. -/
def EdgeRead.payloads (r : EdgeRead) : List Bytes :=
  (r.edge.pieces r.data).map (encodeRelayHeader r.flowId r.destNode)

/-- A read returns between 1 byte and a full buffer, and a node id takes 1 to 255 bytes. -/
structure EdgeRead.Legal (r : EdgeRead) : Prop where
  nonempty : 1 ≤ r.data.length
  fits : r.data.length ≤ readBufSize
  destNonempty : 1 ≤ (nodeBytes r.destNode).length
  destFits : (nodeBytes r.destNode).length ≤ 255

theorem EdgeRead.length_payload {r : EdgeRead} (h : r.Legal) (piece : Bytes) :
    (encodeRelayHeader r.flowId r.destNode piece).length =
      5 + (nodeBytes r.destNode).length + piece.length := by
  rw [length_encodeRelayHeader, relayHeaderSize, Nat.min_eq_left h.destFits]

/-- The longest payload of a read: its header and its longest piece. -/
theorem EdgeRead.length_le_of_mem_payloads {r : EdgeRead} (h : r.Legal) {payload : Bytes}
    (hpayload : payload ∈ r.payloads) :
    payload.length ≤ 5 + (nodeBytes r.destNode).length + r.edge.pieceSize r.data := by
  obtain ⟨piece, hpiece, rfl⟩ := List.mem_map.mp hpayload
  rw [r.length_payload h]
  exact Nat.add_le_add_left (length_le_of_mem_pieces hpiece) _

theorem EdgeRead.exists_longest_payload {r : EdgeRead} (h : r.Legal) :
    ∃ payload ∈ r.payloads,
      payload.length = 5 + (nodeBytes r.destNode).length + r.edge.pieceSize r.data := by
  obtain ⟨piece, hpiece, hlen⟩ := exists_length_eq_pieceSize h.nonempty
  refine ⟨_, List.mem_map_of_mem hpiece, ?_⟩
  rw [r.length_payload h, hlen]

end EntrouterLine.Edge
