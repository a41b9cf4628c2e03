import EntrouterLine.Relay.Tunnel

/-!
# The relay header

A relay payload is `[4B flow id LE][1B length][destination node, UTF-8][data]`. The length byte caps
the destination at 255 bytes. A header reads back as what was written, with its destination cut to
that length (`decodeRelayHeader_encodeRelayHeader`, `wireDest_eq`), and every payload that reads as
a header is the encoding of what it reads as (`encodeRelayHeader_of_decode`). So the two functions
are inverse to each other between the payloads that are accepted and the triples whose destination
has at most 255 bytes (`relayHeader_codec`).
-/

set_option autoImplicit false

namespace EntrouterLine.Relay

open EntrouterLine.Lib.LittleEndian

/-- `str::as_bytes`. -/
def nodeBytes (node : NodeId) : Bytes := node.toUTF8.data.toList

/-- `str::from_utf8`. -/
def nodeOfBytes (bytes : Bytes) : Option NodeId := String.fromUTF8? ⟨bytes.toArray⟩

/-- `encode_relay_header`. -/
def encodeRelayHeader (flowId : UInt32) (destNode : NodeId) (data : Bytes) : Bytes :=
  let destBytes := nodeBytes destNode
  let destLen := UInt8.ofNat (min destBytes.length 255)
  toBytes 4 flowId.toNat ++ destLen :: (destBytes.take destLen.toNat ++ data)

/-- `decode_relay_header`: flow id, destination node and data. -/
def decodeRelayHeader (buf : Bytes) : Option (UInt32 × NodeId × Bytes) :=
  if buf.length < 5 then none
  else
    let flowId := UInt32.ofNat (ofBytes (buf.take 4))
    let destLen := (buf.getD 4 0).toNat
    if buf.length < 5 + destLen then none
    else
      match nodeOfBytes ((buf.drop 5).take destLen) with
      | none => none
      | some destNode => some (flowId, destNode, buf.drop (5 + destLen))

theorem nodeOfBytes_nodeBytes (node : NodeId) : nodeOfBytes (nodeBytes node) = some node := by
  have hbytes : (⟨(nodeBytes node).toArray⟩ : ByteArray) = node.toByteArray := by
    simp [nodeBytes]
  rw [nodeOfBytes, hbytes, String.fromUTF8?, dif_pos node.isValidUTF8]
  rfl

theorem toNat_destLen (n : Nat) : (UInt8.ofNat (min n 255)).toNat = min n 255 := by
  rw [UInt8.toNat_ofNat', Nat.mod_eq_of_lt]
  omega

/-- The bytes of a relay payload in front of its data. -/
def relayHeaderSize (destNode : NodeId) : Nat := 5 + min (nodeBytes destNode).length 255

theorem length_encodeRelayHeader (flowId : UInt32) (destNode : NodeId) (data : Bytes) :
    (encodeRelayHeader flowId destNode data).length = relayHeaderSize destNode + data.length := by
  simp only [relayHeaderSize, encodeRelayHeader, List.length_append, List.length_cons,
    length_toBytes,
    List.length_take, toNat_destLen]
  omega

theorem ofBytes_toBytes_uint32 (flowId : UInt32) :
    ofBytes (toBytes 4 flowId.toNat) = flowId.toNat :=
  ofBytes_toBytes_of_lt flowId.toNat_lt

/-- The destination that a header names: the node's id, cut to the 255 bytes that the length byte
can describe, if that is still UTF-8. -/
def wireDest (destNode : NodeId) : Option NodeId :=
  nodeOfBytes ((nodeBytes destNode).take 255)

theorem wireDest_eq {destNode : NodeId} (hdest : (nodeBytes destNode).length ≤ 255) :
    wireDest destNode = some destNode := by
  rw [wireDest, List.take_of_length_le hdest, nodeOfBytes_nodeBytes]

theorem nodeBytes_of_nodeOfBytes {bytes : Bytes} {node : NodeId}
    (h : nodeOfBytes bytes = some node) : nodeBytes node = bytes := by
  rw [nodeOfBytes, String.fromUTF8?] at h
  split at h
  case isTrue hvalid =>
    rw [Option.some.injEq] at h
    rw [← h]
    rfl
  case isFalse hinvalid => cases h

/-- A destination that a header names is short enough to be named in full. -/
theorem wireDest_of_wireDest {destNode node : NodeId} (h : wireDest destNode = some node) :
    wireDest node = some node := by
  apply wireDest_eq
  rw [nodeBytes_of_nodeOfBytes h]
  exact List.length_take_le _ _

/-- A header as its four fields. -/
theorem encodeRelayHeader_eq (flowId : UInt32) (destNode : NodeId) (data : Bytes) :
    encodeRelayHeader flowId destNode data = toBytes 4 flowId.toNat ++
      UInt8.ofNat (min (nodeBytes destNode).length 255) ::
        ((nodeBytes destNode).take 255 ++ data) := by
  have htake : (nodeBytes destNode).take (min (nodeBytes destNode).length 255) =
      (nodeBytes destNode).take 255 := by
    rw [← List.take_take, List.take_of_length_le (List.length_take_le' _ _)]
  rw [encodeRelayHeader, toNat_destLen, htake]

theorem length_take_nodeBytes (destNode : NodeId) :
    ((nodeBytes destNode).take 255).length = min (nodeBytes destNode).length 255 := by
  rw [List.length_take, Nat.min_comm]

theorem drop_five_encodeRelayHeader (flowId : UInt32) (destNode : NodeId) (data : Bytes) :
    (encodeRelayHeader flowId destNode data).drop 5 = (nodeBytes destNode).take 255 ++ data := by
  rw [encodeRelayHeader_eq]
  rfl

/-- The data follows the header. -/
theorem drop_encodeRelayHeader (flowId : UInt32) (destNode : NodeId) (data : Bytes) :
    (encodeRelayHeader flowId destNode data).drop (relayHeaderSize destNode) = data := by
  rw [relayHeaderSize, ← List.drop_drop, drop_five_encodeRelayHeader,
    List.drop_left' (length_take_nodeBytes destNode)]

/-- A header reads back as what was written, with the destination that it names. -/
theorem decodeRelayHeader_encodeRelayHeader (flowId : UInt32) (destNode : NodeId) (data : Bytes) :
    decodeRelayHeader (encodeRelayHeader flowId destNode data) =
      (wireDest destNode).map fun dest => (flowId, dest, data) := by
  have hlen := length_encodeRelayHeader flowId destNode data
  have hflow : (encodeRelayHeader flowId destNode data).take 4 = toBytes 4 flowId.toNat := by
    rw [encodeRelayHeader_eq, List.take_left' (length_toBytes _ _)]
  have hlenByte : ((encodeRelayHeader flowId destNode data).getD 4 0).toNat =
      min (nodeBytes destNode).length 255 := by
    rw [← toNat_destLen, encodeRelayHeader_eq]
    rfl
  have hdest : ((encodeRelayHeader flowId destNode data).drop 5).take
      (min (nodeBytes destNode).length 255) = (nodeBytes destNode).take 255 := by
    rw [drop_five_encodeRelayHeader, List.take_left' (length_take_nodeBytes destNode)]
  have hdata := drop_encodeRelayHeader flowId destNode data
  rw [relayHeaderSize] at hdata hlen
  -- both length checks pass, and what is left to fail is the UTF-8 check
  rw [decodeRelayHeader, if_neg (by omega)]
  simp only [hlenByte, hdest, hflow, hdata, ofBytes_toBytes_uint32, UInt32.ofNat_toNat]
  rw [if_neg (by omega), wireDest]
  cases nodeOfBytes ((nodeBytes destNode).take 255) <;> rfl

/-- The first five bytes and what follows them. -/
theorem header_bytes_eq {buf : Bytes} (h : 5 ≤ buf.length) :
    buf = buf.take 4 ++ buf.getD 4 0 :: buf.drop 5 := by
  have hget : buf.getD 4 0 = buf[4] := by
    rw [List.getD_eq_getElem?_getD, List.getElem?_eq_getElem (by omega), Option.getD_some]
  rw [hget, ← List.drop_eq_getElem_cons (by omega), List.take_append_drop]

/-- A payload that reads as a header is the encoding of what it reads as. -/
theorem encodeRelayHeader_of_decode {buf : Bytes} {flowId : UInt32} {destNode : NodeId}
    {data : Bytes} (h : decodeRelayHeader buf = some (flowId, destNode, data)) :
    (nodeBytes destNode).length ≤ 255 ∧ encodeRelayHeader flowId destNode data = buf := by
  rw [decodeRelayHeader] at h
  split at h
  case isTrue => cases h
  case isFalse hlong =>
    simp only at h
    split at h
    case isTrue => cases h
    case isFalse hfits =>
      cases hnode : nodeOfBytes ((buf.drop 5).take (buf.getD 4 0).toNat) with
      | none =>
        rw [hnode] at h
        cases h
      | some node =>
        rw [hnode] at h
        simp only [Option.some.injEq, Prod.mk.injEq] at h
        obtain ⟨rfl, rfl, rfl⟩ := h
        have hbytes := nodeBytes_of_nodeOfBytes hnode
        have hlt : (buf.getD 4 0).toNat < 256 := (buf.getD 4 0).toNat_lt
        have hlen : (nodeBytes node).length = (buf.getD 4 0).toNat := by
          rw [hbytes, List.length_take, List.length_drop]
          omega
        refine ⟨by omega, ?_⟩
        -- the four fields are those of the buffer
        have hflow : toBytes 4 (UInt32.ofNat (ofBytes (buf.take 4))).toNat = buf.take 4 := by
          have htake : (buf.take 4).length = 4 := by
            rw [List.length_take]
            omega
          have hword : ofBytes (buf.take 4) < 2 ^ 32 := by
            have hlt := ofBytes_lt (buf.take 4)
            rwa [htake] at hlt
          rw [UInt32.toNat_ofNat', Nat.mod_eq_of_lt hword]
          have hback := toBytes_ofBytes (buf.take 4)
          rwa [htake] at hback
        have hlenByte : UInt8.ofNat (min (nodeBytes node).length 255) = buf.getD 4 0 := by
          rw [hlen, Nat.min_eq_left (by omega), UInt8.ofNat_toNat]
        have htail : (nodeBytes node).take 255 ++ buf.drop (5 + (buf.getD 4 0).toNat) =
            buf.drop 5 := by
          rw [List.take_of_length_le (by omega), hbytes, ← List.drop_drop, List.take_append_drop]
        rw [encodeRelayHeader_eq, hflow, hlenByte, htail]
        exact (header_bytes_eq (by omega)).symm

/-- A payload reads as a header exactly if it is the encoding of it, with a destination that the
length byte can describe. -/
theorem decodeRelayHeader_eq_some_iff (buf : Bytes) (flowId : UInt32) (destNode : NodeId)
    (data : Bytes) : decodeRelayHeader buf = some (flowId, destNode, data) ↔
      (nodeBytes destNode).length ≤ 255 ∧ encodeRelayHeader flowId destNode data = buf := by
  constructor
  · exact encodeRelayHeader_of_decode
  · rintro ⟨hdest, rfl⟩
    rw [decodeRelayHeader_encodeRelayHeader, wireDest_eq hdest]
    rfl

/-- A header with a destination of at most 255 bytes reads back as what was written; a payload that
is accepted is the encoding of what it reads as; and a payload that is rejected is the encoding of
no flow id, such destination and data. -/
theorem relayHeader_codec (buf : Bytes) :
    (∀ flowId destNode data, decodeRelayHeader buf = some (flowId, destNode, data) ↔
      (nodeBytes destNode).length ≤ 255 ∧ encodeRelayHeader flowId destNode data = buf) ∧
    (decodeRelayHeader buf = none ↔ ¬∃ flowId destNode data,
      (nodeBytes destNode).length ≤ 255 ∧ encodeRelayHeader flowId destNode data = buf) := by
  refine ⟨decodeRelayHeader_eq_some_iff buf, ?_⟩
  constructor
  · rintro hnone ⟨flowId, destNode, data, h⟩
    rw [(decodeRelayHeader_eq_some_iff buf flowId destNode data).mpr h] at hnone
    cases hnone
  · intro hno
    cases hdecode : decodeRelayHeader buf with
    | none => rfl
    | some triple =>
      obtain ⟨flowId, destNode, data⟩ := triple
      exact absurd ⟨flowId, destNode, data, encodeRelayHeader_of_decode hdecode⟩ hno

end EntrouterLine.Relay
