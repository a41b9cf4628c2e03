import EntrouterLine.Lib.LittleEndian

/-!
# Wire framing of tunnel packets

A frame is an 11-byte header (packet type, 64-bit sequence number, 16-bit payload length, all
little-endian) followed by the ciphertext and its 16-byte tag. `decodeHeader` reads the header off
the front of a buffer; it inverts `encodeHeader` and looks at no byte after the header
(`decodeHeader_encodeHeader`, `decodeHeader_append`).
-/

set_option autoImplicit false

namespace EntrouterLine.Relay

open EntrouterLine.Lib.LittleEndian

/-- Byte strings: `Vec<u8>` and `&[u8]`. -/
abbrev Bytes := List UInt8

def packetData : UInt8 := 0x01
def packetParity : UInt8 := 0x02
def packetPing : UInt8 := 0x03
def packetPong : UInt8 := 0x04
def packetControl : UInt8 := 0x05

/-- Packet type, sequence number and payload length. -/
def headerSize : Nat := 11
def authTagSize : Nat := 16
def maxPayload : Nat := 1400
def maxPacket : Nat := headerSize + maxPayload + authTagSize

/-- The eleven header bytes. -/
def headerBytes (packetType : UInt8) (seq : UInt64) (payloadLen : UInt16) : Bytes :=
  packetType :: (toBytes 8 seq.toNat ++ toBytes 2 payloadLen.toNat)

/-- `encode_header`: the header overwrites the front of the buffer. -/
def encodeHeader (buf : Bytes) (packetType : UInt8) (seq : UInt64) (payloadLen : UInt16) : Bytes :=
  headerBytes packetType seq payloadLen ++ buf.drop headerSize

/-- `decode_header`: packet type, sequence number and payload length from the front of the
buffer. The receive loops call it on a buffer of `maxPacket` bytes. -/
def decodeHeader (buf : Bytes) : UInt8 × UInt64 × UInt16 :=
  (buf.headD 0, UInt64.ofNat (ofBytes ((buf.drop 1).take 8)),
    UInt16.ofNat (ofBytes ((buf.drop 9).take 2)))

@[simp] theorem length_headerBytes (t : UInt8) (seq : UInt64) (len : UInt16) :
    (headerBytes t seq len).length = headerSize := by
  simp [headerBytes, headerSize]

theorem ofBytes_toBytes_uint64 (seq : UInt64) : ofBytes (toBytes 8 seq.toNat) = seq.toNat :=
  ofBytes_toBytes_of_lt seq.toNat_lt

theorem ofBytes_toBytes_uint16 (len : UInt16) : ofBytes (toBytes 2 len.toNat) = len.toNat :=
  ofBytes_toBytes_of_lt len.toNat_lt

/-- A header reads back as what was written, whatever follows it. -/
theorem decodeHeader_headerBytes (t : UInt8) (seq : UInt64) (len : UInt16) (rest : Bytes) :
    decodeHeader (headerBytes t seq len ++ rest) = (t, seq, len) := by
  have hseq : (((headerBytes t seq len ++ rest).drop 1).take 8) = toBytes 8 seq.toNat := by
    simp [headerBytes]
  have hlen : (((headerBytes t seq len ++ rest).drop 9).take 2) = toBytes 2 len.toNat := by
    simp [headerBytes]
  have hhead : (headerBytes t seq len ++ rest).headD 0 = t := rfl
  rw [decodeHeader, hseq, hlen, hhead, ofBytes_toBytes_uint64, ofBytes_toBytes_uint16]
  simp

theorem decodeHeader_encodeHeader (buf : Bytes) (t : UInt8) (seq : UInt64) (len : UInt16) :
    decodeHeader (encodeHeader buf t seq len) = (t, seq, len) :=
  decodeHeader_headerBytes t seq len (buf.drop headerSize)

/-- Only the first `headerSize` bytes of the buffer are read. -/
theorem decodeHeader_append {front : Bytes} (hfront : headerSize ≤ front.length) (rest : Bytes) :
    decodeHeader (front ++ rest) = decodeHeader front := by
  have h11 : 11 ≤ front.length := hfront
  have hseq : ((front ++ rest).drop 1).take 8 = (front.drop 1).take 8 := by
    rw [List.drop_append_of_le_length (by omega), List.take_append_of_le_length]
    rw [List.length_drop]
    omega
  have hlen : ((front ++ rest).drop 9).take 2 = (front.drop 9).take 2 := by
    rw [List.drop_append_of_le_length (by omega), List.take_append_of_le_length]
    rw [List.length_drop]
    omega
  have hhead : (front ++ rest).headD 0 = front.headD 0 := by
    cases front with
    | nil => simp at h11
    | cons b bs => rfl
  rw [decodeHeader, decodeHeader, hseq, hlen, hhead]

/-- Every front of header length is the header of the three fields it decodes to. -/
theorem headerBytes_decodeHeader {front : Bytes} (hfront : front.length = headerSize) :
    headerBytes (decodeHeader front).1 (decodeHeader front).2.1 (decodeHeader front).2.2 =
      front := by
  have h11 : front.length = 11 := hfront
  -- the type byte, and ten bytes that split into the two fields
  obtain ⟨t, tail, rfl⟩ : ∃ t tail, front = t :: tail := by
    cases front with
    | nil => simp at h11
    | cons t tail => exact ⟨t, tail, rfl⟩
  have htail : tail.length = 10 := by simpa using h11
  have hseqLen : (tail.take 8).length = 8 := by simp [htail]
  have hlenLen : (tail.drop 8).length = 2 := by simp [htail]
  have hseqLt : ofBytes (tail.take 8) < 2 ^ 64 := by
    have h := ofBytes_lt (tail.take 8)
    rw [hseqLen] at h
    exact h
  have hlenLt : ofBytes (tail.drop 8) < 2 ^ 16 := by
    have h := ofBytes_lt (tail.drop 8)
    rw [hlenLen] at h
    exact h
  have hlenTake : (tail.drop 8).take 2 = tail.drop 8 := by
    rw [← hlenLen, List.take_length]
  have hseqBytes : toBytes 8 (ofBytes (tail.take 8)) = tail.take 8 := by
    have h := toBytes_ofBytes (tail.take 8)
    rwa [hseqLen] at h
  have hlenBytes : toBytes 2 (ofBytes (tail.drop 8)) = tail.drop 8 := by
    have h := toBytes_ofBytes (tail.drop 8)
    rwa [hlenLen] at h
  simp only [headerBytes, decodeHeader, List.headD_cons, List.drop_succ_cons, List.drop_zero,
    hlenTake, UInt64.toNat_ofNat', UInt16.toNat_ofNat', Nat.mod_eq_of_lt hseqLt,
    Nat.mod_eq_of_lt hlenLt, hseqBytes, hlenBytes, List.take_append_drop]

end EntrouterLine.Relay
