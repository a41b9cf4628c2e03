import EntrouterLine.Relay.Crypto

/-!
# Encrypted tunnels between nodes

`Tunnel.send` takes the next sequence number, seals the payload under it and frames the result;
`handleDatagram` is one round of `receive_loop_multi` on its reused `maxPacket`-byte buffer.

A round leaves nothing behind that a later round could see: its outcome is `judge`, a function of
the bytes received alone (`handleDatagram_eq_judge`). A frame that fits the buffer comes back as the
packet that was sent (`judge_frame`); a longer one is cut and skipped (`judge_frame_long`).
-/

set_option autoImplicit false

namespace EntrouterLine.Relay

/-- `node_id` strings name the nodes of the mesh. -/
abbrev NodeId := String

/-- The relay socket is IPv4 (`Domain::IPV4`). -/
structure SocketAddr where
  ip : UInt32
  port : UInt16
  deriving DecidableEq

/-- A bidirectional encrypted tunnel to one peer. -/
structure Tunnel where
  peerAddr : SocketAddr
  crypto : TunnelCrypto
  txSeq : UInt64
  deriving DecidableEq

def Tunnel.new (peerAddr : SocketAddr) (key : Key) : Tunnel :=
  ⟨peerAddr, ⟨key⟩, 0⟩

/-- `tx_seq.fetch_add(1)`: the sequence number of this call, and the tunnel after it. -/
def Tunnel.fetchSeq (t : Tunnel) : UInt64 × Tunnel :=
  (t.txSeq, { t with txSeq := t.txSeq + 1 })

/-- The frame built around a ciphertext: header, then ciphertext. The length field is the
ciphertext's length as a `u16`. -/
def frameOf (packetType : UInt8) (seq : UInt64) (ciphertext : Bytes) : Bytes :=
  let ctLen := UInt16.ofNat ciphertext.length
  let frame := List.replicate (headerSize + ciphertext.length) (0 : UInt8)
  let frame := encodeHeader frame packetType seq ctLen
  frame.take headerSize ++ ciphertext

/-- `Tunnel::send`: the datagram handed to `send_to`, and the tunnel after the call. -/
def Tunnel.send (aead : Aead) (t : Tunnel) (packetType : UInt8) (payload : Bytes) :
    Bytes × Tunnel :=
  let (seq, t) := t.fetchSeq
  let ciphertext := t.crypto.encrypt aead seq payload
  (frameOf packetType seq ciphertext, t)

/-- Received and decrypted payload. -/
structure ReceivedPacket where
  packetType : UInt8
  seq : UInt64
  payload : Bytes
  source : SocketAddr
  deriving DecidableEq

/-! ## The receive loop -/

/-- The buffer `[0u8; wire::MAX_PACKET]` shared by all rounds of the loop. -/
structure RxBuf where
  bytes : Bytes
  size : bytes.length = maxPacket

def RxBuf.zero : RxBuf := ⟨List.replicate maxPacket 0, by simp⟩

/-- `recv_from`: the datagram, cut to the buffer's length, overwrites the front of the buffer. -/
def RxBuf.recvFrom (buf : RxBuf) (datagram : Bytes) : Nat × RxBuf :=
  let received := datagram.take maxPacket
  (received.length, ⟨received ++ buf.bytes.drop received.length, by
    have h : received.length ≤ maxPacket := List.length_take_le _ _
    rw [List.length_append, List.length_drop, buf.size]
    omega⟩)

theorem recvFrom_len (buf : RxBuf) (datagram : Bytes) :
    (buf.recvFrom datagram).1 = (datagram.take maxPacket).length := rfl

theorem recvFrom_bytes (buf : RxBuf) (datagram : Bytes) :
    (buf.recvFrom datagram).2.bytes =
      datagram.take maxPacket ++ buf.bytes.drop (datagram.take maxPacket).length := rfl

/-- The header is read from the received bytes. -/
theorem decodeHeader_recvFrom (buf : RxBuf) {datagram : Bytes}
    (h : headerSize ≤ (datagram.take maxPacket).length) :
    decodeHeader (buf.recvFrom datagram).2.bytes = decodeHeader (datagram.take maxPacket) := by
  rw [recvFrom_bytes]
  exact decodeHeader_append h _

/-- So is a ciphertext whose length the received bytes bear out. -/
theorem ciphertext_recvFrom (buf : RxBuf) {datagram : Bytes} {n : Nat}
    (h : headerSize + n ≤ (datagram.take maxPacket).length) :
    ((buf.recvFrom datagram).2.bytes.take (headerSize + n)).drop headerSize =
      ((datagram.take maxPacket).drop headerSize).take n := by
  rw [recvFrom_bytes, List.take_append_of_le_length h, List.drop_take, Nat.add_sub_cancel_left]

/-- The four ways a round ends without passing a packet on. -/
inductive Skip where
  | short
  | truncated
  | unknownPeer
  | decryptFailed
  deriving DecidableEq

/-- The map from source address to peer that the loop looks senders up in. -/
abbrev PeerMap := SocketAddr → Option (NodeId × TunnelCrypto)

/-- One round of `receive_loop_multi`. -/
def handleDatagram (aead : Aead) (peers : PeerMap) (buf : RxBuf) (source : SocketAddr)
    (datagram : Bytes) : RxBuf × Except Skip (NodeId × ReceivedPacket) :=
  let (len, buf) := buf.recvFrom datagram
  if len < headerSize then (buf, .error .short)
  else
    let (packetType, seq, payloadLen) := decodeHeader buf.bytes
    let ctStart := headerSize
    let ctEnd := ctStart + payloadLen.toNat
    -- also the case of a datagram that was cut to the buffer
    if ctEnd > len then (buf, .error .truncated)
    else
      match peers source with
      | none => (buf, .error .unknownPeer)
      | some (peerId, crypto) =>
          let ciphertext := (buf.bytes.take ctEnd).drop ctStart
          match crypto.decrypt aead seq ciphertext with
          | .ok plaintext => (buf, .ok (peerId, ⟨packetType, seq, plaintext, source⟩))
          | .error _ => (buf, .error .decryptFailed)

/-- What a round makes of the received bytes, with no buffer in sight. -/
def judge (aead : Aead) (peers : PeerMap) (source : SocketAddr) (received : Bytes) :
    Except Skip (NodeId × ReceivedPacket) :=
  if received.length < headerSize then .error .short
  else
    let (packetType, seq, payloadLen) := decodeHeader received
    if headerSize + payloadLen.toNat > received.length then .error .truncated
    else
      match peers source with
      | none => .error .unknownPeer
      | some (peerId, crypto) =>
          match crypto.decrypt aead seq ((received.drop headerSize).take payloadLen.toNat) with
          | .ok plaintext => .ok (peerId, ⟨packetType, seq, plaintext, source⟩)
          | .error _ => .error .decryptFailed

/-- The outcome of a round depends on the received bytes only, not on what earlier rounds left in
the buffer. -/
theorem handleDatagram_eq_judge (aead : Aead) (peers : PeerMap) (buf : RxBuf) (source : SocketAddr)
    (datagram : Bytes) :
    (handleDatagram aead peers buf source datagram).2 =
      judge aead peers source (datagram.take maxPacket) := by
  unfold handleDatagram judge
  simp only [recvFrom_len]
  by_cases hshort : (datagram.take maxPacket).length < headerSize
  · simp only [hshort, if_true]
  · have hdec := decodeHeader_recvFrom buf (Nat.le_of_not_lt hshort)
    simp only [hshort, if_false, hdec]
    by_cases htrunc : headerSize + (decodeHeader (datagram.take maxPacket)).2.2.toNat >
        (datagram.take maxPacket).length
    · simp only [htrunc, if_true]
    · have hslice := ciphertext_recvFrom buf (Nat.le_of_not_lt htrunc)
      simp only [htrunc, if_false, hslice]
      cases peers source with
      | none => rfl
      | some peer =>
        cases hdecrypt : peer.2.decrypt aead (decodeHeader (datagram.take maxPacket)).2.1
            (((datagram.take maxPacket).drop headerSize).take
              (decodeHeader (datagram.take maxPacket)).2.2.toNat) with
        | ok plaintext => simp only [hdecrypt]
        | error e => simp only [hdecrypt]

/-- The type byte, sequence number and ciphertext that received bytes carry, when the header and
the length checks let them through. -/
def carried (received : Bytes) : Option (UInt8 × UInt64 × Bytes) :=
  if received.length < headerSize then none
  else
    let (packetType, seq, payloadLen) := decodeHeader received
    if headerSize + payloadLen.toNat > received.length then none
    else some (packetType, seq, (received.drop headerSize).take payloadLen.toNat)

theorem carried_eq_some_iff {received : Bytes} {packetType : UInt8} {seq : UInt64} {ct : Bytes} :
    carried received = some (packetType, seq, ct) ↔
      headerSize ≤ received.length ∧
        headerSize + (decodeHeader received).2.2.toNat ≤ received.length ∧
        (decodeHeader received).1 = packetType ∧ (decodeHeader received).2.1 = seq ∧
        (received.drop headerSize).take (decodeHeader received).2.2.toNat = ct := by
  unfold carried
  by_cases hshort : received.length < headerSize
  · simp [hshort]
  by_cases htrunc : headerSize + (decodeHeader received).2.2.toNat > received.length
  · simp [hshort, htrunc]
  simp [hshort, htrunc, Nat.le_of_not_lt hshort, Nat.le_of_not_lt htrunc]

/-- A round passes a packet on exactly when the received bytes carry a ciphertext that opens under
the key registered for their source address. -/
theorem judge_eq_ok_iff {aead : Aead} {peers : PeerMap} {source : SocketAddr} {received : Bytes}
    {peerId : NodeId} {packet : ReceivedPacket} :
    judge aead peers source received = .ok (peerId, packet) ↔
      ∃ packetType seq ct crypto plaintext, carried received = some (packetType, seq, ct) ∧
        peers source = some (peerId, crypto) ∧ crypto.decrypt aead seq ct = .ok plaintext ∧
        packet = ⟨packetType, seq, plaintext, source⟩ := by
  unfold judge carried
  by_cases hshort : received.length < headerSize
  · simp [hshort]
  by_cases htrunc : headerSize + (decodeHeader received).2.2.toNat > received.length
  · simp [hshort, htrunc]
  simp only [hshort, htrunc, if_false, Option.some.injEq, Prod.mk.injEq]
  constructor
  · intro h
    -- the peer is registered and its key opens the ciphertext, or the round has skipped
    cases hpeer : peers source with
    | none => simp [hpeer] at h
    | some peer =>
      obtain ⟨id, crypto⟩ := peer
      simp only [hpeer] at h
      cases hdec : crypto.decrypt aead (decodeHeader received).2.1
          ((received.drop headerSize).take (decodeHeader received).2.2.toNat) with
      | error e => simp [hdec] at h
      | ok plaintext =>
        simp only [hdec, Except.ok.injEq, Prod.mk.injEq] at h
        obtain ⟨rfl, rfl⟩ := h
        exact ⟨_, _, _, crypto, plaintext, ⟨rfl, rfl, rfl⟩, rfl, hdec, rfl⟩
  · rintro ⟨packetType, seq, ct, crypto, plaintext, ⟨rfl, rfl, rfl⟩, hpeer, hdec, rfl⟩
    simp only [hpeer, hdec]

/-- Received bytes that carry a ciphertext start with its header and the ciphertext. -/
theorem carried_eq_some {received : Bytes} {packetType : UInt8} {seq : UInt64} {ct : Bytes}
    (h : carried received = some (packetType, seq, ct)) :
    headerBytes packetType seq (UInt16.ofNat ct.length) ++ ct <+: received := by
  obtain ⟨hheader, hfits, rfl, rfl, hct⟩ := carried_eq_some_iff.mp h
  have hle : (decodeHeader received).2.2.toNat ≤ received.length - headerSize :=
    Nat.le_sub_of_add_le' hfits
  have hlen : ct.length = (decodeHeader received).2.2.toNat := by
    rw [← hct, List.length_take, List.length_drop]
    exact Nat.min_eq_left hle
  have hfront : (received.take headerSize).length = headerSize := by
    rw [List.length_take]
    omega
  -- the front of the received bytes is the header it decodes to
  have hheader : headerBytes (decodeHeader received).1 (decodeHeader received).2.1
      (decodeHeader received).2.2 = received.take headerSize := by
    have hdec : decodeHeader received = decodeHeader (received.take headerSize) := by
      rw [← decodeHeader_append (Nat.le_of_eq hfront.symm) (received.drop headerSize),
        List.take_append_drop]
    rw [hdec]
    exact headerBytes_decodeHeader hfront
  refine ⟨(received.drop headerSize).drop (decodeHeader received).2.2.toNat, ?_⟩
  rw [hlen, UInt16.ofNat_toNat, hheader, ← hct, List.append_assoc, List.take_append_drop,
    List.take_append_drop]

/-! ## Frames -/

theorem frameOf_eq (packetType : UInt8) (seq : UInt64) (ct : Bytes) :
    frameOf packetType seq ct = headerBytes packetType seq (UInt16.ofNat ct.length) ++ ct := by
  have hlen := length_headerBytes packetType seq (UInt16.ofNat ct.length)
  rw [frameOf, encodeHeader, ← hlen, List.take_left']
  rfl

theorem length_frameOf (packetType : UInt8) (seq : UInt64) (ct : Bytes) :
    (frameOf packetType seq ct).length = headerSize + ct.length := by
  rw [frameOf_eq, List.length_append, length_headerBytes]

theorem decodeHeader_frameOf (packetType : UInt8) (seq : UInt64) (ct : Bytes) :
    decodeHeader (frameOf packetType seq ct) = (packetType, seq, UInt16.ofNat ct.length) := by
  rw [frameOf_eq, decodeHeader_headerBytes]

theorem drop_frameOf (packetType : UInt8) (seq : UInt64) (ct : Bytes) :
    (frameOf packetType seq ct).drop headerSize = ct := by
  rw [frameOf_eq, List.drop_left' (length_headerBytes _ _ _)]

/-- The longest payload of a UDP datagram over IPv4. A longer frame is not sent: `send_to` fails. -/
def maxDatagram : Nat := 65507

theorem toNat_ctLen {packetType : UInt8} {seq : UInt64} {ct : Bytes}
    (h : (frameOf packetType seq ct).length ≤ maxDatagram) :
    (UInt16.ofNat ct.length).toNat = ct.length := by
  rw [length_frameOf] at h
  have hlt : ct.length < 2 ^ 16 := by
    unfold maxDatagram headerSize at h
    omega
  rw [UInt16.toNat_ofNat', Nat.mod_eq_of_lt hlt]

/-- Bytes that start with a frame carry what the frame was built from. -/
theorem carried_of_frame_prefix {received : Bytes} {packetType : UInt8} {seq : UInt64} {ct : Bytes}
    (hudp : (frameOf packetType seq ct).length ≤ maxDatagram)
    (h : frameOf packetType seq ct <+: received) :
    carried received = some (packetType, seq, ct) := by
  obtain ⟨rest, rfl⟩ := h
  have hctlen := toNat_ctLen hudp
  have hlen := length_frameOf packetType seq ct
  have hfront : headerSize ≤ (frameOf packetType seq ct).length := by
    rw [hlen]
    exact Nat.le_add_right _ _
  have hlong : headerSize + ct.length ≤ (frameOf packetType seq ct ++ rest).length := by
    rw [List.length_append, hlen]
    exact Nat.le_add_right _ _
  have hslice : ((frameOf packetType seq ct ++ rest).drop headerSize).take ct.length = ct := by
    rw [List.drop_append_of_le_length hfront, drop_frameOf, List.take_left]
  unfold carried
  simp only [decodeHeader_append hfront, decodeHeader_frameOf, hctlen, hslice]
  rw [if_neg (by omega), if_neg (by omega)]

/-- A frame within the buffer comes back as the packet that was sent. -/
theorem judge_frame {aead : Aead} (hopens : aead.Opens) {peers : PeerMap} {source : SocketAddr}
    {peerId : NodeId} {crypto : TunnelCrypto} (hpeer : peers source = some (peerId, crypto))
    (packetType : UInt8) (seq : UInt64) (payload : Bytes)
    (hfits : (frameOf packetType seq (crypto.encrypt aead seq payload)).length ≤ maxPacket) :
    judge aead peers source
        ((frameOf packetType seq (crypto.encrypt aead seq payload)).take maxPacket) =
      .ok (peerId, ⟨packetType, seq, payload, source⟩) := by
  rw [List.take_of_length_le hfits, judge_eq_ok_iff]
  have hudp := Nat.le_trans hfits (by decide : maxPacket ≤ maxDatagram)
  refine ⟨packetType, seq, crypto.encrypt aead seq payload, crypto, payload,
    carried_of_frame_prefix hudp (List.prefix_refl _), hpeer, ?_, rfl⟩
  rw [decrypt_eq_ok_iff]
  exact hopens crypto.key (makeNonce seq) payload

/-- A frame that UDP can carry but the buffer cannot hold is cut, and the length check skips it. -/
theorem judge_frame_long {aead : Aead} {peers : PeerMap} {source : SocketAddr}
    (packetType : UInt8) (seq : UInt64) (ct : Bytes)
    (hlong : maxPacket < (frameOf packetType seq ct).length)
    (hudp : (frameOf packetType seq ct).length ≤ maxDatagram) :
    judge aead peers source ((frameOf packetType seq ct).take maxPacket) = .error .truncated := by
  have hctlen := toNat_ctLen hudp
  have hlen := length_frameOf packetType seq ct
  have htake : ((frameOf packetType seq ct).take maxPacket).length = maxPacket := by
    rw [List.length_take]
    omega
  have hfront : headerSize ≤ ((frameOf packetType seq ct).take maxPacket).length := by
    rw [htake]
    decide
  -- the header survives the cut, so the length check sees the full length
  have hdec : decodeHeader ((frameOf packetType seq ct).take maxPacket) =
      (packetType, seq, UInt16.ofNat ct.length) := by
    rw [← decodeHeader_frameOf packetType seq ct, ← decodeHeader_append hfront,
      List.take_append_drop]
  have hnotShort : ¬ maxPacket < headerSize := by decide
  rw [judge]
  simp only [htake, hdec, hctlen, hnotShort, if_false, ← hlen, hlong, if_true]

end EntrouterLine.Relay
