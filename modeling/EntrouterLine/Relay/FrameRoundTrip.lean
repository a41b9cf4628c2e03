import EntrouterLine.Relay.Tunnel

/-!
# The receive loop forgets

The rounds of `receive_loop_multi` share one buffer, and a datagram that is shorter than an earlier
one leaves bytes of it behind. No round reads them: what a run of rounds does is the list of what
each datagram calls for by itself (`receiveRounds_actions`). A frame, also with other bytes after
it, gives back what went into it.
-/

set_option autoImplicit false

namespace EntrouterLine.Relay

variable {aead : Aead} {peers : PeerMap}

/-- The rounds of `receive_loop_multi` for a list of datagrams, each with its source address: the
buffer after them, and what each of them did. -/
def receiveRounds (aead : Aead) (peers : PeerMap) :
    RxBuf → List (SocketAddr × Bytes) → RxBuf × List (Except Skip (NodeId × ReceivedPacket))
  | buf, [] => (buf, [])
  | buf, (source, datagram) :: datagrams =>
      let (buf, action) := handleDatagram aead peers buf source datagram
      let (buf, actions) := receiveRounds aead peers buf datagrams
      (buf, action :: actions)

/-- Each round does what its own datagram calls for. -/
theorem receiveRounds_actions (buf : RxBuf) (datagrams : List (SocketAddr × Bytes)) :
    (receiveRounds aead peers buf datagrams).2 =
      datagrams.map fun d => judge aead peers d.1 (d.2.take maxPacket) := by
  induction datagrams generalizing buf with
  | nil => rfl
  | cons d datagrams ih =>
    simp [receiveRounds, ih, handleDatagram_eq_judge]

/-- What the buffer holds of a frame carries what the frame was built from, or nothing if the frame
is cut. -/
theorem carried_take_frame {packetType : UInt8} {seq : UInt64} {ct : Bytes}
    {fields : UInt8 × UInt64 × Bytes}
    (hudp : (frameOf packetType seq ct).length ≤ maxDatagram)
    (h : carried ((frameOf packetType seq ct).take maxPacket) = some fields) :
    (frameOf packetType seq ct).length ≤ maxPacket ∧ fields = (packetType, seq, ct) := by
  by_cases hfits : (frameOf packetType seq ct).length ≤ maxPacket
  · refine ⟨hfits, ?_⟩
    rw [List.take_of_length_le hfits, carried_of_frame_prefix hudp (List.prefix_refl _)] at h
    exact (Option.some.inj h).symm
  · obtain ⟨_, _, _⟩ := fields
    have htake : ((frameOf packetType seq ct).take maxPacket).length = maxPacket := by
      rw [List.length_take]
      exact Nat.min_eq_left (Nat.le_of_not_le hfits)
    obtain ⟨hheader, hle, -⟩ := carried_eq_some_iff.mp h
    -- the header survives the cut and gives the full length
    have hdec : decodeHeader ((frameOf packetType seq ct).take maxPacket) =
        (packetType, seq, UInt16.ofNat ct.length) := by
      rw [← decodeHeader_frameOf packetType seq ct, ← decodeHeader_append hheader,
        List.take_append_drop]
    rw [hdec, toNat_ctLen hudp, htake, ← length_frameOf packetType seq ct] at hle
    exact absurd hle hfits

/-- A sent payload of at most `maxPayload` bytes makes a frame that fits the buffer. -/
theorem length_send_le (hlength : aead.TagLength) (t : Tunnel) (packetType : UInt8)
    {payload : Bytes} (hpayload : payload.length ≤ maxPayload) :
    (t.send aead packetType payload).1.length ≤ maxPacket := by
  have hct := hlength t.crypto.key (makeNonce t.txSeq) payload
  show (frameOf packetType t.txSeq (t.crypto.encrypt aead t.txSeq payload)).length ≤ maxPacket
  rw [length_frameOf, TunnelCrypto.encrypt, hct, maxPacket]
  omega

/-- Received bytes that start with a sent frame give the packet that was sent. -/
theorem judge_send (hopens : aead.Opens) {t : Tunnel} {source : SocketAddr} {peerId : NodeId}
    (hpeer : peers source = some (peerId, t.crypto)) (packetType : UInt8) (payload rest : Bytes)
    (hudp : (t.send aead packetType payload).1.length ≤ maxDatagram) :
    judge aead peers source ((t.send aead packetType payload).1 ++ rest) =
      .ok (peerId, ⟨packetType, t.txSeq, payload, source⟩) := by
  apply judge_eq_ok_iff.mpr
  refine ⟨packetType, t.txSeq, t.crypto.encrypt aead t.txSeq payload, t.crypto, payload,
    carried_of_frame_prefix hudp (List.prefix_append _ rest), hpeer, ?_, rfl⟩
  apply decrypt_eq_ok_iff.mpr
  exact hopens t.crypto.key (makeNonce t.txSeq) payload

/-- A frame from the address of a registered peer, with any bytes after it that still fit the
buffer, comes back as the type, the sequence number and the payload it was built from, whatever the
buffer held. And whatever the buffer held and whichever datagrams came before, every datagram is
skipped or passed on in the same way. -/
theorem frame_roundTrip (aead : Aead) (hlength : aead.TagLength) (hopens : aead.Opens)
    (peers : PeerMap) :
    (∀ (t : Tunnel) (source : SocketAddr) (peerId : NodeId),
      peers source = some (peerId, t.crypto) →
      ∀ (packetType : UInt8) (payload rest : Bytes), payload.length ≤ maxPayload →
        ((t.send aead packetType payload).1 ++ rest).length ≤ maxPacket → ∀ buf : RxBuf,
          (handleDatagram aead peers buf source ((t.send aead packetType payload).1 ++ rest)).2 =
            .ok (peerId, ⟨packetType, t.txSeq, payload, source⟩)) ∧
    (∀ (buf buf' : RxBuf) (source : SocketAddr) (datagram : Bytes),
      (handleDatagram aead peers buf source datagram).2 =
        (handleDatagram aead peers buf' source datagram).2) ∧
    ∀ (buf buf' : RxBuf) (earlier earlier' later : List (SocketAddr × Bytes)),
      (receiveRounds aead peers (receiveRounds aead peers buf earlier).1 later).2 =
        (receiveRounds aead peers (receiveRounds aead peers buf' earlier').1 later).2 := by
  refine ⟨?_, ?_, ?_⟩
  · intro t source peerId hpeer packetType payload rest hpayload hfits buf
    have hudp := Nat.le_trans (length_send_le hlength t packetType hpayload)
      (by decide : maxPacket ≤ maxDatagram)
    rw [handleDatagram_eq_judge, List.take_of_length_le hfits]
    exact judge_send hopens hpeer packetType payload rest hudp
  · intro buf buf' source datagram
    rw [handleDatagram_eq_judge, handleDatagram_eq_judge]
  · intro buf buf' earlier earlier' later
    rw [receiveRounds_actions, receiveRounds_actions]

def pingTunnel : Tunnel :=
  Tunnel.new ⟨0xC6336401, 4433⟩ ⟨List.replicate keySize 0xAB, List.length_replicate⟩

/-- A PING and two more bytes, in a buffer that an earlier datagram has filled. -/
theorem frame_roundTrip_ping :
    (handleDatagram tagAead (fun _ => some ("syd-01", pingTunnel.crypto))
        ⟨List.replicate maxPacket 7, by simp⟩ ⟨0xC0000201, 4433⟩
        ((pingTunnel.send tagAead packetPing [1, 0, 0, 0]).1 ++ [8, 8])).2 =
      .ok ("syd-01", ⟨packetPing, 0, [1, 0, 0, 0], ⟨0xC0000201, 4433⟩⟩) :=
  (frame_roundTrip tagAead tagAead_tagLength tagAead_opens
    fun _ => some ("syd-01", pingTunnel.crypto)).1 pingTunnel ⟨0xC0000201, 4433⟩ "syd-01" rfl
      packetPing [1, 0, 0, 0] [8, 8] (by decide) (by decide) ⟨List.replicate maxPacket 7, by simp⟩

end EntrouterLine.Relay
