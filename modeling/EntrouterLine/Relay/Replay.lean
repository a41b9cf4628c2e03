import EntrouterLine.Relay.Authenticity

/-!
# Replayed frames

The receive loop keeps no record of the sequence numbers it has seen: a frame that the network
delivers again opens again. `forwardings_eq_deliveries` counts exactly: in every run in which the
network delivers nothing but frames of earlier calls, each of them any number of times and in any
order, the packet of a frame is passed on as often as the frame is delivered. So it is passed on at
most once precisely when it is delivered at most once (`forwardings_le_one_iff`).
-/

set_option autoImplicit false

namespace EntrouterLine.Relay

open EntrouterLine.Lib

/-- A step's datagram is the frame of an earlier call to this node, from the caller's registered
address. -/
def GenuineDelivery (aead : Aead) (cfg : NetConfig) (s : Net) : NetEvent → Prop
  | .datagram node source bytes =>
      ∃ c ∈ s.calls, c.dst = node ∧ peerMap cfg node source = some (c.src, c.crypto) ∧
        bytes = c.frame aead ∧ (c.frame aead).length ≤ maxDatagram
  | _ => True

instance (aead : Aead) (cfg : NetConfig) (s : Net) (e : NetEvent) :
    Decidable (GenuineDelivery aead cfg s e) :=
  match e with
  | .datagram _ _ _ => inferInstanceAs (Decidable (∃ c ∈ s.calls, _))
  | .fetch _ _ _ _ => isTrue trivial
  | .encrypt _ => isTrue trivial

/-- The output passes on `peer`'s packet of this sequence number to `node`'s forwarder. -/
def isForwarding (node peer : NodeId) (seq : UInt64) : Option Passed → Bool
  | some p => p.node = node ∧ p.peer = peer ∧ p.packet.seq = seq
  | none => false

/-- The event hands `node` a frame of this sequence number from `peer`'s address, no longer than the
receive buffer. -/
def NetEvent.isDelivery (cfg : NetConfig) (node peer : NodeId) (seq : UInt64) : NetEvent → Bool
  | .datagram node' source bytes =>
      node' = node ∧ (peerMap cfg node' source).map Prod.fst = some peer ∧
        (carried bytes).map (fun fields => fields.2.1) = some seq ∧ bytes.length ≤ maxPacket
  | _ => false

/-- How often `node` passes on `peer`'s packet of this sequence number. -/
def forwardings (node peer : NodeId) (seq : UInt64) (os : List (Option Passed)) : Nat :=
  os.countP (isForwarding node peer seq)

/-- How often the network hands `node` the frame of this sequence number of `peer`. -/
def deliveries (cfg : NetConfig) (node peer : NodeId) (seq : UInt64) (es : List NetEvent) : Nat :=
  es.countP (NetEvent.isDelivery cfg node peer seq)

/-- A step passes on the packet of the frame it delivers. -/
theorem isForwarding_eq_isDelivery {aead : Aead} (hopens : aead.Opens) {cfg : NetConfig}
    {node peer : NodeId} {seq : UInt64} {s t : Net} {e : NetEvent} {o : Option Passed}
    (hgenuine : GenuineDelivery aead cfg s e) (hstep : netStep aead cfg s e = .ok (t, o)) :
    isForwarding node peer seq o = e.isDelivery cfg node peer seq := by
  cases e with
  | fetch src dst packetType payload =>
    rw [(netStep_fetch_inv hstep).1]
    rfl
  | encrypt j =>
    rw [(netStep_encrypt_inv hstep).1]
    rfl
  | datagram node' source bytes =>
    obtain ⟨c, -, -, hpeer, rfl, hudp⟩ := hgenuine
    obtain ⟨-, -, -, hout⟩ := netStep_datagram_inv hstep
    have hcarried := carried_of_frame_prefix hudp (List.prefix_refl _)
    rcases Nat.lt_or_ge maxPacket (c.frame aead).length with hlong | hfits
    · -- the frame is cut to the buffer and skipped
      have hskip : judge aead (peerMap cfg node') source ((c.frame aead).take maxPacket) =
          .error .truncated := judge_frame_long _ _ _ hlong hudp
      rw [hskip] at hout
      rw [hout]
      simp [isForwarding, NetEvent.isDelivery, Nat.not_le_of_lt hlong, Except.toOption]
    · have hpass : judge aead (peerMap cfg node') source ((c.frame aead).take maxPacket) =
          .ok (c.src, ⟨c.packetType, c.seq, c.payload, source⟩) :=
        judge_frame hopens hpeer c.packetType c.seq c.payload hfits
      rw [hpass] at hout
      rw [hout]
      have hcarried' : carried (c.frame aead) = some (c.packetType, c.seq, c.ciphertext aead) :=
        hcarried
      simp [isForwarding, NetEvent.isDelivery, hcarried', hpeer, hfits, Except.toOption]

/-- In every run of genuine deliveries, a packet is passed on as often as its frame is delivered. -/
theorem forwardings_eq_deliveries {aead : Aead} (hopens : aead.Opens) {cfg : NetConfig}
    {es : List NetEvent} {s : Net} {os : List (Option Passed)} (hrun : NetRun aead cfg es s os)
    (hgenuine : Machine.Along (netStep aead cfg) (GenuineDelivery aead cfg) (Net.start cfg) es)
    (node peer : NodeId) (seq : UInt64) :
    forwardings node peer seq os = deliveries cfg node peer seq es := by
  refine hgenuine.countP_eq ?_ hrun
  intro s e t o hC hstep
  exact isForwarding_eq_isDelivery hopens hC hstep

/-- In every run of genuine deliveries, the packet of a frame is passed on at most once if and only
if the frame is delivered at most once. -/
theorem forwardings_le_one_iff {aead : Aead} (hopens : aead.Opens) {cfg : NetConfig}
    {es : List NetEvent} {s : Net} {os : List (Option Passed)} (hrun : NetRun aead cfg es s os)
    (hgenuine : Machine.Along (netStep aead cfg) (GenuineDelivery aead cfg) (Net.start cfg) es)
    (node peer : NodeId) (seq : UInt64) :
    forwardings node peer seq os ≤ 1 ↔ deliveries cfg node peer seq es ≤ 1 := by
  rw [forwardings_eq_deliveries hopens hrun hgenuine]

/-- The frame of `dataCall` reaches its receiver twice. -/
def replayData : List NetEvent :=
  deliverData ++ [.datagram "sgp-01" sydAddr (dataCall.frame tagAead)]

/-- Both deliveries are passed on. -/
theorem replayData_forwards_twice :
    Machine.Along (netStep tagAead pairCfg) (GenuineDelivery tagAead pairCfg) (Net.start pairCfg)
        replayData ∧
      ∃ s os, NetRun tagAead pairCfg replayData s os ∧
        forwardings "sgp-01" "syd-01" dataCall.seq os = 2 := by
  refine ⟨?_, _, _, rfl, by decide⟩
  refine Machine.Along.cons rfl trivial ?_
  refine Machine.Along.cons rfl trivial ?_
  refine Machine.Along.cons rfl (by decide) ?_
  exact Machine.Along.cons rfl (by decide) trivial

theorem forwardings_le_one_iff_deliverData :
    ∃ s os, NetRun tagAead pairCfg deliverData s os ∧
      (forwardings "sgp-01" "syd-01" dataCall.seq os ≤ 1 ↔
        deliveries pairCfg "sgp-01" "syd-01" dataCall.seq deliverData ≤ 1) := by
  have hrun : NetRun tagAead pairCfg deliverData _ _ := rfl
  refine ⟨_, _, hrun, forwardings_le_one_iff tagAead_opens hrun ?_ _ _ _⟩
  refine Machine.Along.cons rfl trivial ?_
  refine Machine.Along.cons rfl trivial ?_
  exact Machine.Along.cons rfl (by decide) trivial

end EntrouterLine.Relay
