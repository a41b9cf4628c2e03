import EntrouterLine.Relay.NonceReuse

/-!
# Authenticity of received packets

The cipher binds the payload to the key and the nonce, hence to the sequence number. It does not
bind the packet type, which travels in the clear in front of the ciphertext, and the key does not
tell the two directions of a pair apart. So the network can change the type of a packet in transit,
and can send a node's own packet back to it from its peer's address
(`alteredFrames_not_authentic`).

`passes_authentic` says that this is all it can do: while every datagram that carries a sealed
ciphertext still is the frame its sender built for this receiver, everything passed on is a packet
its peer sent; and where the keys of the two ends of every tunnel agree, nothing less will do.
-/

set_option autoImplicit false

namespace EntrouterLine.Relay

open EntrouterLine.Lib

/-- What a round opens: the header fields, the ciphertext and plaintext, and the registered peer. -/
structure Opened where
  peer : NodeId
  crypto : TunnelCrypto
  packetType : UInt8
  seq : UInt64
  ciphertext : Bytes
  plaintext : Bytes

/-- The ciphertext of received bytes, opened under the key registered for their source address. -/
def opened (aead : Aead) (peers : PeerMap) (source : SocketAddr) (received : Bytes) :
    Option Opened :=
  match carried received, peers source with
  | some (packetType, seq, ct), some (peer, crypto) =>
      match crypto.decrypt aead seq ct with
      | .ok plaintext => some ⟨peer, crypto, packetType, seq, ct, plaintext⟩
      | .error _ => none
  | _, _ => none

theorem opened_eq_some {aead : Aead} {peers : PeerMap} {source : SocketAddr} {received : Bytes}
    {o : Opened} :
    opened aead peers source received = some o ↔
      carried received = some (o.packetType, o.seq, o.ciphertext) ∧
        peers source = some (o.peer, o.crypto) ∧
        o.crypto.decrypt aead o.seq o.ciphertext = .ok o.plaintext := by
  rw [opened]
  cases hcarried : carried received with
  | none => simp
  | some fields =>
    obtain ⟨packetType, seq, ct⟩ := fields
    cases hpeer : peers source with
    | none => simp
    | some entry =>
      obtain ⟨peer, crypto⟩ := entry
      simp only [Option.some.injEq, Prod.mk.injEq]
      cases hdec : crypto.decrypt aead seq ct with
      | error e =>
        simp only [reduceCtorEq, false_iff]
        rintro ⟨⟨-, rfl, rfl⟩, ⟨-, rfl⟩, hok⟩
        rw [hdec] at hok
        cases hok
      | ok plaintext =>
        simp only [Option.some.injEq]
        constructor
        · rintro rfl
          exact ⟨⟨rfl, rfl, rfl⟩, ⟨rfl, rfl⟩, hdec⟩
        · rintro ⟨⟨rfl, rfl, rfl⟩, ⟨rfl, rfl⟩, hok⟩
          rw [hdec, Except.ok.injEq] at hok
          rw [hok]

/-- A round passes on what it opens, attributed to the registered peer. -/
theorem judge_eq_ok_iff_opened {aead : Aead} {peers : PeerMap} {source : SocketAddr}
    {received : Bytes} {peer : NodeId} {packet : ReceivedPacket} :
    judge aead peers source received = .ok (peer, packet) ↔
      ∃ o, opened aead peers source received = some o ∧ peer = o.peer ∧
        packet = ⟨o.packetType, o.seq, o.plaintext, source⟩ := by
  rw [judge_eq_ok_iff]
  constructor
  · rintro ⟨packetType, seq, ct, crypto, plaintext, hcarried, hpeer, hdec, rfl⟩
    exact ⟨⟨peer, crypto, packetType, seq, ct, plaintext⟩,
      opened_eq_some.mpr ⟨hcarried, hpeer, hdec⟩, rfl, rfl⟩
  · rintro ⟨o, ho, rfl, rfl⟩
    obtain ⟨hcarried, hpeer, hdec⟩ := opened_eq_some.mp ho
    exact ⟨o.packetType, o.seq, o.ciphertext, o.crypto, o.plaintext, hcarried, hpeer, hdec, rfl⟩

/-- The call produced this ciphertext under this key and this sequence number's nonce. -/
def SendCall.Sealed (aead : Aead) (c : SendCall) (crypto : TunnelCrypto) (seq : UInt64)
    (ct : Bytes) : Prop :=
  c.keyNonce = (crypto.key, makeNonce seq) ∧ c.ciphertext aead = ct

instance (aead : Aead) (c : SendCall) (crypto : TunnelCrypto) (seq : UInt64) (ct : Bytes) :
    Decidable (c.Sealed aead crypto seq ct) :=
  inferInstanceAs (Decidable (_ ∧ _))

/-- What the cipher promises about a step: a ciphertext that a round opens was sealed by some call
under the same key and nonce, and opens to what that call sealed. -/
def HolderSealed (aead : Aead) (cfg : NetConfig) (s : Net) : NetEvent → Prop
  | .datagram node source bytes =>
      ∀ o ∈ opened aead (peerMap cfg node) source (bytes.take maxPacket),
        ∃ c ∈ s.calls, c.Sealed aead o.crypto o.seq o.ciphertext ∧ c.payload = o.plaintext
  | _ => True

instance (aead : Aead) (cfg : NetConfig) (s : Net) (e : NetEvent) :
    Decidable (HolderSealed aead cfg s e) :=
  match e with
  | .datagram _ _ _ => inferInstanceAs (Decidable (∀ o ∈ opened _ _ _ _, _))
  | .fetch _ _ _ _ => isTrue trivial
  | .encrypt _ => isTrue trivial

/-- The network leaves a step's datagram as it was built: received bytes from a registered address
that carry a ciphertext sealed under the registered key start with the frame of a call that the
registered peer made towards this node under that key. -/
def Unaltered (aead : Aead) (cfg : NetConfig) (s : Net) : NetEvent → Prop
  | .datagram node source bytes =>
      ∀ entry ∈ peerMap cfg node source, ∀ fields ∈ carried (bytes.take maxPacket),
        (∃ c ∈ s.calls, c.Sealed aead entry.2 fields.2.1 fields.2.2) →
          ∃ c ∈ s.calls, c.src = entry.1 ∧ c.dst = node ∧ c.crypto = entry.2 ∧
            c.frame aead <+: bytes.take maxPacket
  | _ => True

instance (aead : Aead) (cfg : NetConfig) (s : Net) (e : NetEvent) :
    Decidable (Unaltered aead cfg s e) :=
  match e with
  | .datagram _ _ _ => inferInstanceAs (Decidable (∀ entry ∈ peerMap _ _ _, _))
  | .fetch _ _ _ _ => isTrue trivial
  | .encrypt _ => isTrue trivial

/-- Type, sequence number and payload of the packet are those of a call of the peer it is attributed
to, made towards the node that passes it on. -/
def Authentic (s : Net) (p : Passed) : Prop :=
  ∃ c ∈ s.calls, c.src = p.peer ∧ c.dst = p.node ∧ c.packetType = p.packet.packetType ∧
    c.seq = p.packet.seq ∧ c.payload = p.packet.payload

instance (s : Net) (p : Passed) : Decidable (Authentic s p) :=
  inferInstanceAs (Decidable (∃ c ∈ s.calls, _))

/-- Whatever the step passes on is authentic. -/
def PassesAuthentic (aead : Aead) (cfg : NetConfig) (s : Net) (e : NetEvent) : Prop :=
  ∀ t p, netStep aead cfg s e = .ok (t, some p) → Authentic s p

/-- The two ends of every tunnel hold the same key. -/
def KeysMatch (cfg : NetConfig) : Prop :=
  ∀ node addr peer crypto, peerMap cfg node addr = some (peer, crypto) →
    ∃ tunnel, tunnelTo cfg peer node = some tunnel ∧ tunnel.crypto = crypto

theorem mem_of_peerMap {cfg : NetConfig} {node peer : NodeId} {addr : SocketAddr}
    {crypto : TunnelCrypto} (h : peerMap cfg node addr = some (peer, crypto)) :
    ∃ p ∈ cfg node, p.nodeId = peer ∧ ⟨p.sharedKey⟩ = crypto := by
  obtain ⟨p, hfind, hpair⟩ := Option.map_eq_some_iff.mp h
  obtain ⟨hid, hkey⟩ := Prod.mk.inj hpair
  exact ⟨p, List.mem_reverse.mp (List.mem_of_find?_eq_some hfind), hid, hkey⟩

/-! ## One step -/

/-- What a step passes on is what the receive loop of the datagram's node opens. -/
theorem netStep_passes {aead : Aead} {cfg : NetConfig} {s t : Net} {e : NetEvent} {p : Passed}
    (h : netStep aead cfg s e = .ok (t, some p)) :
    ∃ source bytes o, e = .datagram p.node source bytes ∧
      opened aead (peerMap cfg p.node) source (bytes.take maxPacket) = some o ∧
      p.peer = o.peer ∧ p.packet = ⟨o.packetType, o.seq, o.plaintext, source⟩ := by
  cases e with
  | fetch src dst packetType payload => cases (netStep_fetch_inv h).1
  | encrypt j => cases (netStep_encrypt_inv h).1
  | datagram node source bytes =>
    obtain ⟨-, -, -, hout⟩ := netStep_datagram_inv h
    cases hjudge : judge aead (peerMap cfg node) source (bytes.take maxPacket) with
    | error skip =>
      rw [hjudge] at hout
      cases hout
    | ok r =>
      rw [hjudge] at hout
      cases hout
      obtain ⟨o, ho, hpeer, hpacket⟩ := judge_eq_ok_iff_opened.mp hjudge
      exact ⟨source, bytes, o, rfl, ho, hpeer, hpacket⟩

/-- Every datagram whose ciphertext opens is passed on. -/
theorem netStep_of_opened {aead : Aead} {cfg : NetConfig} {s : Net} {node : NodeId}
    {source : SocketAddr} {bytes : Bytes} {o : Opened}
    (h : opened aead (peerMap cfg node) source (bytes.take maxPacket) = some o) :
    ∃ t, netStep aead cfg s (.datagram node source bytes) =
      .ok (t, some ⟨node, o.peer, ⟨o.packetType, o.seq, o.plaintext, source⟩⟩) := by
  have hjudge := judge_eq_ok_iff_opened.mpr ⟨o, h, rfl, rfl⟩
  rw [← handleDatagram_eq_judge aead (peerMap cfg node) (s.rxBuf node) source bytes] at hjudge
  refine ⟨{ s with
    rxBuf := Function.update s.rxBuf node
      (handleDatagram aead (peerMap cfg node) (s.rxBuf node) source bytes).1 }, ?_⟩
  simp only [netStep, hjudge]

/-- An opened ciphertext in an unaltered datagram comes from the call whose frame it is. -/
theorem passesAuthentic_of_unaltered {aead : Aead} (hopens : aead.Opens) {cfg : NetConfig} {s : Net}
    {e : NetEvent} (hsealed : HolderSealed aead cfg s e) (hunaltered : Unaltered aead cfg s e) :
    PassesAuthentic aead cfg s e := by
  intro t p hstep
  obtain ⟨source, bytes, o, rfl, ho, hpeer, hpacket⟩ := netStep_passes hstep
  obtain ⟨hcarried, hentry, hdec⟩ := opened_eq_some.mp ho
  obtain ⟨c', hc', hc'sealed, -⟩ := hsealed o ho
  obtain ⟨c, hc, hsrc, hdst, hcrypto, hstart⟩ :=
    hunaltered (o.peer, o.crypto) hentry _ hcarried ⟨c', hc', hc'sealed⟩
  have hudp : (c.frame aead).length ≤ maxDatagram :=
    calc (c.frame aead).length ≤ (bytes.take maxPacket).length := hstart.length_le
      _ ≤ maxPacket := List.length_take_le _ _
      _ ≤ maxDatagram := by decide
  -- the datagram starts with the frame of `c`, so the header fields are those of `c`
  have hfields := carried_of_frame_prefix hudp hstart
  rw [hcarried, Option.some.injEq, Prod.mk.injEq, Prod.mk.injEq] at hfields
  obtain ⟨htype, hseq, hct⟩ := hfields
  have hplain : c.payload = o.plaintext := by
    have hccrypto : o.crypto = c.crypto := hcrypto.symm
    rw [hseq, hct, hccrypto, decrypt_eq_ok_iff] at hdec
    have hopen := hopens c.crypto.key (makeNonce c.seq) c.payload
    exact Option.some.inj (hopen.symm.trans hdec)
  refine ⟨c, hc, hsrc.trans hpeer.symm, hdst, ?_, ?_, ?_⟩
  · rw [hpacket, htype]
  · rw [hpacket, hseq]
  · rw [hpacket, hplain]

/-- Every call seals under the key of the tunnel it was made on. -/
theorem crypto_of_call {aead : Aead} {cfg : NetConfig} {es : List NetEvent} {s : Net}
    {os : List (Option Passed)} (hrun : NetRun aead cfg es s os) {c : SendCall} (hc : c ∈ s.calls)
    {tunnel : Tunnel} (htun : tunnelTo cfg c.src c.dst = some tunnel) :
    c.crypto = tunnel.crypto := by
  apply (seqInv_run htun hrun).crypto c
  exact mem_dirCalls.mpr ⟨List.mem_append_left _ hc, rfl, rfl⟩

/-- Where keys match, a datagram whose packet is authentic starts with the frame of the call. -/
theorem unaltered_of_passesAuthentic {aead : Aead} (hopens : aead.Opens) {cfg : NetConfig}
    (hkeys : KeysMatch cfg) {s : Net} {e : NetEvent}
    (hcrypto : ∀ c ∈ s.calls, ∀ tunnel, tunnelTo cfg c.src c.dst = some tunnel →
      c.crypto = tunnel.crypto)
    (hpasses : PassesAuthentic aead cfg s e) : Unaltered aead cfg s e := by
  cases e with
  | fetch src dst packetType payload => trivial
  | encrypt j => trivial
  | datagram node source bytes =>
    rintro ⟨peer, crypto⟩ hentry ⟨packetType, seq, ct⟩ hcarried ⟨c', hc', hkeyNonce, hct⟩
    obtain ⟨hkey, hnonce⟩ := Prod.mk.inj hkeyNonce
    simp only at hkey hnonce hct
    -- a ciphertext sealed under the registered key opens, so the packet is passed on
    have hopen : crypto.decrypt aead seq ct = .ok c'.payload := by
      rw [decrypt_eq_ok_iff, ← hct, ← hkey, ← hnonce]
      exact hopens _ _ _
    have ho := (opened_eq_some (o := ⟨peer, crypto, packetType, seq, ct, c'.payload⟩)).mpr
      ⟨hcarried, hentry, hopen⟩
    obtain ⟨t, hstep⟩ := netStep_of_opened (s := s) ho
    obtain ⟨c, hc, hsrc, hdst, htype, hseq, hpayload⟩ := hpasses t _ hstep
    obtain ⟨tunnel, htun, htuncrypto⟩ := hkeys node source peer crypto hentry
    have hccrypto : c.crypto = crypto := by
      rw [← htuncrypto]
      apply hcrypto c hc tunnel
      rw [hsrc, hdst]
      exact htun
    -- key, nonce and payload agree, so the ciphertext is the one `c` sent
    have hcct : c.ciphertext aead = ct := by
      rw [← hct, SendCall.ciphertext, SendCall.ciphertext, TunnelCrypto.encrypt,
        TunnelCrypto.encrypt, hkey, hnonce, hccrypto, hseq, hpayload]
    refine ⟨c, hc, hsrc, hdst, hccrypto, ?_⟩
    rw [SendCall.frame, frameOf_eq, hcct, htype, hseq]
    exact carried_eq_some hcarried

/-! ## Runs -/

/-- In every run in which the cipher keeps its promise: if no datagram is altered, everything passed
on is authentic; and where the keys of the two ends of every tunnel match, everything passed on is
authentic only if no datagram is altered. -/
theorem passes_authentic {aead : Aead} (hopens : aead.Opens) {cfg : NetConfig} {es : List NetEvent}
    (hsealed : Machine.Along (netStep aead cfg) (HolderSealed aead cfg) (Net.start cfg) es) :
    (Machine.Along (netStep aead cfg) (Unaltered aead cfg) (Net.start cfg) es →
      Machine.Along (netStep aead cfg) (PassesAuthentic aead cfg) (Net.start cfg) es) ∧
    (KeysMatch cfg →
      Machine.Along (netStep aead cfg) (PassesAuthentic aead cfg) (Net.start cfg) es →
      Machine.Along (netStep aead cfg) (Unaltered aead cfg) (Net.start cfg) es) := by
  constructor
  · intro hunaltered
    apply (hsealed.and hunaltered).mono
    intro s e h
    exact passesAuthentic_of_unaltered hopens h.1 h.2
  · intro hkeys hpasses
    apply ((Machine.along_reached _ es).and hpasses).mono
    rintro s e ⟨⟨es', os, hrun⟩, hstep⟩
    apply unaltered_of_passesAuthentic hopens hkeys _ hstep
    intro c hc tunnel htun
    exact crypto_of_call hrun hc htun

/-! ## Altered frames -/

theorem keysMatch_pairCfg : KeysMatch pairCfg := by
  intro node addr peer crypto h
  obtain ⟨p, hp, rfl, rfl⟩ := mem_of_peerMap h
  rw [pairCfg] at hp
  split at hp
  case isTrue hsyd =>
    rw [List.mem_singleton] at hp
    subst hp hsyd
    exact ⟨_, tunnelTo_pairCfg_sgp, rfl⟩
  case isFalse =>
    split at hp
    case isTrue hsgp =>
      rw [List.mem_singleton] at hp
      subst hp hsgp
      exact ⟨_, tunnelTo_pairCfg_syd, rfl⟩
    case isFalse => cases hp

/-- The first packet of one node of the pair to the other. -/
def dataCall : SendCall :=
  ⟨"syd-01", "sgp-01", (Tunnel.new sgpAddr zeroKey).crypto, packetData, 0, [7]⟩

def sendData : List NetEvent :=
  [.fetch "syd-01" "sgp-01" dataCall.packetType dataCall.payload, .encrypt 0]

/-- The frame of `dataCall` reaches its receiver with another type byte, and then comes back to its
sender. -/
def alteredFrames : List NetEvent :=
  sendData ++
    [.datagram "sgp-01" sydAddr (({ dataCall with packetType := packetPing }).frame tagAead),
      .datagram "syd-01" sgpAddr (dataCall.frame tagAead)]

/-- Both altered frames are passed on, the first with a type its sender did not give it and the
second as a packet of a node that has sent nothing. -/
theorem alteredFrames_not_authentic :
    tagAead.Opens ∧ KeysMatch pairCfg ∧
      Machine.Along (netStep tagAead pairCfg) (HolderSealed tagAead pairCfg) (Net.start pairCfg)
        alteredFrames ∧
      ∃ s p q, NetRun tagAead pairCfg alteredFrames s [none, none, some p, some q] ∧
        ¬ Authentic s p ∧ ¬ Authentic s q := by
  refine ⟨tagAead_opens, keysMatch_pairCfg, ?_, _, _, _, rfl, ?_, ?_⟩
  · refine Machine.Along.cons rfl trivial ?_
    refine Machine.Along.cons rfl trivial ?_
    refine Machine.Along.cons rfl (by decide) ?_
    exact Machine.Along.cons rfl (by decide) trivial
  · decide
  · decide

/-- The frame of `dataCall` reaches its receiver as it is. -/
def deliverData : List NetEvent :=
  sendData ++ [.datagram "sgp-01" sydAddr (dataCall.frame tagAead)]

theorem passes_authentic_deliverData :
    Machine.Along (netStep tagAead pairCfg) (PassesAuthentic tagAead pairCfg) (Net.start pairCfg)
        deliverData ∧
      Machine.Along (netStep tagAead pairCfg) (Unaltered tagAead pairCfg) (Net.start pairCfg)
        deliverData := by
  have hsealed : Machine.Along (netStep tagAead pairCfg) (HolderSealed tagAead pairCfg)
      (Net.start pairCfg) deliverData := by
    refine Machine.Along.cons rfl trivial ?_
    refine Machine.Along.cons rfl trivial ?_
    exact Machine.Along.cons rfl (by decide) trivial
  have hunaltered : Machine.Along (netStep tagAead pairCfg) (Unaltered tagAead pairCfg)
      (Net.start pairCfg) deliverData := by
    refine Machine.Along.cons rfl trivial ?_
    refine Machine.Along.cons rfl trivial ?_
    exact Machine.Along.cons rfl (by decide) trivial
  have hpasses := (passes_authentic tagAead_opens hsealed).1 hunaltered
  exact ⟨hpasses, (passes_authentic tagAead_opens hsealed).2 keysMatch_pairCfg hpasses⟩

end EntrouterLine.Relay
