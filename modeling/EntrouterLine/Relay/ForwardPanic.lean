import EntrouterLine.Config
import EntrouterLine.Relay.SendLedger

/-!
# Shard counts that abort the forwarder

`validate` does not look at the shard counts, and the first block that a peer's sender flushes
builds its encoder with an `expect`. For shard counts that the code rejects, one payload and one
tick reach it (`run_oneSend`); for the others no run does (`forwarderInv_run`). So a validated
configuration keeps the forwarding path from aborting exactly if its shard counts are accepted
(`forwarding_safe_iff`).
-/

set_option autoImplicit false

namespace EntrouterLine.Relay

open EntrouterLine.Lib

variable {rs : ReedSolomon} {config : FecConfig}

/-! ## One payload is enough -/

/-- What `add_tunnel` leaves when no other call comes between. -/
def Forwarder.addTunnel (f : Forwarder) (peerId : NodeId) (tunnel : TunnelRef) : Forwarder :=
  ((f.insertSender peerId).insertReceiver peerId).insertTunnel peerId tunnel

/-- A tunnel is added, and data for the peer finds it and its sender. -/
def firstSend (peerId : NodeId) (data : Bytes) : List ForwarderEvent :=
  [.addTunnel peerId 0, .addStep 0, .addStep 0, .addStep 0, .sendToNode peerId 1 data,
    .callStep 0 (some peerId) true, .callStep 0 none true, .callStep 0 none true]

/-- The payload is submitted, and `flush_fec` comes to the peer's sender. -/
def oneSend (peerId : NodeId) (data : Bytes) : List ForwarderEvent :=
  firstSend peerId data ++ [.callStep 0 none true, .flushFec peerId]

theorem run_firstSend (rs : ReedSolomon) (config : FecConfig) (peerId : NodeId) (data : Bytes) :
    ∃ s os, Machine.run (forwarderStep rs) (ForwarderRun.start config) (firstSend peerId data) =
        .ok (s, os) ∧
      s.calls[0]? = some ⟨peerId, encodeRelayHeader 1 peerId data, .withSender peerId 0⟩ ∧
      s.forwarder.fecSenders peerId = some (FecSender.new config) := by
  have hsender : ((Forwarder.new config).addTunnel peerId 0).fecSenders peerId =
      some (FecSender.new config) := Function.update_self ..
  have htunnel : ((Forwarder.new config).addTunnel peerId 0).tunnels peerId = some 0 :=
    Function.update_self ..
  refine ⟨⟨(Forwarder.new config).addTunnel peerId 0, [⟨peerId, 0, .done⟩],
    [⟨peerId, encodeRelayHeader 1 peerId data, .withSender peerId 0⟩], [], [], []⟩,
    List.replicate 8 none, ?_, rfl, hsender⟩
  unfold Forwarder.addTunnel at hsender htunnel ⊢
  simp only [firstSend, Machine.run, forwarderStep, ForwarderRun.start, List.nil_append,
    List.getElem?_cons_zero, ForwarderRun.addStep, ForwarderRun.setAdd, List.set_cons_zero,
    ForwarderRun.tunnelHeld, List.any_nil, Bool.false_eq_true, if_false, ForwarderRun.callStep,
    ForwarderRun.setCall, htunnel, hsender]
  rfl

/-- Shard counts that the code rejects abort the forwarder: at the payload if it fills the block, or
else at the tick. -/
theorem run_oneSend (h : FecEncoder.new rs config = .error .invalidFecConfig) (peerId : NodeId)
    (data : Bytes) :
    Machine.run (forwarderStep rs) (ForwarderRun.start config) (oneSend peerId data) =
      .error .invalidFecConfig := by
  have hflush : ∀ buffer lens, FecSender.flush rs ⟨config, 0, buffer, lens⟩ =
      .error .invalidFecConfig := by
    intro buffer lens
    simp only [FecSender.flush, h, bind, Except.bind]
  obtain ⟨s, os, hrun, hcall, hsender⟩ := run_firstSend rs config peerId data
  apply Machine.run_append_error hrun
  generalize encodeRelayHeader 1 peerId data = payload at hcall
  by_cases hfull : config.dataShards ≤ 1
  · -- the payload fills the block
    have hsubmit : (FecSender.new config).submit rs payload = .error .invalidFecConfig := by
      simp [FecSender.submit, FecSender.new, hfull, hflush, bind, Except.bind]
    simp only [Machine.run, forwarderStep, hcall, ForwarderRun.callStep, hsender,
      ForwarderRun.submit, hsubmit, bind, Except.bind]
  · -- the payload stays in the buffer until the tick
    have hsubmit : (FecSender.new config).submit rs payload =
        .ok ((FecSender.new config).push payload, none) := by
      simp [FecSender.submit, FecSender.new, FecSender.push, hfull]
    have hpartial : ((FecSender.new config).push payload).flushPartial rs =
        .error .invalidFecConfig := by
      simp [FecSender.flushPartial, FecSender.new, FecSender.push, hflush, bind, Except.bind]
    have hkept : (s.forwarder.setSender peerId ((FecSender.new config).push payload)).fecSenders
        peerId = some ((FecSender.new config).push payload) := Function.update_self ..
    simp only [Machine.run, forwarderStep, hcall, ForwarderRun.callStep, hsender,
      ForwarderRun.submit, hsubmit, bind, Except.bind, pure, Except.pure, ForwarderRun.setCall,
      ForwarderRun.spawn, hkept, ForwarderRun.flushFec, hpartial]

theorem fecEncoder_new_of_not_accepted (haccepts : rs.AcceptsSpec) (h : ¬config.Accepted) :
    FecEncoder.new rs config = .error .invalidFecConfig :=
  if_neg fun hrs => h ((haccepts _ _).mp hrs)

/-! ## Validated configurations -/

/-- With a validated configuration, no sequence of events aborts the forwarder exactly if the shard
counts, with the defaults of `run`, are accepted by the code. -/
theorem forwarding_safe_iff {decode : String → Option Bytes} {config : Config}
    (haccepts : rs.AcceptsSpec)
    (hencodes : config.fecConfig.Accepted →
      rs.EncodesAt config.fecConfig.dataShards config.fecConfig.parityShards)
    (hvalid : config.validate decode = .ok ()) :
    (∀ es, ∃ r, Machine.run (forwarderStep rs) (ForwarderRun.start config.fecConfig) es = .ok r) ↔
      config.fecConfig.Accepted := by
  constructor
  · intro hsafe
    by_contra hnot
    -- there is a peer to relay a payload to
    obtain ⟨peer, -⟩ := List.exists_mem_of_ne_nil _ ((validate_ok_iff config).mp hvalid).peers
    obtain ⟨r, hrun⟩ := hsafe (oneSend peer.nodeId [])
    rw [run_oneSend (fecEncoder_new_of_not_accepted haccepts hnot)] at hrun
    cases hrun
  · intro haccepted es
    obtain ⟨s, os, hrun, -⟩ := forwarderInv_run ⟨haccepts, haccepted, hencodes haccepted⟩ es
    exact ⟨(s, os), hrun⟩

/-- The base64 text of 32 bytes `0xAB`. -/
def sampleKey : String := "q6urq6urq6urq6urq6urq6urq6urq6urq6urq6urq6s="

/-- A base64 decoder that knows the sample key. -/
def decodeSample (text : String) : Option Bytes :=
  if text = sampleKey then some (List.replicate 32 0xAB) else none

/-- The configuration of a node with one peer. -/
def sampleConfig (relay : RelayConfig) : Config where
  nodeId := "lon"
  listen := ⟨none, none⟩
  relay := relay
  peers := [⟨"sgp", sampleKey⟩]

theorem validate_sampleConfig (relay : RelayConfig) :
    (sampleConfig relay).validate decodeSample = .ok () := by
  rw [validate_ok_iff]
  refine ⟨by simp [sampleConfig], by simp [sampleConfig], ?_, Iff.rfl⟩
  intro peer hpeer
  rw [List.mem_singleton.mp hpeer]
  exact ⟨List.replicate 32 0xAB, if_pos rfl, by decide⟩

theorem forwarding_safe_iff_pair :
    (∀ es, ∃ r, Machine.run (forwarderStep smallCodec)
        (ForwarderRun.start (sampleConfig ⟨some 2, some 1⟩).fecConfig) es = .ok r) ↔
      (sampleConfig ⟨some 2, some 1⟩).fecConfig.Accepted :=
  forwarding_safe_iff smallCodec_acceptsSpec (fun _ => encodable_pair.encodes)
    (validate_sampleConfig _)

/-- A configuration without parity shards is validated, and the first tick that finds a payload
aborts. -/
theorem parityless_config_panics :
    (sampleConfig ⟨none, some 0⟩).validate decodeSample = .ok () ∧
      Machine.run (forwarderStep smallCodec)
          (ForwarderRun.start (sampleConfig ⟨none, some 0⟩).fecConfig) (oneSend "sgp" [7]) =
        .error .invalidFecConfig :=
  ⟨validate_sampleConfig _, run_oneSend (by rfl) "sgp" [7]⟩

end EntrouterLine.Relay
