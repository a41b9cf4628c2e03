import EntrouterLine.Mesh.Provenance

/-!
# Delivery to the clients of an edge

The response channel of a flow is bounded, and `deliver` puts data into it with `try_send`. Here the
edges run by themselves: connections are accepted, `deliver` is called with anything for any flow,
the write tasks drain their channels, and the tasks and connections end, in any order.

What a client is written is a prefix of what was passed to `deliver` for its flow, as long as no
data is accepted for a flow after some was dropped because its channel was full
(`written_isPrefix`). The code does not see to that: once the write task has made room, the channel
accepts the next delivery, and the client never learns of the gap (`drop_leaves_gap`).
-/

set_option autoImplicit false

namespace EntrouterLine.Mesh

open EntrouterLine.Lib
open EntrouterLine.Relay
open EntrouterLine.Edge

/-! ## Runs of the edges -/

/-- The data passed to `deliver` for a flow since its connection was accepted, the bytes written to
its client, and whether data was passed while the response channel was full. -/
structure FlowLog where
  delivered : Bytes
  written : Bytes
  dropped : Bool

def FlowLog.new : FlowLog := ⟨[], [], false⟩

structure EdgeRun where
  mesh : MeshState
  log : ConnId → FlowLog

def EdgeRun.start (cfg : MeshConfig) : EdgeRun := ⟨MeshState.start cfg, fun _ => FlowLog.new⟩

/-- The flow of the connection is the one with this id at this edge. -/
def Conn.IsFlow (conn : Conn) (x : NodeId) (edge : EdgeKind) (flowId : UInt32) : Prop :=
  conn.node = x ∧ conn.edge = edge ∧ conn.flowId = flowId

instance instDecidableIsFlow (conn : Conn) (x : NodeId) (edge : EdgeKind) (flowId : UInt32) :
    Decidable (conn.IsFlow x edge flowId) :=
  inferInstanceAs (Decidable (_ ∧ _ ∧ _))

/-- The response channel has room for one more message. -/
def Conn.HasRoom (conn : Conn) : Prop := conn.channel.length < channelCapacity conn.edge

instance instDecidableHasRoom (conn : Conn) : Decidable conn.HasRoom :=
  inferInstanceAs (Decidable (_ < _))

/-- `deliver` is called with data for the connection's flow. -/
def FlowLog.pass (log : FlowLog) (conn : Conn) (data : Bytes) : FlowLog :=
  { log with
    delivered := log.delivered ++ data
    dropped := log.dropped || (decide (data ≠ []) && !decide conn.HasRoom) }

/-- What `write_all` writes to the client: the next message, or its first `n` bytes if it fails. -/
def Conn.writes (conn : Conn) (n : Nat) (ok : Bool) : Bytes :=
  if conn.writing then
    match conn.channel with
    | [] => []
    | data :: _ => if ok then data else data.take n
  else []

inductive DeliveryEvent where
  | accept (x : NodeId) (edge : EdgeKind)
  | deliver (x : NodeId) (edge : EdgeKind) (delivery : LocalDelivery)
  | write (c : ConnId) (n : Nat) (ok : Bool)
  | endRead (c : ConnId)
  | endWrite (c : ConnId)
  | endConnection (c : ConnId)

/-- The logs after a call of `deliver`, which concerns the connections with that flow id. -/
def EdgeRun.logDeliver (r : EdgeRun) (x : NodeId) (edge : EdgeKind) (delivery : LocalDelivery)
    (c : ConnId) : FlowLog :=
  match r.mesh.conns[c]? with
  | none => r.log c
  | some conn =>
      if conn.IsFlow x edge delivery.flowId then (r.log c).pass conn delivery.data else r.log c

/-- The logs after a step of a write task. -/
def EdgeRun.logWrite (r : EdgeRun) (c : ConnId) (n : Nat) (ok : Bool) : ConnId → FlowLog :=
  match r.mesh.conns[c]? with
  | none => r.log
  | some conn =>
      Function.update r.log c { r.log c with written := (r.log c).written ++ conn.writes n ok }

/-- One step of an edge, or one call of `deliver`. -/
def deliveryStep (cfg : MeshConfig) (r : EdgeRun) : DeliveryEvent → Except Empty (EdgeRun × Unit)
  | .accept x edge => .ok ({ r with mesh := accept cfg r.mesh x edge }, ())
  | .deliver x edge delivery =>
      .ok (⟨deliver r.mesh x edge delivery, r.logDeliver x edge delivery⟩, ())
  | .write c n ok => .ok (⟨writeClient r.mesh c ok, r.logWrite c n ok⟩, ())
  | .endRead c => .ok ({ r with mesh := endRead r.mesh c }, ())
  | .endWrite c => .ok ({ r with mesh := endWrite r.mesh c }, ())
  | .endConnection c => .ok ({ r with mesh := endConnection r.mesh c }, ())

/-- The table of the connection's edge has the connection's channel under its flow id. -/
def Active (s : MeshState) (c : ConnId) (conn : Conn) : Prop :=
  ((s.node conn.node).tables conn.edge).activeFlows conn.flowId = some c

/-- No data goes into the channel of a flow of which some was dropped before. -/
def NoneAfterDrop (r : EdgeRun) : DeliveryEvent → Prop
  | .deliver x edge delivery => ∀ c conn,
      ((r.mesh.node x).tables edge).activeFlows delivery.flowId = some c →
      r.mesh.conns[c]? = some conn → delivery.data ≠ [] → conn.writing → conn.HasRoom →
      (r.log c).dropped = false
  | _ => True

/-! ## One flow -/

/-- What is written and what waits in the channel, against what was delivered. Nothing is missing
while the flow is active, its write task runs and nothing was dropped. -/
structure Tracks (active : Prop) (conn : Conn) (log : FlowLog) : Prop where
  written : log.written <+: log.delivered
  queued : conn.writing → log.written ++ conn.channel.flatten <+: log.delivered
  whole : active → conn.writing → log.dropped = false →
    log.written ++ conn.channel.flatten = log.delivered

variable {active active' : Prop} {conn conn' : Conn} {log : FlowLog}

theorem tracks_new (active : Prop) (hchannel : conn.channel = []) :
    Tracks active conn FlowLog.new where
  written := List.prefix_rfl
  queued _ := by
    rw [hchannel]
    exact List.prefix_rfl
  whole _ _ _ := by
    rw [hchannel]
    rfl

/-- Steps of the other tasks leave the channel alone, and may end the write task or the flow. -/
theorem Tracks.of_channel_eq (h : Tracks active conn log) (hactive : active' → active)
    (hchannel : conn'.channel = conn.channel) (hwriting : conn'.writing → conn.writing) :
    Tracks active' conn' log where
  written := h.written
  queued hw := by
    rw [hchannel]
    exact h.queued (hwriting hw)
  whole ha hw hd := by
    rw [hchannel]
    exact h.whole (hactive ha) (hwriting hw) hd

/-- The data is dropped: the channel is full, or it is closed, or the flow has no entry. -/
theorem Tracks.drop (h : Tracks active conn log) {data : Bytes}
    (hdrop : active → conn.writing → ¬conn.HasRoom) : Tracks active conn (log.pass conn data) where
  written := h.written.trans (List.prefix_append _ _)
  queued hw := (h.queued hw).trans (List.prefix_append _ _)
  whole ha hw hd := by
    have hfull : ¬conn.HasRoom := hdrop ha hw
    rw [FlowLog.pass, Bool.or_eq_false_iff] at hd
    have hempty : data = [] := by
      simpa [hfull] using hd.2
    rw [hempty]
    simpa [FlowLog.pass] using h.whole ha hw hd.1

/-- The data goes into the channel. -/
theorem Tracks.enqueue (h : Tracks active conn log) {delivery : LocalDelivery} (ha : active)
    (hw : conn.writing) (hnone : delivery.data ≠ [] → log.dropped = false) :
    Tracks active { conn with
      channel := conn.channel ++ [delivery.data]
      accepted := conn.accepted ++ [delivery] } (log.pass conn delivery.data) := by
  have hflatten : (conn.channel ++ [delivery.data]).flatten =
      conn.channel.flatten ++ delivery.data := by simp
  have hqueued : log.written ++ (conn.channel ++ [delivery.data]).flatten <+:
      log.delivered ++ delivery.data := by
    rw [hflatten, ← List.append_assoc]
    by_cases hdata : delivery.data = []
    · rw [hdata, List.append_nil, List.append_nil]
      exact h.queued hw
    · rw [h.whole ha hw (hnone hdata)]
  refine ⟨h.written.trans (List.prefix_append _ _), fun _ => hqueued, ?_⟩
  intro _ _ hd
  have hdropped : log.dropped = false := by
    rw [FlowLog.pass, Bool.or_eq_false_iff] at hd
    exact hd.1
  show log.written ++ (conn.channel ++ [delivery.data]).flatten = log.delivered ++ delivery.data
  rw [hflatten, ← List.append_assoc, h.whole ha hw hdropped]

/-- The write task takes a message from the channel, and ends if it cannot write all of it. -/
theorem Tracks.write (h : Tracks active conn log) {data : Bytes} {rest : List Bytes}
    (hchannel : conn.channel = data :: rest) (hw : conn.writing) (n : Nat) (ok : Bool) :
    Tracks active { conn with channel := rest, writing := ok }
      { log with written := log.written ++ conn.writes n ok } := by
  have hwrites : conn.writes n ok = if ok then data else data.take n := by
    rw [Conn.writes, if_pos hw, hchannel]
  have hflatten : log.written ++ conn.channel.flatten = (log.written ++ data) ++ rest.flatten := by
    rw [hchannel, List.flatten_cons, List.append_assoc]
  have hqueued := h.queued hw
  rw [hflatten] at hqueued
  rw [hwrites]
  cases ok with
  | true =>
    refine ⟨(List.prefix_append _ _).trans hqueued, fun _ => hqueued, ?_⟩
    intro ha _ hd
    have hwhole := h.whole ha hw hd
    rw [hflatten] at hwhole
    exact hwhole
  | false =>
    refine ⟨?_, nofun, nofun⟩
    apply List.IsPrefix.trans _ hqueued
    rw [List.append_assoc]
    apply (List.prefix_append_right_inj _).mpr
    exact (List.take_prefix n data).trans (List.prefix_append _ _)

/-! ## All flows -/

/-- Every entry of a table is a connection's own, and what every connection has been written and
waits for tracks what was delivered to it. -/
structure DeliveryInv (r : EdgeRun) : Prop where
  entry : ∀ x edge flowId c, ((r.mesh.node x).tables edge).activeFlows flowId = some c →
    ∃ conn, r.mesh.conns[c]? = some conn ∧ conn.IsFlow x edge flowId
  tracks : ∀ c conn, r.mesh.conns[c]? = some conn →
    Tracks (Active r.mesh c conn) conn (r.log c)
  fresh : ∀ c, r.mesh.conns[c]? = none → r.log c = FlowLog.new

theorem deliveryInv_start (cfg : MeshConfig) : DeliveryInv (EdgeRun.start cfg) where
  entry x edge flowId c h := by
    cases edge <;> cases h
  tracks c conn h := by cases h
  fresh _ _ := rfl

variable {r r' : EdgeRun} {cfg : MeshConfig}

/-- A flow id has one entry. -/
theorem Active.unique {s : MeshState} {x : NodeId} {edge : EdgeKind} {flowId : UInt32}
    {c c' : ConnId} (htable : ((s.node x).tables edge).activeFlows flowId = some c)
    (hflow : conn.IsFlow x edge flowId) (h : Active s c' conn) : c' = c := by
  obtain ⟨rfl, rfl, rfl⟩ := hflow
  rw [Active, htable, Option.some.injEq] at h
  exact h.symm

/-- Connection `c` after a step in which it stays who it is: it still tracks what was delivered. -/
def KeepsTrack (r r' : EdgeRun) (c : ConnId) (conn' : Conn) : Prop :=
  ∃ conn, r.mesh.conns[c]? = some conn ∧ conn'.IsFlow conn.node conn.edge conn.flowId ∧
    (Tracks (Active r.mesh c conn) conn (r.log c) →
      Tracks (Active r.mesh c conn) conn' (r'.log c))

/-- A step that adds no entry and no connection keeps the invariant if every connection keeps
track. -/
theorem DeliveryInv.of_step (h : DeliveryInv r)
    (hentry : ∀ x edge flowId c, ((r'.mesh.node x).tables edge).activeFlows flowId = some c →
      ((r.mesh.node x).tables edge).activeFlows flowId = some c)
    (hlength : r'.mesh.conns.length = r.mesh.conns.length)
    (hlog : ∀ c, r.mesh.conns[c]? = none → r'.log c = r.log c)
    (hconns : ∀ c conn', r'.mesh.conns[c]? = some conn' → KeepsTrack r r' c conn') :
    DeliveryInv r' where
  entry x edge flowId c htable := by
    obtain ⟨conn, hconn, rfl, rfl, rfl⟩ := h.entry x edge flowId c (hentry _ _ _ _ htable)
    have hlt : c < r'.mesh.conns.length := by
      rw [hlength]
      exact (List.getElem?_eq_some_iff.mp hconn).1
    obtain ⟨conn₁, hconn₁, hflow, -⟩ := hconns c _ (List.getElem?_eq_getElem hlt)
    rw [hconn, Option.some.injEq] at hconn₁
    subst hconn₁
    exact ⟨_, List.getElem?_eq_getElem hlt, hflow⟩
  tracks c conn' hconn' := by
    obtain ⟨conn, hconn, ⟨hnode, hedge, hflow⟩, htracks⟩ := hconns c conn' hconn'
    apply (htracks (h.tracks c conn hconn)).of_channel_eq _ rfl id
    intro hactive
    apply hentry
    rw [Active, hnode, hedge, hflow] at hactive
    exact hactive
  fresh c hnone := by
    have hnone' : r.mesh.conns[c]? = none := by
      rw [List.getElem?_eq_none_iff] at hnone ⊢
      omega
    rw [hlog c hnone', h.fresh c hnone']

/-- One connection takes a step, and no other one's log changes. -/
theorem DeliveryInv.setConn (h : DeliveryInv r) {s : MeshState} {c : ConnId}
    (hconn : r.mesh.conns[c]? = some conn)
    (hentry : ∀ x edge flowId c', ((s.node x).tables edge).activeFlows flowId = some c' →
      ((r.mesh.node x).tables edge).activeFlows flowId = some c')
    (hs : s.conns = r.mesh.conns) (hsame : conn'.IsFlow conn.node conn.edge conn.flowId)
    {logs : ConnId → FlowLog} (hlogs : ∀ c', c' ≠ c → logs c' = r.log c')
    (htracks : Tracks (Active r.mesh c conn) conn (r.log c) →
      Tracks (Active r.mesh c conn) conn' (logs c)) :
    DeliveryInv ⟨s.setConn c conn', logs⟩ := by
  apply h.of_step hentry
  · show (s.conns.set c conn').length = _
    rw [List.length_set, hs]
  · intro c' hnone
    apply hlogs
    rintro rfl
    rw [hconn] at hnone
    cases hnone
  · intro c' conn₁ hconn₁
    change (s.conns.set c conn')[c']? = some conn₁ at hconn₁
    rw [hs] at hconn₁
    rcases getElem?_set_cases hconn₁ with ⟨rfl, rfl⟩ | ⟨hne, hother⟩
    · exact ⟨conn, hconn, hsame, htracks⟩
    · refine ⟨conn₁, hother, ⟨rfl, rfl, rfl⟩, ?_⟩
      intro htrack
      show Tracks _ conn₁ (logs c')
      rw [hlogs c' hne]
      exact htrack

/-! ## The steps -/

theorem getElem?_snoc_cases {conns : List Conn} {c : ConnId}
    (h : (conns ++ [conn'])[c]? = some conn) :
    (c < conns.length ∧ conns[c]? = some conn) ∨ (c = conns.length ∧ conn = conn') := by
  rcases Nat.lt_or_ge c conns.length with hlt | hge
  · rw [List.getElem?_append_left hlt] at h
    exact Or.inl ⟨hlt, h⟩
  · rw [List.getElem?_append_right hge, List.getElem?_singleton] at h
    split at h
    · rename_i hzero
      exact Or.inr ⟨le_antisymm (Nat.sub_eq_zero_iff_le.mp hzero) hge, (Option.some.inj h).symm⟩
    · cases h

theorem DeliveryInv.accept (h : DeliveryInv r) (x : NodeId) (edge : EdgeKind) :
    DeliveryInv { r with mesh := Mesh.accept cfg r.mesh x edge } := by
  have hnew : r.mesh.conns[r.mesh.conns.length]? = none := List.getElem?_eq_none le_rfl
  -- an entry of the new state is the new connection's, or it was there before
  have htables : ∀ x' edge' flowId c,
      (((Mesh.accept cfg r.mesh x edge).node x').tables edge').activeFlows flowId = some c →
      (x' = x ∧ edge' = edge ∧ flowId = ((r.mesh.node x).tables edge).nextFlowId ∧
        c = r.mesh.conns.length) ∨
      ((r.mesh.node x').tables edge').activeFlows flowId = some c := by
    intro x' edge' flowId c htable
    rcases eq_or_ne x' x with rfl | hx
    · change (((Function.update r.mesh.node x' _) x').tables edge').activeFlows flowId = some c
        at htable
      rw [Function.update_self] at htable
      rcases activeFlows_setTable_cases rfl htable with ⟨rfl, rfl, hc⟩ | hold
      · exact Or.inl ⟨rfl, rfl, rfl, (Option.some.inj hc).symm⟩
      · exact Or.inr hold
    · change (((Function.update r.mesh.node x _) x').tables edge').activeFlows flowId = some c
        at htable
      rw [Function.update_of_ne hx] at htable
      exact Or.inr htable
  constructor
  · intro x' edge' flowId c htable
    rcases htables x' edge' flowId c htable with ⟨rfl, rfl, rfl, rfl⟩ | hold
    · refine ⟨_, List.getElem?_concat_length, rfl, rfl, rfl⟩
    · obtain ⟨conn, hconn, hflow⟩ := h.entry x' edge' flowId c hold
      refine ⟨conn, ?_, hflow⟩
      exact (List.getElem?_append_left (List.getElem?_eq_some_iff.mp hconn).1).trans hconn
  · intro c conn hconn
    change (r.mesh.conns ++ [_])[c]? = some conn at hconn
    rcases getElem?_snoc_cases hconn with ⟨hlt, hold⟩ | ⟨rfl, rfl⟩
    · apply (h.tracks c conn hold).of_channel_eq _ rfl id
      intro hactive
      rcases htables _ _ _ c hactive with ⟨-, -, -, rfl⟩ | hactive
      · exact absurd hlt (lt_irrefl _)
      · exact hactive
    · show Tracks _ _ (r.log r.mesh.conns.length)
      rw [h.fresh _ hnew]
      exact tracks_new _ rfl
  · intro c hnone
    apply h.fresh
    change (r.mesh.conns ++ [_])[c]? = none at hnone
    rw [List.getElem?_eq_none_iff, List.length_append] at hnone
    exact List.getElem?_eq_none (le_of_add_le_left hnone)

theorem logDeliver_of_none {x : NodeId} {edge : EdgeKind} {delivery : LocalDelivery} {c : ConnId}
    (h : r.mesh.conns[c]? = none) : r.logDeliver x edge delivery c = r.log c := by
  rw [EdgeRun.logDeliver, h]

theorem logDeliver_of_isFlow {x : NodeId} {edge : EdgeKind} {delivery : LocalDelivery} {c : ConnId}
    (hconn : r.mesh.conns[c]? = some conn) (hflow : conn.IsFlow x edge delivery.flowId) :
    r.logDeliver x edge delivery c = (r.log c).pass conn delivery.data := by
  simp only [EdgeRun.logDeliver, hconn, if_pos hflow]

/-- The delivery does not go into the channel of this connection. -/
theorem Tracks.logDeliver {x : NodeId} {edge : EdgeKind} {delivery : LocalDelivery} {c : ConnId}
    (h : Tracks active conn (r.log c)) (hconn : r.mesh.conns[c]? = some conn)
    (hdrop : conn.IsFlow x edge delivery.flowId → active → conn.writing → ¬conn.HasRoom) :
    Tracks active conn (r.logDeliver x edge delivery c) := by
  by_cases hflow : conn.IsFlow x edge delivery.flowId
  · rw [logDeliver_of_isFlow hconn hflow]
    exact h.drop (hdrop hflow)
  · simp only [EdgeRun.logDeliver, hconn, if_neg hflow]
    exact h

/-- The delivery goes into no channel. -/
theorem DeliveryInv.dropped (h : DeliveryInv r) {x : NodeId} {edge : EdgeKind}
    {delivery : LocalDelivery}
    (hdrop : ∀ c conn, r.mesh.conns[c]? = some conn → conn.IsFlow x edge delivery.flowId →
      Active r.mesh c conn → conn.writing → ¬conn.HasRoom) :
    DeliveryInv { r with log := r.logDeliver x edge delivery } := by
  apply h.of_step
  · exact fun _ _ _ _ => id
  · rfl
  · exact fun c => logDeliver_of_none
  · intro c conn hconn
    refine ⟨conn, hconn, ⟨rfl, rfl, rfl⟩, ?_⟩
    exact fun htracks => htracks.logDeliver hconn (hdrop c conn hconn)

theorem DeliveryInv.deliver (h : DeliveryInv r) {x : NodeId} {edge : EdgeKind}
    {delivery : LocalDelivery} (hnone : NoneAfterDrop r (.deliver x edge delivery)) :
    DeliveryInv ⟨Mesh.deliver r.mesh x edge delivery, r.logDeliver x edge delivery⟩ := by
  rw [Mesh.deliver]
  cases htable : ((r.mesh.node x).tables edge).activeFlows delivery.flowId with
  | none =>
    -- no entry, so that no connection is active under this id
    apply h.dropped
    rintro c conn - ⟨rfl, rfl, hid⟩ hactive
    rw [Active, hid, htable] at hactive
    cases hactive
  | some c₀ =>
    obtain ⟨conn₀, hconn₀, hflow₀⟩ := h.entry x edge delivery.flowId c₀ htable
    simp only [hconn₀]
    by_cases hroom : conn₀.writing ∧ conn₀.channel.length < channelCapacity conn₀.edge
    · -- only the connection that the entry names gets the delivery
      rw [if_pos hroom]
      apply h.of_step
      · exact fun _ _ _ _ => id
      · exact List.length_set
      · exact fun c => logDeliver_of_none
      · intro c conn' hconn'
        rcases getElem?_set_cases hconn' with ⟨rfl, rfl⟩ | ⟨hne, hother⟩
        · refine ⟨conn₀, hconn₀, ⟨rfl, rfl, rfl⟩, ?_⟩
          intro htracks
          show Tracks _ _ (r.logDeliver x edge delivery c)
          rw [logDeliver_of_isFlow hconn₀ hflow₀]
          apply htracks.enqueue _ hroom.1
          · exact fun hdata => hnone c conn₀ htable hconn₀ hdata hroom.1 hroom.2
          · obtain ⟨rfl, rfl, hid⟩ := hflow₀
            rw [Active, hid]
            exact htable
        · refine ⟨conn', hother, ⟨rfl, rfl, rfl⟩, ?_⟩
          intro htracks
          apply htracks.logDeliver hother
          exact fun hflow hactive => absurd (hactive.unique htable hflow) hne
    · -- its channel is full or its write task has ended
      rw [if_neg hroom]
      apply h.dropped
      intro c conn hconn hflow hactive hwriting hhas
      obtain rfl := hactive.unique htable hflow
      rw [hconn₀, Option.some.injEq] at hconn
      subst hconn
      exact hroom ⟨hwriting, hhas⟩

/-- A write task that does not run, or has nothing to write, writes nothing. -/
theorem update_log_self (log : ConnId → FlowLog) (c : ConnId) {bytes : Bytes} (h : bytes = []) :
    Function.update log c { log c with written := (log c).written ++ bytes } = log := by
  rw [h, List.append_nil]
  exact Function.update_eq_self c log

theorem DeliveryInv.write (h : DeliveryInv r) (c : ConnId) (n : Nat) (ok : Bool) :
    DeliveryInv ⟨writeClient r.mesh c ok, r.logWrite c n ok⟩ := by
  rw [writeClient, EdgeRun.logWrite]
  cases hconn : r.mesh.conns[c]? with
  | none => exact h
  | some conn =>
    dsimp only
    by_cases hwriting : conn.writing
    · rw [if_pos hwriting]
      cases hchannel : conn.channel with
      | nil =>
        rw [update_log_self]
        · exact h
        · rw [Conn.writes, hchannel, ite_self]
      | cons data rest =>
        dsimp only
        apply h.setConn hconn (fun _ _ _ _ => id) rfl
        · exact ⟨rfl, rfl, rfl⟩
        · exact fun c' hne => Function.update_of_ne hne _ _
        · intro htracks
          rw [Function.update_self]
          exact htracks.write hchannel hwriting n ok
    · rw [if_neg hwriting, update_log_self]
      · exact h
      · rw [Conn.writes, if_neg hwriting]

theorem DeliveryInv.endRead (h : DeliveryInv r) (c : ConnId) :
    DeliveryInv { r with mesh := endRead r.mesh c } := by
  rw [Mesh.endRead]
  cases hconn : r.mesh.conns[c]? with
  | none => exact h
  | some conn =>
    dsimp only
    by_cases hpending : conn.pending = []
    · rw [if_pos hpending]
      apply h.setConn hconn (fun _ _ _ _ => id) rfl
      · exact ⟨rfl, rfl, rfl⟩
      · exact fun _ _ => rfl
      · exact fun htracks => htracks.of_channel_eq id rfl id
    · rw [if_neg hpending]
      exact h

theorem DeliveryInv.endWrite (h : DeliveryInv r) (c : ConnId) :
    DeliveryInv { r with mesh := endWrite r.mesh c } := by
  rw [Mesh.endWrite]
  cases hconn : r.mesh.conns[c]? with
  | none => exact h
  | some conn =>
    dsimp only
    split
    · apply h.setConn hconn (fun _ _ _ _ => id) rfl
      · exact ⟨rfl, rfl, rfl⟩
      · exact fun _ _ => rfl
      · intro htracks
        refine htracks.of_channel_eq id rfl ?_
        intro hwriting
        cases hwriting
    · exact h

theorem DeliveryInv.endConnection (h : DeliveryInv r) (c : ConnId) :
    DeliveryInv { r with mesh := endConnection r.mesh c } := by
  rw [Mesh.endConnection]
  cases hconn : r.mesh.conns[c]? with
  | none => exact h
  | some conn =>
    dsimp only
    split
    · apply h.setConn hconn
      · intro x edge flowId c' htable
        rcases eq_or_ne x conn.node with rfl | hx
        · rw [node_setNode_self] at htable
          rcases activeFlows_setTable_cases rfl htable with ⟨-, -, hc⟩ | hold
          · cases hc
          · exact hold
        · rw [node_setNode_of_ne _ hx] at htable
          exact htable
      · rfl
      · exact ⟨rfl, rfl, rfl⟩
      · exact fun _ _ => rfl
      · exact fun htracks => htracks.of_channel_eq id rfl id
    · exact h

/-- A step under the condition keeps the invariant. -/
theorem DeliveryInv.step (h : DeliveryInv r) {e : DeliveryEvent} (hnone : NoneAfterDrop r e) :
    ∃ r', deliveryStep cfg r e = .ok (r', ()) ∧ DeliveryInv r' := by
  cases e with
  | accept x edge => exact ⟨_, rfl, h.accept x edge⟩
  | deliver x edge delivery => exact ⟨_, rfl, h.deliver hnone⟩
  | write c n ok => exact ⟨_, rfl, h.write c n ok⟩
  | endRead c => exact ⟨_, rfl, h.endRead c⟩
  | endWrite c => exact ⟨_, rfl, h.endWrite c⟩
  | endConnection c => exact ⟨_, rfl, h.endConnection c⟩

/-! ## A channel that overflows -/

/-- Connection `c` is the flow with this id, its write task runs, and this is in its channel and in
its log. -/
def InFlow (r : EdgeRun) (c : ConnId) (x : NodeId) (edge : EdgeKind) (flowId : UInt32)
    (channel : List Bytes) (log : FlowLog) : Prop :=
  ∃ conn, r.mesh.conns[c]? = some conn ∧ conn.IsFlow x edge flowId ∧ Active r.mesh c conn ∧
    conn.writing = true ∧ conn.channel = channel ∧ r.log c = log

/-- `deliver` is called with these bytes. -/
def delivering (x : NodeId) (edge : EdgeKind) (flowId : UInt32) (data : Bytes) : DeliveryEvent :=
  .deliver x edge ⟨flowId, data, "", none⟩

variable {c : ConnId} {x : NodeId} {edge : EdgeKind} {flowId : UInt32} {channel : List Bytes}
variable (cfg)

theorem InFlow.deliver (h : InFlow r c x edge flowId channel log)
    (hroom : channel.length < channelCapacity edge) (data : Bytes) :
    ∃ r', deliveryStep cfg r (delivering x edge flowId data) = .ok (r', ()) ∧
      InFlow r' c x edge flowId (channel ++ [data])
        { log with delivered := log.delivered ++ data } := by
  obtain ⟨conn, hconn, ⟨rfl, rfl, rfl⟩, hactive, hwriting, rfl, rfl⟩ := h
  have htable : ((r.mesh.node conn.node).tables conn.edge).activeFlows conn.flowId = some c :=
    hactive
  refine ⟨_, rfl, { conn with
    channel := conn.channel ++ [data]
    accepted := conn.accepted ++ [⟨conn.flowId, data, "", none⟩] },
    ?_, ⟨rfl, rfl, rfl⟩, ?_, hwriting, rfl, ?_⟩
  · simp only [Mesh.deliver, htable, hconn, hwriting, hroom, and_self, if_true]
    exact getElem?_set_self_of_some hconn _
  · simp only [Mesh.deliver, htable, hconn, hwriting, hroom, and_self, if_true]
    exact hactive
  · show r.logDeliver _ _ _ c = _
    rw [logDeliver_of_isFlow hconn ⟨rfl, rfl, rfl⟩]
    simp [FlowLog.pass, Conn.HasRoom, hroom]

/-- A full channel drops the data. -/
theorem InFlow.deliver_full (h : InFlow r c x edge flowId channel log)
    (hfull : channel.length = channelCapacity edge) {data : Bytes} (hdata : data ≠ []) :
    ∃ r', deliveryStep cfg r (delivering x edge flowId data) = .ok (r', ()) ∧
      InFlow r' c x edge flowId channel ⟨log.delivered ++ data, log.written, true⟩ := by
  obtain ⟨conn, hconn, ⟨rfl, rfl, rfl⟩, hactive, hwriting, rfl, rfl⟩ := h
  have htable : ((r.mesh.node conn.node).tables conn.edge).activeFlows conn.flowId = some c :=
    hactive
  have hdeliver : Mesh.deliver r.mesh conn.node conn.edge ⟨conn.flowId, data, "", none⟩ =
      r.mesh := by
    simp only [Mesh.deliver, htable, hconn, hwriting, hfull, lt_irrefl, and_false, if_false]
  refine ⟨_, rfl, conn, ?_, ⟨rfl, rfl, rfl⟩, ?_, hwriting, rfl, ?_⟩
  · rw [hdeliver]
    exact hconn
  · rw [hdeliver]
    exact hactive
  · show r.logDeliver _ _ _ c = _
    rw [logDeliver_of_isFlow hconn ⟨rfl, rfl, rfl⟩]
    simp [FlowLog.pass, Conn.HasRoom, hfull, hdata]

theorem InFlow.write {data : Bytes} {rest : List Bytes}
    (h : InFlow r c x edge flowId (data :: rest) log) :
    ∃ r', deliveryStep cfg r (.write c 0 true) = .ok (r', ()) ∧
      InFlow r' c x edge flowId rest { log with written := log.written ++ data } := by
  obtain ⟨conn, hconn, hflow, hactive, hwriting, hchannel, rfl⟩ := h
  refine ⟨_, rfl, { conn with channel := rest, writing := true }, ?_, hflow, ?_, rfl, rfl, ?_⟩
  · simp only [writeClient, hconn, hwriting, hchannel, if_true]
    exact getElem?_set_self_of_some hconn _
  · simp only [writeClient, hconn, hwriting, hchannel, if_true]
    exact hactive
  · simp [EdgeRun.logWrite, hconn, Conn.writes, hwriting, hchannel]

/-- The condition at a call of `deliver` for the flow. -/
theorem InFlow.noneAfterDrop (h : InFlow r c x edge flowId channel log)
    (hcond : channel.length = channelCapacity edge ∨ log.dropped = false) (data : Bytes) :
    NoneAfterDrop r (delivering x edge flowId data) := by
  obtain ⟨conn, hconn, ⟨rfl, rfl, rfl⟩, hactive, -, rfl, rfl⟩ := h
  intro c' conn' htable hconn' _ _ hroom
  -- the table has one entry for the flow id
  obtain rfl : c = c' := Option.some.inj (hactive.symm.trans htable)
  rw [hconn, Option.some.injEq] at hconn'
  subst hconn'
  rcases hcond with hfull | hnone
  · exact absurd hfull (Nat.ne_of_lt hroom)
  · exact hnone

/-- As long as there is room, every call puts its data into the channel. -/
theorem InFlow.fill (data : Bytes) (k : Nat) (h : InFlow r c x edge flowId channel log)
    (hroom : channel.length + k ≤ channelCapacity edge) :
    ∃ r' os, Machine.run (deliveryStep cfg) r (List.replicate k (delivering x edge flowId data)) =
        .ok (r', os) ∧
      (log.dropped = false → Machine.Along (deliveryStep cfg) NoneAfterDrop r
        (List.replicate k (delivering x edge flowId data))) ∧
      InFlow r' c x edge flowId (channel ++ List.replicate k data)
        { log with delivered := log.delivered ++ (List.replicate k data).flatten } := by
  induction k generalizing r channel log with
  | zero =>
    refine ⟨r, [], rfl, fun _ => trivial, ?_⟩
    simpa using h
  | succ k ih =>
    obtain ⟨r₁, hstep, h₁⟩ := h.deliver cfg (by omega) data
    obtain ⟨r₂, os, hrun, halong, h₂⟩ :=
      ih h₁ (by rw [List.length_append, List.length_singleton]; omega)
    refine ⟨r₂, () :: os, Machine.run_cons_ok hstep hrun, ?_, ?_⟩
    · intro hnone
      exact Machine.Along.cons hstep (h.noneAfterDrop (Or.inr hnone) data) (halong hnone)
    · simpa [List.replicate_succ] using h₂

/-- The write task writes everything that is in the channel. -/
theorem InFlow.drain (h : InFlow r c x edge flowId channel log) :
    ∃ r' os, Machine.run (deliveryStep cfg) r (List.replicate channel.length (.write c 0 true)) =
        .ok (r', os) ∧
      InFlow r' c x edge flowId [] { log with written := log.written ++ channel.flatten } := by
  induction channel generalizing r log with
  | nil =>
    refine ⟨r, [], rfl, ?_⟩
    simpa using h
  | cons data rest ih =>
    obtain ⟨r₁, hstep, h₁⟩ := h.write cfg
    obtain ⟨r₂, os, hrun, h₂⟩ := ih h₁
    refine ⟨r₂, () :: os, Machine.run_cons_ok hstep hrun, ?_⟩
    simpa using h₂

def oneNode : MeshConfig := ⟨fun _ => "sgp", fun _ _ => false, fun _ => ⟨1, 1⟩⟩

/-- `sgp` accepts a connection. Its channel is filled, the next delivery is dropped, the write task
makes room for one more, and in the end writes what is in the channel. -/
def overflow (edge : EdgeKind) : List DeliveryEvent :=
  let flowId := (Node.new.tables edge).nextFlowId
  .accept "sgp" edge ::
    (List.replicate (channelCapacity edge) (delivering "sgp" edge flowId [0]) ++
      ([delivering "sgp" edge flowId [1], .write 0 0 true, delivering "sgp" edge flowId [2]] ++
        List.replicate (channelCapacity edge) (.write 0 0 true)))

theorem inFlow_accept (edge : EdgeKind) :
    ∃ r, deliveryStep oneNode (EdgeRun.start oneNode) (.accept "sgp" edge) = .ok (r, ()) ∧
      InFlow r 0 "sgp" edge (Node.new.tables edge).nextFlowId [] FlowLog.new := by
  refine ⟨_, rfl, Conn.new "sgp" edge (Node.new.tables edge).nextFlowId "sgp", rfl, ⟨rfl, rfl, rfl⟩,
    ?_, rfl, rfl, rfl⟩
  cases edge <;> rfl

/-- The client is written what came after the data that was dropped. -/
theorem overflow_skips (edge : EdgeKind) :
    ∃ r os, Machine.run (deliveryStep oneNode) (EdgeRun.start oneNode) (overflow edge) =
        .ok (r, os) ∧ ¬(r.log 0).written <+: (r.log 0).delivered := by
  obtain ⟨k, hk⟩ : ∃ k, channelCapacity edge = k + 1 := by
    cases edge <;> exact ⟨_, rfl⟩
  obtain ⟨r₀, haccept, h₀⟩ := inFlow_accept edge
  obtain ⟨r₁, os₁, hfill, -, h₁⟩ := h₀.fill oneNode [0] (channelCapacity edge)
    (Nat.zero_add _).le
  obtain ⟨r₂, hdrop, h₂⟩ := h₁.deliver_full oneNode (by simp) (List.cons_ne_nil 1 [])
  rw [hk, List.nil_append, List.replicate_succ] at h₂
  obtain ⟨r₃, hwrite, h₃⟩ := h₂.write oneNode
  obtain ⟨r₄, hdeliver, h₄⟩ := h₃.deliver oneNode (by simp [hk]) [2]
  obtain ⟨r₅, os₅, hdrain, h₅⟩ := h₄.drain oneNode
  rw [List.length_append, List.length_replicate, List.length_singleton, ← hk] at hdrain
  have hmiddle := Machine.run_cons_ok hdrop
    (Machine.run_cons_ok hwrite (Machine.run_cons_ok hdeliver (Machine.run_nil r₄)))
  refine ⟨r₅, _, Machine.run_cons_ok haccept
    (Machine.run_append hfill (Machine.run_append hmiddle hdrain)), ?_⟩
  obtain ⟨conn, -, -, -, -, -, hlog⟩ := h₅
  -- up to the data that was dropped, both are as long as the channel
  have hwritten : (r₅.log 0).written = (List.replicate (k + 1) [(0 : UInt8)]).flatten ++ [2] := by
    rw [hlog]
    simp [FlowLog.new, List.replicate_succ]
  have hdelivered : (r₅.log 0).delivered =
      (List.replicate (k + 1) [(0 : UInt8)]).flatten ++ [1, 2] := by
    rw [hlog]
    simp [FlowLog.new, List.replicate_succ]
  rw [hwritten, hdelivered, List.prefix_append_right_inj]
  decide

/-- A connection whose channel is filled, so that the next delivery is dropped; nothing more comes,
and the write task drains the channel. -/
def lastDropped (edge : EdgeKind) : List DeliveryEvent :=
  let flowId := (Node.new.tables edge).nextFlowId
  .accept "sgp" edge ::
    (List.replicate (channelCapacity edge) (delivering "sgp" edge flowId [0]) ++
      (delivering "sgp" edge flowId [1] :: List.replicate (channelCapacity edge) (.write 0 0 true)))

theorem run_lastDropped (edge : EdgeKind) :
    Machine.Along (deliveryStep oneNode) NoneAfterDrop (EdgeRun.start oneNode) (lastDropped edge) ∧
      ∃ r os, Machine.run (deliveryStep oneNode) (EdgeRun.start oneNode) (lastDropped edge) =
          .ok (r, os) ∧
        (r.log 0).delivered = (List.replicate (channelCapacity edge) [(0 : UInt8)]).flatten ++ [1] ∧
        (r.log 0).written = (List.replicate (channelCapacity edge) [(0 : UInt8)]).flatten := by
  obtain ⟨r₀, haccept, h₀⟩ := inFlow_accept edge
  obtain ⟨r₁, os₁, hfill, hcond, h₁⟩ := h₀.fill oneNode [0] (channelCapacity edge)
    (Nat.zero_add _).le
  obtain ⟨r₂, hdrop, h₂⟩ := h₁.deliver_full oneNode (by simp) (List.cons_ne_nil 1 [])
  obtain ⟨r₃, os₃, hdrain, h₃⟩ := h₂.drain oneNode
  rw [List.nil_append, List.length_replicate] at hdrain
  refine ⟨?_, r₃, _, Machine.run_cons_ok haccept
    (Machine.run_append hfill (Machine.run_cons_ok hdrop hdrain)), ?_, ?_⟩
  · -- the dropped delivery finds the channel full, and none comes after it
    refine Machine.Along.cons haccept trivial ((hcond rfl).append hfill ?_)
    refine Machine.Along.cons hdrop (h₁.noneAfterDrop (Or.inl (by simp)) [1]) ?_
    apply Machine.along_of_forall_mem
    intro e he _
    rw [List.eq_of_mem_replicate he]
    trivial
  · obtain ⟨conn, -, -, -, -, -, hlog⟩ := h₃
    rw [hlog]
    simp [FlowLog.new]
  · obtain ⟨conn, -, -, -, -, -, hlog⟩ := h₃
    rw [hlog]
    simp [FlowLog.new]

/-! ## What clients are written -/

/-- In every run of the edges in which no data is accepted for a flow after some was dropped, what
every client has been written is a prefix of what was passed to `deliver` for its flow. -/
theorem written_isPrefix (cfg : MeshConfig) {es : List DeliveryEvent}
    (hcond : Machine.Along (deliveryStep cfg) NoneAfterDrop (EdgeRun.start cfg) es) :
    ∃ r os, Machine.run (deliveryStep cfg) (EdgeRun.start cfg) es = .ok (r, os) ∧
      ∀ c, (r.log c).written <+: (r.log c).delivered := by
  obtain ⟨r, os, hrun, hinv⟩ := Machine.run_safe (P := fun _ r _ => DeliveryInv r)
    (deliveryInv_start cfg)
    (fun _ r _ e hinv hnone => by
      obtain ⟨r', hstep, hinv'⟩ := hinv.step hnone
      exact ⟨r', (), hstep, hinv'⟩) es hcond
  refine ⟨r, os, hrun, ?_⟩
  intro c
  cases hconn : r.mesh.conns[c]? with
  | none =>
    rw [hinv.fresh c hconn]
    exact List.prefix_rfl
  | some conn => exact (hinv.tracks c conn hconn).written

/-- Data that is dropped at the end is missing, and what is written is a prefix all the same. -/
theorem written_isPrefix_lastDropped :
    ∃ r os, Machine.run (deliveryStep oneNode) (EdgeRun.start oneNode) (lastDropped .quic) =
        .ok (r, os) ∧
      (r.log 0).delivered = (List.replicate 256 [(0 : UInt8)]).flatten ++ [1] ∧
      (r.log 0).written = (List.replicate 256 [(0 : UInt8)]).flatten ∧
      (r.log 0).written <+: (r.log 0).delivered := by
  obtain ⟨hcond, r, os, hrun, hdelivered, hwritten⟩ := run_lastDropped .quic
  obtain ⟨r', os', hrun', hprefix⟩ := written_isPrefix oneNode hcond
  rw [hrun, Except.ok.injEq, Prod.mk.injEq] at hrun'
  obtain ⟨rfl, rfl⟩ := hrun'
  exact ⟨r, os, hrun, hdelivered, hwritten, hprefix 0⟩

/-- Both edges skip data in the middle of a stream, with their own capacity of the channel. -/
theorem drop_leaves_gap :
    (∃ r os, Machine.run (deliveryStep oneNode) (EdgeRun.start oneNode) (overflow .tcp) =
        .ok (r, os) ∧ ¬(r.log 0).written <+: (r.log 0).delivered) ∧
      ∃ r os, Machine.run (deliveryStep oneNode) (EdgeRun.start oneNode) (overflow .quic) =
        .ok (r, os) ∧ ¬(r.log 0).written <+: (r.log 0).delivered :=
  ⟨overflow_skips .tcp, overflow_skips .quic⟩

end EntrouterLine.Mesh
