import EntrouterLine.Relay.SendTasks

/-!
# Every payload is sent once

Seen from one peer, the forwarder is the sending half of a FEC link (`ForwarderRun.link`): the
senders' blocks are the send tasks for the peer, and the payloads submitted are those for which
`forward_to` has returned `Ok`. `ForwarderInv` says so for all peers at once, next to what keeps the
flush from dropping a block: a peer without a tunnel has nothing buffered, because a call submits
only after it has found the tunnel.
-/

set_option autoImplicit false

namespace EntrouterLine.Relay

open EntrouterLine.Lib

/-- The payload that a call has been accepted with for a peer, if this is its next hop. -/
def acceptedBy (peerId : NodeId) : Option Returned → Option Bytes
  | some ⟨some nextHop, payload, .ok ()⟩ => if nextHop = peerId then some payload else none
  | _ => none

/-- The payloads for which `forward_to` has chosen the next hop `peerId` and returned `Ok`, in
order. -/
def accepted (peerId : NodeId) (os : List (Option Returned)) : List Bytes :=
  os.filterMap (acceptedBy peerId)

/-- The blocks of a peer's sender that were handed to send tasks, in order. -/
def ForwarderRun.spawned (s : ForwarderRun) (peerId : NodeId) : List EmittedBlock :=
  (s.tasks.filter fun task => task.peerId = peerId).map SendTask.block

/-- Those that were handed to send tasks for a tunnel of the peer. -/
def ForwarderRun.handed (s : ForwarderRun) (peerId : NodeId) : List EmittedBlock :=
  (s.tasks.filter fun task =>
    task.peerId = peerId ∧ task.tunnel ∈ s.tunnelsOf peerId).map SendTask.block

/-- The blocks of all senders that were handed to send tasks for a tunnel of the peer. -/
def ForwarderRun.sentThrough (s : ForwarderRun) (peerId : NodeId) : List EmittedBlock :=
  (s.tasks.filter fun task => task.tunnel ∈ s.tunnelsOf peerId).map SendTask.block

/-- The sender of a peer, which is a new one if there is none yet. -/
def ForwarderRun.sender (s : ForwarderRun) (peerId : NodeId) : FecSender :=
  (s.forwarder.fecSenders peerId).getD (FecSender.new s.forwarder.fecConfig)

/-- The forwarder as one peer sees it. -/
def ForwarderRun.link (s : ForwarderRun) (peerId : NodeId) : FecLink :=
  ⟨s.sender peerId, s.spawned peerId, FecReceiver.new, fun _ => 0⟩

/-- What the maps must hold for a call that is so far. -/
def CallStage.Backed (f : Forwarder) : CallStage → Prop
  | .withTunnel nextHop _ => (f.tunnels nextHop).isSome
  | .withSender nextHop _ => (f.tunnels nextHop).isSome ∧ (f.fecSenders nextHop).isSome
  | .withoutSender _ _ => False
  | _ => True

structure ForwarderInv (rs : ReedSolomon) (config : FecConfig) (os : List (Option Returned))
    (s : ForwarderRun) : Prop where
  fecConfig : s.forwarder.fecConfig = config
  ledger : ∀ peerId, SenderInv rs config (accepted peerId os) (s.link peerId)
  tunnel : ∀ peerId, (s.forwarder.tunnels peerId).isSome →
    (s.forwarder.fecSenders peerId).isSome
  adds : ∀ add ∈ s.adds, add.stage ≠ .start → (s.forwarder.fecSenders add.peerId).isSome
  calls : ∀ call ∈ s.calls, call.stage.Backed s.forwarder
  idle : ∀ peerId, s.forwarder.tunnels peerId = none → (s.sender peerId).buffer = []
  unprotected : s.unprotected = []
  dropped : s.dropped = []

variable {rs : ReedSolomon} {config : FecConfig} {os : List (Option Returned)} {s s' : ForwarderRun}
  {o : Option Returned} {peerId : NodeId}

theorem accepted_snoc (peerId : NodeId) (os : List (Option Returned)) (o : Option Returned) :
    accepted peerId (os ++ [o]) = accepted peerId os ++ (acceptedBy peerId o).toList := by
  rw [accepted, List.filterMap_append]
  cases h : acceptedBy peerId o <;> simp [accepted, h]

theorem forwarderInv_start (rs : ReedSolomon) (hconfig : config.Accepted) :
    ForwarderInv rs config [] (ForwarderRun.start config) where
  fecConfig := rfl
  ledger := fun _ => senderInv_start hconfig
  tunnel := nofun
  adds := nofun
  calls := nofun
  idle := fun _ _ => rfl
  unprotected := rfl
  dropped := rfl

/-! ## Maps that grow -/

/-- Every entry of the first forwarder is there in the second one. -/
structure Forwarder.Extends (f f' : Forwarder) : Prop where
  fecConfig : f'.fecConfig = f.fecConfig
  tunnels : ∀ peerId, (f.tunnels peerId).isSome → (f'.tunnels peerId).isSome
  fecSenders : ∀ peerId, (f.fecSenders peerId).isSome → (f'.fecSenders peerId).isSome

theorem Forwarder.Extends.refl (f : Forwarder) : f.Extends f :=
  ⟨rfl, fun _ h => h, fun _ h => h⟩

theorem isSome_update {α : Type} {m : NodeId → Option α} {x : NodeId} (h : (m x).isSome)
    (peerId : NodeId) (a : α) : (Function.update m peerId (some a) x).isSome := by
  by_cases hx : x = peerId
  · subst hx
    simp
  · rw [Function.update_of_ne hx]
    exact h

theorem extends_insertSender (f : Forwarder) (peerId : NodeId) :
    f.Extends (f.insertSender peerId) :=
  ⟨rfl, fun _ h => h, fun _ h => isSome_update h _ _⟩

theorem extends_insertReceiver (f : Forwarder) (peerId : NodeId) :
    f.Extends (f.insertReceiver peerId) :=
  ⟨rfl, fun _ h => h, fun _ h => h⟩

theorem extends_insertTunnel (f : Forwarder) (peerId : NodeId) (tunnel : TunnelRef) :
    f.Extends (f.insertTunnel peerId tunnel) :=
  ⟨rfl, fun _ h => isSome_update h _ _, fun _ h => h⟩

theorem extends_setSender (f : Forwarder) (peerId : NodeId) (sender : FecSender) :
    f.Extends (f.setSender peerId sender) :=
  ⟨rfl, fun _ h => h, fun _ h => isSome_update h _ _⟩

theorem CallStage.Backed.mono {f f' : Forwarder} {stage : CallStage} (h : stage.Backed f)
    (hext : f.Extends f') : stage.Backed f' := by
  cases stage with
  | withTunnel nextHop tunnel => exact hext.tunnels _ h
  | withSender nextHop tunnel => exact ⟨hext.tunnels _ h.1, hext.fecSenders _ h.2⟩
  | withoutSender nextHop tunnel => exact h
  | start => trivial
  | routed nextHop => trivial
  | returned => trivial

/-- A call that has moved on to a stage that the maps back. -/
theorem ForwarderInv.setCall (h : ForwarderInv rs config os s)
    (hext : s.forwarder.Extends s'.forwarder) (k : Nat) (call : ForwardCall) {stage : CallStage}
    (hstage : stage.Backed s'.forwarder)
    (hcalls : s'.calls = s.calls.set k { call with stage := stage }) :
    ∀ call ∈ s'.calls, call.stage.Backed s'.forwarder := by
  intro c hmem
  rw [hcalls] at hmem
  rcases List.mem_or_eq_of_mem_set hmem with hold | rfl
  · exact (h.calls c hold).mono hext
  · exact hstage

/-- A step that submits nothing and drains nothing keeps the invariant. -/
theorem ForwarderInv.quiet (h : ForwarderInv rs config os s)
    (hext : s.forwarder.Extends s'.forwarder)
    (hsender : ∀ peerId, s'.sender peerId = s.sender peerId) (htasks : s'.tasks = s.tasks)
    (hdirect : s'.unprotected = s.unprotected) (hdropped : s'.dropped = s.dropped)
    (htunnel : ∀ peerId, (s'.forwarder.tunnels peerId).isSome →
      (s'.forwarder.fecSenders peerId).isSome)
    (hadds : ∀ add ∈ s'.adds, add.stage ≠ .start → (s'.forwarder.fecSenders add.peerId).isSome)
    (hcalls : ∀ call ∈ s'.calls, call.stage.Backed s'.forwarder)
    (ho : ∀ peerId, acceptedBy peerId o = none) : ForwarderInv rs config (os ++ [o]) s' where
  fecConfig := hext.fecConfig.trans h.fecConfig
  ledger := by
    intro peerId
    rw [accepted_snoc, ho peerId, Option.toList_none, List.append_nil, ForwarderRun.link,
      hsender peerId, ForwarderRun.spawned, htasks]
    exact h.ledger peerId
  tunnel := htunnel
  adds := hadds
  calls := hcalls
  idle := by
    intro peerId hnone
    rw [hsender peerId]
    apply h.idle peerId
    -- tunnels are never removed
    cases hsome : s.forwarder.tunnels peerId with
    | none => rfl
    | some tunnel =>
      have hkept := hext.tunnels peerId (by rw [hsome]; rfl)
      rw [hnone] at hkept
      cases hkept
  unprotected := hdirect.trans h.unprotected
  dropped := hdropped.trans h.dropped

/-- A step of a call before its submission. -/
theorem ForwarderInv.callQuiet (h : ForwarderInv rs config os s) (k : Nat) (call : ForwardCall)
    {stage : CallStage} (hstage : stage.Backed s.forwarder)
    (ho : ∀ peerId, acceptedBy peerId o = none) :
    ForwarderInv rs config (os ++ [o]) (s.setCall k call stage) :=
  h.quiet (Forwarder.Extends.refl _) (fun _ => rfl) rfl rfl rfl h.tunnel h.adds
    (h.setCall (Forwarder.Extends.refl _) k call hstage rfl) ho

/-! ## Steps that submit or drain -/

theorem spawned_spawn (s : ForwarderRun) (peerId : NodeId) (tunnel : TunnelRef)
    (payloads : List Bytes) (shards : Option (List (UInt8 × Bytes))) (x : NodeId) :
    (s.spawn peerId tunnel payloads shards).spawned x =
      if x = peerId then s.spawned x ++ shards.toList.map (EmittedBlock.mk payloads)
      else s.spawned x := by
  cases shards with
  | none => simp [ForwarderRun.spawned, ForwarderRun.spawn]
  | some shards =>
    by_cases hx : x = peerId
    · subst hx
      simp [ForwarderRun.spawned, ForwarderRun.spawn]
    · simp [ForwarderRun.spawned, ForwarderRun.spawn, hx, Ne.symm hx]

theorem sender_setSender (s : ForwarderRun) (peerId : NodeId) (sender : FecSender) (x : NodeId) :
    ForwarderRun.sender { s with forwarder := s.forwarder.setSender peerId sender } x =
      if x = peerId then sender else s.sender x := by
  by_cases hx : x = peerId
  · subst hx
    simp [ForwarderRun.sender, Forwarder.setSender]
  · simp [ForwarderRun.sender, Forwarder.setSender, hx]

/-- The link of a peer after one sender has moved on and perhaps a send task was spawned for it. -/
theorem link_spawn (s : ForwarderRun) (peerId : NodeId) (tunnel : TunnelRef) (payloads : List Bytes)
    (sender : FecSender) (shards : Option (List (UInt8 × Bytes))) (x : NodeId) :
    (ForwarderRun.spawn { s with forwarder := s.forwarder.setSender peerId sender } peerId tunnel
        payloads shards).link x =
      if x = peerId then (s.link x).sent payloads (sender, shards) else s.link x := by
  have hsender : (ForwarderRun.spawn
      { s with forwarder := s.forwarder.setSender peerId sender } peerId
      tunnel payloads shards).sender x = if x = peerId then sender else s.sender x :=
    sender_setSender s peerId sender x
  rw [ForwarderRun.link, hsender, spawned_spawn]
  split
  · rfl
  · rfl

/-- A submission to the sender of a peer, or a flush of it, keeps the invariant if it keeps that of
the peer's link, and leaves nothing buffered for a peer without a tunnel. -/
theorem ForwarderInv.drain (h : ForwarderInv rs config os s) (tunnel : TunnelRef)
    {payloads : List Bytes} {sender : FecSender} {shards : Option (List (UInt8 × Bytes))}
    (hledger : SenderInv rs config (accepted peerId (os ++ [o]))
      ((s.link peerId).sent payloads (sender, shards)))
    (ho : ∀ x, x ≠ peerId → acceptedBy x o = none)
    (hidle : s.forwarder.tunnels peerId = none → sender.buffer = []) :
    ForwarderInv rs config (os ++ [o])
      (ForwarderRun.spawn { s with forwarder := s.forwarder.setSender peerId sender } peerId tunnel
        payloads shards) := by
  have hext := extends_setSender s.forwarder peerId sender
  constructor
  case fecConfig => exact h.fecConfig
  case ledger =>
    intro x
    rw [link_spawn]
    by_cases hx : x = peerId
    · subst hx
      rw [if_pos rfl]
      exact hledger
    · rw [if_neg hx, accepted_snoc, ho x hx, Option.toList_none, List.append_nil]
      exact h.ledger x
  case tunnel => exact fun x hsome => hext.fecSenders x (h.tunnel x hsome)
  case adds => exact fun add hmem hstage => hext.fecSenders _ (h.adds add hmem hstage)
  case calls => exact fun call hmem => (h.calls call hmem).mono hext
  case idle =>
    intro x hnone
    show (ForwarderRun.sender
      { s with forwarder := s.forwarder.setSender peerId sender } x).buffer = []
    rw [sender_setSender]
    by_cases hx : x = peerId
    · subst hx
      rw [if_pos rfl]
      exact hidle hnone
    · rw [if_neg hx]
      exact h.idle x hnone
  case unprotected => exact h.unprotected
  case dropped => exact h.dropped

/-- A submission succeeds and keeps the invariant of the link. -/
theorem SenderInv.submit {l : FecLink} {ps : List Bytes} (hinv : SenderInv rs config ps l)
    (henc : Encodable rs config) (payload : Bytes) :
    ∃ result, l.sender.submit rs payload = .ok result ∧
      SenderInv rs config (ps ++ [payload]) (l.sent (l.sender.buffer ++ [payload]) result) := by
  obtain ⟨payloads, result, hstep, -, -⟩ := hinv.send henc (Or.inl ⟨payload, rfl⟩)
  cases hsubmit : l.sender.submit rs payload with
  | error p =>
    rw [linkStep, hsubmit] at hstep
    cases hstep
  | ok result' =>
    have hstep' : linkStep rs l (.submit payload) =
        .ok (l.sent (l.sender.buffer ++ [payload]) result', none) := by
      rw [linkStep, hsubmit]
      rfl
    exact ⟨result', rfl, hinv.step henc hstep'⟩

theorem SenderInv.flush_ok {l : FecLink} {ps : List Bytes} (hinv : SenderInv rs config ps l)
    (henc : Encodable rs config) :
    ∃ result, l.sender.flushPartial rs = .ok result ∧
      SenderInv rs config ps (l.sent l.sender.buffer result) := by
  obtain ⟨payloads, result, hstep, -, -⟩ := hinv.send henc (Or.inr rfl)
  cases hflush : l.sender.flushPartial rs with
  | error p =>
    rw [linkStep, hflush] at hstep
    cases hstep
  | ok result' =>
    have hstep' : linkStep rs l .flushPartial = .ok (l.sent l.sender.buffer result', none) := by
      rw [linkStep, hflush]
      rfl
    have hkept := hinv.step henc hstep'
    exact ⟨result', rfl, by simpa [submitted] using hkept⟩

theorem sender_eq {sender : FecSender} (h : s.forwarder.fecSenders peerId = some sender) :
    s.sender peerId = sender := by
  rw [ForwarderRun.sender, h, Option.getD_some]

/-- The locked part of `forward_to` keeps the invariant, and the payload is accepted. -/
theorem ForwarderInv.submit (h : ForwarderInv rs config os s) (henc : Encodable rs config) (k : Nat)
    (call : ForwardCall) {nextHop : NodeId} (tunnel : TunnelRef) {sender : FecSender}
    (hsender : s.forwarder.fecSenders nextHop = some sender)
    (htunnel : (s.forwarder.tunnels nextHop).isSome) :
    ∃ s' o, s.submit rs k call nextHop tunnel sender = .ok (s', o) ∧
      ForwarderInv rs config (os ++ [o]) s' := by
  have hlink : (s.link nextHop).sender = sender := sender_eq hsender
  obtain ⟨⟨sender', shards⟩, hsubmit, hinv⟩ := (h.ledger nextHop).submit henc call.relayPayload
  rw [hlink] at hsubmit hinv
  refine ⟨_, some ⟨some nextHop, call.relayPayload, .ok ()⟩,
    by rw [ForwarderRun.submit, hsubmit]; rfl, ?_⟩
  have hledger : SenderInv rs config
      (accepted nextHop (os ++ [some ⟨some nextHop, call.relayPayload, .ok ()⟩]))
      ((s.link nextHop).sent (sender.buffer ++ [call.relayPayload]) (sender', shards)) := by
    simpa [accepted_snoc, acceptedBy] using hinv
  have hdrain := h.drain tunnel hledger
    (by
      intro x hx
      simp [acceptedBy, Ne.symm hx])
    (by
      intro hnone
      rw [hnone] at htunnel
      cases htunnel)
  have hreturned : CallStage.Backed (s.forwarder.setSender nextHop sender') .returned := trivial
  exact { hdrain with
    calls := hdrain.setCall (Forwarder.Extends.refl _) k call hreturned rfl }

/-- `flush_fec` keeps the invariant: a sender with a nonempty buffer has a tunnel. -/
theorem ForwarderInv.flushFec (h : ForwarderInv rs config os s) (henc : Encodable rs config)
    {sender : FecSender} (hsender : s.forwarder.fecSenders peerId = some sender) :
    ∃ s' o, s.flushFec rs peerId sender = .ok (s', o) ∧ ForwarderInv rs config (os ++ [o]) s' := by
  have hlink : (s.link peerId).sender = sender := sender_eq hsender
  obtain ⟨⟨sender', shards⟩, hflush, hinv⟩ := (h.ledger peerId).flush_ok henc
  rw [hlink] at hflush hinv
  have hledger : SenderInv rs config (accepted peerId (os ++ [none]))
      ((s.link peerId).sent sender.buffer (sender', shards)) := by
    simpa [accepted_snoc, acceptedBy] using hinv
  cases htunnel : s.forwarder.tunnels peerId with
  | some tunnel =>
    refine ⟨_, none, ?_, h.drain tunnel hledger (fun _ _ => rfl) (by rw [htunnel]; nofun)⟩
    have hkept : (s.forwarder.setSender peerId sender').tunnels peerId = some tunnel := htunnel
    cases shards with
    | none =>
      simp [ForwarderRun.flushFec, hflush, bind, Except.bind, pure, Except.pure, ForwarderRun.spawn]
    | some shards =>
      simp [ForwarderRun.flushFec, hflush, hkept, bind, Except.bind, pure, Except.pure]
  | none =>
    -- nothing is buffered, so nothing is drained
    have hempty : sender.buffer = [] := by
      rw [← sender_eq hsender]
      exact h.idle peerId htunnel
    rw [flushPartial_eq, if_pos hempty, Except.ok.injEq, Prod.mk.injEq] at hflush
    obtain ⟨rfl, rfl⟩ := hflush
    refine ⟨_, none, ?_, h.drain 0 hledger (fun _ _ => rfl) (fun _ => hempty)⟩
    simp [ForwarderRun.flushFec, flushPartial_eq, hempty, bind, Except.bind, pure, Except.pure,
      ForwarderRun.spawn]

/-! ## Runs -/

/-- A step that changes nothing. -/
theorem ForwarderInv.stay (h : ForwarderInv rs config os s) :
    ForwarderInv rs config (os ++ [none]) s :=
  h.quiet (Forwarder.Extends.refl _) (fun _ => rfl) rfl rfl rfl h.tunnel h.adds h.calls fun _ => rfl

/-- A call of `forward_to` begins. -/
theorem ForwarderInv.beginCall (h : ForwarderInv rs config os s) (call : ForwardCall)
    (hstage : call.stage = .start) :
    ForwarderInv rs config (os ++ [none]) { s with calls := s.calls ++ [call] } := by
  refine h.quiet (Forwarder.Extends.refl _) (fun _ => rfl) rfl rfl rfl h.tunnel h.adds ?_
    fun _ => rfl
  intro c hmem
  rcases List.mem_append.mp hmem with hold | hnew
  · exact h.calls c hold
  · rw [List.mem_singleton.mp hnew, hstage]
    trivial

theorem ForwarderInv.addStep (h : ForwarderInv rs config os s) {j : Nat} {add : AddCall}
    (hadd : s.adds[j]? = some add) : ForwarderInv rs config (os ++ [none]) (s.addStep j add) := by
  have hmem := List.mem_of_getElem? hadd
  cases hstage : add.stage with
  | start =>
    -- the sender comes first, so that every later stage finds it
    have hext := extends_insertSender s.forwarder add.peerId
    simp only [ForwarderRun.addStep, hstage]
    refine h.quiet hext ?_ rfl rfl rfl ?_ ?_ ?_ fun _ => rfl
    · intro x
      by_cases hx : x = add.peerId
      · subst hx
        simp [ForwarderRun.sender, Forwarder.insertSender]
      · simp [ForwarderRun.sender, Forwarder.insertSender, hx]
    · exact fun x hsome => hext.fecSenders x (h.tunnel x hsome)
    · intro add' hmem' hne
      rcases List.mem_or_eq_of_mem_set hmem' with hold | rfl
      · exact hext.fecSenders _ (h.adds add' hold hne)
      · simp [Forwarder.insertSender]
    · exact fun call hcall => (h.calls call hcall).mono hext
  | senderInserted =>
    have hsender := h.adds add hmem (by simp [hstage])
    have hext := extends_insertReceiver s.forwarder add.peerId
    simp only [ForwarderRun.addStep, hstage]
    refine h.quiet hext (fun _ => rfl) rfl rfl rfl h.tunnel ?_
      (fun call hcall => (h.calls call hcall).mono hext) fun _ => rfl
    intro add' hmem' hne
    rcases List.mem_or_eq_of_mem_set hmem' with hold | rfl
    · exact h.adds add' hold hne
    · exact hsender
  | receiverInserted =>
    -- the tunnel becomes visible only now, when its sender is there
    have hsender := h.adds add hmem (by simp [hstage])
    have hext := extends_insertTunnel s.forwarder add.peerId add.tunnel
    simp only [ForwarderRun.addStep, hstage]
    split
    · exact h.stay
    refine h.quiet hext (fun _ => rfl) rfl rfl rfl ?_ ?_
      (fun call hcall => (h.calls call hcall).mono hext) fun _ => rfl
    · intro x hsome
      by_cases hx : x = add.peerId
      · rw [hx]
        exact hsender
      · rw [ForwarderRun.setAdd, Forwarder.insertTunnel] at hsome
        exact h.tunnel x (by simpa [hx] using hsome)
    · intro add' hmem' hne
      rcases List.mem_or_eq_of_mem_set hmem' with hold | rfl
      · exact h.adds add' hold hne
      · exact hsender
  | done =>
    simp only [ForwarderRun.addStep, hstage]
    exact h.stay

theorem ForwarderInv.callStep (h : ForwarderInv rs config os s) (henc : Encodable rs config)
    {k : Nat}
    {call : ForwardCall} (hcall : s.calls[k]? = some call) (route : Option NodeId) (sent : Bool) :
    ∃ s' o, s.callStep rs k call route sent = .ok (s', o) ∧
      ForwarderInv rs config (os ++ [o]) s' := by
  have hbacked := h.calls call (List.mem_of_getElem? hcall)
  cases hstage : call.stage with
  | start =>
    cases route with
    | none =>
      refine ⟨_, _, by simp only [ForwarderRun.callStep, hstage]; rfl, ?_⟩
      exact h.callQuiet k call trivial fun _ => rfl
    | some nextHop =>
      refine ⟨_, _, by simp only [ForwarderRun.callStep, hstage]; rfl, ?_⟩
      exact h.callQuiet k call trivial fun _ => rfl
  | routed nextHop =>
    cases htunnel : s.forwarder.tunnels nextHop with
    | none =>
      refine ⟨_, _, by simp only [ForwarderRun.callStep, hstage, htunnel]; rfl, ?_⟩
      exact h.callQuiet k call trivial fun _ => rfl
    | some tunnel =>
      refine ⟨_, _, by simp only [ForwarderRun.callStep, hstage, htunnel]; rfl, ?_⟩
      have hsome : (s.forwarder.tunnels nextHop).isSome := by rw [htunnel]; rfl
      exact h.callQuiet k call hsome fun _ => rfl
  | withTunnel nextHop tunnel =>
    rw [hstage] at hbacked
    -- a peer with a tunnel has a sender
    obtain ⟨sender, hsender⟩ := Option.isSome_iff_exists.mp (h.tunnel nextHop hbacked)
    refine ⟨_, _, by simp only [ForwarderRun.callStep, hstage, hsender]; rfl, ?_⟩
    have hboth : CallStage.Backed s.forwarder (.withSender nextHop tunnel) :=
      ⟨hbacked, h.tunnel nextHop hbacked⟩
    exact h.callQuiet k call hboth fun _ => rfl
  | withSender nextHop tunnel =>
    rw [hstage] at hbacked
    obtain ⟨sender, hsender⟩ := Option.isSome_iff_exists.mp hbacked.2
    obtain ⟨s', o, hsubmit, hinv⟩ := h.submit henc k call tunnel hsender hbacked.1
    refine ⟨s', o, ?_, hinv⟩
    simp only [ForwarderRun.callStep, hstage, hsender]
    exact hsubmit
  | withoutSender nextHop tunnel =>
    rw [hstage] at hbacked
    exact hbacked.elim
  | returned =>
    refine ⟨s, none, by simp only [ForwarderRun.callStep, hstage], h.stay⟩

/-- Every step succeeds and keeps the invariant. -/
theorem ForwarderInv.step (h : ForwarderInv rs config os s) (henc : Encodable rs config)
    (e : ForwarderEvent) :
    ∃ s' o, forwarderStep rs s e = .ok (s', o) ∧ ForwarderInv rs config (os ++ [o]) s' := by
  cases e with
  | addTunnel peerId tunnel =>
    refine ⟨_, none, rfl, h.quiet (Forwarder.Extends.refl _) (fun _ => rfl) rfl rfl rfl h.tunnel ?_
      h.calls fun _ => rfl⟩
    intro add hmem hne
    rcases List.mem_append.mp hmem with hold | hnew
    · exact h.adds add hold hne
    · rw [List.mem_singleton.mp hnew] at hne
      exact absurd rfl hne
  | addStep j =>
    cases hadd : s.adds[j]? with
    | none => exact ⟨s, none, by simp only [forwarderStep, hadd], h.stay⟩
    | some add => exact ⟨_, none, by simp only [forwarderStep, hadd], h.addStep hadd⟩
  | sendToNode destNode flowId data => exact ⟨_, none, rfl, h.beginCall _ rfl⟩
  | relay destNode payload => exact ⟨_, none, rfl, h.beginCall _ rfl⟩
  | callStep k route sent =>
    cases hcall : s.calls[k]? with
    | none => exact ⟨s, none, by simp only [forwarderStep, hcall], h.stay⟩
    | some call =>
      simp only [forwarderStep, hcall]
      exact h.callStep henc hcall route sent
  | flushFec peerId =>
    cases hsender : s.forwarder.fecSenders peerId with
    | none => exact ⟨s, none, by simp only [forwarderStep, hsender], h.stay⟩
    | some sender =>
      simp only [forwarderStep, hsender]
      exact h.flushFec henc hsender

/-- Every run succeeds and ends in the invariant. -/
theorem forwarderInv_run (henc : Encodable rs config) (es : List ForwarderEvent) :
    ∃ s os, Machine.run (forwarderStep rs) (ForwarderRun.start config) es = .ok (s, os) ∧
      ForwarderInv rs config os s := by
  have hall : Machine.Along (forwarderStep rs) (fun _ _ => True) (ForwarderRun.start config) es :=
    Machine.along_of_invariant trivial (fun _ _ _ _ _ _ => trivial) es
  exact Machine.run_safe (P := fun _ s os => ForwarderInv rs config os s)
    (forwarderInv_start rs henc.accepted) (fun _ _ _ e h _ => h.step henc e) es hall

/-! ## The ledger of a run -/

/-- All blocks of a peer's sender go to its tunnels. -/
theorem Registered.handed_eq (h : Registered s) (peerId : NodeId) :
    s.handed peerId = s.spawned peerId := by
  rw [ForwarderRun.handed, ForwarderRun.spawned]
  congr 1
  apply List.filter_congr
  intro task htask
  refine decide_eq_decide.mpr ⟨And.left, ?_⟩
  rintro rfl
  exact ⟨rfl, h.tasks task htask⟩

/-- Only these go to the tunnels of a peer that shares none with another peer. -/
theorem Registered.sentThrough_eq (h : Registered s)
    (hown : ∀ other, ∀ tunnel ∈ s.tunnelsOf peerId, tunnel ∈ s.tunnelsOf other → other = peerId) :
    s.sentThrough peerId = s.handed peerId := by
  rw [ForwarderRun.handed, ForwarderRun.sentThrough]
  congr 1
  apply List.filter_congr
  intro task htask
  refine decide_eq_decide.mpr ⟨?_, And.right⟩
  intro hmem
  exact ⟨hown _ _ hmem (h.tasks task htask), hmem⟩

/-- In every run nothing aborts, and for every peer the payloads accepted for it are those of the
blocks handed to send tasks for its tunnel, in order, followed by those in its sender's buffer; the
`n`-th of the blocks is the encoding of its payloads under the id `n`. The tunnel of every task is
the one that is registered for its peer when the task is spawned, and if no other peer has a tunnel
of this peer, all blocks sent through its tunnels are its own. No payload leaves without FEC and no
drained block is dropped. A call returns at most once, and one that returns an error has changed no
sender. -/
theorem payloads_sent_once (henc : Encodable rs config) (es : List ForwarderEvent) :
    ∃ s os, Machine.run (forwarderStep rs) (ForwarderRun.start config) es = .ok (s, os) ∧
      (∀ peerId, accepted peerId os =
        ((s.handed peerId).map EmittedBlock.payloads).flatten ++ (s.sender peerId).buffer) ∧
      (∀ peerId n block, (s.handed peerId)[n]? = some block → EmittedAs rs config n block) ∧
      (∀ n task, s.tasks[n]? = some task → SpawnedAt rs config es n task) ∧
      (∀ peerId, (∀ other, ∀ tunnel ∈ s.tunnelsOf peerId,
        tunnel ∈ s.tunnelsOf other → other = peerId) → s.sentThrough peerId = s.handed peerId) ∧
      s.unprotected = [] ∧ s.dropped = [] ∧
      ∀ k, (returnsOf k es os).length ≤ 1 ∧ ∀ r ∈ returnsOf k es os, r.result ≠ .ok () →
        Machine.Along (forwarderStep rs) (KeepsSenders rs k) (ForwarderRun.start config) es := by
  obtain ⟨s, os, hrun, hinv⟩ := forwarderInv_run henc es
  obtain ⟨hreg, hspawned⟩ := Registered.spawned_run hrun
  refine ⟨s, os, hrun, ?_, ?_, hspawned, fun peerId hown => hreg.sentThrough_eq hown,
    hinv.unprotected, hinv.dropped, ?_⟩
  · intro peerId
    rw [hreg.handed_eq]
    exact (hinv.ledger peerId).order.symm
  · intro peerId
    rw [hreg.handed_eq]
    exact (hinv.ledger peerId).emittedAs
  intro k
  have hcall := callHistory_run (k := k) hrun
  refine ⟨hcall.once, ?_⟩
  intro r hr hfail
  apply hcall.kept
  intro r' hr'
  -- the call has returned once only
  have heq : r' = r := by
    have hone := hcall.once
    obtain ⟨i, hi⟩ := List.mem_iff_getElem?.mp hr
    obtain ⟨j, hj⟩ := List.mem_iff_getElem?.mp hr'
    have hilt := (List.getElem?_eq_some_iff.mp hi).1
    have hjlt := (List.getElem?_eq_some_iff.mp hj).1
    obtain rfl : i = j := by omega
    rw [hi, Option.some.injEq] at hj
    exact hj.symm
  rw [heq]
  exact hfail

def pairConfig : FecConfig := ⟨2, 1⟩

theorem encodable_pair : Encodable smallCodec pairConfig :=
  Lawful.encodable
    ⟨smallCodec_acceptsSpec, ⟨by decide, by decide, by decide⟩, smallCodec_recovers_two⟩

/-- What a client sends to `sgp`. -/
def sgpPayload : Bytes := encodeRelayHeader 1 "sgp" [8]

/-- A tunnel is added while a payload is on its way to it: the first call looks for the tunnel too
early. The second one finds the tunnel and refers to it, so that a new tunnel of the peer comes in
only after the payload is submitted; then a tick flushes. -/
def earlyCall : List ForwarderEvent :=
  [.addTunnel "sgp" 3, .addStep 0, .sendToNode "sgp" 1 [7], .callStep 0 (some "sgp") true,
    .callStep 0 none true, .addStep 0, .addStep 0, .addTunnel "sgp" 4, .addStep 1, .addStep 1,
    .relay "sgp" sgpPayload, .callStep 1 (some "sgp") true, .callStep 1 none true, .addStep 1,
    .callStep 1 none true, .callStep 1 none true, .addStep 1, .flushFec "sgp"]

theorem payloads_sent_once_earlyCall :
    ∃ s os task, Machine.run (forwarderStep smallCodec) (ForwarderRun.start pairConfig) earlyCall =
        .ok (s, os) ∧
      s.tasks = [task] ∧ task.peerId = "sgp" ∧ task.tunnel = 4 ∧
      SpawnedAt smallCodec pairConfig earlyCall 0 task ∧
      s.sentThrough "sgp" = [task.block] ∧ accepted "sgp" os = task.block.payloads ∧
      (returnsOf 0 earlyCall os).map Returned.result = [.error (.noTunnel "sgp")] ∧
      Machine.Along (forwarderStep smallCodec) (KeepsSenders smallCodec 0)
        (ForwarderRun.start pairConfig) earlyCall := by
  have hrun : Machine.run (forwarderStep smallCodec) (ForwarderRun.start pairConfig) earlyCall =
      .ok (_, _) := rfl
  obtain ⟨s, os, hrun', haccepted, -, hspawned, hown, -, -, hcalls⟩ :=
    payloads_sent_once encodable_pair earlyCall
  rw [hrun, Except.ok.injEq, Prod.mk.injEq] at hrun'
  obtain ⟨rfl, rfl⟩ := hrun'
  refine ⟨_, _, _, hrun, rfl, rfl, rfl, hspawned 0 _ rfl, ?_, haccepted "sgp", rfl, ?_⟩
  · refine (hown "sgp" ?_).trans rfl
    -- there is no other peer
    intro other tunnel _ hmem
    obtain ⟨add, hadd, hpeer, -⟩ := mem_tunnelsOf.mp hmem
    rw [← hpeer]
    rcases List.mem_cons.mp hadd with rfl | hlast
    · rfl
    · rw [List.mem_singleton.mp hlast]
  · exact (hcalls 0).2 _ (List.mem_singleton_self _) nofun

/-- The early call finds no tunnel; the payload of the other one is the one handed over. -/
example :
    (Machine.run (forwarderStep smallCodec) (ForwarderRun.start pairConfig) earlyCall).map
        (fun r => ((r.1.handed "sgp").map EmittedBlock.payloads, accepted "sgp" r.2)) =
      .ok ([[sgpPayload]], [sgpPayload]) := by
  rfl

end EntrouterLine.Relay
