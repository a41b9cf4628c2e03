import EntrouterLine.Relay.Forwarder

/-!
# One call of `forward_to`

A call goes from stage to stage and returns once (`callStep_cases`). The steps of other calls leave
it alone (`getElem?_calls`). Only its last step touches a sender, and with it the call returns `Ok`;
so a call that returns an error has changed no sender (`callHistory_run`).
-/

set_option autoImplicit false

namespace EntrouterLine.Relay

open EntrouterLine.Lib

variable {rs : ReedSolomon} {config : FecConfig} {os : List (Option Returned)} {s s' : ForwarderRun}
  {o : Option Returned} {peerId : NodeId}

/-- The event is a step of call `k`. -/
def ForwarderEvent.isStepOf (k : Nat) : ForwarderEvent → Bool
  | .callStep k' _ _ => k' = k
  | _ => false

/-! ## Steps -/

/-- Call `k` goes on to another stage. It refers only to a tunnel that it has found in the map, now
or before, and a send task that it spawns is for this tunnel. It has touched a sender only if it
returns `Ok`. -/
structure CallStepped (s s' : ForwarderRun) (k : Nat) (call : ForwardCall) (stage : CallStage)
    (o : Option Returned) : Prop where
  calls : s'.calls = s.calls.set k { call with stage := stage }
  adds : s'.adds = s.adds
  tunnels : s'.forwarder.tunnels = s.forwarder.tunnels
  holds : ∀ ref, stage.holds = some ref →
    call.stage.holds = some ref ∨ s.forwarder.tunnels ref.1 = some ref.2
  tasks : s'.tasks = s.tasks ∨ ∃ task, s'.tasks = s.tasks ++ [task] ∧
    call.stage.holds = some (task.peerId, task.tunnel)
  outcome : (o = none ∧ s'.forwarder.fecSenders = s.forwarder.fecSenders) ∨
    ∃ r, o = some r ∧ stage = .returned ∧
      (r.result = .ok () ∨ s'.forwarder.fecSenders = s.forwarder.fecSenders)

/-- A call that goes on without spawning a task. -/
theorem CallStepped.quiet {k : Nat} {call : ForwardCall} {stage : CallStage}
    (hholds : ∀ ref, stage.holds = some ref →
      call.stage.holds = some ref ∨ s.forwarder.tunnels ref.1 = some ref.2)
    (houtcome : o = none ∨ ∃ r, o = some r ∧ stage = .returned) :
    CallStepped s (s.setCall k call stage) k call stage o := by
  refine ⟨rfl, rfl, rfl, hholds, Or.inl rfl, ?_⟩
  rcases houtcome with rfl | ⟨r, rfl, hstage⟩
  · exact Or.inl ⟨rfl, rfl⟩
  · exact Or.inr ⟨r, rfl, hstage, Or.inr rfl⟩

/-- Everything a step of a call can do: nothing, or it goes on to another stage. -/
theorem callStep_cases {k : Nat} {call : ForwardCall} {route : Option NodeId} {sent : Bool}
    (h : s.callStep rs k call route sent = .ok (s', o)) :
    (s' = s ∧ o = none) ∨
      (call.stage ≠ .returned ∧ ∃ stage, CallStepped s s' k call stage o) := by
  cases hstage : call.stage with
  | start =>
    cases route with
    | none =>
      simp only [ForwarderRun.callStep, hstage, Except.ok.injEq, Prod.mk.injEq] at h
      obtain ⟨rfl, rfl⟩ := h
      exact Or.inr ⟨nofun, _, CallStepped.quiet nofun (Or.inr ⟨_, rfl, rfl⟩)⟩
    | some nextHop =>
      simp only [ForwarderRun.callStep, hstage, Except.ok.injEq, Prod.mk.injEq] at h
      obtain ⟨rfl, rfl⟩ := h
      exact Or.inr ⟨nofun, _, CallStepped.quiet nofun (Or.inl rfl)⟩
  | routed nextHop =>
    cases htunnel : s.forwarder.tunnels nextHop with
    | none =>
      simp only [ForwarderRun.callStep, hstage, htunnel, Except.ok.injEq, Prod.mk.injEq] at h
      obtain ⟨rfl, rfl⟩ := h
      exact Or.inr ⟨nofun, _, CallStepped.quiet nofun (Or.inr ⟨_, rfl, rfl⟩)⟩
    | some tunnel =>
      simp only [ForwarderRun.callStep, hstage, htunnel, Except.ok.injEq, Prod.mk.injEq] at h
      obtain ⟨rfl, rfl⟩ := h
      refine Or.inr ⟨nofun, _, CallStepped.quiet ?_ (Or.inl rfl)⟩
      -- this is the tunnel it has just found
      intro ref href
      cases href
      exact Or.inr htunnel
  | withTunnel nextHop tunnel =>
    cases hsender : s.forwarder.fecSenders nextHop with
    | none =>
      simp only [ForwarderRun.callStep, hstage, hsender, Except.ok.injEq, Prod.mk.injEq] at h
      obtain ⟨rfl, rfl⟩ := h
      refine Or.inr ⟨nofun, _, CallStepped.quiet ?_ (Or.inl rfl)⟩
      intro ref href
      exact Or.inl (by rw [hstage]; exact href)
    | some sender =>
      simp only [ForwarderRun.callStep, hstage, hsender, Except.ok.injEq, Prod.mk.injEq] at h
      obtain ⟨rfl, rfl⟩ := h
      refine Or.inr ⟨nofun, _, CallStepped.quiet ?_ (Or.inl rfl)⟩
      intro ref href
      exact Or.inl (by rw [hstage]; exact href)
  | withSender nextHop tunnel =>
    cases hsender : s.forwarder.fecSenders nextHop with
    | none =>
      simp only [ForwarderRun.callStep, hstage, hsender, Except.ok.injEq, Prod.mk.injEq] at h
      exact Or.inl ⟨h.1.symm, h.2.symm⟩
    | some sender =>
      simp only [ForwarderRun.callStep, hstage, hsender, ForwarderRun.submit] at h
      cases hsubmit : sender.submit rs call.relayPayload with
      | error p =>
        rw [hsubmit] at h
        cases h
      | ok result =>
        rw [hsubmit] at h
        cases h
        refine Or.inr ⟨nofun, .returned, rfl, rfl, rfl, nofun, ?_,
          Or.inr ⟨_, rfl, rfl, Or.inl rfl⟩⟩
        -- a full block makes one task
        cases result.2 with
        | none => exact Or.inl (List.append_nil _)
        | some shards => exact Or.inr ⟨_, rfl, by rw [hstage]; rfl⟩
  | withoutSender nextHop tunnel =>
    cases sent with
    | true =>
      simp only [ForwarderRun.callStep, hstage, if_true, Except.ok.injEq, Prod.mk.injEq] at h
      obtain ⟨rfl, rfl⟩ := h
      exact Or.inr ⟨nofun, .returned, rfl, rfl, rfl, nofun, Or.inl rfl,
        Or.inr ⟨_, rfl, rfl, Or.inl rfl⟩⟩
    | false =>
      simp only [ForwarderRun.callStep, hstage, Bool.false_eq_true, if_false, Except.ok.injEq,
        Prod.mk.injEq] at h
      obtain ⟨rfl, rfl⟩ := h
      exact Or.inr ⟨nofun, _, CallStepped.quiet nofun (Or.inr ⟨_, rfl, rfl⟩)⟩
  | returned =>
    simp only [ForwarderRun.callStep, hstage, Except.ok.injEq, Prod.mk.injEq] at h
    exact Or.inl ⟨h.1.symm, h.2.symm⟩

/-- Everything `flush_fec` can do at a sender besides changing it: it spawns a task for the tunnel
that is registered for the peer, or drops what it has drained. -/
theorem flushFec_cases {sender : FecSender} (h : s.flushFec rs peerId sender = .ok (s', o)) :
    s'.calls = s.calls ∧ s'.adds = s.adds ∧ s'.forwarder.tunnels = s.forwarder.tunnels ∧
      (s'.tasks = s.tasks ∨ ∃ task, s'.tasks = s.tasks ++ [task] ∧
        s.forwarder.tunnels task.peerId = some task.tunnel) := by
  cases hflush : sender.flushPartial rs with
  | error p =>
    rw [ForwarderRun.flushFec, hflush] at h
    cases h
  | ok result =>
    obtain ⟨sender', shards⟩ := result
    simp only [ForwarderRun.flushFec, hflush, bind, Except.bind, pure, Except.pure] at h
    split at h
    · rename_i htunnel
      cases h
      exact ⟨rfl, rfl, rfl, Or.inr ⟨_, rfl, htunnel⟩⟩
    · cases h
      exact ⟨rfl, rfl, rfl, Or.inl rfl⟩
    · cases h
      exact ⟨rfl, rfl, rfl, Or.inl rfl⟩

theorem addStep_calls (s : ForwarderRun) (j : Nat) (add : AddCall) :
    (s.addStep j add).calls = s.calls := by
  unfold ForwarderRun.addStep
  split
  case h_3 => split <;> rfl
  all_goals rfl

/-- A step of anything else leaves a call where it is. -/
theorem getElem?_calls {k : Nat} {call : ForwardCall} {e : ForwarderEvent}
    (hcall : s.calls[k]? = some call) (he : e.isStepOf k = false)
    (h : forwarderStep rs s e = .ok (s', o)) : s'.calls[k]? = some call := by
  have hlt := (List.getElem?_eq_some_iff.mp hcall).1
  cases e with
  | addTunnel peerId tunnel =>
    cases h
    exact hcall
  | addStep j =>
    cases hadd : s.adds[j]? with
    | none =>
      simp only [forwarderStep, hadd] at h
      cases h
      exact hcall
    | some add =>
      simp only [forwarderStep, hadd] at h
      cases h
      rw [addStep_calls]
      exact hcall
  | sendToNode destNode flowId data =>
    -- a new call comes after those there are
    cases h
    exact (List.getElem?_append_left hlt).trans hcall
  | relay destNode payload =>
    cases h
    exact (List.getElem?_append_left hlt).trans hcall
  | callStep k' route sent =>
    -- another call is replaced in its own place
    have hne : k' ≠ k := by simpa [ForwarderEvent.isStepOf] using he
    cases hcall' : s.calls[k']? with
    | none =>
      simp only [forwarderStep, hcall'] at h
      cases h
      exact hcall
    | some call' =>
      simp only [forwarderStep, hcall'] at h
      rcases callStep_cases h with ⟨rfl, -⟩ | ⟨-, stage, hmove⟩
      · exact hcall
      · rw [hmove.calls, List.getElem?_set_ne hne]
        exact hcall
  | flushFec peerId =>
    cases hsender : s.forwarder.fecSenders peerId with
    | none =>
      simp only [forwarderStep, hsender] at h
      cases h
      exact hcall
    | some sender =>
      simp only [forwarderStep, hsender] at h
      rw [(flushFec_cases h).1]
      exact hcall

/-! ## Runs -/

/-- What call `k` returns in a run. -/
def returnsOf (k : Nat) (es : List ForwarderEvent) (os : List (Option Returned)) : List Returned :=
  (es.zip os).filterMap fun p => if p.1.isStepOf k then p.2 else none

/-- A step of call `k` leaves all senders as they are. -/
def KeepsSenders (rs : ReedSolomon) (k : Nat) (s : ForwarderRun) (e : ForwarderEvent) : Prop :=
  e.isStepOf k → ∀ s' o, forwarderStep rs s e = .ok (s', o) →
    s'.forwarder.fecSenders = s.forwarder.fecSenders

theorem returnsOf_snoc {es : List ForwarderEvent} (h : os.length = es.length) (k : Nat)
    (e : ForwarderEvent) (o : Option Returned) :
    returnsOf k (es ++ [e]) (os ++ [o]) =
      returnsOf k es os ++ if e.isStepOf k then o.toList else [] := by
  rw [returnsOf, List.zip_append h.symm, List.filterMap_append]
  cases hstep : e.isStepOf k <;> cases o <;> simp [returnsOf, hstep]

/-- A call returns once, and after that it does nothing. If it has not returned `Ok`, none of its
steps has touched a sender. -/
structure CallHistory (rs : ReedSolomon) (config : FecConfig) (k : Nat) (es : List ForwarderEvent)
    (s : ForwarderRun) (os : List (Option Returned)) : Prop where
  run : Machine.run (forwarderStep rs) (ForwarderRun.start config) es = .ok (s, os)
  length : os.length = es.length
  once : (returnsOf k es os).length ≤ 1
  ended : returnsOf k es os ≠ [] → ∃ call, s.calls[k]? = some call ∧ call.stage = .returned
  kept : (∀ r ∈ returnsOf k es os, r.result ≠ .ok ()) →
    Machine.Along (forwarderStep rs) (KeepsSenders rs k) (ForwarderRun.start config) es

/-- A step that is none of call `k`, or one in which it does not return. -/
theorem CallHistory.stepOn {k : Nat} {es : List ForwarderEvent} {e : ForwarderEvent}
    (h : CallHistory rs config k es s os) (hstep : forwarderStep rs s e = .ok (s', o))
    (ho : e.isStepOf k → o = none) (hended : ∀ call, s.calls[k]? = some call →
      call.stage = .returned → s'.calls[k]? = some call)
    (hkept : e.isStepOf k → s'.forwarder.fecSenders = s.forwarder.fecSenders) :
    CallHistory rs config k (es ++ [e]) s' (os ++ [o]) := by
  have hreturns : returnsOf k (es ++ [e]) (os ++ [o]) = returnsOf k es os := by
    rw [returnsOf_snoc h.length]
    cases hk : e.isStepOf k with
    | true =>
      rw [ho hk]
      simp
    | false => simp
  refine ⟨Machine.run_snoc h.run hstep, by simp [h.length], ?_, ?_, ?_⟩
  · rw [hreturns]
    exact h.once
  · rw [hreturns]
    intro hne
    obtain ⟨call, hcall, hstage⟩ := h.ended hne
    exact ⟨call, hended call hcall hstage, hstage⟩
  · rw [hreturns]
    intro hfail
    refine (Machine.along_snoc h.run).mpr ⟨h.kept hfail, ?_⟩
    intro hk t o' hstep'
    rw [hstep] at hstep'
    cases hstep'
    exact hkept hk

theorem CallHistory.step {k : Nat} {es : List ForwarderEvent} {e : ForwarderEvent}
    (h : CallHistory rs config k es s os) (hstep : forwarderStep rs s e = .ok (s', o)) :
    CallHistory rs config k (es ++ [e]) s' (os ++ [o]) := by
  cases hk : e.isStepOf k with
  | false =>
    have hnot : ¬e.isStepOf k := by simp [hk]
    exact h.stepOn hstep (fun hstepOf => absurd hstepOf hnot)
      (fun call hcall _ => getElem?_calls hcall hk hstep) (fun hstepOf => absurd hstepOf hnot)
  | true =>
    obtain ⟨route, sent, rfl⟩ : ∃ route sent, e = .callStep k route sent := by
      cases e <;> simp_all [ForwarderEvent.isStepOf]
    cases hcall : s.calls[k]? with
    | none =>
      simp only [forwarderStep, hcall] at hstep
      cases hstep
      refine h.stepOn (by simp only [forwarderStep, hcall]) (fun _ => rfl) ?_ (fun _ => rfl)
      intro call hcall'
      rw [hcall] at hcall'
      cases hcall'
    | some call =>
      have hstep' := hstep
      simp only [forwarderStep, hcall] at hstep'
      have hlt := (List.getElem?_eq_some_iff.mp hcall).1
      rcases callStep_cases hstep' with ⟨rfl, rfl⟩ | ⟨hopen, stage, hmove⟩
      · exact h.stepOn hstep (fun _ => rfl) (fun _ hcall' _ => hcall') (fun _ => rfl)
      rcases hmove.outcome with ⟨rfl, hsame⟩ | hreturn
      · refine h.stepOn hstep (fun _ => rfl) ?_ (fun _ => hsame)
        intro call' hcall' hstage
        rw [hcall, Option.some.injEq] at hcall'
        subst hcall'
        exact absurd hstage hopen
      · obtain ⟨r, rfl, rfl, hresult⟩ := hreturn
        -- the call has not returned before
        have hnone : returnsOf k es os = [] := by
          by_contra hne
          obtain ⟨call', hcall', hstage⟩ := h.ended hne
          rw [hcall, Option.some.injEq] at hcall'
          subst hcall'
          exact hopen hstage
        have hreturns : returnsOf k (es ++ [.callStep k route sent]) (os ++ [some r]) = [r] := by
          rw [returnsOf_snoc h.length, hk, hnone]
          rfl
        refine ⟨Machine.run_snoc h.run hstep, by simp [h.length], ?_, ?_, ?_⟩
        · rw [hreturns]
          exact Nat.le_refl 1
        · intro _
          refine ⟨{ call with stage := .returned }, ?_, rfl⟩
          rw [hmove.calls, List.getElem?_set_self hlt]
        · rw [hreturns]
          intro hfail
          refine (Machine.along_snoc h.run).mpr ⟨h.kept (by rw [hnone]; exact nofun), ?_⟩
          intro _ t o' hstep''
          rw [hstep] at hstep''
          cases hstep''
          rcases hresult with hok | hsame
          · exact absurd hok (hfail r (List.mem_singleton_self r))
          · exact hsame

theorem callHistory_run {k : Nat} {es : List ForwarderEvent}
    (hrun : Machine.run (forwarderStep rs) (ForwarderRun.start config) es = .ok (s, os)) :
    CallHistory rs config k es s os := by
  refine Machine.run_induction (P := fun es s os => CallHistory rs config k es s os) ?_ ?_ es s os
    hrun
  · exact ⟨rfl, rfl, Nat.zero_le 1, fun h => absurd rfl h, fun _ => trivial⟩
  · intro es s os e s' o h hstep
    exact h.step hstep

end EntrouterLine.Relay
