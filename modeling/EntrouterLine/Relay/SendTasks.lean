import EntrouterLine.Relay.ForwardCalls

/-!
# The tunnel of a send task

A call of `forward_to` refers to the tunnel that it has found until it returns, so no insertion
replaces this tunnel meanwhile. `flush_fec` looks the tunnel up when it has drained the sender. So
every send task has the tunnel that is registered for its peer when it is spawned
(`Registered.spawned_run`), and this is one that `add_tunnel` has inserted.
-/

set_option autoImplicit false

namespace EntrouterLine.Relay

open EntrouterLine.Lib

/-- The tunnels that `add_tunnel` has registered for a peer. -/
def ForwarderRun.tunnelsOf (s : ForwarderRun) (peerId : NodeId) : List TunnelRef :=
  (s.adds.filter fun add => add.peerId = peerId ∧ add.stage = .done).map AddCall.tunnel

/-- The task has the tunnel that is registered for its peer. -/
def ForwarderRun.HasTunnel (s : ForwarderRun) (task : SendTask) : Prop :=
  s.forwarder.tunnels task.peerId = some task.tunnel

/-- What calls refer to is still in the map, and all tunnels in use come from `add_tunnel`. -/
structure Registered (s : ForwarderRun) : Prop where
  calls : ∀ call ∈ s.calls, ∀ ref, call.stage.holds = some ref →
    s.forwarder.tunnels ref.1 = some ref.2
  tunnels : ∀ peerId tunnel, s.forwarder.tunnels peerId = some tunnel →
    tunnel ∈ s.tunnelsOf peerId
  tasks : ∀ task ∈ s.tasks, task.tunnel ∈ s.tunnelsOf task.peerId

/-- A step spawns no task, or one with the tunnel that is registered for its peer. -/
def SpawnsRegistered (s s' : ForwarderRun) : Prop :=
  s'.tasks = s.tasks ∨ ∃ task, s'.tasks = s.tasks ++ [task] ∧ s.HasTunnel task

/-- The task is number `n`, and when it is spawned its tunnel is the one that is registered for its
peer. -/
def SpawnedAt (rs : ReedSolomon) (config : FecConfig) (es : List ForwarderEvent) (n : Nat)
    (task : SendTask) : Prop :=
  ∃ es₁ e es₂ s₁ os₁ s₂ o, es = es₁ ++ e :: es₂ ∧
    Machine.run (forwarderStep rs) (ForwarderRun.start config) es₁ = .ok (s₁, os₁) ∧
    forwarderStep rs s₁ e = .ok (s₂, o) ∧ s₁.tasks.length = n ∧ s₂.tasks = s₁.tasks ++ [task] ∧
    s₁.HasTunnel task

variable {rs : ReedSolomon} {config : FecConfig} {os : List (Option Returned)} {s s' : ForwarderRun}
  {o : Option Returned} {peerId : NodeId} {tunnel : TunnelRef}

theorem mem_tunnelsOf : tunnel ∈ s.tunnelsOf peerId ↔
    ∃ add ∈ s.adds, add.peerId = peerId ∧ add.stage = .done ∧ add.tunnel = tunnel := by
  simp [ForwarderRun.tunnelsOf, and_assoc]

theorem registered_start (config : FecConfig) : Registered (ForwarderRun.start config) where
  calls := nofun
  tunnels := nofun
  tasks := nofun

/-! ## Steps -/

/-- An `add_tunnel` that has registered its tunnel stays in the list when another one moves on. -/
theorem mem_tunnelsOf_setAdd {j : Nat} {add : AddCall} (hadd : s.adds[j]? = some add)
    (hopen : add.stage ≠ .done) (stage : AddStage) (h : tunnel ∈ s.tunnelsOf peerId) :
    tunnel ∈ (s.setAdd j add stage).tunnelsOf peerId := by
  obtain ⟨add', hmem, hpeer, hdone, htunnel⟩ := mem_tunnelsOf.mp h
  obtain ⟨i, hi⟩ := List.mem_iff_getElem?.mp hmem
  have hne : j ≠ i := by
    rintro rfl
    rw [hadd, Option.some.injEq] at hi
    rw [hi] at hopen
    exact hopen hdone
  refine mem_tunnelsOf.mpr ⟨add', ?_, hpeer, hdone, htunnel⟩
  apply List.mem_of_getElem? (i := i)
  rw [ForwarderRun.setAdd, List.getElem?_set_ne hne]
  exact hi

/-- A step that keeps the tunnels, and all registrations, keeps the invariant if the references of
the calls are in order. -/
theorem Registered.keep (h : Registered s)
    (htunnels : s'.forwarder.tunnels = s.forwarder.tunnels)
    (hadds : ∀ peerId tunnel, tunnel ∈ s.tunnelsOf peerId → tunnel ∈ s'.tunnelsOf peerId)
    (hcalls : ∀ call ∈ s'.calls, ∀ ref, call.stage.holds = some ref →
      s.forwarder.tunnels ref.1 = some ref.2)
    (hspawns : SpawnsRegistered s s') : Registered s' where
  calls := by
    rw [htunnels]
    exact hcalls
  tunnels := by
    intro peerId tunnel htunnel
    rw [htunnels] at htunnel
    exact hadds _ _ (h.tunnels peerId tunnel htunnel)
  tasks := by
    intro task htask
    apply hadds
    rcases hspawns with hsame | ⟨new, hnew, hregistered⟩
    · rw [hsame] at htask
      exact h.tasks task htask
    · rw [hnew] at htask
      rcases List.mem_append.mp htask with hold | hlast
      · exact h.tasks task hold
      · rw [List.mem_singleton.mp hlast]
        exact h.tunnels _ _ hregistered

/-- No call refers to the tunnel of the peer. -/
theorem fst_ne_of_not_tunnelHeld (hfree : s.tunnelHeld peerId = false) {call : ForwardCall}
    (hcall : call ∈ s.calls) {ref : NodeId × TunnelRef} (href : call.stage.holds = some ref) :
    ref.1 ≠ peerId := by
  intro heq
  have hheld : s.tunnelHeld peerId = true := by
    rw [ForwarderRun.tunnelHeld, List.any_eq_true]
    exact ⟨call, hcall, by simp [href, heq]⟩
  rw [hfree] at hheld
  cases hheld

theorem Registered.addStep (h : Registered s) {j : Nat} {add : AddCall}
    (hadd : s.adds[j]? = some add) : Registered (s.addStep j add) ∧
      SpawnsRegistered s (s.addStep j add) := by
  cases hstage : add.stage with
  | start =>
    simp only [ForwarderRun.addStep, hstage]
    exact ⟨h.keep rfl (fun _ _ hmem => mem_tunnelsOf_setAdd hadd (by simp [hstage]) _ hmem) h.calls
      (Or.inl rfl), Or.inl rfl⟩
  | senderInserted =>
    simp only [ForwarderRun.addStep, hstage]
    exact ⟨h.keep rfl (fun _ _ hmem => mem_tunnelsOf_setAdd hadd (by simp [hstage]) _ hmem) h.calls
      (Or.inl rfl), Or.inl rfl⟩
  | receiverInserted =>
    simp only [ForwarderRun.addStep, hstage]
    cases hheld : s.tunnelHeld add.peerId with
    | true =>
      rw [if_pos rfl]
      exact ⟨h, Or.inl rfl⟩
    | false =>
      rw [if_neg Bool.false_ne_true]
      have hkept : ∀ peerId tunnel, tunnel ∈ s.tunnelsOf peerId →
          tunnel ∈ (s.setAdd j add .done).tunnelsOf peerId :=
        fun _ _ hmem => mem_tunnelsOf_setAdd hadd (by simp [hstage]) _ hmem
      refine ⟨⟨?_, ?_, fun task htask => hkept _ _ (h.tasks task htask)⟩, Or.inl rfl⟩
      · intro call hcall ref href
        -- the insertion has waited for the calls that refer to the old tunnel
        have hne := fst_ne_of_not_tunnelHeld hheld hcall href
        exact (Function.update_of_ne hne ..).trans (h.calls call hcall ref href)
      · intro x tunnel htunnel
        change Function.update s.forwarder.tunnels add.peerId (some add.tunnel) x = some tunnel
          at htunnel
        by_cases hx : x = add.peerId
        · rw [hx, Function.update_self, Option.some.injEq] at htunnel
          have hlt := (List.getElem?_eq_some_iff.mp hadd).1
          refine mem_tunnelsOf.mpr ⟨{ add with stage := .done }, ?_, hx.symm, rfl, htunnel⟩
          exact List.mem_of_getElem? (List.getElem?_set_self hlt)
        · rw [Function.update_of_ne hx] at htunnel
          exact hkept _ _ (h.tunnels x tunnel htunnel)
  | done =>
    simp only [ForwarderRun.addStep, hstage]
    exact ⟨h, Or.inl rfl⟩

theorem Registered.callStep (h : Registered s) {k : Nat} {call : ForwardCall}
    (hcall : s.calls[k]? = some call) {route : Option NodeId} {sent : Bool}
    (hstep : s.callStep rs k call route sent = .ok (s', o)) :
    Registered s' ∧ SpawnsRegistered s s' := by
  rcases callStep_cases hstep with ⟨rfl, -⟩ | ⟨-, stage, hmove⟩
  · exact ⟨h, Or.inl rfl⟩
  have hmem := List.mem_of_getElem? hcall
  -- a task gets the tunnel that its call refers to, and this is still the registered one
  have hspawns : SpawnsRegistered s s' := by
    rcases hmove.tasks with hsame | ⟨task, hnew, hholds⟩
    · exact Or.inl hsame
    · exact Or.inr ⟨task, hnew, h.calls call hmem _ hholds⟩
  refine ⟨h.keep hmove.tunnels ?_ ?_ hspawns, hspawns⟩
  · intro peerId tunnel hold
    rw [ForwarderRun.tunnelsOf, hmove.adds]
    exact hold
  · intro c hc ref href
    rw [hmove.calls] at hc
    rcases List.mem_or_eq_of_mem_set hc with hold | rfl
    · exact h.calls c hold ref href
    · rcases hmove.holds ref href with hbefore | hfound
      · exact h.calls call hmem ref hbefore
      · exact hfound

/-- A call that begins refers to no tunnel. -/
theorem Registered.beginCall (h : Registered s) (call : ForwardCall)
    (hstage : call.stage = .start) : Registered { s with calls := s.calls ++ [call] } := by
  refine h.keep rfl (fun _ _ hmem => hmem) ?_ (Or.inl rfl)
  intro c hc ref href
  rcases List.mem_append.mp hc with hold | hnew
  · exact h.calls c hold ref href
  · rw [List.mem_singleton.mp hnew, hstage] at href
    cases href

theorem Registered.step (h : Registered s) {e : ForwarderEvent}
    (hstep : forwarderStep rs s e = .ok (s', o)) : Registered s' ∧ SpawnsRegistered s s' := by
  cases e with
  | addTunnel peerId tunnel =>
    cases hstep
    refine ⟨h.keep rfl ?_ h.calls (Or.inl rfl), Or.inl rfl⟩
    intro x tunnel' hmem
    obtain ⟨add, hadd, hdone⟩ := mem_tunnelsOf.mp hmem
    exact mem_tunnelsOf.mpr ⟨add, List.mem_append_left _ hadd, hdone⟩
  | addStep j =>
    cases hadd : s.adds[j]? with
    | none =>
      simp only [forwarderStep, hadd] at hstep
      cases hstep
      exact ⟨h, Or.inl rfl⟩
    | some add =>
      simp only [forwarderStep, hadd] at hstep
      cases hstep
      exact h.addStep hadd
  | sendToNode destNode flowId data =>
    cases hstep
    exact ⟨h.beginCall _ rfl, Or.inl rfl⟩
  | relay destNode payload =>
    cases hstep
    exact ⟨h.beginCall _ rfl, Or.inl rfl⟩
  | callStep k route sent =>
    cases hcall : s.calls[k]? with
    | none =>
      simp only [forwarderStep, hcall] at hstep
      cases hstep
      exact ⟨h, Or.inl rfl⟩
    | some call =>
      simp only [forwarderStep, hcall] at hstep
      exact h.callStep hcall hstep
  | flushFec peerId =>
    cases hsender : s.forwarder.fecSenders peerId with
    | none =>
      simp only [forwarderStep, hsender] at hstep
      cases hstep
      exact ⟨h, Or.inl rfl⟩
    | some sender =>
      simp only [forwarderStep, hsender] at hstep
      -- `flush_fec` looks the tunnel up when it has drained the sender
      obtain ⟨hcalls, hadds, htunnels, hspawns⟩ := flushFec_cases hstep
      refine ⟨h.keep htunnels ?_ ?_ hspawns, hspawns⟩
      · intro x tunnel hmem
        rw [ForwarderRun.tunnelsOf, hadds]
        exact hmem
      · rw [hcalls]
        exact h.calls

/-! ## Runs -/

theorem SpawnedAt.snoc {es : List ForwarderEvent} {n : Nat} {task : SendTask}
    (h : SpawnedAt rs config es n task) (e : ForwarderEvent) :
    SpawnedAt rs config (es ++ [e]) n task := by
  obtain ⟨es₁, e₁, es₂, s₁, os₁, s₂, o₁, rfl, hspawn⟩ := h
  exact ⟨es₁, e₁, es₂ ++ [e], s₁, os₁, s₂, o₁, by simp, hspawn⟩

/-- In every run, every send task was spawned with the tunnel that was registered for its peer. -/
theorem Registered.spawned_run {es : List ForwarderEvent}
    (hrun : Machine.run (forwarderStep rs) (ForwarderRun.start config) es = .ok (s, os)) :
    Registered s ∧ ∀ n task, s.tasks[n]? = some task → SpawnedAt rs config es n task := by
  suffices h : Machine.run (forwarderStep rs) (ForwarderRun.start config) es = .ok (s, os) ∧
      Registered s ∧ ∀ n task, s.tasks[n]? = some task → SpawnedAt rs config es n task from h.2
  refine Machine.run_induction (P := fun es s os =>
    Machine.run (forwarderStep rs) (ForwarderRun.start config) es = .ok (s, os) ∧
      Registered s ∧ ∀ n task, s.tasks[n]? = some task → SpawnedAt rs config es n task)
    ⟨rfl, registered_start config, nofun⟩ ?_ es s os hrun
  rintro es s os e s' o ⟨hrun, hreg, hspawned⟩ hstep
  obtain ⟨hreg', hspawns⟩ := hreg.step hstep
  refine ⟨Machine.run_snoc hrun hstep, hreg', ?_⟩
  intro n task htask
  -- a task of an earlier step was spawned in the shorter run
  rcases hspawns with hsame | ⟨new, hnew, htunnel⟩
  · rw [hsame] at htask
    exact (hspawned n task htask).snoc e
  rw [hnew] at htask
  by_cases hlt : n < s.tasks.length
  · rw [List.getElem?_append_left hlt] at htask
    exact (hspawned n task htask).snoc e
  · -- it is the task that this step has spawned
    rw [List.getElem?_append_right (Nat.le_of_not_lt hlt), List.getElem?_singleton] at htask
    split at htask
    · rename_i hn
      cases htask
      exact ⟨es, e, [], s, os, s', o, rfl, hrun, hstep, by omega, hnew, htunnel⟩
    · cases htask

end EntrouterLine.Relay
