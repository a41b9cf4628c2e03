import EntrouterLine.Lib.Machine

/-!
# Simulation of one machine by another

A step of the first machine is matched if the second machine has nothing to do for it, or takes one
step that an observer cannot tell from it, or if both abort (`Matched`). When every step of the
first machine is matched, in all states that a relation relates, every run of it is
(`Simulates.run`). A machine that is simulated by one that does not abort does not abort
(`Simulates.run_ok`).
-/

set_option autoImplicit false

namespace EntrouterLine.Lib.Machine

universe u v w x y

variable {σ τ : Type u} {ε δ : Type v} {ω υ : Type w} {π ρ : Type x} {ν : Type y}

/-- What an observer sees of a run. -/
def trace (see : ε → ω → List ν) : List ε → List ω → List ν
  | e :: es, o :: os => see e o ++ trace see es os
  | _, _ => []

/-- Where the outputs show nothing, the steps alone are seen. -/
theorem trace_eq_flatMap {f : ε → List ν} {es : List ε} {os : List ω}
    (hlen : os.length = es.length) : trace (fun e _ => f e) es os = es.flatMap f := by
  induction es generalizing os with
  | nil =>
    rw [List.length_eq_zero_iff.mp hlen]
    rfl
  | cons e es ih =>
    cases os with
    | nil => cases hlen
    | cons o os => rw [trace, ih (Nat.succ.inj hlen), List.flatMap_cons]

/-- What matches a step of the first machine at the second one. -/
inductive Matched (step : σ → ε → Except π (σ × ω)) (see : ε → ω → List ν)
    (step' : τ → δ → Except ρ (τ × υ)) (see' : δ → υ → List ν) (D : τ → δ → Prop)
    (R : σ → τ → Prop) (s : σ) (t : τ) (e : ε) : Prop
  | idle {s' : σ} {o : ω} (hstep : step s e = .ok (s', o)) (hsee : see e o = []) (hrel : R s' t)
  | moved {s' : σ} {t' : τ} {d : δ} {o : ω} {o' : υ} (hstep : step s e = .ok (s', o))
      (hD : D t d) (hstep' : step' t d = .ok (t', o')) (hsee : see e o = see' d o')
      (hrel : R s' t')
  | aborted {p : π} {d : δ} {q : ρ} (hstep : step s e = .error p) (hD : D t d)
      (hstep' : step' t d = .error q)

/-- The second machine matches every step that meets `C`, by steps that meet `D`. -/
def Simulates (step : σ → ε → Except π (σ × ω)) (see : ε → ω → List ν) (C : σ → ε → Prop)
    (step' : τ → δ → Except ρ (τ × υ)) (see' : δ → υ → List ν) (D : τ → δ → Prop)
    (R : σ → τ → Prop) : Prop :=
  ∀ s t e, R s t → C s e → Matched step see step' see' D R s t e

variable {step : σ → ε → Except π (σ × ω)} {see : ε → ω → List ν} {C : σ → ε → Prop}
  {step' : τ → δ → Except ρ (τ × υ)} {see' : δ → υ → List ν} {D : τ → δ → Prop}
  {R : σ → τ → Prop}

theorem run_cons_error {s : σ} {e : ε} {es : List ε} {p : π} (h : step s e = .error p) :
    run step s (e :: es) = .error p := by
  simp only [run, h]

/-- An abort later in the run. -/
theorem run_cons_of_error {s t : σ} {e : ε} {o : ω} {es : List ε} {p : π}
    (h : step s e = .ok (t, o)) (h' : run step t es = .error p) :
    run step s (e :: es) = .error p := by
  simp only [run, h, h']

/-- Every run of the first machine has a run of the second with the same trace, or both abort. -/
theorem Simulates.run (h : Simulates step see C step' see' D R) {s : σ} {t : τ} {es : List ε}
    (hR : R s t) (hC : Along step C s es) :
    (∃ s' os ds t' os', Machine.run step s es = .ok (s', os) ∧ Along step' D t ds ∧
      Machine.run step' t ds = .ok (t', os') ∧ R s' t' ∧
        trace see es os = trace see' ds os') ∨
    ∃ p ds q, Machine.run step s es = .error p ∧ Along step' D t ds ∧
      Machine.run step' t ds = .error q := by
  induction es generalizing s t with
  | nil => exact Or.inl ⟨s, [], [], t, [], rfl, trivial, rfl, hR, rfl⟩
  | cons e es ih =>
    cases h s t e hR hC.1 with
    | idle hstep hsee hrel =>
      rcases ih hrel (hC.2 _ _ hstep) with
        ⟨s', os, ds, t', os', hrun, hD, hrun', hrel', htrace⟩ | ⟨p, ds, q, hrun, hD, hrun'⟩
      · refine Or.inl ⟨s', _, ds, t', os', run_cons_ok hstep hrun, hD, hrun', hrel', ?_⟩
        rw [trace, hsee, List.nil_append, htrace]
      · exact Or.inr ⟨p, ds, q, run_cons_of_error hstep hrun, hD, hrun'⟩
    | moved hstep hD hstep' hsee hrel =>
      rcases ih hrel (hC.2 _ _ hstep) with
        ⟨s', os, ds, t', os', hrun, hDs, hrun', hrel', htrace⟩ | ⟨p, ds, q, hrun, hDs, hrun'⟩
      · refine Or.inl ⟨s', _, _ :: ds, t', _, run_cons_ok hstep hrun, Along.cons hstep' hD hDs,
          run_cons_ok hstep' hrun', hrel', ?_⟩
        rw [trace, trace, hsee, htrace]
      · exact Or.inr ⟨p, _ :: ds, q, run_cons_of_error hstep hrun, Along.cons hstep' hD hDs,
          run_cons_of_error hstep' hrun'⟩
    | @aborted p d q hstep hD hstep' =>
      refine Or.inr ⟨p, [d], q, run_cons_error hstep, ⟨hD, ?_⟩, run_cons_error hstep'⟩
      intro t' o hok
      rw [hstep'] at hok
      cases hok

/-- If no run of the second machine along `D` aborts, no run of the first along `C` does. -/
theorem Simulates.run_ok (h : Simulates step see C step' see' D R) {s : σ} {t : τ} {es : List ε}
    (hsafe : ∀ ds, Along step' D t ds → ∃ t' os', Machine.run step' t ds = .ok (t', os'))
    (hR : R s t) (hC : Along step C s es) :
    ∃ s' os ds t' os', Machine.run step s es = .ok (s', os) ∧ Along step' D t ds ∧
      Machine.run step' t ds = .ok (t', os') ∧ R s' t' ∧
        trace see es os = trace see' ds os' := by
  rcases h.run hR hC with hmatched | ⟨p, ds, q, -, hD, hrun'⟩
  · exact hmatched
  · obtain ⟨t', os', hok⟩ := hsafe ds hD
    rw [hrun'] at hok
    cases hok

end EntrouterLine.Lib.Machine
