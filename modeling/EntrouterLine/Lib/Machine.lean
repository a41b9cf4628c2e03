import Mathlib.Tactic

/-!
# Runs of machines with outputs that may abort

A machine is a step function `σ → ε → Except π (σ × ω)`: an event takes a state to a new state and
an output, or aborts. `run` folds a list of events and collects one output for each of them.
`Along C` says that every step of a run meets the condition `C` in the state it starts from.

`run_safe` is the invariant rule: when the predicate `P` holds at the start and every step that
meets `C` from a state satisfying `P` succeeds and re-establishes `P`, every run along `C` succeeds
and ends in `P`. `P` sees the events and outputs so far, so it can speak about the history.

`withHistory note` is the machine with a record of its run beside the state. The record does not
influence the run (`run_withHistory`).
-/

set_option autoImplicit false

namespace EntrouterLine.Lib.Machine

universe u v w x y

variable {σ : Type u} {ε : Type v} {ω : Type w} {π : Type x}

/-- The run of a list of events, with the list of outputs. -/
def run (step : σ → ε → Except π (σ × ω)) : σ → List ε → Except π (σ × List ω)
  | s, [] => .ok (s, [])
  | s, e :: es =>
      match step s e with
      | .error p => .error p
      | .ok (t, o) =>
          match run step t es with
          | .error p => .error p
          | .ok (t', os) => .ok (t', o :: os)

/-- The machine that keeps a record: `note` adds an event, and sees the state the event meets. -/
def withHistory {η : Type y} (note : σ → ε → η → η) (step : σ → ε → Except π (σ × ω)) :
    σ × η → ε → Except π ((σ × η) × ω)
  | (s, a), e =>
      match step s e with
      | .error p => .error p
      | .ok (t, o) => .ok ((t, note s e a), o)

/-- Every step of the run meets `C` in the state it starts from. -/
def Along (step : σ → ε → Except π (σ × ω)) (C : σ → ε → Prop) : σ → List ε → Prop
  | _, [] => True
  | s, e :: es => C s e ∧ ∀ t o, step s e = .ok (t, o) → Along step C t es

variable {step : σ → ε → Except π (σ × ω)} {C : σ → ε → Prop}

@[simp] theorem run_nil (s : σ) : run step s [] = .ok (s, []) := rfl

theorem run_cons_ok {s t t' : σ} {e : ε} {o : ω} {es : List ε} {os : List ω}
    (h : step s e = .ok (t, o)) (h' : run step t es = .ok (t', os)) :
    run step s (e :: es) = .ok (t', o :: os) := by
  simp [run, h, h']

/-- Inversion of a successful run on a nonempty list of events. -/
theorem run_cons_inv {s t' : σ} {e : ε} {es : List ε} {os : List ω}
    (h : run step s (e :: es) = .ok (t', os)) :
    ∃ t o os', step s e = .ok (t, o) ∧ run step t es = .ok (t', os') ∧ os = o :: os' := by
  simp only [run] at h
  cases hs : step s e with
  | error p => simp [hs] at h
  | ok r =>
    obtain ⟨t, o⟩ := r
    simp only [hs] at h
    cases hr : run step t es with
    | error p => simp [hr] at h
    | ok r' =>
      obtain ⟨t'', os'⟩ := r'
      simp only [hr, Except.ok.injEq, Prod.mk.injEq] at h
      obtain ⟨rfl, rfl⟩ := h
      exact ⟨t, o, os', rfl, hr, rfl⟩

/-- Runs compose. -/
theorem run_append {s t u : σ} {es es' : List ε} {os os' : List ω}
    (h : run step s es = .ok (t, os)) (h' : run step t es' = .ok (u, os')) :
    run step s (es ++ es') = .ok (u, os ++ os') := by
  induction es generalizing s os with
  | nil =>
    simp only [run_nil, Except.ok.injEq, Prod.mk.injEq] at h
    obtain ⟨rfl, rfl⟩ := h
    exact h'
  | cons e es ih =>
    obtain ⟨t₁, o, os₁, hstep, hrun, rfl⟩ := run_cons_inv h
    exact run_cons_ok hstep (ih hrun)

/-- A run that continues into an abort. -/
theorem run_append_error {s t : σ} {es es' : List ε} {os : List ω} {p : π}
    (h : run step s es = .ok (t, os)) (h' : run step t es' = .error p) :
    run step s (es ++ es') = .error p := by
  induction es generalizing s os with
  | nil =>
    simp only [run_nil, Except.ok.injEq, Prod.mk.injEq] at h
    rw [h.1]
    exact h'
  | cons e es ih =>
    obtain ⟨t₁, o, os', hstep, hrun, -⟩ := run_cons_inv h
    simp only [List.cons_append, run, hstep, ih hrun]

/-- A run splits at every point. -/
theorem run_append_inv {s u : σ} {es es' : List ε} {os : List ω}
    (h : run step s (es ++ es') = .ok (u, os)) :
    ∃ t os₁ os₂, run step s es = .ok (t, os₁) ∧ run step t es' = .ok (u, os₂) ∧
      os = os₁ ++ os₂ := by
  induction es generalizing s os with
  | nil => exact ⟨s, [], os, rfl, h, rfl⟩
  | cons e es ih =>
    obtain ⟨t, o, os', hstep, hrun, rfl⟩ := run_cons_inv h
    obtain ⟨t₁, os₁, os₂, h₁, h₂, rfl⟩ := ih hrun
    exact ⟨t₁, o :: os₁, os₂, run_cons_ok hstep h₁, h₂, rfl⟩

/-- One more event after a run. -/
theorem run_snoc {s t t' : σ} {es : List ε} {os : List ω} {e : ε} {o : ω}
    (h : run step s es = .ok (t, os)) (h' : step t e = .ok (t', o)) :
    run step s (es ++ [e]) = .ok (t', os ++ [o]) :=
  run_append h (run_cons_ok h' (run_nil t'))

/-- The last event of a run. -/
theorem run_snoc_inv {s u : σ} {es : List ε} {e : ε} {os : List ω}
    (h : run step s (es ++ [e]) = .ok (u, os)) :
    ∃ t os₁ o, run step s es = .ok (t, os₁) ∧ step t e = .ok (u, o) ∧ os = os₁ ++ [o] := by
  obtain ⟨t, os₁, os₂, h₁, h₂, rfl⟩ := run_append_inv h
  obtain ⟨t', o, os', hstep, hnil, rfl⟩ := run_cons_inv h₂
  simp only [run_nil, Except.ok.injEq, Prod.mk.injEq] at hnil
  obtain ⟨rfl, rfl⟩ := hnil
  exact ⟨t, os₁, o, h₁, hstep, rfl⟩

theorem length_outputs {s t : σ} {es : List ε} {os : List ω} (h : run step s es = .ok (t, os)) :
    os.length = es.length := by
  induction es generalizing s os with
  | nil =>
    simp only [run_nil, Except.ok.injEq, Prod.mk.injEq] at h
    rw [← h.2]
    rfl
  | cons e es ih =>
    obtain ⟨t₁, o, os', -, hrun, rfl⟩ := run_cons_inv h
    rw [List.length_cons, List.length_cons, ih hrun]

/-- The condition along a run whose first step is known. -/
theorem Along.cons {s t : σ} {e : ε} {o : ω} {es : List ε} (hstep : step s e = .ok (t, o))
    (he : C s e) (hes : Along step C t es) : Along step C s (e :: es) := by
  refine ⟨he, ?_⟩
  intro t' o' hstep'
  -- a step has one result
  rw [hstep] at hstep'
  cases hstep'
  exact hes

/-- A run whose first step is known, along a condition and to a state with a property. -/
theorem Along.run_cons {P : σ → Prop} {s t : σ} {e : ε} {o : ω} {es : List ε}
    (hstep : step s e = .ok (t, o)) (he : C s e)
    (hes : Along step C t es ∧ ∃ u os, run step t es = .ok (u, os) ∧ P u) :
    Along step C s (e :: es) ∧ ∃ u os, run step s (e :: es) = .ok (u, os) ∧ P u := by
  obtain ⟨halong, u, os, hrun, hP⟩ := hes
  exact ⟨Along.cons hstep he halong, u, o :: os, run_cons_ok hstep hrun, hP⟩

/-- When every step's output is counted exactly if its event is, a run has as many counted outputs
as counted events. -/
theorem Along.countP_eq {p : ω → Bool} {q : ε → Bool}
    (hpq : ∀ s e t o, C s e → step s e = .ok (t, o) → p o = q e) {s t : σ} {es : List ε}
    {os : List ω} (hC : Along step C s es) (hrun : run step s es = .ok (t, os)) :
    os.countP p = es.countP q := by
  induction es generalizing s os with
  | nil =>
    simp only [run_nil, Except.ok.injEq, Prod.mk.injEq] at hrun
    rw [← hrun.2]
    rfl
  | cons e es ih =>
    obtain ⟨t₁, o, os', hstep, hrun', rfl⟩ := run_cons_inv hrun
    rw [List.countP_cons, List.countP_cons, hpq s e t₁ o hC.1 hstep,
      ih (hC.2 t₁ o hstep) hrun']

/-- The condition along a run that is one event longer. -/
theorem along_snoc {s t : σ} {es : List ε} {os : List ω} {e : ε}
    (hrun : run step s es = .ok (t, os)) :
    Along step C s (es ++ [e]) ↔ Along step C s es ∧ C t e := by
  induction es generalizing s os with
  | nil =>
    simp only [run_nil, Except.ok.injEq, Prod.mk.injEq] at hrun
    obtain ⟨rfl, rfl⟩ := hrun
    simp [Along]
  | cons d es ih =>
    obtain ⟨t₁, o, os', hstep, hrun', rfl⟩ := run_cons_inv hrun
    simp only [List.cons_append, Along]
    constructor
    · rintro ⟨hd, hrest⟩
      have h := (ih hrun').1 (hrest t₁ o hstep)
      exact ⟨Along.cons hstep hd h.1, h.2⟩
    · rintro ⟨⟨hd, hrest⟩, he⟩
      exact Along.cons hstep hd ((ih hrun').2 ⟨hrest t₁ o hstep, he⟩)

/-- The condition along a run, continued from the state it reaches. -/
theorem Along.append {s t : σ} {es es' : List ε} {os : List ω} (h : Along step C s es)
    (hrun : run step s es = .ok (t, os)) (h' : Along step C t es') :
    Along step C s (es ++ es') := by
  induction es generalizing s os with
  | nil =>
    simp only [run_nil, Except.ok.injEq, Prod.mk.injEq] at hrun
    rw [hrun.1]
    exact h'
  | cons e es ih =>
    obtain ⟨t₁, o, os', hstep, hrun', rfl⟩ := run_cons_inv hrun
    exact Along.cons hstep h.1 (ih (h.2 t₁ o hstep) hrun')

theorem along_append_left {s : σ} {es es' : List ε} (h : Along step C s (es ++ es')) :
    Along step C s es := by
  induction es generalizing s with
  | nil => trivial
  | cons e es ih => exact ⟨h.1, fun t o hstep => ih (h.2 t o hstep)⟩

theorem along_append_right {s t : σ} {es es' : List ε} {os : List ω}
    (hrun : run step s es = .ok (t, os)) (h : Along step C s (es ++ es')) : Along step C t es' := by
  induction es generalizing s os with
  | nil =>
    simp only [run_nil, Except.ok.injEq, Prod.mk.injEq] at hrun
    rw [← hrun.1]
    exact h
  | cons e es ih =>
    obtain ⟨t₁, o, os', hstep, hrun', rfl⟩ := run_cons_inv hrun
    exact ih hrun' (h.2 t₁ o hstep)

/-- A weaker condition holds along the same run. -/
theorem Along.mono {D : σ → ε → Prop} (hCD : ∀ s e, C s e → D s e) {s : σ} {es : List ε}
    (h : Along step C s es) : Along step D s es := by
  induction es generalizing s with
  | nil => trivial
  | cons e es ih => exact ⟨hCD s e h.1, fun t o hstep => ih (h.2 t o hstep)⟩

/-- Two conditions that hold along a run hold along it together. -/
theorem Along.and {D : σ → ε → Prop} {s : σ} {es : List ε} (hC : Along step C s es)
    (hD : Along step D s es) : Along step (fun s e => C s e ∧ D s e) s es := by
  induction es generalizing s with
  | nil => trivial
  | cons e es ih =>
    exact ⟨⟨hC.1, hD.1⟩, fun t o hstep => ih (hC.2 t o hstep) (hD.2 t o hstep)⟩

/-- An invariant of the machine holds along every run that starts in it. -/
theorem along_of_invariant {I : σ → Prop} {s : σ} (hinit : I s)
    (hstep : ∀ s e t o, I s → step s e = .ok (t, o) → I t) (es : List ε) :
    Along step (fun s _ => I s) s es := by
  induction es generalizing s with
  | nil => trivial
  | cons e es ih => exact ⟨hinit, fun t o h => ih (hstep s e t o hinit h)⟩

/-- Events that meet the condition in every state. -/
theorem along_of_forall_mem {es : List ε} (h : ∀ e ∈ es, ∀ s, C s e) (s : σ) :
    Along step C s es := by
  induction es generalizing s with
  | nil => trivial
  | cons e es ih =>
    refine ⟨h e List.mem_cons_self s, ?_⟩
    intro t o _
    exact ih (fun d hd => h d (List.mem_cons_of_mem _ hd)) t

/-- No step of a run that has succeeded aborts. -/
theorem along_ok_of_run {s t : σ} {es : List ε} {os : List ω} (h : run step s es = .ok (t, os)) :
    Along step (fun s e => ∃ r, step s e = .ok r) s es := by
  induction es generalizing s os with
  | nil => trivial
  | cons e es ih =>
    obtain ⟨t₁, o, os', hstep, hrun, -⟩ := run_cons_inv h
    exact Along.cons hstep ⟨_, hstep⟩ (ih hrun)

/-- What steps that meet the condition preserve holds along every run that meets it. -/
theorem Along.with_invariant {I : σ → Prop} {s : σ} {es : List ε} (hinit : I s)
    (hstep : ∀ s e t o, I s → C s e → step s e = .ok (t, o) → I t) (h : Along step C s es) :
    Along step (fun s e => I s ∧ C s e) s es := by
  induction es generalizing s with
  | nil => trivial
  | cons e es ih =>
    refine ⟨⟨hinit, h.1⟩, ?_⟩
    intro t o ht
    exact ih (hstep s e t o hinit h.1 ht) (h.2 t o ht)

/-- Every step of a run starts from a state that a run reaches. -/
theorem along_reached (s : σ) (es : List ε) :
    Along step (fun t _ => ∃ es' os, run step s es' = .ok (t, os)) s es := by
  apply along_of_invariant (I := fun t => ∃ es' os, run step s es' = .ok (t, os))
  · exact ⟨[], [], rfl⟩
  · rintro t e u o ⟨es', os, hrun⟩ hstep
    exact ⟨es' ++ [e], os ++ [o], run_snoc hrun hstep⟩

/-- The invariant rule for runs that have succeeded. -/
theorem run_induction {P : List ε → σ → List ω → Prop} {s₀ : σ} (hinit : P [] s₀ [])
    (hstep : ∀ es s os e t o, P es s os → step s e = .ok (t, o) → P (es ++ [e]) t (os ++ [o])) :
    ∀ es s os, run step s₀ es = .ok (s, os) → P es s os := by
  intro es
  -- from the back: `hstep` speaks about the last step of a run
  induction es using List.reverseRecOn with
  | nil =>
    intro s os h
    simp only [run_nil, Except.ok.injEq, Prod.mk.injEq] at h
    obtain ⟨rfl, rfl⟩ := h
    exact hinit
  | append_singleton es e ih =>
    intro s os h
    obtain ⟨t, os₁, o, hrun, hlast, rfl⟩ := run_snoc_inv h
    exact hstep es t os₁ e s o (ih t os₁ hrun) hlast

/-- The invariant rule for runs along a condition: they do not abort, and they end in `P`. -/
theorem run_safe {P : List ε → σ → List ω → Prop} {s₀ : σ} (hinit : P [] s₀ [])
    (hstep : ∀ es s os e, P es s os → C s e →
      ∃ t o, step s e = .ok (t, o) ∧ P (es ++ [e]) t (os ++ [o])) :
    ∀ es, Along step C s₀ es → ∃ s os, run step s₀ es = .ok (s, os) ∧ P es s os := by
  intro es
  induction es using List.reverseRecOn with
  | nil => exact fun _ => ⟨s₀, [], rfl, hinit⟩
  | append_singleton es e ih =>
    intro h
    -- the run without its last step, and then that step from the state it reaches
    obtain ⟨s, os, hrun, hP⟩ := ih (along_append_left h)
    obtain ⟨t, o, hlast, hP'⟩ := hstep es s os e hP ((along_snoc hrun).1 h).2
    exact ⟨t, os ++ [o], run_snoc hrun hlast, hP'⟩

/-! ## Histories -/

section History

variable {η : Type y} {note : σ → ε → η → η}

theorem withHistory_ok {s t : σ} {e : ε} {o : ω} (h : step s e = .ok (t, o)) (a : η) :
    withHistory note step (s, a) e = .ok ((t, note s e a), o) := by
  simp only [withHistory, h]

/-- Inversion of a step that keeps a record. -/
theorem withHistory_inv {s : σ} {a : η} {r : σ × η} {e : ε} {o : ω}
    (h : withHistory note step (s, a) e = .ok (r, o)) :
    step s e = .ok (r.1, o) ∧ r.2 = note s e a := by
  simp only [withHistory] at h
  cases hs : step s e with
  | error p => simp [hs] at h
  | ok q =>
    obtain ⟨t, o'⟩ := q
    simp only [hs, Except.ok.injEq, Prod.mk.injEq] at h
    obtain ⟨rfl, rfl⟩ := h
    exact ⟨rfl, rfl⟩

/-- Every run has a record. -/
theorem run_withHistory {s t : σ} {es : List ε} {os : List ω} (h : run step s es = .ok (t, os))
    (a : η) : ∃ b, run (withHistory note step) (s, a) es = .ok ((t, b), os) := by
  induction es generalizing s a os with
  | nil =>
    simp only [run_nil, Except.ok.injEq, Prod.mk.injEq] at h
    obtain ⟨rfl, rfl⟩ := h
    exact ⟨a, rfl⟩
  | cons e es ih =>
    obtain ⟨t₁, o, os', hstep, hrun, rfl⟩ := run_cons_inv h
    obtain ⟨b, hb⟩ := ih hrun (note s e a)
    exact ⟨b, run_cons_ok (withHistory_ok hstep a) hb⟩

end History

end EntrouterLine.Lib.Machine
