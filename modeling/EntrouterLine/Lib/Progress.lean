import EntrouterLine.Lib.Machine

/-!
# Progress of machines under a fair schedule

A run is divided into rounds. In every state that has not reached its goal, some event helps: it
lowers a measure. A step that does not lower the measure takes no help away. So when every round
holds a helpful event for every state, each round lowers the measure or passes the goal, and as many
rounds as the measure says lead to the goal (`reaches_of_rounds`).
-/

set_option autoImplicit false

namespace EntrouterLine.Lib.Machine

universe u v w x

variable {σ : Type u} {ε : Type v} {ω : Type w} {π : Type x}

/-- Some prefix of the events leads to the goal. -/
def Reaches (step : σ → ε → Except π (σ × ω)) (goal : σ → Prop) (s : σ) (es : List ε) : Prop :=
  ∃ es' t os, es' <+: es ∧ run step s es' = .ok (t, os) ∧ goal t

variable {step : σ → ε → Except π (σ × ω)} {C : σ → ε → Prop} {goal : σ → Prop}

theorem reaches_of_goal {s : σ} (h : goal s) (es : List ε) : Reaches step goal s es :=
  ⟨[], s, [], List.nil_prefix, rfl, h⟩

theorem Reaches.cons {s t : σ} {e : ε} {o : ω} {es : List ε} (hstep : step s e = .ok (t, o))
    (h : Reaches step goal t es) : Reaches step goal s (e :: es) := by
  obtain ⟨es', u, os, hpre, hrun, hgoal⟩ := h
  exact ⟨e :: es', u, o :: os, List.cons_prefix_cons.mpr ⟨rfl, hpre⟩, run_cons_ok hstep hrun,
    hgoal⟩

theorem Reaches.append {s : σ} {es : List ε} (h : Reaches step goal s es) (es' : List ε) :
    Reaches step goal s (es ++ es') := by
  obtain ⟨es₁, t, os, hpre, hrun, hgoal⟩ := h
  exact ⟨es₁, t, os, hpre.trans (List.prefix_append _ _), hrun, hgoal⟩

theorem Reaches.after {s t : σ} {es es' : List ε} {os : List ω} (hrun : run step s es = .ok (t, os))
    (h : Reaches step goal t es') : Reaches step goal s (es ++ es') := by
  obtain ⟨es₁, u, os₁, hpre, hrun₁, hgoal⟩ := h
  exact ⟨es ++ es₁, u, os ++ os₁, (List.prefix_append_right_inj es).mpr hpre,
    run_append hrun hrun₁, hgoal⟩

/-- What a step does on the way to the goal: it lowers the measure, or it was of no help and leaves
all help there is. -/
structure Advances (step : σ → ε → Except π (σ × ω)) (I : σ → Prop) (measure : σ → Nat)
    (helps : σ → ε → Prop) (s : σ) (e : ε) (t : σ) (o : ω) : Prop where
  step_eq : step s e = .ok (t, o)
  inv : I t
  lowers : measure t < measure s ∨
    measure t ≤ measure s ∧ ¬ helps s e ∧ ∀ e', helps s e' → helps t e'

variable {I : σ → Prop} {measure : σ → Nat} {helps : σ → ε → Prop}

theorem Advances.measure_le {s t : σ} {e : ε} {o : ω}
    (h : Advances step I measure helps s e t o) : measure t ≤ measure s := by
  rcases h.lowers with hlt | ⟨hle, -, -⟩
  · exact Nat.le_of_lt hlt
  · exact hle

section Rounds

variable (hadvances : ∀ s e, I s → C s e → ¬ goal s →
  ∃ t o, Advances step I measure helps s e t o)

include hadvances

/-- Events before the goal do not raise the measure. -/
theorem reaches_or_le {s : σ} {es : List ε} (hI : I s) (hC : Along step C s es) :
    Reaches step goal s es ∨
      ∃ t os, run step s es = .ok (t, os) ∧ I t ∧ measure t ≤ measure s := by
  induction es generalizing s with
  | nil => exact Or.inr ⟨s, [], rfl, hI, Nat.le_refl _⟩
  | cons e es ih =>
    by_cases hgoal : goal s
    · exact Or.inl (reaches_of_goal hgoal _)
    · obtain ⟨t, o, hadv⟩ := hadvances s e hI hC.1 hgoal
      rcases ih hadv.inv (hC.2 t o hadv.step_eq) with hreach | ⟨u, os, hrun, hu, hle⟩
      · exact Or.inl (hreach.cons hadv.step_eq)
      · exact Or.inr ⟨u, o :: os, run_cons_ok hadv.step_eq hrun, hu,
          Nat.le_trans hle hadv.measure_le⟩

/-- A round with an event that helps lowers the measure. -/
theorem reaches_or_lt {s : σ} {round : List ε} (hI : I s) (hC : Along step C s round)
    (hhelp : ∃ e ∈ round, helps s e) :
    Reaches step goal s round ∨
      ∃ t os, run step s round = .ok (t, os) ∧ I t ∧ measure t < measure s := by
  induction round generalizing s with
  | nil =>
    obtain ⟨e, he, -⟩ := hhelp
    cases he
  | cons e round ih =>
    by_cases hgoal : goal s
    · exact Or.inl (reaches_of_goal hgoal _)
    · obtain ⟨t, o, hadv⟩ := hadvances s e hI hC.1 hgoal
      have hrest := hC.2 t o hadv.step_eq
      rcases hadv.lowers with hlt | ⟨hle, hno, hkeep⟩
      · -- lowered already; the rest of the round does not raise it
        rcases reaches_or_le hadvances hadv.inv hrest with hreach | ⟨u, os, hrun, hu, hle⟩
        · exact Or.inl (hreach.cons hadv.step_eq)
        · exact Or.inr ⟨u, o :: os, run_cons_ok hadv.step_eq hrun, hu, Nat.lt_of_le_of_lt hle hlt⟩
      · -- the event that helps is still to come
        obtain ⟨e', he', hhelps⟩ := hhelp
        rcases List.mem_cons.mp he' with rfl | hlater
        · exact absurd hhelps hno
        · rcases ih hadv.inv hrest ⟨e', hlater, hkeep e' hhelps⟩ with
            hreach | ⟨u, os, hrun, hu, hlt⟩
          · exact Or.inl (hreach.cons hadv.step_eq)
          · exact Or.inr ⟨u, o :: os, run_cons_ok hadv.step_eq hrun, hu, Nat.lt_of_lt_of_le hlt hle⟩

/-- As many rounds as the measure says, each with an event that helps in whatever state, lead to the
goal. -/
theorem reaches_of_rounds (hzero : ∀ s, I s → measure s = 0 → goal s) {rounds : List (List ε)}
    (hrounds : ∀ round ∈ rounds, ∀ s, I s → ¬ goal s → ∃ e ∈ round, helps s e) {s : σ} (hI : I s)
    (hC : Along step C s rounds.flatten) (hlen : measure s ≤ rounds.length) :
    Reaches step goal s rounds.flatten := by
  induction rounds generalizing s with
  | nil => exact reaches_of_goal (hzero s hI (Nat.le_zero.mp hlen)) _
  | cons round rounds ih =>
    rw [List.flatten_cons] at hC ⊢
    by_cases hgoal : goal s
    · exact reaches_of_goal hgoal _
    · have hhelp := hrounds round List.mem_cons_self s hI hgoal
      rcases reaches_or_lt hadvances hI (along_append_left hC) hhelp with
        hreach | ⟨t, os, hrun, ht, hlt⟩
      · exact hreach.append _
      · refine Reaches.after hrun (ih (fun r hr => hrounds r (List.mem_cons_of_mem _ hr)) ht
          (along_append_right hrun hC) ?_)
        rw [List.length_cons] at hlen
        omega

end Rounds

end EntrouterLine.Lib.Machine
