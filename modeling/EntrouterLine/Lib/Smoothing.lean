import Mathlib.Data.Nat.Dist
import Mathlib.Tactic.Ring

/-!
# Exponential smoothing in whole numbers

A smoothed value moves towards each sample by one part in `w + 1`, rounded down, and so does a
second value towards the distance between the sample and the first. The first value stays within
the range of the samples and the second within its length (`Within.foldl`). A step never moves the
value away from the sample, and brings it closer if they differ by more than `w`
(`dist_smoothed_le`, `dist_smoothed_lt`), so that under a constant sample the distance falls to `w`
(`dist_foldl_const`).
-/

set_option autoImplicit false

namespace EntrouterLine.Lib

/-- `w` parts of the old value and one part of the sample, rounded down. -/
def smoothed (w old sample : Nat) : Nat := (w * old + sample) / (w + 1)

variable {w old sample : Nat}

theorem le_smoothed {lo : Nat} (hold : lo ≤ old) (hsample : lo ≤ sample) :
    lo ≤ smoothed w old sample := by
  rw [smoothed, Nat.le_div_iff_mul_le (Nat.succ_pos w)]
  calc lo * (w + 1) = w * lo + lo := by rw [Nat.mul_succ, Nat.mul_comm]
    _ ≤ w * old + sample := Nat.add_le_add (Nat.mul_le_mul_left w hold) hsample

theorem smoothed_le {hi : Nat} (hold : old ≤ hi) (hsample : sample ≤ hi) :
    smoothed w old sample ≤ hi := by
  apply Nat.div_le_of_le_mul
  calc w * old + sample ≤ w * hi + hi := Nat.add_le_add (Nat.mul_le_mul_left w hold) hsample
    _ = (w + 1) * hi := (Nat.succ_mul w hi).symm

/-- A sample that is higher by more than `w` raises the value. -/
theorem lt_smoothed (h : old + (w + 1) ≤ sample) : old < smoothed w old sample := by
  rw [smoothed, ← Nat.succ_le_iff, Nat.le_div_iff_mul_le (Nat.succ_pos w)]
  calc (old + 1) * (w + 1) = w * old + (old + (w + 1)) := by ring
    _ ≤ w * old + sample := Nat.add_le_add_left h _

/-- A sample that is lower lowers the value. -/
theorem smoothed_lt (h : sample < old) : smoothed w old sample < old := by
  rw [smoothed, Nat.div_lt_iff_lt_mul (Nat.succ_pos w)]
  calc w * old + sample < w * old + old := Nat.add_lt_add_left h _
    _ = old * (w + 1) := by rw [Nat.mul_succ, Nat.mul_comm]

/-- The new value lies between the old one and the sample. -/
theorem smoothed_between (w old sample : Nat) :
    (old ≤ sample → old ≤ smoothed w old sample ∧ smoothed w old sample ≤ sample) ∧
      (sample ≤ old → sample ≤ smoothed w old sample ∧ smoothed w old sample ≤ old) := by
  constructor
  · exact fun h => ⟨le_smoothed le_rfl h, smoothed_le h le_rfl⟩
  · exact fun h => ⟨le_smoothed h le_rfl, smoothed_le le_rfl h⟩

theorem dist_smoothed_le (w old sample : Nat) :
    Nat.dist (smoothed w old sample) sample ≤ Nat.dist old sample := by
  obtain ⟨hup, hdown⟩ := smoothed_between w old sample
  rcases Nat.le_total old sample with h | h
  · have hbetween := hup h
    rw [Nat.dist_eq_sub_of_le hbetween.2, Nat.dist_eq_sub_of_le h]
    omega
  · have hbetween := hdown h
    rw [Nat.dist_eq_sub_of_le_right hbetween.1, Nat.dist_eq_sub_of_le_right h]
    omega

theorem dist_smoothed_lt (h : w < Nat.dist old sample) :
    Nat.dist (smoothed w old sample) sample < Nat.dist old sample := by
  rcases Nat.le_total old sample with hle | hle
  · rw [Nat.dist_eq_sub_of_le hle] at h ⊢
    have hraised := lt_smoothed (w := w) (by omega : old + (w + 1) ≤ sample)
    rw [Nat.dist_eq_sub_of_le ((smoothed_between w old sample).1 hle).2]
    omega
  · rw [Nat.dist_eq_sub_of_le_right hle] at h ⊢
    have hlowered := smoothed_lt (w := w) (by omega : sample < old)
    rw [Nat.dist_eq_sub_of_le_right ((smoothed_between w old sample).2 hle).1]
    omega

/-! ## Runs over samples -/

/-- A smoothed value and its smoothed deviation from the samples. -/
structure Smoother where
  value : Nat
  deviation : Nat

namespace Smoother

/-- The deviation is taken from the value before the step. -/
def step (w : Nat) (t : Smoother) (sample : Nat) : Smoother :=
  ⟨smoothed w t.value sample, smoothed w t.deviation (Nat.dist sample t.value)⟩

/-- The first sample is taken as it is. -/
def run (w : Nat) : List Nat → Option Smoother
  | [] => none
  | sample :: samples => some (samples.foldl (step w) ⟨sample, 0⟩)

theorem run_eq_none_iff {samples : List Nat} : run w samples = none ↔ samples = [] := by
  cases samples with
  | nil => exact iff_of_true rfl rfl
  | cons s samples => exact iff_of_false (Option.some_ne_none _) (List.cons_ne_nil _ _)

theorem run_append {samples : List Nat} {t : Smoother} (h : run w samples = some t)
    (samples' : List Nat) : run w (samples ++ samples') = some (samples'.foldl (step w) t) := by
  cases samples with
  | nil => cases h
  | cons s samples =>
    cases h
    exact congrArg some List.foldl_append

/-- The value is in a range, and the deviation is at most its length. -/
structure Within (lo hi : Nat) (t : Smoother) : Prop where
  lo_le : lo ≤ t.value
  le_hi : t.value ≤ hi
  deviation_le : t.deviation ≤ hi - lo

variable {lo hi : Nat} {t : Smoother}

theorem Within.step (h : t.Within lo hi) (hlo : lo ≤ sample) (hhi : sample ≤ hi) :
    (t.step w sample).Within lo hi where
  lo_le := le_smoothed h.lo_le hlo
  le_hi := smoothed_le h.le_hi hhi
  deviation_le := by
    apply smoothed_le h.deviation_le
    have hvalue := h.lo_le
    have hvalue' := h.le_hi
    rw [Nat.dist]
    omega

theorem Within.foldl {samples : List Nat} (h : t.Within lo hi)
    (hsamples : ∀ sample ∈ samples, lo ≤ sample ∧ sample ≤ hi) :
    (samples.foldl (Smoother.step w) t).Within lo hi := by
  induction samples generalizing t with
  | nil => exact h
  | cons sample samples ih =>
    obtain ⟨hlo, hhi⟩ := hsamples sample List.mem_cons_self
    exact ih (h.step hlo hhi) fun s hs => hsamples s (List.mem_cons_of_mem _ hs)

/-- After any samples in a range, value and deviation are within it. -/
theorem within_run {samples : List Nat} (h : run w samples = some t)
    (hsamples : ∀ sample ∈ samples, lo ≤ sample ∧ sample ≤ hi) : t.Within lo hi := by
  cases samples with
  | nil => cases h
  | cons sample samples =>
    cases h
    obtain ⟨hlo, hhi⟩ := hsamples sample List.mem_cons_self
    apply Within.foldl ⟨hlo, hhi, Nat.zero_le _⟩
    exact fun s hs => hsamples s (List.mem_cons_of_mem _ hs)

/-- Under a constant sample the distance falls by one with every step, until it is at most `w`. -/
theorem dist_foldl_const {samples : List Nat} (h : ∀ s ∈ samples, s = sample) (t : Smoother) :
    Nat.dist (samples.foldl (step w) t).value sample ≤
      max w (Nat.dist t.value sample - samples.length) := by
  induction samples generalizing t with
  | nil => exact le_max_right _ _
  | cons s samples ih =>
    obtain rfl := h s List.mem_cons_self
    have hrest := ih (fun s' hs' => h s' (List.mem_cons_of_mem _ hs')) (t.step w s)
    have hle : Nat.dist (t.step w s).value s ≤ Nat.dist t.value s := dist_smoothed_le w t.value s
    have hlt : w < Nat.dist t.value s → Nat.dist (t.step w s).value s < Nat.dist t.value s :=
      dist_smoothed_lt
    rw [List.foldl_cons, List.length_cons]
    omega

end Smoother

end EntrouterLine.Lib
