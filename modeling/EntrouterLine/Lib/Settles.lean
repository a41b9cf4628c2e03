import Mathlib.Tactic

/-!
# Computations that may fail

`Settles x P R` says how a computation ends: it returns a value with `P`, or fails with an error
with `R`. One rule for each way to put computations together.
-/

set_option autoImplicit false

namespace EntrouterLine.Lib

universe u v w

variable {α : Type u} {β : Type u} {γ : Type v} {ε ε' : Type w}

/-- The computation returns a value with `P`, or fails with an error with `R`. -/
def Settles (x : Except ε α) (P : α → Prop) (R : ε → Prop) : Prop :=
  match x with
  | .ok a => P a
  | .error e => R e

/-- Every computation ends as it does. -/
theorem settles_self (x : Except ε α) : Settles x (fun a => x = .ok a) (fun e => x = .error e) := by
  cases x with
  | error e => exact rfl
  | ok a => exact rfl

theorem Settles.mono {x : Except ε α} {P Q : α → Prop} {R S : ε → Prop} (h : Settles x P R)
    (hPQ : ∀ a, P a → Q a) (hRS : ∀ e, R e → S e) : Settles x Q S := by
  cases x with
  | error e => exact hRS e h
  | ok a => exact hPQ a h

theorem Settles.bind {x : Except ε α} {f : α → Except ε β} {P : α → Prop} {Q : β → Prop}
    {R : ε → Prop} (hx : Settles x P R) (hf : ∀ a, P a → Settles (f a) Q R) :
    Settles (x >>= f) Q R := by
  cases x with
  | error e => exact hx
  | ok a => exact hf a hx

theorem Settles.map {x : Except ε α} {f : α → β} {P : β → Prop} {R : ε → Prop}
    (hx : Settles x (fun a => P (f a)) R) : Settles (x.map f) P R := by
  cases x with
  | error e => exact hx
  | ok a => exact hx

theorem Settles.mapError {x : Except ε α} {f : ε → ε'} {P : α → Prop} {R : ε' → Prop}
    (hx : Settles x P fun e => R (f e)) : Settles (x.mapError f) P R := by
  cases x with
  | error e => exact hx
  | ok a => exact hx

/-- An invariant of the rounds of a loop, which sees the elements so far. -/
theorem Settles.foldlM {f : α → γ → Except ε α} {I : List γ → α → Prop} {R : ε → Prop}
    {l : List γ} (hround : ∀ done c rest a, l = done ++ c :: rest → I done a →
      Settles (f a c) (I (done ++ [c])) R) {a : α} (ha : I [] a) :
    Settles (l.foldlM f a) (I l) R := by
  suffices h : ∀ rest done a, l = done ++ rest → I done a → Settles (rest.foldlM f a) (I l) R from
    h l [] a rfl ha
  intro rest
  induction rest with
  | nil =>
    intro done a hl hI
    rw [List.append_nil] at hl
    rw [hl]
    exact hI
  | cons c rest ih =>
    intro done a hl hI
    rw [List.foldlM_cons]
    refine (hround done c rest a hl hI).bind fun b hb => ih (done ++ [c]) b ?_ hb
    rw [hl, List.append_assoc, List.singleton_append]

/-- A loop without a state. -/
theorem Settles.forM {f : γ → Except ε PUnit} {P : γ → Prop} {R : ε → Prop} {l : List γ}
    (hround : ∀ c ∈ l, Settles (f c) (fun _ => P c) R) :
    Settles (l.forM f) (fun _ => ∀ c ∈ l, P c) R := by
  induction l with
  | nil => exact List.forall_mem_nil P
  | cons c l ih =>
    rw [List.forM_eq_forM, List.forM_cons]
    refine (hround c List.mem_cons_self).bind fun _ hc => ?_
    refine (ih fun d hd => hround d (List.mem_cons_of_mem _ hd)).mono (fun _ hl => ?_)
      (fun _ he => he)
    exact List.forall_mem_cons.mpr ⟨hc, hl⟩

end EntrouterLine.Lib
