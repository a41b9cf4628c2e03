import Mathlib.Algebra.Order.Field.Power
import Mathlib.Data.Int.Log
import Mathlib.Data.Rat.Floor
import Mathlib.Tactic.FieldSimp
import Mathlib.Tactic.Linarith
import Mathlib.Tactic.Positivity
import Mathlib.Tactic.Ring

/-!
# Rounding to a number of significant bits

`roundBits p` rounds a nonnegative rational number to the nearest one with `p` significant bits,
ties to even. The exponent is not bounded, so for `p = 53` this is what an operation on `f64` does
as long as its result is neither subnormal nor too large. Rounding is monotone (`roundBits_mono`)
and leaves powers of two as they are (`roundBits_zpow`), so it never leaves an interval between two
of them.
-/

set_option autoImplicit false

namespace EntrouterLine.Lib

/-! ## Integers -/

/-- The integer nearest to a rational number, ties to even. -/
def roundEven (x : ℚ) : ℤ :=
  if x - ⌊x⌋ < 1 / 2 ∨ x - ⌊x⌋ = 1 / 2 ∧ ⌊x⌋ % 2 = 0 then ⌊x⌋ else ⌊x⌋ + 1

@[simp] theorem roundEven_intCast (n : ℤ) : roundEven n = n := by
  rw [roundEven, Int.floor_intCast, sub_self, if_pos (Or.inl (by norm_num))]

theorem floor_le_roundEven (x : ℚ) : ⌊x⌋ ≤ roundEven x := by
  rw [roundEven]
  split <;> omega

theorem roundEven_le_floor_add_one (x : ℚ) : roundEven x ≤ ⌊x⌋ + 1 := by
  rw [roundEven]
  split <;> omega

theorem roundEven_mono {x y : ℚ} (h : x ≤ y) : roundEven x ≤ roundEven y := by
  rcases (Int.floor_mono h).lt_or_eq with hlt | heq
  · exact (roundEven_le_floor_add_one x).trans (le_trans hlt (floor_le_roundEven y))
  · rw [roundEven, roundEven, heq]
    split
    · split <;> omega
    · rename_i hx
      rw [if_neg]
      rintro (hy | ⟨hy, heven⟩)
      · exact hx (Or.inl (by linarith))
      · -- `x` lies at or below the tie, which is rounded down
        rcases h.lt_or_eq with hlt | rfl
        · exact hx (Or.inl (by linarith))
        · exact hx (Or.inr ⟨hy, heven⟩)

/-! ## Significant bits -/

/-- The exponent of the last of `p` significant bits. -/
def lastPlace (p : Nat) (x : ℚ) : ℤ := Int.log 2 x + 1 - p

def roundBits (p : Nat) (x : ℚ) : ℚ :=
  roundEven (x / 2 ^ lastPlace p x) * 2 ^ lastPlace p x

@[simp] theorem roundBits_zero (p : Nat) : roundBits p 0 = 0 := by
  have h := roundEven_intCast 0
  rw [Int.cast_zero] at h
  rw [roundBits, zero_div, h, Int.cast_zero, zero_mul]

theorem roundBits_nonneg (p : Nat) {x : ℚ} (h : 0 ≤ x) : 0 ≤ roundBits p x := by
  have hfloor : 0 ≤ ⌊x / 2 ^ lastPlace p x⌋ := Int.floor_nonneg.mpr (by positivity)
  have hround : (0 : ℚ) ≤ roundEven (x / 2 ^ lastPlace p x) := by
    exact_mod_cast hfloor.trans (floor_le_roundEven _)
  rw [roundBits]
  positivity

/-- A number of at most `p` significant bits is left as it is. -/
theorem roundBits_of_eq_mul {p : Nat} {x : ℚ} (n : ℤ) (h : x = n * 2 ^ lastPlace p x) :
    roundBits p x = x := by
  have hdiv : x / 2 ^ lastPlace p x = n := by
    rw [div_eq_iff (by positivity)]
    exact h
  rw [roundBits, hdiv, roundEven_intCast]
  exact h.symm

theorem roundBits_zpow {p : Nat} (hp : 1 ≤ p) (k : ℤ) : roundBits p ((2 : ℚ) ^ k) = 2 ^ k := by
  have hlog : Int.log 2 ((2 : ℚ) ^ k) = k := by
    exact_mod_cast Int.log_zpow (R := ℚ) one_lt_two k
  apply roundBits_of_eq_mul (2 ^ (p - 1))
  rw [lastPlace, hlog, Int.cast_pow, Int.cast_ofNat, ← zpow_natCast, ← zpow_add₀ two_ne_zero]
  congr 1
  omega

theorem roundBits_one {p : Nat} (hp : 1 ≤ p) : roundBits p 1 = 1 := by
  have h := roundBits_zpow hp 0
  rwa [zpow_zero] at h

/-- Integers of at most `p` bits are exact. -/
theorem roundBits_natCast {p n : Nat} (hp : 1 ≤ p) (h : n ≤ 2 ^ p) : roundBits p (n : ℚ) = n := by
  rcases h.lt_or_eq with hlt | rfl
  · rcases Nat.eq_zero_or_pos n with rfl | hpos
    · exact_mod_cast roundBits_zero p
    · have hlog : Nat.log 2 n < p := Nat.log_lt_of_lt_pow hpos.ne' hlt
      apply roundBits_of_eq_mul (n * 2 ^ (p - 1 - Nat.log 2 n))
      have hscale : (2 : ℚ) ^ (p - 1 - Nat.log 2 n) * 2 ^ lastPlace p (n : ℚ) = 1 := by
        rw [lastPlace, Int.log_natCast, ← zpow_natCast, ← zpow_add₀ two_ne_zero,
          ← zpow_zero (2 : ℚ)]
        congr 1
        omega
      push_cast
      rw [mul_assoc, hscale, mul_one]
  · have hpow := roundBits_zpow hp p
    rw [zpow_natCast] at hpow
    exact_mod_cast hpow

/-- Rounding does not leave the interval between two powers of two. -/
theorem roundBits_mem {p : Nat} (hp : 1 ≤ p) {x : ℚ} (h : 0 < x) :
    (2 : ℚ) ^ Int.log 2 x ≤ roundBits p x ∧ roundBits p x ≤ 2 ^ (Int.log 2 x + 1) := by
  have hpos : (0 : ℚ) < 2 ^ lastPlace p x := by positivity
  have hlow : (2 : ℚ) ^ Int.log 2 x = (2 ^ (p - 1) : ℤ) * 2 ^ lastPlace p x := by
    rw [lastPlace, Int.cast_pow, Int.cast_ofNat, ← zpow_natCast, ← zpow_add₀ two_ne_zero]
    congr 1
    omega
  have hhigh : (2 : ℚ) ^ (Int.log 2 x + 1) = (2 ^ p : ℤ) * 2 ^ lastPlace p x := by
    rw [lastPlace, Int.cast_pow, Int.cast_ofNat, ← zpow_natCast, ← zpow_add₀ two_ne_zero]
    congr 1
    omega
  rw [roundBits, hlow, hhigh, mul_le_mul_iff_left₀ hpos, mul_le_mul_iff_left₀ hpos, Int.cast_le,
    Int.cast_le]
  constructor
  · rw [← roundEven_intCast (2 ^ (p - 1))]
    apply roundEven_mono
    rw [le_div_iff₀ hpos, ← hlow]
    exact_mod_cast Int.zpow_log_le_self one_lt_two h
  · rw [← roundEven_intCast (2 ^ p)]
    apply roundEven_mono
    rw [div_le_iff₀ hpos, ← hhigh]
    exact_mod_cast (Int.lt_zpow_succ_log_self one_lt_two x).le

theorem roundBits_mono {p : Nat} (hp : 1 ≤ p) {x y : ℚ} (hx : 0 ≤ x) (h : x ≤ y) :
    roundBits p x ≤ roundBits p y := by
  rcases hx.eq_or_lt with rfl | hpos
  · rw [roundBits_zero]
    exact roundBits_nonneg p h
  rcases (Int.log_mono_right hpos h : Int.log 2 x ≤ Int.log 2 y).lt_or_eq with hlt | heq
  · -- a power of two lies between them
    calc roundBits p x ≤ 2 ^ (Int.log 2 x + 1) := (roundBits_mem hp hpos).2
      _ ≤ 2 ^ Int.log 2 y := zpow_le_zpow_right₀ one_le_two hlt
      _ ≤ roundBits p y := (roundBits_mem hp (hpos.trans_le h)).1
  · have hplace : lastPlace p x = lastPlace p y := by
      rw [lastPlace, lastPlace, heq]
    have hunit : (0 : ℚ) < 2 ^ lastPlace p y := by positivity
    rw [roundBits, roundBits, hplace, mul_le_mul_iff_left₀ hunit, Int.cast_le]
    apply roundEven_mono
    exact div_le_div_of_nonneg_right h hunit.le

theorem roundBits_le_one {p : Nat} (hp : 1 ≤ p) {x : ℚ} (hx : 0 ≤ x) (h : x ≤ 1) :
    roundBits p x ≤ 1 :=
  (roundBits_mono hp hx h).trans_eq (roundBits_one hp)

/-- A quotient of roundings is at most one if the quotient is. -/
theorem roundBits_div_le_one {p : Nat} (hp : 1 ≤ p) {x y : ℚ} (hx : 0 ≤ x) (h : x ≤ y) :
    roundBits p (roundBits p x / roundBits p y) ≤ 1 := by
  have hnonneg := roundBits_nonneg p hx
  apply roundBits_le_one hp
  · exact div_nonneg hnonneg (roundBits_nonneg p (hx.trans h))
  · exact div_le_one_of_le₀ (roundBits_mono hp hx h) (roundBits_nonneg p (hx.trans h))

/-! ## Distances -/

theorem roundEven_error (x : ℚ) : |(roundEven x : ℚ) - x| ≤ 1 / 2 := by
  have hlow := Int.floor_le x
  have hhigh := Int.lt_floor_add_one x
  rw [roundEven, abs_le]
  split
  case isTrue h =>
    have hhalf : x - ⌊x⌋ ≤ 1 / 2 := by
      rcases h with hlt | ⟨heq, -⟩
      · exact hlt.le
      · exact heq.le
    constructor <;> linarith
  case isFalse h =>
    have hhalf : 1 / 2 ≤ x - ⌊x⌋ := le_of_not_gt fun hlt => h (Or.inl hlt)
    push_cast
    constructor <;> linarith

/-- Rounding moves a number by at most half of its last place. -/
theorem roundBits_error (p : Nat) {x : ℚ} (hx : 0 ≤ x) : |roundBits p x - x| ≤ x / 2 ^ p := by
  rcases hx.eq_or_lt with rfl | hpos
  · rw [roundBits_zero, sub_self, abs_zero, zero_div]
  have hunit : (0 : ℚ) < 2 ^ lastPlace p x := by positivity
  have hplace : (2 : ℚ) ^ lastPlace p x = 2 ^ Int.log 2 x * 2 / 2 ^ p := by
    rw [lastPlace, zpow_sub₀ two_ne_zero, zpow_add₀ two_ne_zero, zpow_one, zpow_natCast]
  have hlog : (2 : ℚ) ^ Int.log 2 x ≤ x := by
    exact_mod_cast Int.zpow_log_le_self one_lt_two hpos
  have hscaled : roundBits p x - x =
      (roundEven (x / 2 ^ lastPlace p x) - x / 2 ^ lastPlace p x) * 2 ^ lastPlace p x := by
    rw [roundBits, sub_mul, div_mul_cancel₀ x hunit.ne']
  calc |roundBits p x - x|
      = |(roundEven (x / 2 ^ lastPlace p x) : ℚ) - x / 2 ^ lastPlace p x| *
          2 ^ lastPlace p x := by rw [hscaled, abs_mul, abs_of_pos hunit]
    _ ≤ 1 / 2 * 2 ^ lastPlace p x :=
        mul_le_mul_of_nonneg_right (roundEven_error _) hunit.le
    _ = 2 ^ Int.log 2 x / 2 ^ p := by rw [hplace]; ring
    _ ≤ x / 2 ^ p := div_le_div_of_nonneg_right hlog (by positivity)

/-- Numbers that are further apart than rounding can move them stay apart. -/
theorem roundBits_lt {p : Nat} {x y : ℚ} (hx : 0 ≤ x) (hy : 0 ≤ y)
    (h : x + (x + y) / 2 ^ p < y) : roundBits p x < roundBits p y := by
  have hlow := abs_le.mp (roundBits_error p hx)
  have hhigh := abs_le.mp (roundBits_error p hy)
  rw [add_div] at h
  linarith [hlow.2, hhigh.1]

/-- Rounded fractions compare as the fractions do, if their terms are small for the number of bits.
-/
theorem roundBits_div_lt_iff {p a b c d : Nat} (hp : 1 ≤ p) (hb : 0 < b) (hd : 0 < d)
    (hsmall : 2 * (c * b) ≤ 2 ^ p) :
    roundBits p ((a : ℚ) / b) < roundBits p ((c : ℚ) / d) ↔ a * d < c * b := by
  have hb' : (0 : ℚ) < b := Nat.cast_pos.mpr hb
  have hd' : (0 : ℚ) < d := Nat.cast_pos.mpr hd
  have hx : (0 : ℚ) ≤ (a : ℚ) / b := by positivity
  have hy : (0 : ℚ) ≤ (c : ℚ) / d := by positivity
  constructor
  · intro h
    by_contra hle
    have hcross : (c : ℚ) / d ≤ (a : ℚ) / b := by
      rw [div_le_div_iff₀ hd' hb']
      exact_mod_cast Nat.le_of_not_lt hle
    exact absurd h (not_lt.mpr (roundBits_mono hp hy hcross))
  · intro h
    apply roundBits_lt hx hy
    -- the fractions differ by at least one part of the common denominator
    have hgap : (a : ℚ) / b + 1 / (b * d) ≤ (c : ℚ) / d := by
      rw [div_add_div _ _ hb'.ne' (by positivity), div_le_div_iff₀ (by positivity) hd']
      have hnat : (a : ℚ) * d + 1 ≤ c * b := by exact_mod_cast h
      nlinarith [mul_le_mul_of_nonneg_left hnat (by positivity : (0 : ℚ) ≤ b * d)]
    have hlt : (a : ℚ) / b < (c : ℚ) / d := by
      have : (0 : ℚ) < 1 / (b * d) := by positivity
      linarith
    have hshare : 2 * ((c : ℚ) / d) / 2 ^ p ≤ 1 / (b * d) := by
      rw [div_le_div_iff₀ (by positivity) (by positivity)]
      have hnat : (2 : ℚ) * (c * b) ≤ 2 ^ p := by exact_mod_cast hsmall
      calc 2 * ((c : ℚ) / d) * (b * d) = 2 * (c * b) := by field_simp
        _ ≤ 1 * 2 ^ p := by rw [one_mul]; exact hnat
    have hsum : ((a : ℚ) / b + (c : ℚ) / d) / 2 ^ p < 2 * ((c : ℚ) / d) / 2 ^ p :=
      div_lt_div_of_pos_right (by linarith) (by positivity)
    linarith

end EntrouterLine.Lib
