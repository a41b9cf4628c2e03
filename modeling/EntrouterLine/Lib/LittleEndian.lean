import Mathlib.Tactic

/-!
# Little-endian byte strings

`toBytes w v` writes the `w` low bytes of `v`, least significant first, and `ofBytes` reads such a
string back. Writing wraps at `256 ^ w`, as a fixed-width cast does (`ofBytes_toBytes`); reading a
string of the right length and writing it again gives the string (`toBytes_ofBytes`).
-/

set_option autoImplicit false

namespace EntrouterLine.Lib.LittleEndian

/-- The `w` low bytes of `v`, least significant first. -/
def toBytes : Nat → Nat → List UInt8
  | 0, _ => []
  | w + 1, v => UInt8.ofNat v :: toBytes w (v / 256)

/-- The number a little-endian byte string stands for. -/
def ofBytes : List UInt8 → Nat
  | [] => 0
  | b :: bs => b.toNat + 256 * ofBytes bs

@[simp] theorem length_toBytes (w v : Nat) : (toBytes w v).length = w := by
  induction w generalizing v with
  | zero => rfl
  | succ w ih => simp [toBytes, ih]

/-- Reading what was written gives the value modulo the width. -/
theorem ofBytes_toBytes (w v : Nat) : ofBytes (toBytes w v) = v % 256 ^ w := by
  induction w generalizing v with
  | zero => simp [toBytes, ofBytes, Nat.mod_one]
  | succ w ih =>
    -- the low byte, and the rest modulo the smaller width
    simp only [toBytes, ofBytes, ih, UInt8.toNat_ofNat']
    rw [pow_succ' 256 w, Nat.mod_mul]

theorem ofBytes_toBytes_of_lt {w v : Nat} (h : v < 256 ^ w) : ofBytes (toBytes w v) = v := by
  rw [ofBytes_toBytes, Nat.mod_eq_of_lt h]

/-- A string of `w` bytes reads as a number below `256 ^ w`. -/
theorem ofBytes_lt (bs : List UInt8) : ofBytes bs < 256 ^ bs.length := by
  induction bs with
  | nil => simp [ofBytes]
  | cons b bs ih =>
    have hb : b.toNat < 256 := b.toNat_lt
    simp only [ofBytes, List.length_cons, pow_succ']
    omega

/-- Writing what was read gives the bytes back. -/
theorem toBytes_ofBytes (bs : List UInt8) : toBytes bs.length (ofBytes bs) = bs := by
  induction bs with
  | nil => rfl
  | cons b bs ih =>
    have hb : b.toNat < 256 := b.toNat_lt
    have hdiv : (b.toNat + 256 * ofBytes bs) / 256 = ofBytes bs := by omega
    have hhead : UInt8.ofNat (b.toNat + 256 * ofBytes bs) = b := by
      apply UInt8.toNat_inj.mp
      rw [UInt8.toNat_ofNat']
      omega
    simp only [List.length_cons, ofBytes, toBytes, hdiv, hhead, ih]

/-- Fixed-width strings are equal as soon as they read as the same number. -/
theorem toBytes_inj {w v v' : Nat} (hv : v < 256 ^ w) (hv' : v' < 256 ^ w)
    (h : toBytes w v = toBytes w v') : v = v' := by
  have := congrArg ofBytes h
  rwa [ofBytes_toBytes_of_lt hv, ofBytes_toBytes_of_lt hv'] at this

end EntrouterLine.Lib.LittleEndian
