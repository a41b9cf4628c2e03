import EntrouterLine.Lib.RingBuffer
import EntrouterLine.Lib.Rounding
import EntrouterLine.Relay.Fec

/-!
# The loss tracker

`LossTracker` counts the lost datagrams among the last ones recorded. Its window is a ring buffer
that starts out full of `true`, and its count is updated with every value that is overwritten. It is
the ring buffer together with the number of `false` in it (`record_ofRing`), so that the count is
exact after any number of calls (`lossTracker_exact`).
-/

set_option autoImplicit false

namespace EntrouterLine.Relay

open EntrouterLine.Lib

/-- The window has `true` for a received datagram and `false` for a lost one. -/
structure LossTracker where
  window : List Bool
  pos : Nat
  count : Nat
  deriving DecidableEq

def LossTracker.new (windowSize : Nat) : LossTracker := ⟨List.replicate windowSize true, 0, 0⟩

def LossTracker.record (t : LossTracker) (received : Bool) : Except Panic LossTracker :=
  match t.window[t.pos]? with
  | none => .error .indexOutOfBounds
  | some old =>
      -- `saturating_sub`, if a lost entry is overwritten
      let count := if old then t.count else t.count - 1
      .ok {
        window := t.window.set t.pos received
        pos := (t.pos + 1) % t.window.length
        count := if received then count else count + 1 }

/-- A sequence of calls of `record`. -/
def LossTracker.records (t : LossTracker) (received : List Bool) : Except Panic LossTracker :=
  received.foldlM LossTracker.record t

/-- `a as f64 / b as f64`, unless `b` is zero. -/
def f64Quotient (a b : Nat) : ℚ := roundBits 53 (roundBits 53 a / roundBits 53 b)

/-- `LossTracker::loss_rate`, for a window that is not empty. -/
def LossTracker.lossRate (t : LossTracker) : ℚ := f64Quotient t.count t.window.length

/-- One lost datagram in a window of four is overwritten, two are left. -/
example : ((LossTracker.new 4).records [false, true, false, false, true]).map LossTracker.count =
    .ok 2 := by decide

/-! ## The ring buffer -/

/-- The tracker whose window is a ring buffer and whose count is exact. -/
def LossTracker.ofRing (r : RingBuffer Bool) : LossTracker := ⟨r.buf, r.pos, r.contents.count false⟩

theorem window_ofRing (r : RingBuffer Bool) :
    (LossTracker.ofRing r).window[(LossTracker.ofRing r).pos]? = some r.oldest :=
  List.getElem?_eq_getElem r.pos_lt

/-- A lost entry is counted, so overwriting it never saturates. -/
theorem count_pos_of_oldest {r : RingBuffer Bool} (h : r.oldest = false) :
    0 < r.contents.count false := by
  rw [r.contents_eq_cons, h, List.count_cons_self]
  exact Nat.succ_pos _

/-- `record` is a push, and keeps the count exact. -/
theorem record_ofRing (r : RingBuffer Bool) (received : Bool) :
    (LossTracker.ofRing r).record received = .ok (LossTracker.ofRing (r.push received)) := by
  have hpush : (r.push received).contents.count false + (if r.oldest == false then 1 else 0) =
      r.contents.count false + (if received == false then 1 else 0) :=
    r.countP_push (· == false) received
  rw [LossTracker.record, window_ofRing, LossTracker.ofRing, LossTracker.ofRing]
  dsimp only
  congr 2
  cases holdest : r.oldest with
  | true =>
    rw [holdest] at hpush
    cases received <;> simpa using hpush.symm
  | false =>
    have hpos := count_pos_of_oldest holdest
    rw [holdest] at hpush
    cases received with
    | true =>
      change (r.push true).contents.count false + 1 = r.contents.count false + 0 at hpush
      show r.contents.count false - 1 = (r.push true).contents.count false
      omega
    | false =>
      change (r.push false).contents.count false + 1 = r.contents.count false + 1 at hpush
      show r.contents.count false - 1 + 1 = (r.push false).contents.count false
      omega

theorem records_ofRing (r : RingBuffer Bool) (received : List Bool) :
    (LossTracker.ofRing r).records received = .ok (LossTracker.ofRing (r.pushAll received)) := by
  induction received generalizing r with
  | nil => rfl
  | cons b received ih =>
    show ((LossTracker.ofRing r).record b >>= fun t => t.records received) = _
    rw [record_ofRing]
    exact ih (r.push b)

/-- The window of a new tracker. -/
def fullRing (windowSize : Nat) (h : 0 < windowSize) : RingBuffer Bool :=
  ⟨List.replicate windowSize true, 0, by rw [List.length_replicate]; exact h⟩

theorem contents_fullRing {windowSize : Nat} (h : 0 < windowSize) :
    (fullRing windowSize h).contents = List.replicate windowSize true :=
  List.rotate_zero _

theorem new_eq_ofRing {windowSize : Nat} (h : 0 < windowSize) :
    LossTracker.new windowSize = LossTracker.ofRing (fullRing windowSize h) := by
  have hcount : (fullRing windowSize h).contents.count false = 0 := by
    rw [contents_fullRing, List.count_replicate]
    rfl
  rw [LossTracker.ofRing, hcount]
  rfl

/-! ## The loss rate -/

theorem f64Quotient_mem {a b : Nat} (h : a ≤ b) : 0 ≤ f64Quotient a b ∧ f64Quotient a b ≤ 1 := by
  have ha : (0 : ℚ) ≤ a := Nat.cast_nonneg a
  constructor
  · apply roundBits_nonneg
    exact div_nonneg (roundBits_nonneg 53 ha) (roundBits_nonneg 53 (Nat.cast_nonneg b))
  · exact roundBits_div_le_one (by decide) ha (Nat.cast_le.mpr h)

/-- Up to `2 ^ 53` the operands are exact. -/
theorem f64Quotient_eq {a b : Nat} (h : a ≤ b) (hb : b ≤ 2 ^ 53) :
    f64Quotient a b = roundBits 53 (a / b) := by
  rw [f64Quotient, roundBits_natCast (by decide) (h.trans hb), roundBits_natCast (by decide) hb]

/-- After any number of calls on a window that is not empty, none of which panics: `count` is the
number of lost datagrams among the last ones recorded, `pos` is the number of calls modulo the size
of the window, the next call does not saturate, and the loss rate is the quotient of the count and
the size, between 0 and 1. -/
theorem lossTracker_exact {windowSize : Nat} (hsize : 1 ≤ windowSize) (received : List Bool) :
    ∃ t, (LossTracker.new windowSize).records received = .ok t ∧
      t.count = (received.rtake windowSize).count false ∧
      t.pos = received.length % windowSize ∧
      (t.window[t.pos]? = some false → 1 ≤ t.count) ∧
      t.lossRate = f64Quotient ((received.rtake windowSize).count false) windowSize ∧
      (windowSize ≤ 2 ^ 53 → t.lossRate =
        roundBits 53 ((received.rtake windowSize).count false / windowSize)) ∧
      0 ≤ t.lossRate ∧ t.lossRate ≤ 1 := by
  let r := (fullRing windowSize hsize).pushAll received
  have hlength : r.buf.length = windowSize :=
    (RingBuffer.length_pushAll _ received).trans List.length_replicate
  have hcount : r.contents.count false = (received.rtake windowSize).count false := by
    rw [RingBuffer.contents_pushAll_of_replicate (contents_fullRing hsize), List.count_append,
      List.count_replicate]
    simp
  have hpos : r.pos = received.length % windowSize := by
    rw [RingBuffer.pos_pushAll]
    show (0 + received.length) % (List.replicate windowSize true).length = _
    rw [Nat.zero_add, List.length_replicate]
  have hle : (received.rtake windowSize).count false ≤ windowSize := by
    rw [← hcount, ← hlength, ← r.length_contents]
    exact List.count_le_length
  have hrate : (LossTracker.ofRing r).lossRate =
      f64Quotient ((received.rtake windowSize).count false) windowSize := by
    rw [← hcount, ← hlength]
    rfl
  refine ⟨LossTracker.ofRing r, ?_, hcount, hpos, ?_, hrate, ?_, ?_⟩
  · rw [new_eq_ofRing hsize, records_ofRing]
  · intro hlost
    rw [window_ofRing, Option.some.injEq] at hlost
    exact count_pos_of_oldest hlost
  · intro hbits
    rw [hrate, f64Quotient_eq hle hbits]
  · rw [hrate]
    exact f64Quotient_mem hle

theorem lossTracker_exact_four :
    ∃ t, (LossTracker.new 4).records [true, false, true, false, true, true] = .ok t ∧
      t.count = ([true, false, true, false, true, true].rtake 4).count false ∧
      t.pos = [true, false, true, false, true, true].length % 4 ∧
      (t.window[t.pos]? = some false → 1 ≤ t.count) ∧
      t.lossRate =
        f64Quotient (([true, false, true, false, true, true].rtake 4).count false) 4 ∧
      (4 ≤ 2 ^ 53 → t.lossRate = roundBits 53
        ((([true, false, true, false, true, true].rtake 4).count false : Nat) / (4 : Nat))) ∧
      0 ≤ t.lossRate ∧ t.lossRate ≤ 1 :=
  lossTracker_exact (by decide) _

end EntrouterLine.Relay
