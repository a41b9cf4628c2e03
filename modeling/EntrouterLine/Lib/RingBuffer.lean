import Mathlib.Data.List.DropRight
import Mathlib.Data.List.Rotate

/-!
# Ring buffers

A buffer of fixed length and the place that is written next, where the oldest value is. A push
overwrites that value and moves on, back to the front at the end. Read from the oldest value to the
newest, a push drops the first value and appends the new one (`contents_push`), so that after any
number of pushes the buffer holds the last values of everything it has held (`contents_pushAll`).
-/

set_option autoImplicit false

namespace EntrouterLine.Lib

universe u

variable {α : Type u}

structure RingBuffer (α : Type u) where
  buf : List α
  pos : Nat
  pos_lt : pos < buf.length

namespace RingBuffer

/-- The buffer from the oldest value to the newest. -/
def contents (r : RingBuffer α) : List α := r.buf.rotate r.pos

/-- The value that the next push overwrites. -/
def oldest (r : RingBuffer α) : α := r.buf.get ⟨r.pos, r.pos_lt⟩

def push (r : RingBuffer α) (x : α) : RingBuffer α where
  buf := r.buf.set r.pos x
  pos := (r.pos + 1) % r.buf.length
  pos_lt := by
    rw [List.length_set]
    exact Nat.mod_lt _ (Nat.zero_lt_of_lt r.pos_lt)

def pushAll (r : RingBuffer α) (xs : List α) : RingBuffer α := xs.foldl push r

@[simp] theorem length_push (r : RingBuffer α) (x : α) :
    (r.push x).buf.length = r.buf.length :=
  List.length_set

theorem length_contents (r : RingBuffer α) : r.contents.length = r.buf.length :=
  List.length_rotate _ _

theorem contents_eq_cons (r : RingBuffer α) :
    r.contents = r.oldest :: (r.buf.drop (r.pos + 1) ++ r.buf.take r.pos) := by
  rw [contents, List.rotate_eq_drop_append_take r.pos_lt.le, List.drop_eq_getElem_cons r.pos_lt]
  rfl

/-- A push drops the oldest value and appends the new one. -/
theorem contents_push (r : RingBuffer α) (x : α) :
    (r.push x).contents = r.contents.tail ++ [x] := by
  have hset : r.buf.set r.pos x = r.buf.take r.pos ++ [x] ++ r.buf.drop (r.pos + 1) := by
    rw [List.set_eq_take_append_cons_drop, if_pos r.pos_lt, List.append_assoc]
    rfl
  have hpos : (r.buf.set r.pos x).rotate ((r.pos + 1) % r.buf.length) =
      (r.buf.set r.pos x).rotate (r.pos + 1) := by
    rw [← (List.length_set : (r.buf.set r.pos x).length = _), List.rotate_mod]
  have hrotate : (r.buf.take r.pos ++ [x] ++ r.buf.drop (r.pos + 1)).rotate (r.pos + 1) =
      r.buf.drop (r.pos + 1) ++ (r.buf.take r.pos ++ [x]) := by
    have hlen : r.pos + 1 = (r.buf.take r.pos ++ [x]).length := by
      rw [List.length_append, List.length_take_of_le r.pos_lt.le, List.length_singleton]
    conv_lhs => arg 2; rw [hlen]
    exact List.rotate_append_length_eq _ _
  rw [contents, push, hpos, hset, hrotate, contents_eq_cons, List.tail_cons, List.append_assoc]

/-- After any pushes the buffer holds the last values of those it held and those pushed. -/
theorem contents_pushAll (r : RingBuffer α) (xs : List α) :
    (r.pushAll xs).contents = (r.contents ++ xs).drop xs.length := by
  induction xs generalizing r with
  | nil => simp [pushAll]
  | cons x xs ih =>
    show ((r.push x).pushAll xs).contents = _
    rw [ih, contents_push, contents_eq_cons, List.tail_cons]
    simp

theorem length_pushAll (r : RingBuffer α) (xs : List α) :
    (r.pushAll xs).buf.length = r.buf.length := by
  induction xs generalizing r with
  | nil => rfl
  | cons x xs ih => exact (ih (r.push x)).trans (r.length_push x)

theorem pos_pushAll (r : RingBuffer α) (xs : List α) :
    (r.pushAll xs).pos = (r.pos + xs.length) % r.buf.length := by
  induction xs generalizing r with
  | nil => exact (Nat.mod_eq_of_lt r.pos_lt).symm
  | cons x xs ih =>
    show ((r.push x).pushAll xs).pos = _
    rw [ih, length_push]
    show ((r.pos + 1) % r.buf.length + xs.length) % r.buf.length = _
    rw [Nat.mod_add_mod, List.length_cons]
    congr 1
    omega

/-- A count over the buffer loses the oldest value and gains the new one. -/
theorem countP_push (p : α → Bool) (r : RingBuffer α) (x : α) :
    (r.push x).contents.countP p + (if p r.oldest then 1 else 0) =
      r.contents.countP p + (if p x then 1 else 0) := by
  rw [contents_push, contents_eq_cons, List.tail_cons, List.countP_append, List.countP_singleton,
    List.countP_cons]
  omega

/-- A buffer that holds one value everywhere holds, after pushes, the last of what was pushed and
that value in the places that are left. -/
theorem contents_pushAll_of_replicate {r : RingBuffer α} {w : Nat} {x : α}
    (h : r.contents = List.replicate w x) (xs : List α) :
    (r.pushAll xs).contents = List.replicate (w - xs.length) x ++ xs.rtake w := by
  rw [contents_pushAll, h, List.drop_append, List.drop_replicate, List.length_replicate,
    List.rtake]

end RingBuffer

end EntrouterLine.Lib
