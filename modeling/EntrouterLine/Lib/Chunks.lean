import Mathlib.Tactic

/-!
# Cutting a list into chunks

`chunks size xs` cuts `xs` into pieces of `size` elements, of which the last may be shorter. The
pieces put together are the list again (`flatten_chunks`), none of them is longer than the list or
`size` (`length_le_of_mem_chunks`), and the first is as long as it can be (`exists_length_eq_min`).
-/

set_option autoImplicit false

namespace EntrouterLine.Lib.Chunks

universe u

variable {α : Type u} {size : Nat} {xs : List α}

/-- The pieces of `size` elements of a list, in order. -/
def chunks (size : Nat) (xs : List α) : List (List α) :=
  (List.range ((xs.length + size - 1) / size)).map fun k => (xs.drop (k * size)).take size

/-- The first `k` pieces make up the first `k * size` elements. -/
theorem flatten_map_range (size : Nat) (xs : List α) (k : Nat) :
    ((List.range k).map fun k => (xs.drop (k * size)).take size).flatten = xs.take (k * size) := by
  induction k with
  | zero => simp
  | succ k ih =>
    rw [List.range_succ, List.map_append, List.flatten_append, ih, Nat.succ_mul, List.take_add]
    simp

theorem flatten_chunks (hsize : 0 < size) (xs : List α) : (chunks size xs).flatten = xs := by
  rw [chunks, flatten_map_range, List.take_of_length_le]
  -- rounding up loses nothing
  have hround := Nat.lt_div_mul_add (a := xs.length + size - 1) hsize
  omega

theorem length_le_of_mem_chunks {c : List α} (h : c ∈ chunks size xs) :
    c.length ≤ min xs.length size := by
  obtain ⟨k, -, rfl⟩ := List.mem_map.mp h
  rw [List.length_take, List.length_drop]
  omega

/-- A list that is not empty has a piece as long as the list and the size allow. -/
theorem exists_length_eq_min (hsize : 0 < size) (hxs : 0 < xs.length) :
    ∃ c ∈ chunks size xs, c.length = min xs.length size := by
  have hpos : 0 < (xs.length + size - 1) / size := by
    apply Nat.div_pos _ hsize
    omega
  refine ⟨(xs.drop (0 * size)).take size, List.mem_map.mpr ⟨0, List.mem_range.mpr hpos, rfl⟩, ?_⟩
  rw [Nat.zero_mul, List.drop_zero, List.length_take, Nat.min_comm]

end EntrouterLine.Lib.Chunks
