import Mathlib.Tactic
import Mathlib.Data.Finset.Card

/-!
# Threshold assembly of items from parts

Items `k : κ` are assembled from parts `i : ι`. The assembler holds, for every item, the set of
parts that have arrived since the item was last completed or cleared. An item completes as soon as
`th` distinct parts of it are held, and the parts held for it are then forgotten. `done` counts the
completions and `arrived` lists the arrivals of every item.

Three accounts of a run are kept. `Counted` holds whatever is cleared: every completion has used up
`th` arrivals, so distinct arrivals from fewer than `2 * th` parts complete an item at most once
(`Counted.done_le_one`). `Exact` and `Fresh` hold when nothing is cleared: every distinct arrival is
held or used up, and until its first completion an item holds exactly the parts that have arrived
(`Fresh.completes_iff`).
-/

set_option autoImplicit false

namespace EntrouterLine.Lib.Threshold

universe u v

variable {κ : Type u} {ι : Type v}

/-- The state of an assembler: the parts held, the number of completions and the arrivals of every
item. -/
structure Assembly (κ : Type u) (ι : Type v) where
  held : κ → Finset ι
  done : κ → Nat
  arrived : κ → List ι

/-- Nothing has arrived. -/
def empty : Assembly κ ι := ⟨fun _ => ∅, fun _ => 0, fun _ => []⟩

/-- The arrival of part `i` completes item `k`. -/
def Completes [DecidableEq ι] (th : Nat) (A : Assembly κ ι) (k : κ) (i : ι) : Prop :=
  th ≤ (insert i (A.held k)).card

instance [DecidableEq ι] (th : Nat) (A : Assembly κ ι) (k : κ) (i : ι) :
    Decidable (Completes th A k i) :=
  inferInstanceAs (Decidable (_ ≤ _))

/-- Part `i` of item `k` arrives. -/
def arrive [DecidableEq κ] [DecidableEq ι] (th : Nat) (A : Assembly κ ι) (k : κ) (i : ι) :
    Assembly κ ι :=
  if Completes th A k i then
    { held := Function.update A.held k ∅
      done := Function.update A.done k (A.done k + 1)
      arrived := Function.update A.arrived k (A.arrived k ++ [i]) }
  else
    { held := Function.update A.held k (insert i (A.held k))
      done := A.done
      arrived := Function.update A.arrived k (A.arrived k ++ [i]) }

/-- The parts held for every item picked by `p` are dropped. -/
def clear (p : κ → Bool) (A : Assembly κ ι) : Assembly κ ι :=
  { A with held := fun k => if p k then ∅ else A.held k }

variable {th : Nat} {A : Assembly κ ι} {k k' : κ} {i : ι}

@[simp] theorem done_clear (p : κ → Bool) : (clear p A).done = A.done := rfl

@[simp] theorem arrived_clear (p : κ → Bool) : (clear p A).arrived = A.arrived := rfl

theorem held_clear (p : κ → Bool) (k : κ) :
    (clear p A).held k = if p k then ∅ else A.held k := rfl

/-! ## One arrival, field by field -/

section Arrive

variable [DecidableEq κ] [DecidableEq ι]

theorem held_arrive_of_completes (h : Completes th A k i) : (arrive th A k i).held k = ∅ := by
  simp [arrive, h]

theorem held_arrive_of_not_completes (h : ¬ Completes th A k i) :
    (arrive th A k i).held k = insert i (A.held k) := by
  simp [arrive, h]

@[simp] theorem held_arrive_of_ne (h : k' ≠ k) : (arrive th A k i).held k' = A.held k' := by
  rw [arrive]
  split <;> simp [h]

@[simp] theorem arrived_arrive_self : (arrive th A k i).arrived k = A.arrived k ++ [i] := by
  rw [arrive]
  split <;> simp

@[simp] theorem arrived_arrive_of_ne (h : k' ≠ k) :
    (arrive th A k i).arrived k' = A.arrived k' := by
  rw [arrive]
  split <;> simp [h]

theorem done_arrive_of_completes (h : Completes th A k i) :
    (arrive th A k i).done k = A.done k + 1 := by
  simp [arrive, h]

theorem done_arrive_of_not_completes (h : ¬ Completes th A k i) :
    (arrive th A k i).done k = A.done k := by
  simp [arrive, h]

@[simp] theorem done_arrive_of_ne (h : k' ≠ k) : (arrive th A k i).done k' = A.done k' := by
  rw [arrive]
  split <;> simp [h]

end Arrive

/-! ## Counting completions -/

/-- Every completion has used up `th` arrivals, and no item holds `th` parts. -/
structure Counted (th : Nat) (A : Assembly κ ι) : Prop where
  bound : ∀ k, th * A.done k + (A.held k).card ≤ (A.arrived k).length
  short : ∀ k, (A.held k).card < th

theorem counted_empty (hth : 0 < th) : Counted th (empty : Assembly κ ι) where
  bound k := by simp [empty]
  short k := by simpa [empty] using hth

theorem Counted.arrive [DecidableEq κ] [DecidableEq ι] (h : Counted th A) (k : κ) (i : ι) :
    Counted th (arrive th A k i) := by
  have hcard : (insert i (A.held k)).card ≤ (A.held k).card + 1 := Finset.card_insert_le i _
  have hbound := h.bound k
  have hshort := h.short k
  constructor
  · intro k'
    by_cases hk : k' = k
    · subst hk
      by_cases hc : Completes th A k' i
      · -- the completion uses up what is held and the new arrival, `th` parts at least
        rw [held_arrive_of_completes hc, done_arrive_of_completes hc, arrived_arrive_self,
          List.length_append, Finset.card_empty, Nat.mul_succ]
        have hth : th ≤ (insert i (A.held k')).card := hc
        simp only [List.length_singleton]
        omega
      · rw [held_arrive_of_not_completes hc, done_arrive_of_not_completes hc,
          arrived_arrive_self, List.length_append]
        simp only [List.length_singleton]
        omega
    · simpa [hk] using h.bound k'
  · intro k'
    by_cases hk : k' = k
    · subst hk
      by_cases hc : Completes th A k' i
      · rw [held_arrive_of_completes hc, Finset.card_empty]
        omega
      · rw [held_arrive_of_not_completes hc]
        exact Nat.lt_of_not_le hc
    · simpa [hk] using h.short k'

theorem Counted.clear (h : Counted th A) (p : κ → Bool) : Counted th (clear p A) := by
  constructor
  · intro k
    have hbound := h.bound k
    rw [held_clear, done_clear, arrived_clear]
    split
    · rw [Finset.card_empty]
      omega
    · exact hbound
  · intro k
    have hshort := h.short k
    rw [held_clear]
    split
    · rw [Finset.card_empty]
      omega
    · exact hshort

/-- Distinct arrivals from fewer than `2 * th` parts complete an item at most once. -/
theorem Counted.done_le_one [DecidableEq ι] (h : Counted th A) {parts : Finset ι}
    (hparts : parts.card < 2 * th) (hnodup : (A.arrived k).Nodup)
    (hmem : ∀ i ∈ A.arrived k, i ∈ parts) : A.done k ≤ 1 := by
  have hlen : (A.arrived k).length ≤ parts.card := by
    rw [← List.toFinset_card_of_nodup hnodup]
    exact Finset.card_le_card fun i hi => hmem i (List.mem_toFinset.mp hi)
  have hbound := h.bound k
  -- two completions take `2 * th` arrivals, more than there are parts
  by_contra hdone
  have htwo : th * 2 ≤ th * A.done k := Nat.mul_le_mul_left th (by omega)
  omega

/-- While nothing has been cleared and no part has arrived twice, the bound of `Counted` is exact:
every arrival is held or has been used up. -/
structure Exact (th : Nat) (A : Assembly κ ι) : Prop where
  arrived : ∀ k, ∀ i ∈ A.held k, i ∈ A.arrived k
  total : ∀ k, (A.arrived k).Nodup → th * A.done k + (A.held k).card = (A.arrived k).length

theorem exact_empty (th : Nat) : Exact th (empty : Assembly κ ι) where
  arrived k i hi := by simp [empty] at hi
  total k _ := by simp [empty]

theorem Exact.arrive [DecidableEq κ] [DecidableEq ι] (h : Exact th A) (hcounted : Counted th A)
    (k : κ) (i : ι) : Exact th (arrive th A k i) := by
  constructor
  · intro k' j hj
    rcases eq_or_ne k' k with rfl | hne
    · rw [arrived_arrive_self, List.mem_append, List.mem_singleton]
      by_cases hc : Completes th A k' i
      · rw [held_arrive_of_completes hc] at hj
        simp at hj
      · rw [held_arrive_of_not_completes hc, Finset.mem_insert] at hj
        rcases hj with rfl | hj
        · exact Or.inr rfl
        · exact Or.inl (h.arrived k' j hj)
    · rw [held_arrive_of_ne hne] at hj
      rw [arrived_arrive_of_ne hne]
      exact h.arrived k' j hj
  · intro k' hnodup
    rcases eq_or_ne k' k with rfl | hne
    · rw [arrived_arrive_self] at hnodup ⊢
      obtain ⟨hold, -, hdisjoint⟩ := List.nodup_append.mp hnodup
      -- a part that arrives for the first time is not held yet
      have hnew : i ∉ A.held k' := fun hi => hdisjoint i (h.arrived k' i hi) i (by simp) rfl
      have hcard := Finset.card_insert_of_notMem hnew
      have htotal := h.total k' hold
      have hshort := hcounted.short k'
      rw [List.length_append, List.length_singleton]
      by_cases hc : Completes th A k' i
      · rw [held_arrive_of_completes hc, done_arrive_of_completes hc, Finset.card_empty,
          Nat.mul_succ]
        have hth : th ≤ (insert i (A.held k')).card := hc
        omega
      · rw [held_arrive_of_not_completes hc, done_arrive_of_not_completes hc, hcard]
        omega
    · rw [arrived_arrive_of_ne hne] at hnodup
      rw [held_arrive_of_ne hne, done_arrive_of_ne hne, arrived_arrive_of_ne hne]
      exact h.total k' hnodup

/-! ## The first completion -/

/-- While nothing has been cleared, an item that has not completed holds exactly its arrivals, and
it has completed as soon as `th` distinct parts have arrived. -/
structure Fresh [DecidableEq ι] (th : Nat) (A : Assembly κ ι) : Prop where
  held : ∀ k, A.done k = 0 → A.held k = (A.arrived k).toFinset
  done : ∀ k, A.done k = 0 ↔ (A.arrived k).toFinset.card < th

theorem fresh_empty [DecidableEq ι] (hth : 0 < th) : Fresh th (empty : Assembly κ ι) where
  held k _ := by simp [empty]
  done k := by simpa [empty] using hth

/-- Before the first completion, an arrival completes its item exactly when it brings the number
of distinct parts that have arrived to `th`. -/
theorem Fresh.completes_iff [DecidableEq ι] (h : Fresh th A)
    (hfew : (A.arrived k).toFinset.card < th) :
    Completes th A k i ↔ th ≤ (A.arrived k ++ [i]).toFinset.card := by
  have hheld := h.held k ((h.done k).2 hfew)
  have hset : (A.arrived k ++ [i]).toFinset = insert i (A.arrived k).toFinset := by
    ext j
    simp
  rw [Completes, hheld, hset]

theorem Fresh.arrive [DecidableEq κ] [DecidableEq ι] (h : Fresh th A) (k : κ) (i : ι) :
    Fresh th (arrive th A k i) := by
  have hset : (A.arrived k ++ [i]).toFinset = insert i (A.arrived k).toFinset := by
    ext j
    simp
  have hmono : (A.arrived k).toFinset.card ≤ (A.arrived k ++ [i]).toFinset.card := by
    rw [hset]
    exact Finset.card_le_card (Finset.subset_insert _ _)
  constructor
  · intro k' hdone
    by_cases hk : k' = k
    · subst hk
      by_cases hc : Completes th A k' i
      · rw [done_arrive_of_completes hc] at hdone
        omega
      · rw [done_arrive_of_not_completes hc] at hdone
        rw [held_arrive_of_not_completes hc, arrived_arrive_self, hset, h.held k' hdone]
    · rw [done_arrive_of_ne hk] at hdone
      rw [held_arrive_of_ne hk, arrived_arrive_of_ne hk]
      exact h.held k' hdone
  · intro k'
    by_cases hk : k' = k
    · subst hk
      rw [arrived_arrive_self]
      by_cases hfew : (A.arrived k').toFinset.card < th
      · by_cases hc : Completes th A k' i
        · rw [done_arrive_of_completes hc]
          have hlarge := (h.completes_iff hfew).1 hc
          omega
        · rw [done_arrive_of_not_completes hc, h.done k']
          have hsmall := mt (h.completes_iff hfew).2 hc
          omega
      · -- an item that has completed stays completed
        have hpos : A.done k' ≠ 0 := mt (h.done k').1 hfew
        have hstay : (EntrouterLine.Lib.Threshold.arrive th A k' i).done k' ≠ 0 := by
          by_cases hc : Completes th A k' i
          · rw [done_arrive_of_completes hc]
            omega
          · rwa [done_arrive_of_not_completes hc]
        constructor
        · exact fun hzero => absurd hzero hstay
        · intro hlt
          omega
    · rw [done_arrive_of_ne hk, arrived_arrive_of_ne hk]
      exact h.done k'

end EntrouterLine.Lib.Threshold
