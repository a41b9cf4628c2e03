import Mathlib.Tactic

/-!
# A table of live items

Items are created one after the other, each under a key, and some of them have ended. A table maps
the key of every live item to its place in the list of items, and no other key to anything
(`Tabulates`). As long as no two items have the same key, creating an item with an entry, ending one
and removing its entry, and changing an item in other respects keep the table right, and the number
of its entries is the number of live items (`Tabulates.countP_eq`).
-/

set_option autoImplicit false

namespace EntrouterLine.Lib.LiveTable

universe u v

variable {ι : Type u} {κ : Type v} {key : ι → κ} {live : ι → Bool}

/-- The entries of the table are the live items, each under its key. -/
def Tabulates (key : ι → κ) (live : ι → Bool) (items : List ι) (table : κ → Option Nat) : Prop :=
  ∀ k c, table k = some c ↔ ∃ item, items[c]? = some item ∧ key item = k ∧ live item = true

variable {items : List ι} {table : κ → Option Nat}

theorem tabulates_nil : Tabulates key live [] fun _ => none := by
  intro k c
  simp

/-- Places with the same key are the same place. -/
theorem eq_of_key_eq (hnodup : (items.map key).Nodup) {b c : Nat} {item other : ι}
    (hitem : items[b]? = some item) (hother : items[c]? = some other) (heq : key item = key other) :
    b = c := by
  have hb : (items.map key)[b]? = some (key item) := by
    rw [List.getElem?_map, hitem, Option.map_some]
  have hc : (items.map key)[c]? = some (key item) := by
    rw [List.getElem?_map, hother, Option.map_some, heq]
  have hlt : b < (items.map key).length := (List.getElem?_eq_some_iff.mp hb).1
  exact (List.getElem?_inj hlt hnodup).mp (hb.trans hc.symm)

/-- Two lists of items that agree, place by place, on the keys and on which items are live. -/
theorem Tabulates.of_same {items' : List ι} (h : Tabulates key live items table)
    (hsame : items'.map (fun item => (key item, live item)) =
      items.map fun item => (key item, live item)) : Tabulates key live items' table := by
  have hplace : ∀ (list : List ι) (c : Nat) (k : κ),
      (∃ item, list[c]? = some item ∧ key item = k ∧ live item = true) ↔
        (list.map fun item => (key item, live item))[c]? = some (k, true) := by
    intro list c k
    rw [List.getElem?_map, Option.map_eq_some_iff]
    constructor
    · rintro ⟨item, hitem, rfl, hlive⟩
      exact ⟨item, hitem, by rw [hlive]⟩
    · rintro ⟨item, hitem, heq⟩
      rw [Prod.mk.injEq] at heq
      exact ⟨item, hitem, heq⟩
  intro k c
  rw [hplace, hsame, ← hplace]
  exact h k c

variable [DecidableEq κ]

/-- A new item gets an entry under its own key. -/
theorem Tabulates.add (h : Tabulates key live items table) {item : ι}
    (hfresh : key item ∉ items.map key) (hlive : live item = true) :
    Tabulates key live (items ++ [item])
      (Function.update table (key item) (some items.length)) := by
  intro k c
  have hold : ∀ {other : ι}, items[c]? = some other → key other ≠ key item := by
    intro other hother heq
    apply hfresh
    rw [← heq]
    exact List.mem_map_of_mem (List.mem_of_getElem? hother)
  rcases Nat.lt_trichotomy c items.length with hlt | rfl | hgt
  · rw [List.getElem?_append_left hlt]
    by_cases hk : k = key item
    · subst hk
      rw [Function.update_self, Option.some.injEq]
      refine iff_of_false (Nat.ne_of_gt hlt) ?_
      rintro ⟨other, hother, heq, -⟩
      exact hold hother heq
    · rw [Function.update_of_ne hk]
      exact h k c
  · rw [List.getElem?_append_right (Nat.le_refl _), Nat.sub_self]
    by_cases hk : k = key item
    · subst hk
      rw [Function.update_self]
      exact iff_of_true rfl ⟨item, rfl, rfl, hlive⟩
    · rw [Function.update_of_ne hk, h k]
      refine iff_of_false ?_ ?_
      · rintro ⟨other, hother, -⟩
        rw [List.getElem?_eq_none (Nat.le_refl _)] at hother
        cases hother
      · rintro ⟨other, hother, heq, -⟩
        rw [List.getElem?_cons_zero, Option.some.injEq] at hother
        rw [← hother] at heq
        exact hk heq.symm
  · have hnone : (items ++ [item])[c]? = none := by
      apply List.getElem?_eq_none
      rw [List.length_append, List.length_singleton]
      omega
    rw [hnone]
    refine iff_of_false ?_ ?_
    · intro hsome
      by_cases hk : k = key item
      · subst hk
        rw [Function.update_self, Option.some.injEq] at hsome
        omega
      · rw [Function.update_of_ne hk] at hsome
        obtain ⟨other, hother, -⟩ := (h k c).mp hsome
        rw [List.getElem?_eq_none (Nat.le_of_lt hgt)] at hother
        cases hother
    · rintro ⟨other, hother, -⟩
      cases hother

/-- An item ends, and its entry is removed. -/
theorem Tabulates.retire (h : Tabulates key live items table) (hnodup : (items.map key).Nodup)
    {c : Nat} {item ended : ι} (hitem : items[c]? = some item) (hended : live ended = false) :
    Tabulates key live (items.set c ended) (Function.update table (key item) none) := by
  have hc : c < items.length := (List.getElem?_eq_some_iff.mp hitem).1
  intro k b
  by_cases hb : c = b
  · subst hb
    rw [List.getElem?_set_self hc]
    refine iff_of_false ?_ ?_
    · intro hsome
      by_cases hk : k = key item
      · rw [hk, Function.update_self] at hsome
        cases hsome
      · rw [Function.update_of_ne hk] at hsome
        obtain ⟨other, hother, heq, -⟩ := (h k c).mp hsome
        rw [hitem, Option.some.injEq] at hother
        rw [← hother] at heq
        exact hk heq.symm
    · rintro ⟨other, hother, -, hlive⟩
      rw [Option.some.injEq] at hother
      rw [← hother, hended] at hlive
      cases hlive
  · rw [List.getElem?_set_ne hb]
    by_cases hk : k = key item
    · subst hk
      rw [Function.update_self]
      refine iff_of_false nofun ?_
      rintro ⟨other, hother, heq, -⟩
      exact hb (eq_of_key_eq hnodup hitem hother heq.symm)
    · rw [Function.update_of_ne hk]
      exact h k b

omit [DecidableEq κ] in
/-- Among some keys, as many have an entry as there are live items with such a key. -/
theorem Tabulates.countP_eq (h : Tabulates key live items table) (hnodup : (items.map key).Nodup)
    {keys : List κ} (hkeys : keys.Nodup) [DecidablePred (· ∈ keys)] :
    keys.countP (fun k => (table k).isSome) =
      items.countP fun item => live item && decide (key item ∈ keys) := by
  have hsub : ((items.filter fun item => live item && decide (key item ∈ keys)).map key).Nodup :=
    hnodup.sublist (List.filter_sublist.map key)
  have hperm : (keys.filter fun k => (table k).isSome).Perm
      ((items.filter fun item => live item && decide (key item ∈ keys)).map key) := by
    rw [List.perm_ext_iff_of_nodup (hkeys.filter _) hsub]
    intro k
    simp only [List.mem_filter, List.mem_map, Bool.and_eq_true, decide_eq_true_iff]
    constructor
    · rintro ⟨hk, hsome⟩
      obtain ⟨c, hc⟩ := Option.isSome_iff_exists.mp hsome
      obtain ⟨item, hitem, rfl, hlive⟩ := (h k c).mp hc
      exact ⟨item, ⟨List.mem_of_getElem? hitem, hlive, hk⟩, rfl⟩
    · rintro ⟨item, ⟨hmem, hlive, hk⟩, rfl⟩
      obtain ⟨c, hitem⟩ := List.mem_iff_getElem?.mp hmem
      refine ⟨hk, ?_⟩
      rw [(h (key item) c).mpr ⟨item, hitem, rfl, hlive⟩]
      rfl
  rw [List.countP_eq_length_filter, List.countP_eq_length_filter, hperm.length_eq, List.length_map]

end EntrouterLine.Lib.LiveTable
