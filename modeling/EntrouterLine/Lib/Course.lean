import Mathlib.Tactic

/-!
# A stream that takes one course through a network

A source offers items and sends them, one after the other, into the link to its next node. A link
gives items to the node at its end, which forwards each of them into the link to its own next node,
or keeps it if it is the destination. Links and nodes may hold other traffic; a `Traffic` is the
part of one source.

When every node forwards to one fixed next node, reached over one link only and never the source,
and every link gives its items in the order in which they were put in and skips none, then what has
arrived at the destination is a prefix of what the source has offered (`Ordered.arrived_isPrefix`).
`Step` are the steps that keep to this, and `Ordered` is the invariant that they keep.
-/

set_option autoImplicit false

namespace EntrouterLine.Lib.Course

universe u v

variable {N : Type u} {α : Type v}

/-- The items of one source: those it has offered, those it still has to send, and whether it may
offer more; those put into every link and those that every link has given; those that every node has
still to forward and those that have arrived at it. -/
structure Traffic (N : Type u) (α : Type v) where
  offered : List α
  pending : List α
  live : Bool
  logged : N × N → List α
  given : N × N → List α
  routing : N → List α
  arrived : N → List α

/-- A source that has offered nothing. -/
def Traffic.start : Traffic N α :=
  ⟨[], [], true, fun _ => [], fun _ => [], fun _ => [], fun _ => []⟩

/-- The next nodes form one course from the source: no two nodes share a next node, and none has the
source as its next node. -/
structure OneCourse (next : N → Option N) (source : N) : Prop where
  unique : ∀ {x x' y}, next x = some y → next x' = some y → x = x'
  fresh : ∀ x, next x ≠ some source

/-- The items that a node has sent on. -/
def onward (next : N → Option N) (logged : N × N → List α) (x : N) : List α :=
  (next x).elim [] fun y => logged (x, y)

variable {next : N → Option N} {source dest : N} {v v' : Traffic N α}

theorem onward_of_next {x y : N} (h : next x = some y) (logged : N × N → List α) :
    onward next logged x = logged (x, y) := by
  rw [onward, h]
  rfl

/-- Every link holds a prefix of what the source has offered, and every node has sent on or kept, in
order, what the link to it has given. -/
structure Ordered (next : N → Option N) (source dest : N) (v : Traffic N α) : Prop where
  onCourse : ∀ x y, next x ≠ some y → v.logged (x, y) = []
  fromDest : ∀ y, v.logged (dest, y) = []
  inOrder : ∀ x y, v.given (x, y) <+: v.logged (x, y)
  elsewhere : ∀ y, y ≠ dest → v.arrived y = []
  conserved : ∀ x y, next x = some y →
    v.arrived y ++ onward next v.logged y ++ v.routing y = v.given (x, y)
  untouched : ∀ y, (∀ x, next x ≠ some y) → v.arrived y = [] ∧ v.routing y = []
  whole : ∀ x y, v.logged (x, y) <+: v.offered
  atSource : ∃ lost, onward next v.logged source ++ v.pending ++ lost = v.offered ∧
    (v.live = true → lost = [])

theorem onward_nil (x : N) : onward next (fun _ => ([] : List α)) x = [] := by
  rw [onward]
  cases next x <;> rfl

theorem ordered_start : Ordered next source dest (Traffic.start : Traffic N α) where
  onCourse := fun _ _ _ => rfl
  fromDest := fun _ => rfl
  inOrder := fun _ _ => List.prefix_refl []
  elsewhere := fun _ _ => rfl
  conserved := by
    intro x y _
    show [] ++ onward next (fun _ => []) y ++ [] = ([] : List α)
    rw [onward_nil]
    rfl
  untouched := fun _ _ => ⟨rfl, rfl⟩
  whole := fun _ _ => List.prefix_refl []
  atSource := by
    refine ⟨[], ?_, fun _ => rfl⟩
    show onward next (fun _ => []) source ++ [] ++ [] = ([] : List α)
    rw [onward_nil]
    rfl

/-- What has arrived at the destination is a prefix of what the source has offered. -/
theorem Ordered.arrived_isPrefix (h : Ordered next source dest v) :
    v.arrived dest <+: v.offered := by
  by_cases hreached : ∃ x, next x = some dest
  · -- everything that has arrived came over the one link to the destination
    obtain ⟨x, hx⟩ := hreached
    calc v.arrived dest
        <+: v.arrived dest ++ onward next v.logged dest ++ v.routing dest := by
          rw [List.append_assoc]
          exact List.prefix_append _ _
      _ = v.given (x, dest) := h.conserved x dest hx
      _ <+: v.logged (x, dest) := h.inOrder x dest
      _ <+: v.offered := h.whole x dest
  · -- no link leads to the destination, so nothing has arrived
    have hnone : ∀ x, next x ≠ some dest := fun x hx => hreached ⟨x, hx⟩
    rw [(h.untouched dest hnone).1]
    exact List.nil_prefix

/-- A node that still has to forward something is reached over a link. -/
theorem Ordered.exists_link (h : Ordered next source dest v) {x : N} (hrouting : v.routing x ≠ []) :
    ∃ w, next w = some x := by
  by_contra hnone
  exact hrouting (h.untouched x fun w hw => hnone ⟨w, hw⟩).2

/-- A node other than the destination forwards what comes next in the offer. -/
theorem Ordered.forwarded_isPrefix (h : Ordered next source dest v) {x : N} {a : α} {rest : List α}
    (hrouting : v.routing x = a :: rest) (hdest : x ≠ dest) :
    onward next v.logged x ++ [a] <+: v.offered := by
  obtain ⟨w, hw⟩ := h.exists_link (by rw [hrouting]; exact List.cons_ne_nil _ _)
  have hconserved := h.conserved w x hw
  rw [h.elsewhere x hdest, List.nil_append, hrouting] at hconserved
  calc onward next v.logged x ++ [a]
      <+: onward next v.logged x ++ a :: rest := by
        rw [← List.singleton_append (l := rest), ← List.append_assoc]
        exact List.prefix_append _ _
    _ = v.given (w, x) := hconserved
    _ <+: v.logged (w, x) := h.inOrder w x
    _ <+: v.offered := h.whole w x

/-! ## Steps at the source -/

theorem Ordered.offer (h : Ordered next source dest v) {items : List α} (hlive : v.live = true)
    (hpending : v.pending = []) :
    Ordered next source dest { v with offered := v.offered ++ items, pending := items } := by
  refine ⟨h.onCourse, h.fromDest, h.inOrder, h.elsewhere, h.conserved, h.untouched, ?_, ?_⟩
  · intro x y
    exact (h.whole x y).trans (List.prefix_append _ _)
  · -- a live source has lost nothing, so the new items follow what it has sent
    obtain ⟨lost, heq, hlost⟩ := h.atSource
    rw [hpending, hlost hlive, List.append_nil, List.append_nil] at heq
    refine ⟨[], ?_, fun _ => rfl⟩
    show onward next v.logged source ++ items ++ [] = v.offered ++ items
    rw [List.append_nil, heq]

theorem Ordered.stop (h : Ordered next source dest v) {kept : List α}
    (hkept : kept = v.pending ∨ kept = []) :
    Ordered next source dest { v with pending := kept, live := false } := by
  refine ⟨h.onCourse, h.fromDest, h.inOrder, h.elsewhere, h.conserved, h.untouched, h.whole, ?_⟩
  obtain ⟨lost, heq, -⟩ := h.atSource
  rcases hkept with rfl | rfl
  · exact ⟨lost, heq, fun hlive => by cases hlive⟩
  · -- what was pending is lost; nothing will be offered after it
    refine ⟨v.pending ++ lost, ?_, fun hlive => by cases hlive⟩
    show onward next v.logged source ++ [] ++ (v.pending ++ lost) = v.offered
    rw [List.append_nil, ← List.append_assoc, heq]

/-! ## Steps along the course -/

variable [DecidableEq N]

/-- The links after one more item has been put into the link from `x` to `y`. -/
def putIn (logged : N × N → List α) (x y : N) (a : α) : N × N → List α :=
  Function.update logged (x, y) (logged (x, y) ++ [a])

/-- A step that keeps to the course, and in which a link gives the items that come next. -/
inductive Step (next : N → Option N) (source dest : N) (v : Traffic N α) : Traffic N α → Prop
  | offer {items : List α} (hlive : v.live = true) (hpending : v.pending = []) :
      Step next source dest v { v with offered := v.offered ++ items, pending := items }
  | send {a : α} {rest : List α} {y : N} (hpending : v.pending = a :: rest)
      (hnext : next source = some y) (hdest : source ≠ dest) :
      Step next source dest v
        { v with pending := rest, logged := putIn v.logged source y a }
  | stop {kept : List α} (hkept : kept = v.pending ∨ kept = []) :
      Step next source dest v { v with pending := kept, live := false }
  | give {x y : N} {items : List α} (hidle : v.routing y = [])
      (horder : v.given (x, y) ++ items <+: v.logged (x, y)) :
      Step next source dest v { v with
        given := Function.update v.given (x, y) (v.given (x, y) ++ items)
        routing := Function.update v.routing y items }
  | forward {x y : N} {a : α} {rest : List α} (hrouting : v.routing x = a :: rest)
      (hnext : next x = some y) (hdest : x ≠ dest) :
      Step next source dest v { v with
        logged := putIn v.logged x y a
        routing := Function.update v.routing x rest }
  | arrive {a : α} {rest : List α} (hrouting : v.routing dest = a :: rest) :
      Step next source dest v { v with
        routing := Function.update v.routing dest rest
        arrived := Function.update v.arrived dest (v.arrived dest ++ [a]) }

theorem putIn_self (logged : N × N → List α) (x y : N) (a : α) :
    putIn logged x y a (x, y) = logged (x, y) ++ [a] :=
  Function.update_self _ _ _

theorem putIn_of_ne (logged : N × N → List α) {x y : N} {pair : N × N} (h : pair ≠ (x, y)) (a : α) :
    putIn logged x y a pair = logged pair :=
  Function.update_of_ne h _ _

theorem isPrefix_putIn (logged : N × N → List α) (x y : N) (a : α) (pair : N × N) :
    logged pair <+: putIn logged x y a pair := by
  by_cases hpair : pair = (x, y)
  · rw [hpair, putIn_self]
    exact List.prefix_append _ _
  · rw [putIn_of_ne logged hpair]

/-- What the other nodes have sent on stays as it is. -/
theorem onward_putIn_of_ne (logged : N × N → List α) {x y z : N} (hne : z ≠ x) (a : α) :
    onward next (putIn logged x y a) z = onward next logged z := by
  rw [onward, onward]
  cases next z with
  | none => rfl
  | some w =>
    apply putIn_of_ne
    intro heq
    exact hne (Prod.mk.inj heq).1

theorem onward_putIn_self (logged : N × N → List α) {x y : N} (hnext : next x = some y) (a : α) :
    onward next (putIn logged x y a) x = onward next logged x ++ [a] := by
  rw [onward_of_next hnext, onward_of_next hnext, putIn_self]

/-- The parts of the invariant that speak about links only, after a node has put in the item that
comes next in the offer. -/
theorem Ordered.putIn (h : Ordered next source dest v) {x y : N} {a : α} (hnext : next x = some y)
    (hdest : x ≠ dest) (hnextItem : onward next v.logged x ++ [a] <+: v.offered) :
    (∀ x' y', next x' ≠ some y' → putIn v.logged x y a (x', y') = []) ∧
      (∀ y', putIn v.logged x y a (dest, y') = []) ∧
      (∀ x' y', v.given (x', y') <+: putIn v.logged x y a (x', y')) ∧
      ∀ x' y', putIn v.logged x y a (x', y') <+: v.offered := by
  refine ⟨?_, ?_, ?_, ?_⟩
  · intro x' y' hoff
    have hne : (x', y') ≠ (x, y) := by
      intro heq
      cases heq
      exact hoff hnext
    rw [putIn_of_ne v.logged hne]
    exact h.onCourse x' y' hoff
  · intro y'
    have hne : (dest, y') ≠ (x, y) := by
      intro heq
      exact hdest (Prod.mk.inj heq).1.symm
    rw [putIn_of_ne v.logged hne]
    exact h.fromDest y'
  · intro x' y'
    exact (h.inOrder x' y').trans (isPrefix_putIn v.logged x y a (x', y'))
  · intro x' y'
    by_cases hpair : (x', y') = (x, y)
    · rw [hpair, putIn_self, ← onward_of_next hnext v.logged]
      exact hnextItem
    · rw [putIn_of_ne v.logged hpair]
      exact h.whole x' y'

theorem Ordered.send (h : Ordered next source dest v) (hcourse : OneCourse next source) {a : α}
    {rest : List α} {y : N} (hpending : v.pending = a :: rest) (hnext : next source = some y)
    (hdest : source ≠ dest) :
    Ordered next source dest
      { v with pending := rest, logged := Course.putIn v.logged source y a } := by
  obtain ⟨lost, heq, hlost⟩ := h.atSource
  have hsplit : onward next v.logged source ++ [a] ++ (rest ++ lost) = v.offered := by
    rw [← heq, hpending]
    simp
  obtain ⟨honCourse, hfromDest, hinOrder, hwhole⟩ :=
    h.putIn hnext hdest ⟨rest ++ lost, hsplit⟩
  refine ⟨honCourse, hfromDest, hinOrder, h.elsewhere, ?_, h.untouched, hwhole, lost, ?_, hlost⟩
  · intro x z hxz
    -- no link leads to the source
    have hne : z ≠ source := by
      rintro rfl
      exact hcourse.fresh x hxz
    show v.arrived z ++ onward next (Course.putIn v.logged source y a) z ++ v.routing z = _
    rw [onward_putIn_of_ne v.logged hne]
    exact h.conserved x z hxz
  · show onward next (Course.putIn v.logged source y a) source ++ rest ++ lost = v.offered
    rw [onward_putIn_self v.logged hnext, List.append_assoc, hsplit]

theorem Ordered.give (h : Ordered next source dest v) (hcourse : OneCourse next source) {x y : N}
    {items : List α} (hidle : v.routing y = [])
    (horder : v.given (x, y) ++ items <+: v.logged (x, y)) :
    Ordered next source dest { v with
      given := Function.update v.given (x, y) (v.given (x, y) ++ items)
      routing := Function.update v.routing y items } := by
  by_cases hxy : next x = some y
  · refine ⟨h.onCourse, h.fromDest, ?_, h.elsewhere, ?_, ?_, h.whole, h.atSource⟩
    · intro x' y'
      by_cases hpair : (x', y') = (x, y)
      · show Function.update v.given (x, y) _ (x', y') <+: v.logged (x', y')
        rw [hpair, Function.update_self]
        exact horder
      · show Function.update v.given (x, y) _ (x', y') <+: v.logged (x', y')
        rw [Function.update_of_ne hpair]
        exact h.inOrder x' y'
    · intro x' y' hxy'
      show v.arrived y' ++ onward next v.logged y' ++ Function.update v.routing y items y' =
        Function.update v.given (x, y) _ (x', y')
      rcases eq_or_ne y' y with rfl | hne
      · -- the only link to this node
        have hconserved := h.conserved x y' hxy
        rw [hidle, List.append_nil] at hconserved
        rw [hcourse.unique hxy' hxy, Function.update_self, Function.update_self, ← hconserved]
      · have hpair : (x', y') ≠ (x, y) := fun heq => hne (Prod.mk.inj heq).2
        rw [Function.update_of_ne hne, Function.update_of_ne hpair]
        exact h.conserved x' y' hxy'
    · intro z hz
      have hne : z ≠ y := by
        rintro rfl
        exact hz x hxy
      show v.arrived z = [] ∧ Function.update v.routing y items z = []
      rw [Function.update_of_ne hne]
      exact h.untouched z hz
  · -- nothing was put into this link, so it gives nothing
    rw [h.onCourse x y hxy, List.prefix_nil, List.append_eq_nil_iff] at horder
    obtain ⟨hgiven, rfl⟩ := horder
    have hgivenSame : Function.update v.given (x, y) (v.given (x, y) ++ []) = v.given := by
      rw [List.append_nil, Function.update_eq_self]
    have hroutingSame : Function.update v.routing y [] = v.routing := by
      rw [← hidle, Function.update_eq_self]
    rw [hgivenSame, hroutingSame]
    exact h

theorem Ordered.forward (h : Ordered next source dest v) (hcourse : OneCourse next source)
    {x y : N} {a : α} {rest : List α} (hrouting : v.routing x = a :: rest)
    (hnext : next x = some y) (hdest : x ≠ dest) :
    Ordered next source dest { v with
      logged := Course.putIn v.logged x y a
      routing := Function.update v.routing x rest } := by
  obtain ⟨w, hw⟩ := h.exists_link (by rw [hrouting]; exact List.cons_ne_nil _ _)
  obtain ⟨honCourse, hfromDest, hinOrder, hwhole⟩ :=
    h.putIn hnext hdest (h.forwarded_isPrefix hrouting hdest)
  refine ⟨honCourse, hfromDest, hinOrder, h.elsewhere, ?_, ?_, hwhole, ?_⟩
  · intro x' y' hxy'
    show v.arrived y' ++ onward next (Course.putIn v.logged x y a) y' ++
      Function.update v.routing x rest y' = v.given (x', y')
    rcases eq_or_ne y' x with rfl | hne
    · -- the item moves from what the node keeps to what it has sent on
      rw [onward_putIn_self v.logged hnext, Function.update_self, ← h.conserved x' y' hxy',
        hrouting]
      simp
    · rw [onward_putIn_of_ne v.logged hne, Function.update_of_ne hne]
      exact h.conserved x' y' hxy'
  · intro z hz
    have hne : z ≠ x := by
      rintro rfl
      exact hz w hw
    show v.arrived z = [] ∧ Function.update v.routing x rest z = []
    rw [Function.update_of_ne hne]
    exact h.untouched z hz
  · -- the source forwards nothing
    have hne : source ≠ x := by
      rintro rfl
      exact hcourse.fresh w hw
    show ∃ lost,
      onward next (Course.putIn v.logged x y a) source ++ v.pending ++ lost = v.offered ∧ _
    rw [onward_putIn_of_ne v.logged hne]
    exact h.atSource

theorem Ordered.arrive (h : Ordered next source dest v) {a : α} {rest : List α}
    (hrouting : v.routing dest = a :: rest) :
    Ordered next source dest { v with
      routing := Function.update v.routing dest rest
      arrived := Function.update v.arrived dest (v.arrived dest ++ [a]) } := by
  obtain ⟨w, hw⟩ := h.exists_link (by rw [hrouting]; exact List.cons_ne_nil _ _)
  -- the destination sends nothing on
  have honward : onward next v.logged dest = [] := by
    rw [onward]
    cases next dest with
    | none => rfl
    | some y => exact h.fromDest y
  refine ⟨h.onCourse, h.fromDest, h.inOrder, ?_, ?_, ?_, h.whole, h.atSource⟩
  · intro y hy
    show Function.update v.arrived dest _ y = []
    rw [Function.update_of_ne hy]
    exact h.elsewhere y hy
  · intro x y hxy
    show Function.update v.arrived dest _ y ++ onward next v.logged y ++
      Function.update v.routing dest rest y = v.given (x, y)
    rcases eq_or_ne y dest with rfl | hne
    · -- the item moves from what the destination keeps to what has arrived
      rw [Function.update_self, Function.update_self, ← h.conserved x y hxy, honward, hrouting]
      simp
    · rw [Function.update_of_ne hne, Function.update_of_ne hne]
      exact h.conserved x y hxy
  · intro z hz
    have hne : z ≠ dest := by
      rintro rfl
      exact hz w hw
    show Function.update v.arrived dest _ z = [] ∧ Function.update v.routing dest rest z = []
    rw [Function.update_of_ne hne, Function.update_of_ne hne]
    exact h.untouched z hz

/-- Every step keeps the order. -/
theorem Ordered.step (h : Ordered next source dest v) (hcourse : OneCourse next source)
    (hstep : Step next source dest v v') : Ordered next source dest v' := by
  cases hstep with
  | offer hlive hpending => exact h.offer hlive hpending
  | send hpending hnext hdest => exact h.send hcourse hpending hnext hdest
  | stop hkept => exact h.stop hkept
  | give hidle horder => exact h.give hcourse hidle horder
  | forward hrouting hnext hdest => exact h.forward hcourse hrouting hnext hdest
  | arrive hrouting => exact h.arrive hrouting

end EntrouterLine.Lib.Course
