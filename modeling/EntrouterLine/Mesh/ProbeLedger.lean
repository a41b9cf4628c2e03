import EntrouterLine.Mesh.PongAttribution

/-!
# What becomes of every probe

The ledger of a prober has all the probes it has issued, in order, and what has become of each
(`Ledger.step`): it is pending until a PONG with its id arrives, which answers it, or until a
clean-up finds that it is stale. The map of the prober is the part of its ledger that is pending,
and the matrix has one sample, in both directions, for each probe that has been answered
(`probes_accounted`). So no probe is lost or counted twice, and none is pending for long after it
was sent.
-/

set_option autoImplicit false

namespace EntrouterLine.Mesh

open EntrouterLine.Lib
open EntrouterLine.Lib.LittleEndian
open EntrouterLine.Relay

/-! ## The ledger -/

inductive Fate where
  | pending
  | answered
  | stale
  deriving DecidableEq

structure Probe where
  peerId : NodeId
  sendTime : Instant
  fate : Fate
  deriving DecidableEq

/-- A pending probe that is stale at the time is dropped. -/
def Probe.age (now : Instant) (q : Probe) : Probe :=
  if q.fate = .pending ∧ staleAfter ≤ (elapsed now q.sendTime).val then { q with fate := .stale }
  else q

/-- A pending probe is answered. -/
def Probe.answer (q : Probe) : Probe :=
  if q.fate = .pending then { q with fate := .answered } else q

/-- All probes, the `k`-th of them with the id `k + 1`. -/
abbrev Ledger := List Probe

def Ledger.step (l : Ledger) : ProbeEvent → Ledger
  | .createPing peerId sendTime clock =>
      List.mapIdx (fun k (q : Probe) => q.age (clock (UInt32.ofNat (k + 1))))
        (l ++ [⟨peerId, sendTime, .pending⟩])
  | .handlePong _ payload _ _ _ =>
      if payload.length < 4 ∨ pongId payload = 0 then l
      else l.modify ((pongId payload).toNat - 1) Probe.answer

def Ledger.steps (es : List ProbeEvent) : Ledger := es.foldl Ledger.step []

/-- The probes of a ledger with some fate, and those among them to one peer. -/
def Ledger.countFate (l : Ledger) (fate : Fate) : Nat := l.countP fun q => q.fate = fate

def Ledger.countTo (l : Ledger) (fate : Fate) (peerId : NodeId) : Nat :=
  l.countP fun q => q.fate = fate ∧ q.peerId = peerId

/-! ## The map of pending probes -/

/-- What the map holds for a probe. -/
def Probe.entry (q : Probe) : Option (NodeId × Instant) :=
  if q.fate = .pending then some (q.peerId, q.sendTime) else none

/-- The map that has the pending probes of the ledger. -/
def Ledger.table (l : Ledger) (id : UInt32) : Option (NodeId × Instant) :=
  if id = 0 then none else (l[id.toNat - 1]?).bind Probe.entry

theorem table_zero (l : Ledger) : l.table 0 = none := if_pos rfl

theorem table_succ (l : Ledger) {k : Nat} (hk : k + 1 < 2 ^ 32) :
    l.table (UInt32.ofNat (k + 1)) = (l[k]?).bind Probe.entry := by
  have hnat : (UInt32.ofNat (k + 1)).toNat = k + 1 := by
    rw [UInt32.toNat_ofNat', Nat.mod_eq_of_lt hk]
  have hne : UInt32.ofNat (k + 1) ≠ 0 := by
    intro hzero
    rw [hzero] at hnat
    exact absurd hnat (Nat.succ_ne_zero k).symm
  rw [Ledger.table, if_neg hne, hnat, Nat.add_sub_cancel]

/-- Every id is zero or that of a place in the ledger. -/
theorem id_cases (id : UInt32) : id = 0 ∨ ∃ k, k + 1 < 2 ^ 32 ∧ id = UInt32.ofNat (k + 1) := by
  by_cases hid : id = 0
  · exact Or.inl hid
  · have hpos : id.toNat ≠ 0 := fun h => hid (UInt32.toNat_inj.mp h)
    have hlt := id.toNat_lt
    refine Or.inr ⟨id.toNat - 1, by omega, ?_⟩
    rw [Nat.sub_add_cancel (Nat.pos_of_ne_zero hpos)]
    exact UInt32.ofNat_toNat.symm

/-- The clean-up keeps exactly the entries of the probes that it does not find stale. -/
theorem entry_age (now : Instant) (q : Probe) : (q.age now).entry =
    q.entry.filter fun probe => (elapsed now probe.2).val < staleAfter := by
  obtain ⟨peerId, sendTime, fate⟩ := q
  cases fate with
  | pending =>
    by_cases hstale : staleAfter ≤ (elapsed now sendTime).val
    · simp [Probe.age, Probe.entry, Option.filter, hstale, Nat.not_lt.mpr hstale]
    · simp [Probe.age, Probe.entry, Option.filter, hstale, Nat.not_le.mp hstale]
  | answered => simp [Probe.age, Probe.entry]
  | stale => simp [Probe.age, Probe.entry]

theorem entry_answer (q : Probe) : q.answer.entry = none := by
  rw [Probe.answer]
  split
  case isTrue => rfl
  case isFalse h => exact if_neg h

/-- The map after `create_ping`. -/
theorem table_createPing (l : Ledger) (hl : l.length + 1 < 2 ^ 32) (peerId : NodeId)
    (sendTime : Instant) (clock : UInt32 → Instant) (id : UInt32) :
    (Function.update l.table (UInt32.ofNat (l.length + 1)) (some (peerId, sendTime)) id).filter
        (fun probe => (elapsed (clock id) probe.2).val < staleAfter) =
      (l.step (.createPing peerId sendTime clock)).table id := by
  have hupdate : Function.update l.table (UInt32.ofNat (l.length + 1))
      (some (peerId, sendTime)) id =
        Ledger.table (l ++ [⟨peerId, sendTime, .pending⟩]) id := by
    rcases id_cases id with rfl | ⟨k, hk, rfl⟩
    · rw [Function.update_of_ne, table_zero, table_zero]
      intro hzero
      have hnat := congrArg UInt32.toNat hzero
      rw [UInt32.toNat_ofNat', Nat.mod_eq_of_lt hl] at hnat
      cases hnat
    · rw [table_succ _ hk]
      by_cases hlast : k = l.length
      · subst hlast
        rw [Function.update_self, List.getElem?_concat_length]
        rfl
      · rw [Function.update_of_ne, table_succ _ hk]
        · rcases Nat.lt_or_gt_of_ne hlast with hlt | hgt
          · rw [List.getElem?_append_left hlt]
          · rw [List.getElem?_eq_none (Nat.le_of_lt hgt), List.getElem?_eq_none]
            rw [List.length_append, List.length_singleton]
            exact hgt
        · intro heq
          have hnat := congrArg UInt32.toNat heq
          rw [UInt32.toNat_ofNat', UInt32.toNat_ofNat', Nat.mod_eq_of_lt hk,
            Nat.mod_eq_of_lt hl] at hnat
          exact hlast (Nat.succ.inj hnat)
  rw [hupdate]
  rcases id_cases id with rfl | ⟨k, hk, rfl⟩
  · rw [table_zero, table_zero]
    rfl
  · rw [table_succ _ hk, table_succ _ hk, Ledger.step, List.getElem?_mapIdx]
    cases (l ++ [(⟨peerId, sendTime, .pending⟩ : Probe)])[k]? with
    | none => rfl
    | some q => exact (entry_age _ q).symm

/-- The map after a pending probe has been answered. -/
theorem table_answer (l : Ledger) {k : Nat} (hk : k + 1 < 2 ^ 32) (id : UInt32) :
    Function.update l.table (UInt32.ofNat (k + 1)) none id =
      Ledger.table (l.modify k Probe.answer) id := by
  rcases id_cases id with rfl | ⟨j, hj, rfl⟩
  · rw [table_zero]
    by_cases hzero : (0 : UInt32) = UInt32.ofNat (k + 1)
    · rw [hzero, Function.update_self]
    · rw [Function.update_of_ne hzero, table_zero]
  · rw [table_succ _ hj, List.getElem?_modify]
    by_cases hjk : k = j
    · subst hjk
      rw [Function.update_self]
      simp only [if_true]
      cases l[k]? with
      | none => rfl
      | some q => exact (entry_answer q).symm
    · rw [Function.update_of_ne, table_succ _ hj]
      · simp only [hjk, if_false]
        cases l[j]? <;> rfl
      · intro heq
        have hnat := congrArg UInt32.toNat heq
        rw [UInt32.toNat_ofNat', UInt32.toNat_ofNat', Nat.mod_eq_of_lt hk,
          Nat.mod_eq_of_lt hj] at hnat
        exact hjk (Nat.succ.inj hnat).symm

/-! ## Samples -/

/-- The `samples` of an entry. -/
def LatencyMatrix.sampleCount (m : LatencyMatrix) (src dst : NodeId) : Nat :=
  ((m.entries.lookup (src, dst)).map LatencyEntry.samples).getD 0

theorem sampleCount_update (m : LatencyMatrix) (src dst a b : NodeId) (rtt : Duration)
    (now : Instant) : (m.update src dst rtt now).sampleCount a b =
      m.sampleCount a b + if (a, b) = (src, dst) then 1 else 0 := by
  rw [LatencyMatrix.sampleCount, LatencyMatrix.sampleCount]
  by_cases heq : (a, b) = (src, dst)
  · rw [heq, lookup_update_self, if_pos rfl]
    cases m.entries.lookup (src, dst) <;> rfl
  · rw [lookup_update_of_ne rtt now heq, if_neg heq]
    rfl

/-- An answer is one sample in each direction, for its own peer. -/
theorem sampleCount_record (m : LatencyMatrix) {nodeId a : NodeId} (peerId : NodeId)
    (rtt : Duration) (now now' : Instant) (ha : a ≠ nodeId) :
    (m.record nodeId peerId rtt now now').sampleCount nodeId a =
        m.sampleCount nodeId a + (if peerId = a then 1 else 0) ∧
      (m.record nodeId peerId rtt now now').sampleCount a nodeId =
        m.sampleCount a nodeId + if peerId = a then 1 else 0 := by
  rw [LatencyMatrix.record, sampleCount_update, sampleCount_update, sampleCount_update,
    sampleCount_update]
  by_cases hpeer : peerId = a
  · subst hpeer
    simp [ha, Ne.symm ha]
  · have hne : a ≠ peerId := Ne.symm hpeer
    simp [ha, hpeer, hne]

/-! ## What the steps do to the ledger -/

theorem mapIdx_same {α β : Type} {f : Nat → α → α} {g : α → β} (h : ∀ k a, g (f k a) = g a)
    (l : List α) : (l.mapIdx f).map g = l.map g := by
  apply List.ext_getElem?
  intro i
  rw [List.getElem?_map, List.getElem?_mapIdx, List.getElem?_map]
  cases l[i]? with
  | none => rfl
  | some a => exact congrArg some (h i a)

theorem answered_age (now : Instant) (q : Probe) :
    ((q.age now).peerId, (q.age now).sendTime, decide ((q.age now).fate = .answered)) =
      (q.peerId, q.sendTime, decide (q.fate = .answered)) := by
  rw [Probe.age]
  split
  case isTrue h => rw [h.1]; rfl
  case isFalse => rfl

/-- A new probe leaves the old ones and their answers as they are. -/
theorem step_createPing_map (l : Ledger) (peerId : NodeId) (sendTime : Instant)
    (clock : UInt32 → Instant) :
    (l.step (.createPing peerId sendTime clock)).map
        (fun q => (q.peerId, q.sendTime, decide (q.fate = .answered))) =
      l.map (fun q => (q.peerId, q.sendTime, decide (q.fate = .answered))) ++
        [(peerId, sendTime, false)] := by
  rw [Ledger.step, mapIdx_same (fun k q => answered_age _ q), List.map_append]
  rfl

/-- A PONG answers the pending probe at its place, or does nothing. -/
theorem modify_answer_cases (l : Ledger) (k : Nat) :
    ((l[k]?).bind Probe.entry = none ∧ l.modify k Probe.answer = l) ∨
      ∃ q, l[k]? = some q ∧ q.fate = .pending ∧ q.entry = some (q.peerId, q.sendTime) ∧
        l.modify k Probe.answer = l.set k { q with fate := .answered } := by
  cases hq : l[k]? with
  | none =>
    refine Or.inl ⟨rfl, ?_⟩
    rw [List.modify_eq_self]
    exact List.getElem?_eq_none_iff.mp hq
  | some q =>
    have hset : l.modify k Probe.answer = l.set k q.answer := by
      rw [List.modify_eq_set_getElem?, hq]
      rfl
    by_cases hpending : q.fate = .pending
    · refine Or.inr ⟨q, rfl, hpending, if_pos hpending, ?_⟩
      rw [hset, Probe.answer, if_pos hpending]
    · refine Or.inl ⟨if_neg hpending, ?_⟩
      rw [hset, Probe.answer, if_neg hpending]
      obtain ⟨hk, rfl⟩ := List.getElem?_eq_some_iff.mp hq
      exact List.set_getElem_self hk

theorem countTo_answered_eq (l : Ledger) (a : NodeId) : l.countTo .answered a =
    (l.map fun q => (q.peerId, q.sendTime, decide (q.fate = .answered))).countP
      fun t => t.2.2 && decide (t.1 = a) := by
  rw [Ledger.countTo, List.countP_map]
  apply List.countP_congr
  intro q _
  simp

theorem countTo_answered_createPing (l : Ledger) (peerId a : NodeId) (sendTime : Instant)
    (clock : UInt32 → Instant) :
    (l.step (.createPing peerId sendTime clock)).countTo .answered a = l.countTo .answered a := by
  rw [countTo_answered_eq, countTo_answered_eq, step_createPing_map, List.countP_append]
  rfl

/-- The answer to a pending probe counts for its peer. -/
theorem countTo_answered_set {l : Ledger} {k : Nat} {q : Probe} (hq : l[k]? = some q)
    (hpending : q.fate = .pending) (a : NodeId) :
    Ledger.countTo (l.set k { q with fate := .answered }) .answered a =
      l.countTo .answered a + if q.peerId = a then 1 else 0 := by
  obtain ⟨hk, hget⟩ := List.getElem?_eq_some_iff.mp hq
  rw [Ledger.countTo, List.countP_set hk, hget]
  simp [hpending, Ledger.countTo]

/-! ## The prober and its ledger -/

/-- The prober has the pending probes of the ledger, and one sample in each direction for every
answer. -/
structure Accounted (nodeId : NodeId) (p : Prober) (l : Ledger) : Prop where
  owner : p.nodeId = nodeId
  next : p.nextProbeId = UInt32.ofNat (l.length + 1)
  pending : ∀ id, p.pending id = l.table id
  samples : ∀ a, a ≠ nodeId → p.matrix.sampleCount nodeId a = l.countTo .answered a ∧
    p.matrix.sampleCount a nodeId = l.countTo .answered a

variable {nodeId : NodeId} {p : Prober} {l : Ledger}

theorem accounted_new (nodeId : NodeId) : Accounted nodeId (Prober.new nodeId .new) [] := by
  refine ⟨rfl, rfl, ?_, fun _ _ => ⟨rfl, rfl⟩⟩
  intro id
  rw [Ledger.table, List.getElem?_nil]
  exact (ite_self _).symm

theorem length_step_createPing (l : Ledger) (peerId : NodeId) (sendTime : Instant)
    (clock : UInt32 → Instant) :
    (l.step (.createPing peerId sendTime clock)).length = l.length + 1 := by
  rw [Ledger.step, List.length_mapIdx, List.length_append, List.length_singleton]

theorem Accounted.createPing (h : Accounted nodeId p l) (hl : l.length + 1 < 2 ^ 32)
    (peerId : NodeId) (sendTime : Instant) (clock : UInt32 → Instant) :
    Accounted nodeId (p.createPing peerId sendTime clock).2
      (l.step (.createPing peerId sendTime clock)) := by
  refine ⟨h.owner, ?_, ?_, ?_⟩
  · show p.nextProbeId + 1 = _
    rw [h.next, length_step_createPing, ← UInt32.toNat_inj]
    simp
  · intro id
    rw [← table_createPing l hl, ← h.next, ← funext h.pending]
    rfl
  · intro a ha
    rw [countTo_answered_createPing]
    exact h.samples a ha

theorem Accounted.handlePong (h : Accounted nodeId p l) (fromPeer : NodeId) (payload : Bytes)
    (received now now' : Instant) :
    Accounted nodeId (p.handlePong fromPeer payload received now now')
      (l.step (.handlePong fromPeer payload received now now')) := by
  rw [Prober.handlePong]
  by_cases hshort : payload.length < 4
  · rw [if_pos hshort, Ledger.step, if_pos (Or.inl hshort)]
    exact h
  rw [if_neg hshort]
  dsimp only
  rw [h.pending]
  rcases id_cases (pongId payload) with hzero | ⟨k, hk, hid⟩
  · -- no probe has the id zero
    rw [hzero, table_zero, Ledger.step, if_pos (Or.inr hzero)]
    exact h
  have hne : ¬ (payload.length < 4 ∨ pongId payload = 0) := by
    rintro (hlen | hzero)
    · exact hshort hlen
    · have hnat := congrArg UInt32.toNat (hid.symm.trans hzero)
      rw [UInt32.toNat_ofNat', Nat.mod_eq_of_lt hk] at hnat
      cases hnat
  have hplace : (pongId payload).toNat - 1 = k := by
    rw [hid, UInt32.toNat_ofNat', Nat.mod_eq_of_lt hk, Nat.add_sub_cancel]
  have htable := table_answer l hk
  rw [Ledger.step, if_neg hne, hplace, hid, table_succ _ hk]
  rcases modify_answer_cases l k with ⟨hnone, hsame⟩ | ⟨q, hq, hpending, hentry, hset⟩
  · rw [hnone, hsame]
    exact h
  · rw [hq, Option.bind_some, hentry]
    rw [hset] at htable ⊢
    refine ⟨h.owner, ?_, ?_, ?_⟩
    · rw [List.length_set]
      exact h.next
    · intro id
      rw [← htable, ← funext h.pending]
      rfl
    · intro a ha
      obtain ⟨hout, hin⟩ := h.samples a ha
      have hrecord := sampleCount_record p.matrix q.peerId (elapsed received q.sendTime) now
        now' ha
      rw [countTo_answered_set hq hpending, ← hout]
      show (p.matrix.record p.nodeId _ _ _ _).sampleCount nodeId a = _ ∧
        (p.matrix.record p.nodeId _ _ _ _).sampleCount a nodeId = _
      rw [h.owner, hrecord.1, hrecord.2, hin, hout]
      exact ⟨rfl, rfl⟩

/-! ## Counting -/

/-- `pending_count`. -/
def Prober.pendingCount (p : Prober) : Nat :=
  ((List.range UInt32.size).map UInt32.ofNat).countP fun id => (p.pending id).isSome

/-- Counting the places of a list counts its elements. -/
theorem countP_range_getElem? {α β : Type} (f : α → Option β) (l : List α) {n : Nat}
    (hn : l.length ≤ n) :
    (List.range n).countP (fun k => ((l[k]?).bind f).isSome) = l.countP fun a => (f a).isSome := by
  induction l generalizing n with
  | nil =>
    rw [List.countP_nil, List.countP_eq_zero]
    intro k _
    simp
  | cons a l ih =>
    cases n with
    | zero => cases hn
    | succ n =>
      rw [List.range_succ_eq_map, List.countP_cons, List.countP_map, List.countP_cons,
        ← ih (Nat.le_of_succ_le_succ hn)]
      rfl

theorem countP_table (l : Ledger) {n : Nat} (hn : n < 2 ^ 32) (hl : l.length ≤ n) :
    ((List.range (n + 1)).map UInt32.ofNat).countP (fun id => (l.table id).isSome) =
      l.countFate .pending := by
  have hrest : (List.range n).countP
      (fun k => (l.table (UInt32.ofNat (k + 1))).isSome) = l.countFate .pending := by
    have hplaces := countP_range_getElem? Probe.entry l hl
    have hentry : l.countP (fun q => q.entry.isSome) = l.countFate .pending := by
      apply List.countP_congr
      intro q _
      rw [Probe.entry]
      split
      case isTrue h => simp [h]
      case isFalse h => simp [h]
    rw [← hentry, ← hplaces]
    apply List.countP_congr
    intro k hk
    rw [List.mem_range] at hk
    rw [table_succ l (by omega)]
  rw [List.range_succ_eq_map, List.map_cons, List.countP_cons, List.map_map, List.countP_map]
  have hzero : UInt32.ofNat 0 = 0 := rfl
  rw [hzero, table_zero, ← hrest]
  rfl

theorem Accounted.pendingCount (h : Accounted nodeId p l) (hl : l.length < 2 ^ 32) :
    p.pendingCount = l.countFate .pending := by
  have hsize : UInt32.size = (2 ^ 32 - 1) + 1 := rfl
  rw [Prober.pendingCount, funext h.pending, hsize]
  exact countP_table l (by decide) (Nat.le_sub_one_of_lt hl)

/-- Every probe is pending, answered or stale. -/
theorem count_fates (l : Ledger) :
    l.countFate .pending + l.countFate .answered + l.countFate .stale = l.length := by
  induction l with
  | nil => rfl
  | cons q l ih =>
    have hcons : ∀ fate, Ledger.countFate (q :: l) fate =
        Ledger.countFate l fate + if q.fate = fate then 1 else 0 := by
      intro fate
      rw [Ledger.countFate, List.countP_cons]
      simp only [decide_eq_true_eq]
      rfl
    rw [hcons, hcons, hcons, List.length_cons, ← ih]
    cases q.fate <;> simp <;> omega

theorem countTo_fates (l : Ledger) (a : NodeId) :
    l.countTo .pending a + l.countTo .answered a + l.countTo .stale a =
      l.countP fun q => q.peerId = a := by
  induction l with
  | nil => rfl
  | cons q l ih =>
    have hcons : ∀ fate, Ledger.countTo (q :: l) fate a =
        Ledger.countTo l fate a + if q.fate = fate ∧ q.peerId = a then 1 else 0 := by
      intro fate
      rw [Ledger.countTo, List.countP_cons]
      simp only [decide_eq_true_eq]
      rfl
    rw [hcons, hcons, hcons, List.countP_cons, ← ih]
    by_cases ha : q.peerId = a
    · cases q.fate <;> simp [ha] <;> omega
    · simp [ha]

/-! ## Runs -/

/-- The peer and the sending time of a new probe. -/
def ProbeEvent.sent : ProbeEvent → Option (NodeId × Instant)
  | .createPing peerId sendTime _ => some (peerId, sendTime)
  | .handlePong .. => none

theorem map_sent_set {l : Ledger} {k : Nat} {q : Probe} (hq : l[k]? = some q) (fate : Fate) :
    (l.set k { q with fate := fate }).map (fun q => (q.peerId, q.sendTime)) =
      l.map fun q => (q.peerId, q.sendTime) := by
  obtain ⟨hk, rfl⟩ := List.getElem?_eq_some_iff.mp hq
  apply List.ext_getElem?
  intro i
  rw [List.getElem?_map, List.getElem?_set, List.getElem?_map]
  by_cases hik : k = i
  · subst hik
    rw [if_pos rfl, if_pos hk, List.getElem?_eq_getElem hk]
    rfl
  · rw [if_neg hik]

/-- The ledger has the probes that were sent, in order. -/
theorem map_sent_step (l : Ledger) (e : ProbeEvent) :
    (l.step e).map (fun q => (q.peerId, q.sendTime)) =
      l.map (fun q => (q.peerId, q.sendTime)) ++ e.sent.toList := by
  cases e with
  | createPing peerId sendTime clock =>
    have h := congrArg (List.map fun t : NodeId × Instant × Bool => (t.1, t.2.1))
      (step_createPing_map l peerId sendTime clock)
    rw [List.map_map, List.map_append, List.map_map] at h
    exact h
  | handlePong fromPeer payload received now now' =>
    show _ = _ ++ []
    rw [List.append_nil, Ledger.step]
    split
    · rfl
    · rcases modify_answer_cases l ((pongId payload).toNat - 1) with
        ⟨-, hsame⟩ | ⟨q, hq, -, -, hset⟩
      · rw [hsame]
      · rw [hset, map_sent_set hq]

theorem map_sent_steps (es : List ProbeEvent) :
    (Ledger.steps es).map (fun q => (q.peerId, q.sendTime)) = es.filterMap ProbeEvent.sent := by
  induction es using List.reverseRecOn with
  | nil => rfl
  | append_singleton es e ih =>
    rw [Ledger.steps, List.foldl_append, List.foldl_cons, List.foldl_nil, map_sent_step,
      List.filterMap_append, ← ih]
    rfl

theorem length_steps (es : List ProbeEvent) :
    (Ledger.steps es).length = es.countP ProbeEvent.isPing := by
  have h := congrArg List.length (map_sent_steps es)
  rw [List.length_map] at h
  rw [h, List.length_filterMap_eq_countP]
  apply List.countP_congr
  intro e _
  cases e <;> simp [ProbeEvent.sent, ProbeEvent.isPing]

theorem accounted_run {es : List ProbeEvent} {log : ProbeLog} {os : List Unit}
    (hrun : Machine.run probeStep (ProbeLog.start nodeId) es = .ok (log, os))
    (hcount : es.countP ProbeEvent.isPing < 2 ^ 32) :
    Accounted nodeId log.prober (Ledger.steps es) := by
  revert hcount
  refine Machine.run_induction (P := fun es log _ => es.countP ProbeEvent.isPing < 2 ^ 32 →
    Accounted nodeId log.prober (Ledger.steps es)) (fun _ => accounted_new nodeId) ?_ es log os hrun
  intro es log os e log' o ih hstep hcount
  rw [List.countP_append, List.countP_singleton] at hcount
  have hlast : Ledger.steps (es ++ [e]) = (Ledger.steps es).step e := by
    rw [Ledger.steps, List.foldl_append, List.foldl_cons, List.foldl_nil]
    rfl
  have h := ih (by omega)
  rw [hlast]
  cases e with
  | createPing peerId sendTime clock =>
    simp only [probeStep, Except.ok.injEq, Prod.mk.injEq] at hstep
    rw [← hstep.1]
    rw [ProbeEvent.isPing, if_pos rfl, ← length_steps] at hcount
    exact h.createPing hcount peerId sendTime clock
  | handlePong fromPeer payload received now now' =>
    simp only [probeStep, Except.ok.injEq, Prod.mk.injEq] at hstep
    rw [← hstep.1]
    exact h.handlePong fromPeer payload received now now'

/-- The probes of a ledger that are not stale at their times. -/
def Ledger.young (clock : Nat → Instant) (l : Ledger) : Nat :=
  (l.mapIdx fun k q => decide ((elapsed (clock k) q.sendTime).val < staleAfter)).count true

/-- After a clean-up, what is pending is not stale. -/
theorem countFate_mapIdx_age (clock : Nat → Instant) (l : Ledger) :
    Ledger.countFate (l.mapIdx fun k q => q.age (clock k)) .pending ≤ l.young clock := by
  induction l generalizing clock with
  | nil => exact Nat.le_refl 0
  | cons q l ih =>
    have hrest := ih fun k => clock (k + 1)
    rw [Ledger.young, List.mapIdx_cons, List.mapIdx_cons, Ledger.countFate, List.countP_cons,
      List.count_cons]
    apply Nat.add_le_add hrest
    by_cases hyoung : (elapsed (clock 0) q.sendTime).val < staleAfter
    · rw [decide_eq_true hyoung]
      split
      · exact Nat.le_refl 1
      · exact Nat.zero_le 1
    · have hage : ¬ (q.age (clock 0)).fate = .pending := by
        rw [Probe.age]
        split
        case isTrue => exact Fate.noConfusion
        case isFalse h => exact fun hpending => h ⟨hpending, Nat.not_lt.mp hyoung⟩
      rw [decide_eq_false hage]
      exact Nat.zero_le _

theorem young_map {l l' : Ledger} (clock : Nat → Instant)
    (h : l.map Probe.sendTime = l'.map Probe.sendTime) : l.young clock = l'.young clock := by
  have hyoung : ∀ l : Ledger, l.young clock = ((l.map Probe.sendTime).mapIdx fun k t =>
      decide ((elapsed (clock k) t).val < staleAfter)).count true := by
    intro l
    apply congrArg (List.count true)
    apply List.ext_getElem?
    intro i
    rw [List.getElem?_mapIdx, List.getElem?_mapIdx, List.getElem?_map]
    cases l[i]? <;> rfl
  rw [hyoung, hyoung, h]

/-- In every run with fewer than `2 ^ 32` probes: the map of the prober has exactly the probes that
are pending in the ledger, every probe is pending, answered or stale, and to every other node as
many of them have been answered as the matrix has samples, in either direction. After each clean-up
there are no more pending probes than have been sent in the ten seconds before it. -/
theorem probes_accounted {es : List ProbeEvent} {log : ProbeLog} {os : List Unit}
    (hrun : Machine.run probeStep (ProbeLog.start nodeId) es = .ok (log, os))
    (hcount : es.countP ProbeEvent.isPing < 2 ^ 32) :
    (Ledger.steps es).map (fun q => (q.peerId, q.sendTime)) = es.filterMap ProbeEvent.sent ∧
    (∀ id, log.prober.pending id = (Ledger.steps es).table id) ∧
    log.prober.pendingCount + (Ledger.steps es).countFate .answered +
      (Ledger.steps es).countFate .stale = es.countP ProbeEvent.isPing ∧
    (∀ a, a ≠ nodeId →
      log.prober.matrix.sampleCount nodeId a = (Ledger.steps es).countTo .answered a ∧
      log.prober.matrix.sampleCount a nodeId = (Ledger.steps es).countTo .answered a ∧
      (Ledger.steps es).countTo .pending a + log.prober.matrix.sampleCount nodeId a +
        (Ledger.steps es).countTo .stale a =
          (es.filterMap ProbeEvent.sent).countP fun probe => probe.1 = a) ∧
    ∀ es' peerId sendTime clock, es = es' ++ [.createPing peerId sendTime clock] →
      log.prober.pendingCount ≤
        (Ledger.steps es).young fun k => clock (UInt32.ofNat (k + 1)) := by
  have h := accounted_run hrun hcount
  have hlength := length_steps es
  have hpending := h.pendingCount (by rw [hlength]; exact hcount)
  refine ⟨map_sent_steps es, h.pending, ?_, ?_, ?_⟩
  · rw [hpending, count_fates, hlength]
  · intro a ha
    obtain ⟨hout, hin⟩ := h.samples a ha
    refine ⟨hout, hin, ?_⟩
    rw [hout, countTo_fates, ← map_sent_steps, List.countP_map]
    rfl
  · rintro es' peerId sendTime clock rfl
    have hlast : Ledger.steps (es' ++ [.createPing peerId sendTime clock]) =
        (Ledger.steps es').step (.createPing peerId sendTime clock) := by
      rw [Ledger.steps, List.foldl_append, List.foldl_cons, List.foldl_nil]
      rfl
    rw [hpending, hlast]
    refine Nat.le_trans (countFate_mapIdx_age _ _) (Nat.le_of_eq ?_)
    apply young_map
    rw [Ledger.step, mapIdx_same fun k q => congrArg (fun t => t.2.1) (answered_age _ q)]

/-- A probe that is answered after 30 ms, one that is stale when a third is sent, and the third. -/
def threeProbes : List ProbeEvent :=
  [.createPing "sgp-01" 5000000 fun _ => 5000000,
    .handlePong "sgp-01" [1, 0, 0, 0] 35000000 35000000 35000000,
    .createPing "tyo-01" 40000000 fun _ => 40000000,
    .createPing "sgp-01" 10040000000 fun _ => 10040000000]

example : (Ledger.steps threeProbes).map Probe.fate = [.answered, .stale, .pending] := by decide

theorem probes_accounted_syd : ∃ log os,
    Machine.run probeStep (ProbeLog.start "syd-01") threeProbes = .ok (log, os) ∧
      log.prober.pendingCount = 1 ∧ log.prober.matrix.sampleCount "sgp-01" "syd-01" = 1 := by
  obtain ⟨log, os, hrun⟩ : ∃ log os,
      Machine.run probeStep (ProbeLog.start "syd-01") threeProbes = .ok (log, os) := ⟨_, _, rfl⟩
  obtain ⟨-, -, htotal, hpeers, -⟩ := probes_accounted hrun (by decide)
  refine ⟨log, os, hrun, ?_, ?_⟩
  · have hanswered : (Ledger.steps threeProbes).countFate .answered = 1 := by decide
    have hstale : (Ledger.steps threeProbes).countFate .stale = 1 := by decide
    have hpings : threeProbes.countP ProbeEvent.isPing = 3 := by decide
    omega
  · rw [(hpeers "sgp-01" (by decide)).2.1]
    decide

end EntrouterLine.Mesh
