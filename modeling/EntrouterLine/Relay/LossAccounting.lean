import EntrouterLine.Relay.ReceiveLoop

/-!
# Loss accounting over the frames of one peer

What `receive_loop` records for complete and authentic frames is a function of their sequence
numbers: the numbers from the expected one up to the one that was received are lost, and the next
one is expected (`run_frames`). A frame that is late closes the gap all the way around the 64-bit
numbers.

The accounting is exact if and only if the frames arrive in the order of their numbers; when the
last number has been used, they may start over, but must not leave out a number that was never
received (`losses_exact_iff`). Two frames in the wrong order are `2 ^ 64 - 1` losses
(`swapped_frames_flood`).
-/

set_option autoImplicit false

namespace EntrouterLine.Relay

open EntrouterLine.Lib

/-! ## Sequence numbers -/

def maxSeq : UInt64 := 18446744073709551615

theorem toNat_maxSeq : maxSeq.toNat = 2 ^ 64 - 1 := by decide

theorem toNat_add_one {seq : UInt64} (h : seq ≠ maxSeq) : (seq + 1).toNat = seq.toNat + 1 := by
  have hne : seq.toNat ≠ 2 ^ 64 - 1 := by
    rw [← toNat_maxSeq]
    exact fun heq => h (UInt64.toNat_inj.mp heq)
  have hlt := seq.toNat_lt
  rw [UInt64.toNat_add, UInt64.toNat_one]
  omega

theorem le_maxSeq (seq : UInt64) : seq ≤ maxSeq := by
  rw [UInt64.le_iff_toNat_le, toNat_maxSeq]
  have hlt := seq.toNat_lt
  omega

theorem add_one_le_iff {seq seq' : UInt64} : seq + 1 ≤ seq' ↔ seq < seq' ∨ seq = maxSeq := by
  rcases eq_or_ne seq maxSeq with rfl | hne
  · exact iff_of_true (UInt64.le_iff_toNat_le.mpr (Nat.zero_le _)) (Or.inr rfl)
  · rw [UInt64.le_iff_toNat_le, toNat_add_one hne, UInt64.lt_iff_toNat_lt]
    constructor
    · exact fun h => Or.inl h
    · rintro (h | h)
      · exact h
      · exact absurd h hne

/-- A gap towards a number that is not below the expected one has the numbers between them. -/
theorem mem_gap {expectedSeq seq x : UInt64} (h : expectedSeq ≤ seq) :
    x ∈ gap expectedSeq seq ↔ expectedSeq ≤ x ∧ x < seq := by
  induction expectedSeq using gap.induct seq with
  | case1 =>
    rw [gap_self]
    refine iff_of_false List.not_mem_nil ?_
    rintro ⟨hle, hlt⟩
    exact UInt64.lt_irrefl _ (UInt64.lt_of_le_of_lt hle hlt)
  | case2 expectedSeq hne ih =>
    have hlt : expectedSeq < seq := UInt64.lt_of_le_of_ne h hne
    have hlast : expectedSeq ≠ maxSeq := by
      rintro rfl
      exact UInt64.lt_irrefl _ (UInt64.lt_of_lt_of_le hlt (le_maxSeq seq))
    rw [gap_of_ne hne, List.mem_cons, ih (add_one_le_iff.mpr (Or.inl hlt)), add_one_le_iff]
    constructor
    · rintro (rfl | ⟨hx | hx, hxlt⟩)
      · exact ⟨UInt64.le_refl x, hlt⟩
      · exact ⟨UInt64.le_of_lt hx, hxlt⟩
      · exact absurd hx hlast
    · rintro ⟨hx, hxlt⟩
      rcases UInt64.lt_or_eq_of_le hx with hx | rfl
      · exact Or.inr ⟨Or.inl hx, hxlt⟩
      · exact Or.inl rfl

theorem nodup_gap {expectedSeq seq : UInt64} (h : expectedSeq ≤ seq) :
    (gap expectedSeq seq).Nodup := by
  induction expectedSeq using gap.induct seq with
  | case1 =>
    rw [gap_self]
    exact List.nodup_nil
  | case2 expectedSeq hne ih =>
    have hlt : expectedSeq < seq := UInt64.lt_of_le_of_ne h hne
    have hnext : expectedSeq + 1 ≤ seq := add_one_le_iff.mpr (Or.inl hlt)
    have hnot : ¬expectedSeq + 1 ≤ expectedSeq := by
      rw [add_one_le_iff]
      rintro (hself | rfl)
      · exact UInt64.lt_irrefl _ hself
      · exact UInt64.lt_irrefl _ (UInt64.lt_of_lt_of_le hlt (le_maxSeq seq))
    rw [gap_of_ne hne, List.nodup_cons, mem_gap hnext]
    exact ⟨fun hself => hnot hself.1, ih hnext⟩

/-- A late number makes a gap. -/
theorem gap_ne_nil {expectedSeq seq : UInt64} (h : seq < expectedSeq) :
    gap expectedSeq seq ≠ [] := by
  have hne : expectedSeq ≠ seq := by
    rintro rfl
    exact UInt64.lt_irrefl _ h
  rw [gap_of_ne hne]
  exact List.cons_ne_nil _ _

/-! ## What is recorded -/

/-- The expected number after these numbers have been received. -/
def nextSeq : UInt64 → List UInt64 → UInt64
  | expectedSeq, [] => expectedSeq
  | _, seq :: seqs => nextSeq (seq + 1) seqs

/-- The numbers that are recorded as lost while these numbers are received. -/
def lostSeqs : UInt64 → List UInt64 → List UInt64
  | _, [] => []
  | expectedSeq, seq :: seqs => gap expectedSeq seq ++ lostSeqs (seq + 1) seqs

/-- No number is late: none is below the expected one. -/
def Timely : UInt64 → List UInt64 → Prop
  | _, [] => True
  | expectedSeq, seq :: seqs => expectedSeq ≤ seq ∧ Timely (seq + 1) seqs

theorem nextSeq_append (expectedSeq : UInt64) (seqs seqs' : List UInt64) :
    nextSeq expectedSeq (seqs ++ seqs') = nextSeq (nextSeq expectedSeq seqs) seqs' := by
  induction seqs generalizing expectedSeq with
  | nil => rfl
  | cons seq seqs ih => exact ih (seq + 1)

theorem lostSeqs_append (expectedSeq : UInt64) (seqs seqs' : List UInt64) :
    lostSeqs expectedSeq (seqs ++ seqs') =
      lostSeqs expectedSeq seqs ++ lostSeqs (nextSeq expectedSeq seqs) seqs' := by
  induction seqs generalizing expectedSeq with
  | nil => rfl
  | cons seq seqs ih =>
    show gap expectedSeq seq ++ lostSeqs (seq + 1) (seqs ++ seqs') = _
    rw [ih, ← List.append_assoc]
    rfl

theorem timely_append {expectedSeq : UInt64} {seqs seqs' : List UInt64} :
    Timely expectedSeq (seqs ++ seqs') ↔
      Timely expectedSeq seqs ∧ Timely (nextSeq expectedSeq seqs) seqs' := by
  induction seqs generalizing expectedSeq with
  | nil => exact (iff_of_eq (true_and _)).symm
  | cons seq seqs ih =>
    show expectedSeq ≤ seq ∧ Timely (seq + 1) (seqs ++ seqs') ↔ _
    rw [ih, ← and_assoc]
    rfl

/-- What is lost while no number is late is below a number that was received. -/
theorem Timely.below {expectedSeq : UInt64} {seqs : List UInt64} (h : Timely expectedSeq seqs)
    {x : UInt64} (hx : x ∈ lostSeqs expectedSeq seqs) : ∃ seq ∈ seqs, x < seq := by
  induction seqs generalizing expectedSeq with
  | nil => cases hx
  | cons seq seqs ih =>
    rcases List.mem_append.mp hx with hgap | hrest
    · exact ⟨seq, List.mem_cons_self, ((mem_gap h.1).mp hgap).2⟩
    · obtain ⟨seq', hmem, hlt⟩ := ih h.2 hrest
      exact ⟨seq', List.mem_cons_of_mem _ hmem, hlt⟩

/-- Numbers are timely if each is above the one before it, or follows the last number there is. -/
theorem timely_cons_iff {expectedSeq seq : UInt64} {seqs : List UInt64} :
    Timely expectedSeq (seq :: seqs) ↔
      expectedSeq ≤ seq ∧ (seq :: seqs).IsChain fun p s => p < s ∨ p = maxSeq := by
  induction seqs generalizing expectedSeq seq with
  | nil => exact and_congr_right fun _ => iff_of_true trivial (List.isChain_singleton _)
  | cons seq' seqs ih =>
    show expectedSeq ≤ seq ∧ Timely (seq + 1) (seq' :: seqs) ↔ _
    rw [ih, List.isChain_cons_cons, add_one_le_iff]

/-- One lap: up to the last number, the numbers that are lost are those that were left out. -/
theorem Timely.lap {expectedSeq last : UInt64} {seqs : List UInt64}
    (h : Timely expectedSeq (seqs ++ [last])) (hmax : maxSeq ∉ seqs) :
    expectedSeq ≤ last ∧ (∀ seq ∈ seqs, expectedSeq ≤ seq ∧ seq < last) ∧
      (lostSeqs expectedSeq (seqs ++ [last])).Nodup ∧
      ∀ x, x ∈ lostSeqs expectedSeq (seqs ++ [last]) ↔
        expectedSeq ≤ x ∧ x < last ∧ x ∉ seqs := by
  induction seqs generalizing expectedSeq with
  | nil =>
    have hlost : lostSeqs expectedSeq ([] ++ [last]) = gap expectedSeq last := List.append_nil _
    rw [hlost]
    refine ⟨h.1, fun _ hmem => absurd hmem List.not_mem_nil, nodup_gap h.1, ?_⟩
    intro x
    rw [mem_gap h.1]
    simp
  | cons seq seqs ih =>
    obtain ⟨hle, hrest⟩ := h
    obtain ⟨hne, hmax⟩ := not_or.mp (mt List.mem_cons.mpr hmax)
    have hnext : ∀ {x}, seq + 1 ≤ x ↔ seq < x := by
      intro x
      rw [add_one_le_iff, or_iff_left (Ne.symm hne)]
    obtain ⟨hlast, hseqs, hnodup, hmem⟩ := ih hrest hmax
    have hlost : lostSeqs expectedSeq (seq :: seqs ++ [last]) =
        gap expectedSeq seq ++ lostSeqs (seq + 1) (seqs ++ [last]) := rfl
    rw [hnext] at hlast
    refine ⟨UInt64.le_trans hle (UInt64.le_of_lt hlast), ?_, ?_, ?_⟩
    · intro seq' hseq'
      rcases List.mem_cons.mp hseq' with rfl | hseq'
      · exact ⟨hle, hlast⟩
      · obtain ⟨hge, hlt⟩ := hseqs seq' hseq'
        exact ⟨UInt64.le_trans hle (UInt64.le_of_lt (hnext.mp hge)), hlt⟩
    · rw [hlost]
      refine List.nodup_append.mpr ⟨nodup_gap hle, hnodup, ?_⟩
      rintro x hx _ hx' rfl
      -- the gap is below the number received, the rest above it
      have hlow := ((mem_gap hle).mp hx).2
      exact UInt64.lt_asymm hlow (hnext.mp ((hmem x).mp hx').1)
    · intro x
      rw [hlost, List.mem_append, mem_gap hle, hmem, hnext, List.mem_cons, not_or]
      constructor
      · rintro (⟨hge, hlt⟩ | ⟨hgt, hlt, hout⟩)
        · refine ⟨hge, UInt64.lt_trans hlt hlast, ?_, ?_⟩
          · rintro rfl
            exact UInt64.lt_irrefl _ hlt
          · exact fun hin => UInt64.lt_asymm hlt (hnext.mp (hseqs x hin).1)
        · refine ⟨UInt64.le_trans hle (UInt64.le_of_lt hgt), hlt, ?_, hout⟩
          rintro rfl
          exact UInt64.lt_irrefl _ hgt
      · rintro ⟨hge, hlt, hxne, hout⟩
        rcases UInt64.lt_or_lt_of_ne hxne with hlow | hhigh
        · exact Or.inl ⟨hge, hlow⟩
        · exact Or.inr ⟨hhigh, hlt, hout⟩

/-- Numbers that were received in their order: each is above the one before it, except that they may
start over after the last number there is, if every number below one of those that follow has been
received. -/
structure InOrder (seqs : List UInt64) : Prop where
  chain : seqs.IsChain fun p s => p < s ∨ p = maxSeq
  again : ∀ a b, seqs = a ++ maxSeq :: b → ∀ seq ∈ b, ∀ x, x < seq → x ∈ seqs

theorem timely_iff_chain {seqs : List UInt64} :
    Timely 0 seqs ↔ seqs.IsChain fun p s => p < s ∨ p = maxSeq := by
  cases seqs with
  | nil => exact iff_of_true trivial List.isChain_nil
  | cons seq seqs =>
    rw [timely_cons_iff]
    exact and_iff_right (UInt64.le_iff_toNat_le.mpr (Nat.zero_le _))

/-- A number below one that was received in a lap is lost in it or received in it. -/
theorem Timely.lost_or_mem {expectedSeq last : UInt64} {seqs : List UInt64}
    (h : Timely expectedSeq (seqs ++ [last])) (hmax : maxSeq ∉ seqs) {seq x : UInt64}
    (hseq : seq ∈ seqs ++ [last]) (hge : expectedSeq ≤ x) (hlt : x < seq) :
    x ∈ lostSeqs expectedSeq (seqs ++ [last]) ∨ x ∈ seqs := by
  obtain ⟨-, hseqs, -, hmem⟩ := h.lap hmax
  have hlast : x < last := by
    rcases List.mem_append.mp hseq with hin | hin
    · exact UInt64.lt_trans hlt (hseqs seq hin).2
    · rw [List.mem_singleton.mp hin] at hlt
      exact hlt
  by_cases hin : x ∈ seqs
  · exact Or.inr hin
  · exact Or.inl ((hmem x).mpr ⟨hge, hlast, hin⟩)

/-- After the last number there is, a second lap starts from zero. -/
theorem second_lap (a b : List UInt64) :
    (Timely 0 (a ++ maxSeq :: b) ↔ Timely 0 (a ++ [maxSeq]) ∧ Timely 0 b) ∧
      lostSeqs 0 (a ++ maxSeq :: b) = lostSeqs 0 (a ++ [maxSeq]) ++ lostSeqs 0 b := by
  have hnext : nextSeq 0 (a ++ [maxSeq]) = 0 := by
    rw [nextSeq_append]
    rfl
  rw [List.append_cons, timely_append, lostSeqs_append, hnext]
  exact ⟨Iff.rfl, rfl⟩

theorem zero_le_seq (seq : UInt64) : 0 ≤ seq := UInt64.le_iff_toNat_le.mpr (Nat.zero_le _)

/-- What is lost in a lap was not received in it. -/
theorem Timely.not_mem_of_lost {seqs : List UInt64} (h : Timely 0 seqs) (hmax : maxSeq ∉ seqs)
    {x : UInt64} (hx : x ∈ lostSeqs 0 seqs) : x ∉ seqs := by
  rcases List.eq_nil_or_concat' seqs with rfl | ⟨front, last, rfl⟩
  · exact List.not_mem_nil
  · have hfront : maxSeq ∉ front := fun hin => hmax (List.mem_append_left _ hin)
    obtain ⟨-, -, -, hmem⟩ := h.lap hfront
    obtain ⟨-, hlt, hout⟩ := (hmem x).mp hx
    rw [List.mem_append, List.mem_singleton, not_or]
    refine ⟨hout, ?_⟩
    rintro rfl
    exact UInt64.lt_irrefl _ hlt

theorem Timely.nodup_of_lap {seqs : List UInt64} (h : Timely 0 seqs) (hmax : maxSeq ∉ seqs) :
    (lostSeqs 0 seqs).Nodup := by
  rcases List.eq_nil_or_concat' seqs with rfl | ⟨front, last, rfl⟩
  · exact List.nodup_nil
  · exact (h.lap fun hin => hmax (List.mem_append_left _ hin)).2.2.1

/-- No number is late and none is lost twice exactly if the numbers are in order. -/
theorem timely_nodup_iff {seqs : List UInt64} (hnodup : seqs.Nodup) :
    Timely 0 seqs ∧ (lostSeqs 0 seqs).Nodup ↔ InOrder seqs := by
  constructor
  · rintro ⟨htimely, hlost⟩
    refine ⟨timely_iff_chain.mp htimely, ?_⟩
    rintro a b rfl seq hseq x hlt
    rw [(second_lap a b).2, List.nodup_append] at hlost
    obtain ⟨ha, hb⟩ := (second_lap a b).1.mp htimely
    obtain ⟨-, hnodupb, hdisj⟩ := List.nodup_append.mp hnodup
    have hmaxa : maxSeq ∉ a := fun hin => hdisj maxSeq hin maxSeq List.mem_cons_self rfl
    have hmaxb : maxSeq ∉ b := (List.nodup_cons.mp hnodupb).1
    have hltmax : x < maxSeq := UInt64.lt_of_lt_of_le hlt (le_maxSeq seq)
    -- a number below a second one of its lap is lost or received in each of the two laps
    rcases ha.lost_or_mem hmaxa (List.mem_append_right _ List.mem_cons_self) (zero_le_seq x) hltmax
      with hlosta | hin
    · rcases List.eq_nil_or_concat' b with rfl | ⟨front, last, rfl⟩
      · cases hseq
      · have hfront : maxSeq ∉ front := fun hin => hmaxb (List.mem_append_left _ hin)
        rcases hb.lost_or_mem hfront hseq (zero_le_seq x) hlt with hlostb | hin
        · exact absurd rfl (hlost.2.2 x hlosta x hlostb)
        · exact List.mem_append_right _ (List.mem_cons_of_mem _ (List.mem_append_left _ hin))
    · exact List.mem_append_left _ hin
  · intro horder
    have htimely := timely_iff_chain.mpr horder.chain
    refine ⟨htimely, ?_⟩
    by_cases hmax : maxSeq ∈ seqs
    · obtain ⟨a, b, rfl⟩ := List.append_of_mem hmax
      obtain ⟨ha, hb⟩ := (second_lap a b).1.mp htimely
      obtain ⟨-, hnodupb, hdisj⟩ := List.nodup_append.mp hnodup
      have hmaxa : maxSeq ∉ a := fun hin => hdisj maxSeq hin maxSeq List.mem_cons_self rfl
      have hmaxb : maxSeq ∉ b := (List.nodup_cons.mp hnodupb).1
      obtain ⟨-, -, hnodupa, hmema⟩ := ha.lap hmaxa
      rw [(second_lap a b).2]
      refine List.nodup_append.mpr ⟨hnodupa, hb.nodup_of_lap hmaxb, ?_⟩
      rintro x hxa _ hxb rfl
      -- what is lost in both laps was received in neither
      obtain ⟨-, hltmax, houta⟩ := (hmema x).mp hxa
      obtain ⟨seq, hseq, hlt⟩ := hb.below hxb
      rcases List.mem_append.mp (horder.again a b rfl seq hseq x hlt) with hin | hin
      · exact houta hin
      · rcases List.mem_cons.mp hin with rfl | hin
        · exact UInt64.lt_irrefl _ hltmax
        · exact hb.not_mem_of_lost hmaxb hxb hin
    · exact htimely.nodup_of_lap hmax

/-! ## Frames -/

/-- A datagram that arrives complete and opens under the key of the peer. -/
structure Frame (aead : Aead) (crypto : TunnelCrypto) where
  datagram : Datagram
  seq : UInt64
  opens : ∃ packetType ct plaintext,
    carried (datagram.2.take maxPacket) = some (packetType, seq, ct) ∧
      crypto.decrypt aead seq ct = .ok plaintext

variable {aead : Aead} {crypto : TunnelCrypto}

def frameStep (l : ReceiveLoop) (f : Frame aead crypto) :
    Except Panic (ReceiveLoop × Option ReceivedPacket) :=
  receiveStep aead crypto l f.datagram

/-- The sequence number of a call that records a gap. -/
def LossRecord.lostSeq : LossRecord → Option UInt64
  | .lost seq => some seq
  | _ => none

/-- The sequence numbers recorded as lost so far. -/
def ReceiveLoop.lost (l : ReceiveLoop) : List UInt64 := l.calls.filterMap LossRecord.lostSeq

/-- The number of calls `record(false)` so far. -/
def ReceiveLoop.losses (l : ReceiveLoop) : Nat := l.calls.countP fun call => !call.received

/-- What is recorded for frames with these sequence numbers. -/
def frameCalls : UInt64 → List UInt64 → List LossRecord
  | _, [] => []
  | expectedSeq, seq :: seqs => arrivalCalls expectedSeq seq ++ frameCalls (seq + 1) seqs

theorem lost_frameCalls (expectedSeq : UInt64) (seqs : List UInt64) :
    (frameCalls expectedSeq seqs).filterMap LossRecord.lostSeq = lostSeqs expectedSeq seqs := by
  induction seqs generalizing expectedSeq with
  | nil => rfl
  | cons seq seqs ih =>
    have hgap : ((gap expectedSeq seq).map LossRecord.lost).filterMap LossRecord.lostSeq =
        gap expectedSeq seq := by
      rw [List.filterMap_map]
      exact List.filterMap_some
    rw [frameCalls, arrivalCalls, List.filterMap_append, List.filterMap_append, hgap, ih]
    simp [LossRecord.lostSeq, lostSeqs]

theorem losses_frameCalls (expectedSeq : UInt64) (seqs : List UInt64) :
    ((frameCalls expectedSeq seqs).countP fun call => !call.received) =
      (lostSeqs expectedSeq seqs).length := by
  induction seqs generalizing expectedSeq with
  | nil => rfl
  | cons seq seqs ih =>
    have hgap : (((gap expectedSeq seq).map LossRecord.lost).countP fun call => !call.received) =
        (gap expectedSeq seq).length := by
      rw [List.countP_map]
      exact List.countP_eq_length.mpr fun _ _ => rfl
    rw [frameCalls, arrivalCalls, List.countP_append, List.countP_append, hgap, ih, lostSeqs,
      List.length_append]
    rfl

theorem lost_of_calls {l : ReceiveLoop} {seqs : List UInt64} (h : l.calls = frameCalls 0 seqs) :
    l.lost = lostSeqs 0 seqs := by
  rw [ReceiveLoop.lost, h, lost_frameCalls]

theorem losses_of_calls {l : ReceiveLoop} {seqs : List UInt64} (h : l.calls = frameCalls 0 seqs) :
    l.losses = (lostSeqs 0 seqs).length := by
  rw [ReceiveLoop.losses, h, losses_frameCalls]

theorem frameStep_ok {l : ReceiveLoop} (h : l.Tracking) (f : Frame aead crypto) :
    ∃ l' o, frameStep l f = .ok (l', o) ∧ l'.Tracking ∧ l'.expectedSeq = f.seq + 1 ∧
      l'.calls = l.calls ++ arrivalCalls l.expectedSeq f.seq := by
  obtain ⟨packetType, ct, plaintext, hcarried, hopens⟩ := f.opens
  obtain ⟨l', htracking, hexpected, ⟨plaintext', -, hround, hcalls⟩ | ⟨e, hrejected, -⟩⟩ :=
    receiveRound_carried aead crypto h f.datagram.1 hcarried
  · exact ⟨l', _, hround, htracking, hexpected, hcalls⟩
  · rw [hopens] at hrejected
    cases hrejected

/-- What a run over frames records depends on their sequence numbers alone. -/
theorem run_frames {l : ReceiveLoop} (h : l.Tracking) (frames : List (Frame aead crypto)) :
    ∃ l' os, Machine.run frameStep l frames = .ok (l', os) ∧ l'.Tracking ∧
      l'.expectedSeq = nextSeq l.expectedSeq (frames.map Frame.seq) ∧
      l'.calls = l.calls ++ frameCalls l.expectedSeq (frames.map Frame.seq) := by
  induction frames generalizing l with
  | nil => exact ⟨l, [], rfl, h, rfl, (List.append_nil _).symm⟩
  | cons f frames ih =>
    obtain ⟨l₁, o, hstep, h₁, hexpected₁, hcalls₁⟩ := frameStep_ok h f
    obtain ⟨l₂, os, hrun, h₂, hexpected₂, hcalls₂⟩ := ih h₁
    refine ⟨l₂, o :: os, Machine.run_cons_ok hstep hrun, h₂, ?_, ?_⟩
    · rw [hexpected₂, hexpected₁]
      rfl
    · rw [hcalls₂, hcalls₁, hexpected₁, List.append_assoc]
      rfl

theorem recorded_of_run {l l' : ReceiveLoop} (h : l.Tracking) {frames : List (Frame aead crypto)}
    {os : List (Option ReceivedPacket)} (hrun : Machine.run frameStep l frames = .ok (l', os)) :
    l'.Tracking ∧ l'.expectedSeq = nextSeq l.expectedSeq (frames.map Frame.seq) ∧
      l'.calls = l.calls ++ frameCalls l.expectedSeq (frames.map Frame.seq) := by
  obtain ⟨l'', os', hrun', hrecorded⟩ := run_frames h frames
  rw [hrun, Except.ok.injEq, Prod.mk.injEq] at hrun'
  obtain ⟨rfl, -⟩ := hrun'
  exact hrecorded

/-! ## Exact accounting -/

/-- After frames with these sequence numbers: every number was recorded as lost once at most, and
only numbers below one that was received, so that there are no more losses than the highest number
says. -/
structure ExactLosses (seqs : List UInt64) (l : ReceiveLoop) : Prop where
  once : l.lost.Nodup
  below : ∀ x ∈ l.lost, ∃ seq ∈ seqs, x < seq
  bounded : ∀ top : UInt64, (∀ seq ∈ seqs, seq ≤ top) → l.losses ≤ top.toNat

/-- A frame that is late records no losses. -/
def LateIsSilent (l : ReceiveLoop) (f : Frame aead crypto) : Prop :=
  f.seq < l.expectedSeq → ∀ l' o, frameStep l f = .ok (l', o) → l'.lost = l.lost

theorem exactLosses_of_timely {l : ReceiveLoop} {seqs : List UInt64}
    (hcalls : l.calls = frameCalls 0 seqs) (htimely : Timely 0 seqs)
    (hnodup : (lostSeqs 0 seqs).Nodup) : ExactLosses seqs l := by
  have hlost := lost_of_calls hcalls
  have hlosses := losses_of_calls hcalls
  refine ⟨?_, ?_, ?_⟩
  · rw [hlost]
    exact hnodup
  · intro x hx
    rw [hlost] at hx
    exact htimely.below hx
  · intro top htop
    -- they are different numbers below the highest one
    have hsub : (lostSeqs 0 seqs).map UInt64.toNat ⊆ List.range top.toNat := by
      intro n hn
      obtain ⟨x, hx, rfl⟩ := List.mem_map.mp hn
      obtain ⟨seq, hseq, hlt⟩ := htimely.below hx
      exact List.mem_range.mpr
        (UInt64.lt_iff_toNat_lt.mp (UInt64.lt_of_lt_of_le hlt (htop seq hseq)))
    have hnodup' : ((lostSeqs 0 seqs).map UInt64.toNat).Nodup :=
      hnodup.map fun _ _ heq => UInt64.toNat_inj.mp heq
    have hle := (hnodup'.subperm hsub).length_le
    rwa [List.length_map, List.length_range, ← hlosses] at hle

theorem lateIsSilent_iff {l : ReceiveLoop} (h : l.Tracking) (f : Frame aead crypto) :
    LateIsSilent l f ↔ l.expectedSeq ≤ f.seq := by
  obtain ⟨l', o, hstep, -, -, hcalls⟩ := frameStep_ok h f
  have hlost : l'.lost = l.lost ++ gap l.expectedSeq f.seq := by
    have hgap := lost_frameCalls l.expectedSeq [f.seq]
    rw [frameCalls, frameCalls, List.append_nil, lostSeqs, lostSeqs, List.append_nil] at hgap
    rw [ReceiveLoop.lost, hcalls, List.filterMap_append, hgap]
    rfl
  constructor
  · intro hsilent
    by_contra hlate
    have hlt := UInt64.not_le.mp hlate
    have hsame := hsilent hlt l' o hstep
    rw [hlost, List.append_right_eq_self] at hsame
    exact gap_ne_nil hlt hsame
  · intro hle hlate
    exact absurd (UInt64.lt_of_lt_of_le hlate hle) (UInt64.lt_irrefl _)

theorem timely_of_forall {expectedSeq : UInt64} {frames : List (Frame aead crypto)}
    (h : ∀ done f rest, frames = done ++ f :: rest →
      nextSeq expectedSeq (done.map Frame.seq) ≤ f.seq) :
    Timely expectedSeq (frames.map Frame.seq) := by
  induction frames generalizing expectedSeq with
  | nil => trivial
  | cons f frames ih =>
    refine ⟨h [] f frames rfl, ih ?_⟩
    intro done f' rest hsplit
    apply h (f :: done) f' rest
    rw [hsplit]
    rfl

/-- Frames with distinct sequence numbers: the losses are exact at every moment and no late frame
records any, exactly if the frames arrive in order. -/
theorem losses_exact_iff {windowSize : Nat} (hsize : 1 ≤ windowSize)
    {frames : List (Frame aead crypto)} (hdistinct : (frames.map Frame.seq).Nodup) :
    (∀ done rest, frames = done ++ rest → ∃ l os,
      Machine.run frameStep (ReceiveLoop.start (LossTracker.new windowSize)) done = .ok (l, os) ∧
        ExactLosses (done.map Frame.seq) l ∧ ∀ f ∈ rest.head?, LateIsSilent l f) ↔
      InOrder (frames.map Frame.seq) := by
  have hstart := tracking_start hsize
  rw [← timely_nodup_iff hdistinct]
  constructor
  · intro hexact
    constructor
    · -- a late frame that records nothing is not below the expected number
      apply timely_of_forall
      intro done f rest hsplit
      obtain ⟨l, os, hrun, -, hlate⟩ := hexact done (f :: rest) hsplit
      obtain ⟨htracking, hexpected, -⟩ := recorded_of_run hstart hrun
      have hle := (lateIsSilent_iff htracking f).mp (hlate f rfl)
      rwa [hexpected] at hle
    · obtain ⟨l, os, hrun, hlosses, -⟩ := hexact frames [] (List.append_nil _).symm
      obtain ⟨-, -, hcalls⟩ := recorded_of_run hstart hrun
      have honce := hlosses.once
      rwa [lost_of_calls hcalls] at honce
  · rintro ⟨htimely, hnodup⟩ done rest rfl
    rw [List.map_append] at htimely hnodup
    obtain ⟨hdone, hrest⟩ := timely_append.mp htimely
    rw [lostSeqs_append] at hnodup
    obtain ⟨l, os, hrun, htracking, hexpected, hcalls⟩ := run_frames hstart done
    refine ⟨l, os, hrun, ?_, ?_⟩
    · exact exactLosses_of_timely hcalls hdone (List.nodup_append.mp hnodup).1
    · intro f hf
      rw [lateIsSilent_iff htracking, hexpected]
      cases rest with
      | nil => cases hf
      | cons f' rest =>
        cases hf
        exact hrest.1

/-- A frame of the peer with no payload. -/
def sentFrame (seq : UInt64) : Frame tagAead loopCrypto where
  datagram := (localPeer, frameOf packetData seq (loopCrypto.encrypt tagAead seq []))
  seq := seq
  opens := by
    have hlength : (loopCrypto.encrypt tagAead seq []).length = authTagSize :=
      (tagAead_tagLength _ _ _).trans (Nat.zero_add _)
    have hfits :
        (frameOf packetData seq (loopCrypto.encrypt tagAead seq [])).length ≤ maxPacket := by
      rw [length_frameOf, hlength]
      decide
    refine ⟨packetData, _, [], ?_, decrypt_eq_ok_iff.mpr (tagAead_opens _ _ _)⟩
    rw [List.take_of_length_le hfits]
    exact carried_of_frame_prefix (hfits.trans (by decide)) List.prefix_rfl

theorem losses_exact_iff_two :
    (∀ done rest, [sentFrame 0, sentFrame 2] = done ++ rest → ∃ l os,
      Machine.run frameStep (ReceiveLoop.start (LossTracker.new 1000)) done = .ok (l, os) ∧
        ExactLosses (done.map Frame.seq) l ∧ ∀ f ∈ rest.head?, LateIsSilent l f) ↔
      InOrder ([sentFrame 0, sentFrame 2].map Frame.seq) :=
  losses_exact_iff (by decide) (by decide)

/-- Frame 0 overtaken by frame 1 is `2 ^ 64 - 1` losses, the first one of them that of frame 2,
which was never sent. -/
theorem swapped_frames_flood :
    ([sentFrame 1, sentFrame 0].map Frame.seq).Nodup ∧
      ∃ l os, Machine.run frameStep (ReceiveLoop.start (LossTracker.new 1000))
          [sentFrame 1, sentFrame 0] = .ok (l, os) ∧
        l.losses = 2 ^ 64 - 1 ∧ 2 ∈ l.lost ∧
          ¬ExactLosses ([sentFrame 1, sentFrame 0].map Frame.seq) l := by
  refine ⟨by decide, ?_⟩
  obtain ⟨l, os, hrun, -, -, hcalls⟩ :=
    run_frames (tracking_start (by decide : 1 ≤ 1000)) [sentFrame 1, sentFrame 0]
  replace hcalls : l.calls = frameCalls 0 [1, 0] := hcalls
  have hlost : l.lost = gap 0 1 ++ gap 2 0 := by
    refine (lost_of_calls hcalls).trans ?_
    rw [lostSeqs, lostSeqs, lostSeqs, List.append_nil]
    rfl
  have hlosses : l.losses = 2 ^ 64 - 1 := by
    refine (losses_of_calls hcalls).trans ?_
    rw [lostSeqs, lostSeqs, lostSeqs, List.append_nil, List.length_append, length_gap, length_gap]
    rfl
  have hmem : 2 ∈ l.lost := by
    rw [hlost, gap_of_ne (by decide : (2 : UInt64) ≠ 0)]
    exact List.mem_append_right _ List.mem_cons_self
  refine ⟨l, os, hrun, hlosses, hmem, ?_⟩
  intro hexact
  obtain ⟨seq, hseq, hlt⟩ := hexact.below 2 hmem
  have hseqs : [sentFrame 1, sentFrame 0].map Frame.seq = [1, 0] := rfl
  rw [hseqs, List.mem_pair] at hseq
  rcases hseq with rfl | rfl
  · exact absurd hlt (by decide)
  · exact absurd hlt (by decide)

end EntrouterLine.Relay
