import EntrouterLine.Lib.Smoothing
import EntrouterLine.Mesh.LatencyMatrix

/-!
# Smoothing of RTT samples

`LatencyMatrix::update` is exponential smoothing in whole microseconds: below `2 ^ 50` microseconds
the `f64` arithmetic is exact, and only the cast back to an integer rounds (`ewma_eq`). After any
updates, an entry is what the samples of its own pair make of it (`updates_eq_run`). It stays within
their range, and its jitter within the length of that range; each further sample draws it closer
(`smoothing_exact`).
-/

set_option autoImplicit false

namespace EntrouterLine.Mesh

open EntrouterLine.Lib
open EntrouterLine.Relay

/-! ## Updates -/

/-- One call of `update`. -/
structure RttUpdate where
  src : NodeId
  dst : NodeId
  rtt : Duration
  now : Instant

def LatencyMatrix.apply (m : LatencyMatrix) (u : RttUpdate) : LatencyMatrix :=
  m.update u.src u.dst u.rtt u.now

/-- Any sequence of calls of `update`. -/
def LatencyMatrix.updates (m : LatencyMatrix) (us : List RttUpdate) : LatencyMatrix :=
  us.foldl LatencyMatrix.apply m

/-- The samples of one pair, in whole microseconds. -/
def samplesOf (src dst : NodeId) (us : List RttUpdate) : List Nat :=
  (us.filter fun u => u.src = src ∧ u.dst = dst).map fun u => asMicros u.rtt

/-- The entry in whole microseconds. -/
def LatencyEntry.smoother (e : LatencyEntry) : Smoother :=
  ⟨asMicros e.smoothedRtt, asMicros e.jitter⟩

/-! ## The arithmetic -/

/-- Whole numbers of 53 bits are exact. -/
theorem roundF64_of_lt {n : Nat} (h : n < 2 ^ 53) : roundF64 n = n := by
  have hulp : n.log2 + 1 - 53 = 0 := by
    rcases Nat.eq_zero_or_pos n with rfl | hpos
    · rfl
    · have hlog : n.log2 < 53 := (Nat.log2_lt hpos.ne').mpr h
      omega
  have hround : roundF64 n = n / 1 * 1 := by
    rw [roundF64, hulp, pow_zero, if_pos (Or.inl (by rw [Nat.mod_one]; decide))]
  rw [hround, Nat.div_one, Nat.mul_one]

/-- Below `2 ^ 50` the sum of the products has 53 bits, and the cast rounds down. -/
theorem ewma_eq {old new : Nat} (hold : old < 2 ^ 50) (hnew : new < 2 ^ 50) :
    ewma old new = smoothed 7 old new := by
  have hsum : 7 * old + new < 2 ^ 53 := by omega
  have hprod : 7 * old < 2 ^ 53 := by omega
  have hcast : (7 * old + new) / 8 ≤ u64Max := by
    rw [u64Max]
    omega
  rw [ewma, roundF64_of_lt hprod, roundF64_of_lt hsum, Nat.min_eq_left hcast]
  rfl

/-- Values below this many microseconds are exact. -/
def exactMicros : Nat := 2 ^ 50

theorem asMicros_fromMicros_ewma {old new : Nat} (hold : old < exactMicros)
    (hnew : new < exactMicros) : asMicros (fromMicros (ewma old new)) = smoothed 7 old new := by
  rw [ewma_eq hold hnew, asMicros_fromMicros]
  have hle : smoothed 7 old new ≤ max old new :=
    smoothed_le (le_max_left _ _) (le_max_right _ _)
  calc smoothed 7 old new ≤ max old new := hle
    _ < exactMicros := max_lt hold hnew
    _ < 2 ^ 64 := by decide

/-- `update` of an existing entry is a step of smoothing. -/
theorem smoother_smooth {e : LatencyEntry} {rtt : Duration} {hi : Nat} (hhi : hi < exactMicros)
    (h : e.smoother.Within 0 hi) (hrtt : asMicros rtt ≤ hi) (now : Instant) :
    (e.smooth rtt now).smoother = e.smoother.step 7 (asMicros rtt) := by
  have hvalue : asMicros e.smoothedRtt ≤ hi := h.le_hi
  have hjitter : asMicros e.jitter ≤ hi := h.deviation_le
  have hdist : Nat.dist (asMicros rtt) (asMicros e.smoothedRtt) ≤ hi := by
    rw [Nat.dist]
    omega
  have hexact : ∀ {n}, n ≤ hi → roundF64 n = n := by
    intro n hn
    apply roundF64_of_lt
    exact lt_of_le_of_lt hn (hhi.trans (by decide))
  have hdiff : roundF64 (asMicros rtt - asMicros e.smoothedRtt +
      (asMicros e.smoothedRtt - asMicros rtt)) =
        Nat.dist (asMicros rtt) (asMicros e.smoothedRtt) := hexact hdist
  simp only [LatencyEntry.smooth, LatencyEntry.smoother, Smoother.step, hexact hvalue, hexact hrtt,
    hexact hjitter, hdiff]
  rw [asMicros_fromMicros_ewma (hvalue.trans_lt hhi) (hrtt.trans_lt hhi),
    asMicros_fromMicros_ewma (hjitter.trans_lt hhi) (hdist.trans_lt hhi)]

theorem updates_append (m : LatencyMatrix) (us us' : List RttUpdate) :
    m.updates (us ++ us') = (m.updates us).updates us' :=
  List.foldl_append

theorem samplesOf_append (src dst : NodeId) (us us' : List RttUpdate) :
    samplesOf src dst (us ++ us') = samplesOf src dst us ++ samplesOf src dst us' := by
  rw [samplesOf, List.filter_append, List.map_append]
  rfl

/-- After any updates, the entry of a pair is what its own samples make of it. -/
theorem updates_eq_run {src dst : NodeId} {us : List RttUpdate}
    (hsmall : ∀ s ∈ samplesOf src dst us, s < exactMicros) :
    ((LatencyMatrix.new.updates us).entries.lookup (src, dst)).map LatencyEntry.smoother =
      Smoother.run 7 (samplesOf src dst us) := by
  induction us using List.reverseRecOn with
  | nil => rfl
  | append_singleton us u ih =>
    rw [samplesOf_append] at hsmall ⊢
    have hbefore : ∀ s ∈ samplesOf src dst us, s < exactMicros :=
      fun s hs => hsmall s (List.mem_append_left _ hs)
    have hrun := ih hbefore
    rw [updates_append]
    by_cases hpair : u.src = src ∧ u.dst = dst
    · -- a sample of the pair: the first makes the entry, a later one is smoothed in
      obtain ⟨rfl, rfl⟩ := hpair
      have hsample : samplesOf u.src u.dst [u] = [asMicros u.rtt] := by
        simp [samplesOf]
      rw [hsample] at hsmall ⊢
      show (((LatencyMatrix.new.updates us).update u.src u.dst u.rtt u.now).entries.lookup
        _).map _ = _
      rw [lookup_update_self]
      cases hlookup : (LatencyMatrix.new.updates us).entries.lookup (u.src, u.dst) with
      | none =>
        rw [hlookup] at hrun
        have hnil : samplesOf u.src u.dst us = [] := Smoother.run_eq_none_iff.mp hrun.symm
        have hzero : asMicros 0 = 0 := by simp [asMicros]
        rw [hnil]
        show some (⟨asMicros u.rtt, asMicros 0⟩ : Smoother) = some ⟨asMicros u.rtt, 0⟩
        rw [hzero]
      | some e =>
        rw [hlookup] at hrun
        rw [Smoother.run_append hrun.symm]
        have hlt : exactMicros - 1 < exactMicros := by decide
        have hwithin : e.smoother.Within 0 (exactMicros - 1) := by
          apply Smoother.within_run hrun.symm
          exact fun s hs => ⟨Nat.zero_le s, Nat.le_sub_one_of_lt (hbefore s hs)⟩
        have hrtt : asMicros u.rtt < exactMicros :=
          hsmall _ (List.mem_append_right _ List.mem_cons_self)
        exact congrArg some (smoother_smooth hlt hwithin (Nat.le_sub_one_of_lt hrtt) u.now)
    · -- a sample of another pair
      have hsample : samplesOf src dst [u] = [] := by
        simp [samplesOf, hpair]
      have hne : (src, dst) ≠ (u.src, u.dst) := by
        rintro ⟨⟩
        exact hpair ⟨rfl, rfl⟩
      rw [hsample, List.append_nil, ← hrun]
      show (((LatencyMatrix.new.updates us).update u.src u.dst u.rtt u.now).entries.lookup
        _).map _ = _
      rw [lookup_update_of_ne u.rtt u.now hne]

/-! ## What samples do to an entry -/

/-- A step from `old` to `new` at a sample: it is the exact average rounded down, it does not
overshoot the sample, it does not move away from it, and it moves closer if the two differ by eight
microseconds or more. -/
structure Approaches (old sample new : Nat) : Prop where
  eq : new = (7 * old + sample) / 8
  up : old ≤ sample → old ≤ new ∧ new ≤ sample
  down : sample ≤ old → sample ≤ new ∧ new ≤ old
  closer : 8 ≤ Nat.dist old sample → Nat.dist new sample < Nat.dist old sample

theorem approaches_smoothed (old sample : Nat) : Approaches old sample (smoothed 7 old sample) where
  eq := rfl
  up := (smoothed_between 7 old sample).1
  down := (smoothed_between 7 old sample).2
  closer h := dist_smoothed_lt h

/-- After updates of any pairs, those of one pair with samples below `2 ^ 50` microseconds: the
entry of the pair is within the range of its samples, and its jitter within the length of the range.
Every further update of the pair approaches its sample. Enough further updates with one and the same
sample, among others of other pairs, take the entry to within seven microseconds of it. -/
theorem smoothing_exact {src dst : NodeId} {us : List RttUpdate}
    (hsmall : ∀ s ∈ samplesOf src dst us, s < 2 ^ 50) (hne : samplesOf src dst us ≠ []) :
    ∃ e, (LatencyMatrix.new.updates us).entries.lookup (src, dst) = some e ∧
      (∀ lo hi, (∀ s ∈ samplesOf src dst us, lo ≤ s ∧ s ≤ hi) →
        lo ≤ asMicros e.smoothedRtt ∧ asMicros e.smoothedRtt ≤ hi ∧ asMicros e.jitter ≤ hi - lo) ∧
      (∀ rtt now, asMicros rtt < 2 ^ 50 →
        ∃ e', ((LatencyMatrix.new.updates us).update src dst rtt now).entries.lookup (src, dst) =
            some e' ∧
          Approaches (asMicros e.smoothedRtt) (asMicros rtt) (asMicros e'.smoothedRtt)) ∧
      ∀ sample, sample < 2 ^ 50 → ∃ n, ∀ more,
        (∀ s ∈ samplesOf src dst more, s = sample) → n ≤ (samplesOf src dst more).length →
        ∃ e', (LatencyMatrix.new.updates (us ++ more)).entries.lookup (src, dst) = some e' ∧
          Nat.dist (asMicros e'.smoothedRtt) sample ≤ 7 := by
  have hrun := updates_eq_run hsmall
  obtain ⟨e, hlookup⟩ :
      ∃ e, (LatencyMatrix.new.updates us).entries.lookup (src, dst) = some e := by
    cases hlookup : (LatencyMatrix.new.updates us).entries.lookup (src, dst) with
    | none =>
      rw [hlookup] at hrun
      exact absurd (Smoother.run_eq_none_iff.mp hrun.symm) hne
    | some e => exact ⟨e, rfl⟩
  rw [hlookup] at hrun
  have hwithin : ∀ lo hi, (∀ s ∈ samplesOf src dst us, lo ≤ s ∧ s ≤ hi) →
      e.smoother.Within lo hi := fun lo hi => Smoother.within_run hrun.symm
  have hlt : exactMicros - 1 < exactMicros := by decide
  have hexact : e.smoother.Within 0 (exactMicros - 1) := by
    apply hwithin
    exact fun s hs => ⟨Nat.zero_le s, Nat.le_sub_one_of_lt (hsmall s hs)⟩
  refine ⟨e, hlookup, ?_, ?_, ?_⟩
  · intro lo hi hsamples
    obtain ⟨hlo, hhi, hjitter⟩ := hwithin lo hi hsamples
    exact ⟨hlo, hhi, hjitter⟩
  · intro rtt now hrtt
    refine ⟨e.smooth rtt now, ?_, ?_⟩
    · rw [lookup_update_self, hlookup]
    · have hstep := smoother_smooth hlt hexact (Nat.le_sub_one_of_lt hrtt) now
      have hvalue : asMicros (e.smooth rtt now).smoothedRtt =
          smoothed 7 (asMicros e.smoothedRtt) (asMicros rtt) := congrArg Smoother.value hstep
      rw [hvalue]
      exact approaches_smoothed _ _
  · intro sample hsample
    refine ⟨Nat.dist (asMicros e.smoothedRtt) sample, ?_⟩
    intro more hconst hmany
    have hsmall' : ∀ s ∈ samplesOf src dst (us ++ more), s < exactMicros := by
      intro s hs
      rw [samplesOf_append] at hs
      rcases List.mem_append.mp hs with hs | hs
      · exact hsmall s hs
      · rw [hconst s hs]
        exact hsample
    have hrun' := updates_eq_run hsmall'
    rw [samplesOf_append, Smoother.run_append hrun.symm, Option.map_eq_some_iff] at hrun'
    obtain ⟨e', hlookup', hsmoother⟩ := hrun'
    refine ⟨e', hlookup', ?_⟩
    have hdist := Smoother.dist_foldl_const (w := 7) hconst e.smoother
    rw [← hsmoother] at hdist
    change Nat.dist (asMicros e'.smoothedRtt) sample ≤
      max 7 (Nat.dist (asMicros e.smoothedRtt) sample - _) at hdist
    omega

/-- Two samples of one pair, and one of another pair that is longer than the bound. -/
def threeUpdates : List RttUpdate :=
  [⟨"a", "b", 100000000, 0⟩, ⟨"b", "a", 2 ^ 62 * 1000, 1⟩, ⟨"a", "b", 200000000, 2⟩]

theorem smoothing_exact_threeUpdates :
    ∃ e, (LatencyMatrix.new.updates threeUpdates).entries.lookup ("a", "b") = some e ∧
      (∀ lo hi, (∀ s ∈ samplesOf "a" "b" threeUpdates, lo ≤ s ∧ s ≤ hi) →
        lo ≤ asMicros e.smoothedRtt ∧ asMicros e.smoothedRtt ≤ hi ∧ asMicros e.jitter ≤ hi - lo) ∧
      (∀ rtt now, asMicros rtt < 2 ^ 50 →
        ∃ e', ((LatencyMatrix.new.updates threeUpdates).update "a" "b" rtt now).entries.lookup
            ("a", "b") = some e' ∧
          Approaches (asMicros e.smoothedRtt) (asMicros rtt) (asMicros e'.smoothedRtt)) ∧
      ∀ sample, sample < 2 ^ 50 → ∃ n, ∀ more,
        (∀ s ∈ samplesOf "a" "b" more, s = sample) → n ≤ (samplesOf "a" "b" more).length →
        ∃ e', (LatencyMatrix.new.updates (threeUpdates ++ more)).entries.lookup ("a", "b") =
            some e' ∧
          Nat.dist (asMicros e'.smoothedRtt) sample ≤ 7 := by
  have hsamples : samplesOf "a" "b" threeUpdates = [100000, 200000] := by decide
  apply smoothing_exact
  · rw [hsamples]
    decide
  · rw [hsamples]
    decide

end EntrouterLine.Mesh
