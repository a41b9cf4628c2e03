import EntrouterLine.Relay.LossTracker

/-!
# The adaptive FEC configuration

`for_loss_rate` chooses the shard counts by comparing a measured loss rate with four thresholds. All
of these are `f64`, and so is the rate: the quotient of two integers, rounded. For every window that
can be held in memory the comparisons come out as those of the exact fractions
(`forLossRate_f64Quotient`), so the choice depends on the number of losses in the window only, by
thresholds that are exact.
-/

set_option autoImplicit false

namespace EntrouterLine.Relay

open EntrouterLine.Lib

/-- The `f64` of a decimal literal, given as a fraction. -/
def f64Literal (num den : Nat) : ℚ := roundBits 53 (num / den)

/-- `FecConfig::for_loss_rate`. -/
def FecConfig.forLossRate (loss : ℚ) : FecConfig :=
  if loss < f64Literal 5 1000 then ⟨20, 1⟩
  else if loss < f64Literal 1 100 then ⟨10, 2⟩
  else if loss < f64Literal 3 100 then ⟨10, 4⟩
  else if loss < f64Literal 5 100 then ⟨8, 4⟩
  else ⟨6, 4⟩

/-- `FecConfig::overhead`, for a configuration with data shards. -/
def FecConfig.overhead (config : FecConfig) : ℚ :=
  f64Quotient config.parityShards config.dataShards

/-- `LossTracker::recommended_config`, for a window that is not empty. -/
def LossTracker.recommendedConfig (t : LossTracker) : FecConfig :=
  FecConfig.forLossRate t.lossRate

/-! ## Exact thresholds -/

/-- The configuration for `lost` losses in a window. -/
def tier (lost windowSize : Nat) : FecConfig :=
  if 200 * lost < windowSize then ⟨20, 1⟩
  else if 100 * lost < windowSize then ⟨10, 2⟩
  else if 100 * lost < 3 * windowSize then ⟨10, 4⟩
  else if 20 * lost < windowSize then ⟨8, 4⟩
  else ⟨6, 4⟩

/-- Nine losses in a window of a thousand are less than one percent, ten are not. -/
example : tier 9 1000 = ⟨10, 2⟩ ∧ tier 10 1000 = ⟨10, 4⟩ := by decide

/-- A measured rate is below a threshold of a few hundredths exactly if the fraction is. -/
theorem lossRate_lt_iff {lost windowSize num den : Nat} (hsize : 1 ≤ windowSize)
    (hbits : windowSize ≤ 2 ^ 49) (hlost : lost ≤ windowSize) (hnum : num ≤ 5) (hden : 0 < den) :
    f64Quotient lost windowSize < f64Literal num den ↔ lost * den < num * windowSize := by
  rw [f64Quotient_eq hlost (hbits.trans (by decide)), f64Literal]
  apply roundBits_div_lt_iff (by decide) hsize hden
  calc 2 * (num * windowSize) ≤ 2 * (5 * 2 ^ 49) :=
        Nat.mul_le_mul_left 2 (Nat.mul_le_mul hnum hbits)
    _ ≤ 2 ^ 53 := by decide

theorem forLossRate_f64Quotient {lost windowSize : Nat} (hsize : 1 ≤ windowSize)
    (hbits : windowSize ≤ 2 ^ 49) (hlost : lost ≤ windowSize) :
    FecConfig.forLossRate (f64Quotient lost windowSize) = tier lost windowSize := by
  have hlt : ∀ num den, num ≤ 5 → 0 < den →
      (f64Quotient lost windowSize < f64Literal num den ↔ lost * den < num * windowSize) :=
    fun num den => lossRate_lt_iff hsize hbits hlost
  rw [FecConfig.forLossRate, tier]
  refine if_congr ((hlt 5 1000 (by decide) (by decide)).trans (by omega)) rfl ?_
  refine if_congr ((hlt 1 100 (by decide) (by decide)).trans (by omega)) rfl ?_
  refine if_congr ((hlt 3 100 (by decide) (by decide)).trans (by omega)) rfl ?_
  exact if_congr ((hlt 5 100 (by decide) (by decide)).trans (by omega)) rfl rfl

/-- The losses in the window are at most as many as it has places. -/
theorem count_rtake_le (received : List Bool) (windowSize : Nat) :
    (received.rtake windowSize).count false ≤ windowSize := by
  refine List.count_le_length.trans ?_
  rw [List.rtake, List.length_drop]
  omega

/-- The loss rate after any calls is the quotient of the losses in the window and its size. -/
theorem lossRate_records {windowSize : Nat} (hsize : 1 ≤ windowSize) (received : List Bool) :
    (LossTracker.ofRing ((fullRing windowSize hsize).pushAll received)).lossRate =
      f64Quotient ((received.rtake windowSize).count false) windowSize := by
  have hlength : ((fullRing windowSize hsize).pushAll received).buf.length = windowSize :=
    (RingBuffer.length_pushAll _ received).trans List.length_replicate
  have hcount : ((fullRing windowSize hsize).pushAll received).contents.count false =
      (received.rtake windowSize).count false := by
    rw [RingBuffer.contents_pushAll_of_replicate (contents_fullRing hsize), List.count_append,
      List.count_replicate]
    simp
  rw [LossTracker.lossRate]
  show f64Quotient (((fullRing windowSize hsize).pushAll received).contents.count false)
    ((fullRing windowSize hsize).pushAll received).buf.length = _
  rw [hcount, hlength]

/-! ## What the choice guarantees -/

/-- The configurations, in the order of their loss rates. -/
theorem tier_mem (lost windowSize : Nat) :
    tier lost windowSize ∈ ([⟨20, 1⟩, ⟨10, 2⟩, ⟨10, 4⟩, ⟨8, 4⟩, ⟨6, 4⟩] : List FecConfig) := by
  rw [tier]
  split
  · decide
  split
  · decide
  split
  · decide
  split <;> decide

theorem accepted_tier (lost windowSize : Nat) : (tier lost windowSize).Accepted := by
  have hall : ∀ config ∈ ([⟨20, 1⟩, ⟨10, 2⟩, ⟨10, 4⟩, ⟨8, 4⟩, ⟨6, 4⟩] : List FecConfig),
      1 ≤ config.dataShards ∧ 1 ≤ config.parityShards ∧
        config.dataShards + config.parityShards ≤ 256 := by decide
  exact hall _ (tier_mem lost windowSize)

/-- Blocks that lose the same share of their shards as the window can be reconstructed, up to forty
percent. -/
theorem tier_tolerates_iff {lost windowSize : Nat} :
    lost * (tier lost windowSize).totalShards ≤ (tier lost windowSize).parityShards * windowSize ↔
      5 * lost ≤ 2 * windowSize := by
  rw [tier]
  split
  · show lost * 21 ≤ 1 * windowSize ↔ _
    omega
  split
  · show lost * 12 ≤ 2 * windowSize ↔ _
    omega
  split
  · show lost * 14 ≤ 4 * windowSize ↔ _
    omega
  split
  · show lost * 12 ≤ 4 * windowSize ↔ _
    omega
  · show lost * 10 ≤ 4 * windowSize ↔ _
    omega

/-- Too few shards give nothing. -/
def ReedSolomon.NeedsData (rs : ReedSolomon) (config : FecConfig) : Prop :=
  ∀ held : List (Option Bytes), held.length = config.totalShards →
    held.countP Option.isSome < config.dataShards →
      rs.reconstruct config.dataShards config.parityShards held = none

/-- What is left of an encoded block. -/
structure LeftOf (rs : ReedSolomon) (config : FecConfig) (block : List Bytes)
    (held : List (Option Bytes)) : Prop where
  encoded : ∃ shards n, IsBlock config.dataShards config.parityShards shards n ∧
    rs.encode config.dataShards config.parityShards shards = some block
  length : held.length = config.totalShards
  agrees : AgreesWith held block

theorem countP_isNone_add_isSome (held : List (Option Bytes)) :
    held.countP Option.isNone + held.countP Option.isSome = held.length := by
  have hcount := held.length_eq_countP_add_countP Option.isSome
  have hnone : (fun o : Option Bytes => decide ¬ o.isSome = true) = Option.isNone := by
    funext o
    cases o <;> rfl
  rw [hnone] at hcount
  omega

/-- A block of which no greater share is lost than of the window is reconstructed, up to two
fifths. -/
theorem reconstruct_tier {rs : ReedSolomon} {lost windowSize : Nat} (hsize : 1 ≤ windowSize)
    (hrecovers : rs.Recovers (tier lost windowSize).dataShards (tier lost windowSize).parityShards)
    (hshare : 5 * lost ≤ 2 * windowSize) {block : List Bytes} {held : List (Option Bytes)}
    (hleft : LeftOf rs (tier lost windowSize) block held)
    (hlost : held.countP Option.isNone * windowSize ≤ lost * (tier lost windowSize).totalShards) :
    FecEncoder.reconstruct rs ⟨tier lost windowSize⟩ held = .ok (block.map some) := by
  obtain ⟨shards, n, hblock, hencode⟩ := hleft.encoded
  -- no more shards are lost than there are parity shards
  have hparity := Nat.le_of_mul_le_mul_right (hlost.trans (tier_tolerates_iff.mpr hshare)) hsize
  have hcount := countP_isNone_add_isSome held
  rw [hleft.length, FecConfig.totalShards] at hcount
  have henough : (tier lost windowSize).dataShards ≤ held.countP Option.isSome := by omega
  rw [FecEncoder.reconstruct,
    hrecovers.reconstruct_ok hblock hencode hleft.length hleft.agrees henough]

/-- Beyond two fifths a block that loses the share of the window is lost. -/
theorem tooManyLost_tier {rs : ReedSolomon} {lost windowSize : Nat}
    (hneeds : rs.NeedsData (tier lost windowSize)) (hshare : 2 * windowSize < 5 * lost)
    {held : List (Option Bytes)} (hlength : held.length = (tier lost windowSize).totalShards)
    (hlost : lost * (tier lost windowSize).totalShards ≤ held.countP Option.isNone * windowSize) :
    FecEncoder.reconstruct rs ⟨tier lost windowSize⟩ held = .error .tooManyLost := by
  have hmany : (tier lost windowSize).parityShards < held.countP Option.isNone := by
    by_contra hle
    have htolerates := hlost.trans (Nat.mul_le_mul_right windowSize (Nat.le_of_not_lt hle))
    have hle' := tier_tolerates_iff.mp htolerates
    omega
  have hcount := countP_isNone_add_isSome held
  rw [hlength, FecConfig.totalShards] at hcount
  have hfew : held.countP Option.isSome < (tier lost windowSize).dataShards := by omega
  rw [FecEncoder.reconstruct, hneeds held hlength hfew]

/-- A greater quotient of shard counts makes no smaller overhead. -/
theorem overhead_mono {config config' : FecConfig} (hdata : 0 < config.dataShards)
    (hdata' : 0 < config'.dataShards) (hparity : config.parityShards ≤ config.dataShards)
    (hparity' : config'.parityShards ≤ config'.dataShards) (hbits : config.dataShards ≤ 2 ^ 53)
    (hbits' : config'.dataShards ≤ 2 ^ 53)
    (h : config.parityShards * config'.dataShards ≤ config'.parityShards * config.dataShards) :
    config.overhead ≤ config'.overhead := by
  rw [FecConfig.overhead, FecConfig.overhead, f64Quotient_eq hparity hbits,
    f64Quotient_eq hparity' hbits']
  apply roundBits_mono (by decide) (by positivity)
  rw [div_le_div_iff₀ (Nat.cast_pos.mpr hdata) (Nat.cast_pos.mpr hdata')]
  exact_mod_cast h

/-- More losses in the window make no smaller overhead. -/
theorem overhead_tier_mono {lost lost' windowSize : Nat} (h : lost ≤ lost') :
    (tier lost windowSize).overhead ≤ (tier lost' windowSize).overhead := by
  have hcounts : ∀ config ∈ ([⟨20, 1⟩, ⟨10, 2⟩, ⟨10, 4⟩, ⟨8, 4⟩, ⟨6, 4⟩] : List FecConfig),
      0 < config.dataShards ∧ config.parityShards ≤ config.dataShards ∧
        config.dataShards ≤ 20 := by decide
  obtain ⟨hdata, hparity, hsmall⟩ := hcounts _ (tier_mem lost windowSize)
  obtain ⟨hdata', hparity', hsmall'⟩ := hcounts _ (tier_mem lost' windowSize)
  apply overhead_mono hdata hdata' hparity hparity' (hsmall.trans (by decide))
    (hsmall'.trans (by decide))
  -- the thresholds that the fewer losses reach, the more losses reach
  rw [tier, tier]
  split_ifs <;> first | decide | omega

/-- For every window and every history of calls of `record`: `recommended_config` is decided by the
number of losses among the last datagrams of the window, by exact thresholds at 1/200, 1/100, 3/100
and 1/20 of its size, and `FecEncoder::new` accepts it. If the measured share is at most two fifths,
a block that loses no greater share of its shards is reconstructed, and otherwise a block that loses
as great a share is not, for a code that gives all shards from as many as there are data shards, and
none from fewer. After a history with more losses the overhead is no smaller. -/
theorem recommendedConfig_exact {rs : ReedSolomon} (haccepts : rs.AcceptsSpec) {windowSize : Nat}
    (hsize : 1 ≤ windowSize) (hbits : windowSize ≤ 2 ^ 49) (received : List Bool) :
    ∃ t, (LossTracker.new windowSize).records received = .ok t ∧
      t.recommendedConfig = tier ((received.rtake windowSize).count false) windowSize ∧
      FecEncoder.new rs t.recommendedConfig = .ok ⟨t.recommendedConfig⟩ ∧
      ((received.rtake windowSize).count false * t.recommendedConfig.totalShards ≤
          t.recommendedConfig.parityShards * windowSize ↔
        5 * (received.rtake windowSize).count false ≤ 2 * windowSize) ∧
      (rs.Recovers t.recommendedConfig.dataShards t.recommendedConfig.parityShards →
        5 * (received.rtake windowSize).count false ≤ 2 * windowSize →
        ∀ block held, LeftOf rs t.recommendedConfig block held →
          held.countP Option.isNone * windowSize ≤
            (received.rtake windowSize).count false * t.recommendedConfig.totalShards →
          FecEncoder.reconstruct rs ⟨t.recommendedConfig⟩ held = .ok (block.map some)) ∧
      (rs.NeedsData t.recommendedConfig →
        2 * windowSize < 5 * (received.rtake windowSize).count false →
        ∀ held : List (Option Bytes), held.length = t.recommendedConfig.totalShards →
          (received.rtake windowSize).count false * t.recommendedConfig.totalShards ≤
            held.countP Option.isNone * windowSize →
          FecEncoder.reconstruct rs ⟨t.recommendedConfig⟩ held = .error .tooManyLost) ∧
      ∀ received', (received.rtake windowSize).count false ≤
          (received'.rtake windowSize).count false →
        ∃ t', (LossTracker.new windowSize).records received' = .ok t' ∧
          t.recommendedConfig.overhead ≤ t'.recommendedConfig.overhead := by
  have hrecommended : ∀ received : List Bool,
      ∃ t, (LossTracker.new windowSize).records received = .ok t ∧
        t.recommendedConfig = tier ((received.rtake windowSize).count false) windowSize := by
    intro received
    refine ⟨LossTracker.ofRing ((fullRing windowSize hsize).pushAll received), ?_, ?_⟩
    · rw [new_eq_ofRing hsize, records_ofRing]
    · rw [LossTracker.recommendedConfig, lossRate_records hsize]
      exact forLossRate_f64Quotient hsize hbits (count_rtake_le received windowSize)
  obtain ⟨t, hrun, heq⟩ := hrecommended received
  refine ⟨t, hrun, heq, ?_⟩
  rw [heq]
  refine ⟨fecEncoder_new_of_accepted haccepts (accepted_tier _ _), tier_tolerates_iff, ?_, ?_, ?_⟩
  · intro hrecovers hshare block held hleft hlost
    exact reconstruct_tier hsize hrecovers hshare hleft hlost
  · intro hneeds hshare held hlength hlost
    exact tooManyLost_tier hneeds hshare hlength hlost
  · intro received' hmore
    obtain ⟨t', hrun', heq'⟩ := hrecommended received'
    refine ⟨t', hrun', ?_⟩
    rw [heq']
    exact overhead_tier_mono hmore

/-- Two losses in a window of four: half of the shards is too much for 6+4. -/
theorem recommendedConfig_exact_four :
    ∃ t, (LossTracker.new 4).records [false, true, true, false, false] = .ok t ∧
      t.recommendedConfig = ⟨6, 4⟩ ∧
      FecEncoder.reconstruct smallCodec ⟨t.recommendedConfig⟩ (List.replicate 10 none) =
        .error .tooManyLost ∧
      ∃ t', (LossTracker.new 4).records [false, false, false, false] = .ok t' ∧
        t.recommendedConfig.overhead ≤ t'.recommendedConfig.overhead := by
  obtain ⟨t, hrun, heq, -, -, -, hfails, hmore⟩ := recommendedConfig_exact smallCodec_acceptsSpec
    (by decide : 1 ≤ 4) (by decide) [false, true, true, false, false]
  have hsix : t.recommendedConfig = ⟨6, 4⟩ := heq.trans (by decide)
  refine ⟨t, hrun, hsix, ?_, hmore _ (by decide)⟩
  refine hfails ?_ (by decide) _ (by rw [hsix]; decide) (by rw [hsix]; decide)
  rw [hsix]
  intro held _ _
  rfl

end EntrouterLine.Relay
