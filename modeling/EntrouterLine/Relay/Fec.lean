import EntrouterLine.Relay.Wire

/-!
# Forward error correction

`FecEncoder` wraps a Reed-Solomon code, which is a parameter here (`ReedSolomon`): whether it
accepts a pair of shard counts, and its encoding and reconstruction for each pair. `AcceptsSpec` and
`Recovers` are what the program relies on. `smallCodec` is a concrete code that meets both at the
shard counts it knows (`smallCodec_recovers_one`, `smallCodec_recovers_two`).
-/

set_option autoImplicit false

namespace EntrouterLine.Relay

/-- The panics of the FEC layer: the two `expect`s, and a slice index past the end. -/
inductive Panic where
  | invalidFecConfig
  | fecEncodeFailed
  | indexOutOfBounds
  deriving DecidableEq

structure FecConfig where
  dataShards : Nat
  parityShards : Nat
  deriving DecidableEq

def FecConfig.totalShards (config : FecConfig) : Nat :=
  config.dataShards + config.parityShards

/-- The `reed-solomon-erasure` crate. Reconstruction works on a slice, whose length it keeps. -/
structure ReedSolomon where
  accepts : Nat → Nat → Bool
  encode : Nat → Nat → List Bytes → Option (List Bytes)
  reconstruct : Nat → Nat → List (Option Bytes) → Option (List (Option Bytes))
  length_reconstruct : ∀ {d p : Nat} {held full : List (Option Bytes)},
    reconstruct d p held = some full → full.length = held.length

/-- `ReedSolomon::new` is an error exactly for no data shard, no parity shard, or more than 256
shards. -/
def ReedSolomon.AcceptsSpec (rs : ReedSolomon) : Prop :=
  ∀ d p, rs.accepts d p = true ↔ 1 ≤ d ∧ 1 ≤ p ∧ d + p ≤ 256

/-- A block of `d + p` shards of one positive length. -/
structure IsBlock (d p : Nat) (shards : List Bytes) (n : Nat) : Prop where
  pos : 0 < n
  count : shards.length = d + p
  uniform : ∀ s ∈ shards, s.length = n

/-- The shards present in `held` are those of `block` at the same places. -/
def AgreesWith (held : List (Option Bytes)) (block : List Bytes) : Prop :=
  ∀ (i : Nat) (s : Bytes), held[i]? = some (some s) → block[i]? = some s

/-- What encoding and reconstruction promise for `d` data and `p` parity shards: encoding keeps
the data shards and the shard length, and any `d` shards of the block give all of them. -/
structure ReedSolomon.Recovers (rs : ReedSolomon) (d p : Nat) : Prop where
  encode_ok : ∀ {shards : List Bytes} {n : Nat}, IsBlock d p shards n →
    ∃ block, rs.encode d p shards = some block ∧ IsBlock d p block n ∧
      block.take d = shards.take d
  reconstruct_ok : ∀ {shards block : List Bytes} {n : Nat} {held : List (Option Bytes)},
    IsBlock d p shards n → rs.encode d p shards = some block → held.length = d + p →
      AgreesWith held block → d ≤ held.countP Option.isSome →
        rs.reconstruct d p held = some (block.map some)

/-- Reconstruction works on shards of one length, and the shards that it fills in have that length
too. -/
def ReedSolomon.KeepsLength (rs : ReedSolomon) : Prop :=
  ∀ (d p n : Nat) (held full : List (Option Bytes)), rs.reconstruct d p held = some full →
    (∀ s, some s ∈ held → s.length = n) → ∀ s, some s ∈ full → s.length = n

/-- Encoding succeeds on every block of `d + p` shards of one positive length. -/
def ReedSolomon.EncodesAt (rs : ReedSolomon) (d p : Nat) : Prop :=
  ∀ (shards : List Bytes) (n : Nat), IsBlock d p shards n →
    ∃ block, rs.encode d p shards = some block

inductive FecError where
  | tooManyLost
  deriving DecidableEq

/-- An encoder for a pair of shard counts that the code accepts. -/
structure FecEncoder where
  config : FecConfig

/-- `FecEncoder::new`, with its `expect("invalid FEC config")`. -/
def FecEncoder.new (rs : ReedSolomon) (config : FecConfig) : Except Panic FecEncoder :=
  if rs.accepts config.dataShards config.parityShards then .ok ⟨config⟩
  else .error .invalidFecConfig

/-- `FecEncoder::encode`: appends parity shards, with its `expect("FEC encode failed")`. -/
def FecEncoder.encode (rs : ReedSolomon) (encoder : FecEncoder) (shards : List Bytes) :
    Except Panic (List Bytes) :=
  match shards[0]? with
  | none => .error .indexOutOfBounds
  | some first =>
      let shards := shards ++
        List.replicate (encoder.config.totalShards - shards.length)
          (List.replicate first.length 0)
      match rs.encode encoder.config.dataShards encoder.config.parityShards shards with
      | none => .error .fecEncodeFailed
      | some shards => .ok shards

/-- `FecEncoder::reconstruct`. -/
def FecEncoder.reconstruct (rs : ReedSolomon) (encoder : FecEncoder)
    (shards : List (Option Bytes)) : Except FecError (List (Option Bytes)) :=
  match rs.reconstruct encoder.config.dataShards encoder.config.parityShards shards with
  | none => .error .tooManyLost
  | some shards => .ok shards

/-- The shard counts that `ReedSolomon::new` accepts. -/
def FecConfig.Accepted (config : FecConfig) : Prop :=
  1 ≤ config.dataShards ∧ 1 ≤ config.parityShards ∧ config.totalShards ≤ 256

theorem fecEncoder_new_of_accepted {rs : ReedSolomon} (haccepts : rs.AcceptsSpec)
    {config : FecConfig} (hconfig : config.Accepted) : FecEncoder.new rs config = .ok ⟨config⟩ :=
  if_pos ((haccepts _ _).mpr hconfig)

/-! ## A code that meets the laws -/

/-- Doubling in the field with 256 elements, modulo `x ^ 8 + x ^ 4 + x ^ 3 + x ^ 2 + 1`. -/
def gfDouble (a : UInt8) : UInt8 :=
  (a <<< 1) ^^^ (if a &&& 0x80 = 0 then 0 else 0x1D)

def gfHalve (a : UInt8) : UInt8 :=
  if a &&& 1 = 0 then a >>> 1 else ((a ^^^ 0x1D) >>> 1) ||| 0x80

def gfTriple (a : UInt8) : UInt8 := gfDouble a ^^^ a

/-- The inverse of 3 is `x ^ 7 + x ^ 6 + x ^ 5 + x ^ 4 + x ^ 2`. -/
def gfThird (a : UInt8) : UInt8 :=
  let a2 := gfDouble (gfDouble a)
  let a4 := gfDouble (gfDouble a2)
  let a5 := gfDouble a4
  let a6 := gfDouble a5
  a2 ^^^ a4 ^^^ a5 ^^^ a6 ^^^ gfDouble a6

/-- A property that holds for all 256 byte values holds for every byte. -/
theorem forall_byte {P : UInt8 → Prop} (h : ∀ i : Fin 256, P (UInt8.ofNat i)) (a : UInt8) :
    P a := by
  have ha := h ⟨a.toNat, a.toNat_lt⟩
  rwa [UInt8.ofNat_toNat] at ha

theorem gfHalve_gfDouble (a : UInt8) : gfHalve (gfDouble a) = a := by
  refine forall_byte (P := fun a => gfHalve (gfDouble a) = a) ?_ a
  decide +kernel

theorem gfThird_gfTriple (a : UInt8) : gfThird (gfTriple a) = a := by
  refine forall_byte (P := fun a => gfThird (gfTriple a) = a) ?_ a
  decide +kernel

/-- The parity shard of two data shards. -/
def parityShard (x y : Bytes) : Bytes :=
  List.zipWith (fun a b => gfTriple a ^^^ gfDouble b) x y

/-- The first data shard, from the second one and the parity shard. -/
def firstShard (y z : Bytes) : Bytes :=
  List.zipWith (fun b c => gfThird (gfDouble b ^^^ c)) y z

/-- The second data shard, from the first one and the parity shard. -/
def secondShard (x z : Bytes) : Bytes :=
  List.zipWith (fun a c => gfHalve (gfTriple a ^^^ c)) x z

theorem length_parityShard {x y : Bytes} (h : x.length = y.length) :
    (parityShard x y).length = x.length := by
  rw [parityShard, List.length_zipWith, ← h, Nat.min_self]

theorem firstShard_parityShard {x y : Bytes} (h : x.length = y.length) :
    firstShard y (parityShard x y) = x := by
  induction x generalizing y with
  | nil =>
    cases y with
    | nil => rfl
    | cons b y => simp at h
  | cons a x ih =>
    cases y with
    | nil => simp at h
    | cons b y =>
      have hrest := ih (by simpa using h)
      have hbyte : gfDouble b ^^^ (gfTriple a ^^^ gfDouble b) = gfTriple a := by
        rw [UInt8.xor_comm (gfTriple a), ← UInt8.xor_assoc, UInt8.xor_self, UInt8.zero_xor]
      simp only [firstShard, parityShard, List.zipWith_cons_cons, hbyte, gfThird_gfTriple,
        List.cons.injEq, true_and]
      exact hrest

theorem secondShard_parityShard {x y : Bytes} (h : x.length = y.length) :
    secondShard x (parityShard x y) = y := by
  induction x generalizing y with
  | nil =>
    cases y with
    | nil => rfl
    | cons b y => simp at h
  | cons a x ih =>
    cases y with
    | nil => simp at h
    | cons b y =>
      have hrest := ih (by simpa using h)
      have hbyte : gfTriple a ^^^ (gfTriple a ^^^ gfDouble b) = gfDouble b := by
        rw [← UInt8.xor_assoc, UInt8.xor_self, UInt8.zero_xor]
      simp only [secondShard, parityShard, List.zipWith_cons_cons, hbyte, gfHalve_gfDouble,
        List.cons.injEq, true_and]
      exact hrest

def smallEncode (d p : Nat) (shards : List Bytes) : Option (List Bytes) :=
  match d, p, shards with
  | 1, p, x :: _ => some (x :: List.replicate p x)
  | 2, 1, [x, y, _] => some [x, y, parityShard x y]
  | _, _, _ => none

def smallReconstruct (d p : Nat) (held : List (Option Bytes)) : Option (List (Option Bytes)) :=
  match d, p, held with
  | 1, _, held => (held.find? Option.isSome).map fun x => held.map fun _ => x
  | 2, 1, [some x, some y, some z] => some [some x, some y, some z]
  | 2, 1, [some x, some y, none] => some [some x, some y, some (parityShard x y)]
  | 2, 1, [some x, none, some z] => some [some x, some (secondShard x z), some z]
  | 2, 1, [none, some y, some z] => some [some (firstShard y z), some y, some z]
  | _, _, _ => none

theorem length_smallReconstruct {d p : Nat} {held full : List (Option Bytes)}
    (h : smallReconstruct d p held = some full) : full.length = held.length := by
  unfold smallReconstruct at h
  split at h
  · obtain ⟨x, -, rfl⟩ := Option.map_eq_some_iff.mp h
    exact List.length_map _
  all_goals cases h
  all_goals rfl

/-- The Reed-Solomon code at one data shard, where every parity shard is a copy of it, and at two
data shards with one parity shard. -/
def smallCodec : ReedSolomon where
  accepts d p := decide (1 ≤ d ∧ 1 ≤ p ∧ d + p ≤ 256)
  encode := smallEncode
  reconstruct := smallReconstruct
  length_reconstruct := length_smallReconstruct

theorem smallCodec_acceptsSpec : smallCodec.AcceptsSpec := by
  intro d p
  exact decide_eq_true_iff

theorem smallCodec_keepsLength : smallCodec.KeepsLength := by
  intro d p n held full hrec hheld
  change smallReconstruct d p held = some full at hrec
  unfold smallReconstruct at hrec
  split at hrec
  case h_1 =>
    -- every shard is the one found
    obtain ⟨found, hfound, rfl⟩ := Option.map_eq_some_iff.mp hrec
    intro s hs
    obtain ⟨-, -, rfl⟩ := List.mem_map.mp hs
    exact hheld s (List.mem_of_find?_eq_some hfound)
  case h_6 => cases hrec
  all_goals
    cases hrec
    simp_all [parityShard, firstShard, secondShard]

theorem smallCodec_recovers_one (p : Nat) : smallCodec.Recovers 1 p := by
  constructor
  · rintro shards n ⟨hpos, hcount, huniform⟩
    cases shards with
    | nil =>
      rw [List.length_nil] at hcount
      omega
    | cons x rest =>
      refine ⟨x :: List.replicate p x, rfl, ⟨hpos, ?_, ?_⟩, rfl⟩
      · rw [List.length_cons, List.length_replicate, Nat.add_comm]
      · intro s hs
        have hsx : s = x := by
          rcases List.mem_cons.mp hs with rfl | hmem
          · rfl
          · exact (List.mem_replicate.mp hmem).2
        rw [hsx]
        exact huniform x List.mem_cons_self
  · rintro shards block n held - hencode hlen hagrees hcount
    cases shards with
    | nil => cases hencode
    | cons x rest =>
      cases hencode
      -- every shard of the block is a copy of the data shard
      have hall : ∀ s, some s ∈ held → s = x := by
        intro s hs
        obtain ⟨i, hi⟩ := List.mem_iff_getElem?.mp hs
        rcases List.mem_cons.mp (List.mem_of_getElem? (hagrees i s hi)) with rfl | hmem
        · rfl
        · exact (List.mem_replicate.mp hmem).2
      obtain ⟨o, ho, hsome⟩ := List.countP_pos_iff.mp (Nat.lt_of_lt_of_le Nat.one_pos hcount)
      cases hfind : held.find? Option.isSome with
      | none => exact absurd hsome (List.find?_eq_none.mp hfind o ho)
      | some found =>
        have hfound : found = some x := by
          cases found with
          | none => cases List.find?_some hfind
          | some s => rw [hall s (List.mem_of_find?_eq_some hfind)]
        show (held.find? Option.isSome).map (fun x => held.map fun _ => x) = _
        rw [hfind, Option.map_some, Option.some.injEq, hfound, List.map_const', hlen, List.map_cons,
          List.map_replicate, Nat.add_comm, List.replicate_succ]

theorem smallCodec_recovers_two : smallCodec.Recovers 2 1 := by
  constructor
  · rintro shards n ⟨hpos, hcount, huniform⟩
    match shards, hcount with
    | [x, y, z], _ =>
      have hx : x.length = n := huniform x (by simp)
      have hy : y.length = n := huniform y (by simp)
      refine ⟨[x, y, parityShard x y], rfl, ⟨hpos, rfl, ?_⟩, rfl⟩
      intro s hs
      simp only [List.mem_cons, List.not_mem_nil, or_false] at hs
      rcases hs with rfl | rfl | rfl
      · exact hx
      · exact hy
      · rw [length_parityShard (hx.trans hy.symm), hx]
  · rintro shards block n held ⟨-, hcount, huniform⟩ hencode hlen hagrees hheld
    match shards, hcount with
    | [x, y, z], _ =>
      have hxy : x.length = y.length := by
        rw [huniform x (by simp), huniform y (by simp)]
      cases hencode
      match held, hlen with
      | [a, b, c], _ =>
        have h0 : ∀ s, a = some s → s = x := fun s hs => by
          simpa using (hagrees 0 s (by rw [hs]; rfl)).symm
        have h1 : ∀ s, b = some s → s = y := fun s hs => by
          simpa using (hagrees 1 s (by rw [hs]; rfl)).symm
        have h2 : ∀ s, c = some s → s = parityShard x y := fun s hs => by
          simpa using (hagrees 2 s (by rw [hs]; rfl)).symm
        cases a with
        | none =>
          cases b with
          | none => cases c <;> simp at hheld
          | some b =>
            cases c with
            | none => simp at hheld
            | some c =>
              rw [h1 b rfl, h2 c rfl]
              show some [some (firstShard y (parityShard x y)), _, _] = _
              rw [firstShard_parityShard hxy]
              rfl
        | some a =>
          cases b with
          | none =>
            cases c with
            | none => simp at hheld
            | some c =>
              rw [h0 a rfl, h2 c rfl]
              show some [_, some (secondShard x (parityShard x y)), _] = _
              rw [secondShard_parityShard hxy]
              rfl
          | some b =>
            cases c with
            | none =>
              rw [h0 a rfl, h1 b rfl]
              rfl
            | some c =>
              rw [h0 a rfl, h1 b rfl, h2 c rfl]
              rfl

end EntrouterLine.Relay
