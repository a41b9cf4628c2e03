import Mathlib.Data.List.AList
import EntrouterLine.Relay.Tunnel

/-!
# The latency matrix

`LatencyMatrix` holds one entry for every ordered pair of nodes that has been measured. A new sample
is smoothed into the entry in `f64` arithmetic on microseconds. All values that occur there are
multiples of 1/8 with at most 53 significant bits, so the arithmetic is that of natural numbers with
a rounding after every operation (`roundF64`).
-/

set_option autoImplicit false

namespace EntrouterLine.Mesh

open EntrouterLine.Relay

/-- A span of time in nanoseconds, less than `2 ^ 64` seconds. -/
abbrev Duration := Fin (2 ^ 64 * 1000000000)

instance neZeroDuration : NeZero (2 ^ 64 * 1000000000) := ⟨by decide⟩

/-- A reading of the monotonic clock, as the time since a fixed moment. -/
abbrev Instant := Duration

/-- `Duration::as_micros`. -/
def asMicros (d : Duration) : Nat := d.val / 1000

/-- `Duration::from_micros`, for a number of 64 bits. -/
def fromMicros (us : Nat) : Duration := Fin.ofNat _ (us * 1000)

/-- `Instant::elapsed`, which is zero for a moment that is yet to come. -/
def elapsed (now t : Instant) : Duration :=
  ⟨now.val - t.val, Nat.lt_of_le_of_lt (Nat.sub_le _ _) now.isLt⟩

/-- `u64::MAX`. -/
def u64Max : Nat := 2 ^ 64 - 1

/-- The `f64` nearest to a natural number: 53 significant bits, ties to even. -/
def roundF64 (n : Nat) : Nat :=
  let ulp := 2 ^ (n.log2 + 1 - 53)
  let q := n / ulp
  let r := n % ulp
  if 2 * r < ulp ∨ 2 * r = ulp ∧ q % 2 = 0 then q * ulp else (q + 1) * ulp

/-- `old * (1.0 - alpha) + new * alpha` with `alpha = 0.125`, cast to `u64`. Both products are
counted in eighths. -/
def ewma (old new : Nat) : Nat :=
  min (roundF64 (roundF64 (7 * old) + new) / 8) u64Max

structure LatencyEntry where
  smoothedRtt : Duration
  jitter : Duration
  lastUpdated : Instant
  samples : Nat
  deriving DecidableEq

/-- The entries by ordered pairs of nodes. -/
structure LatencyMatrix where
  entries : AList fun _ : NodeId × NodeId => LatencyEntry

def LatencyMatrix.new : LatencyMatrix := ⟨∅⟩

/-- What `update` makes of an existing entry. -/
def LatencyEntry.smooth (e : LatencyEntry) (rtt : Duration) (now : Instant) : LatencyEntry :=
  let rttUs := roundF64 (asMicros rtt)
  let oldUs := roundF64 (asMicros e.smoothedRtt)
  let diff := roundF64 (rttUs - oldUs + (oldUs - rttUs))
  let oldJitter := roundF64 (asMicros e.jitter)
  { smoothedRtt := fromMicros (ewma oldUs rttUs)
    jitter := fromMicros (ewma oldJitter diff)
    lastUpdated := now
    samples := e.samples + 1 }

/-- `LatencyMatrix::update`. -/
def LatencyMatrix.update (m : LatencyMatrix) (src dst : NodeId) (rtt : Duration) (now : Instant) :
    LatencyMatrix :=
  match m.entries.lookup (src, dst) with
  | some e => ⟨m.entries.insert (src, dst) (e.smooth rtt now)⟩
  | none => ⟨m.entries.insert (src, dst) ⟨rtt, 0, now, 1⟩⟩

/-- `LatencyMatrix::get_rtt`. -/
def LatencyMatrix.getRtt (m : LatencyMatrix) (src dst : NodeId) : Option Duration :=
  (m.entries.lookup (src, dst)).map LatencyEntry.smoothedRtt

/-- `LatencyMatrix::all_edges`, in one order of the entries. -/
def LatencyMatrix.allEdges (m : LatencyMatrix) : List (NodeId × NodeId × Duration) :=
  m.entries.entries.map fun e => (e.1.1, e.1.2, e.2.smoothedRtt)

/-- `LatencyMatrix::nodes`, in one order of the set. -/
def LatencyMatrix.nodes (m : LatencyMatrix) : List NodeId :=
  (m.entries.entries.flatMap fun e => [e.1.1, e.1.2]).dedup

/-- The first sample is taken as it is, the second one counts one eighth: 112.5 ms after 100 ms and
200 ms. -/
example :
    ((LatencyMatrix.new.update "a" "b" 100000000 0).update "a" "b" 200000000 1).getRtt "a" "b" =
    some 112500000 := by decide

/-! ## Edges -/

theorem val_fromMicros {us : Nat} (h : us < 2 ^ 64) : (fromMicros us).val = us * 1000 := by
  show us * 1000 % (2 ^ 64 * 1000000000) = us * 1000
  omega

theorem asMicros_fromMicros {us : Nat} (h : us < 2 ^ 64) : asMicros (fromMicros us) = us := by
  rw [asMicros, val_fromMicros h]
  omega

theorem mem_allEdges {m : LatencyMatrix} {src dst : NodeId} {rtt : Duration} :
    (src, dst, rtt) ∈ m.allEdges ↔ m.getRtt src dst = some rtt := by
  rw [LatencyMatrix.allEdges, LatencyMatrix.getRtt, List.mem_map, Option.map_eq_some_iff]
  constructor
  · rintro ⟨⟨⟨a, b⟩, e⟩, hmem, heq⟩
    rw [Prod.mk.injEq, Prod.mk.injEq] at heq
    obtain ⟨rfl, rfl, rfl⟩ := heq
    exact ⟨e, AList.mem_lookup_iff.mpr hmem, rfl⟩
  · rintro ⟨e, hlookup, rfl⟩
    exact ⟨⟨(src, dst), e⟩, AList.mem_lookup_iff.mp hlookup, rfl⟩

/-- There is one edge for every ordered pair of nodes at most. -/
theorem nodup_allEdges (m : LatencyMatrix) : (m.allEdges.map fun e => (e.1, e.2.1)).Nodup := by
  have hkeys : (m.allEdges.map fun e => (e.1, e.2.1)) = m.entries.keys := by
    rw [LatencyMatrix.allEdges, List.map_map]
    rfl
  rw [hkeys]
  exact m.entries.keys_nodup

theorem mem_nodes {m : LatencyMatrix} {v : NodeId} :
    v ∈ m.nodes ↔ ∃ u, (m.getRtt v u).isSome ∨ (m.getRtt u v).isSome := by
  have hkey : ∀ a b, (m.getRtt a b).isSome ↔ (a, b) ∈ m.entries.keys := by
    intro a b
    rw [LatencyMatrix.getRtt, Option.isSome_map, AList.lookup_isSome, AList.mem_keys]
  simp only [hkey, AList.keys, List.keys, List.mem_map]
  rw [LatencyMatrix.nodes, List.mem_dedup, List.mem_flatMap]
  constructor
  · rintro ⟨⟨⟨a, b⟩, e⟩, hmem, hv⟩
    rcases List.mem_cons.mp hv with rfl | hv
    · exact ⟨b, Or.inl ⟨_, hmem, rfl⟩⟩
    · rw [List.mem_singleton.mp hv]
      exact ⟨a, Or.inr ⟨_, hmem, rfl⟩⟩
  · rintro ⟨u, ⟨e, hmem, heq⟩ | ⟨e, hmem, heq⟩⟩
    · exact ⟨e, hmem, by simp [heq]⟩
    · exact ⟨e, hmem, by simp [heq]⟩

/-! ## Updates -/

/-- An update changes the entry of its own pair only. -/
theorem lookup_update_of_ne {m : LatencyMatrix} {src dst a b : NodeId} (rtt : Duration)
    (now : Instant) (h : (a, b) ≠ (src, dst)) :
    (m.update src dst rtt now).entries.lookup (a, b) = m.entries.lookup (a, b) := by
  rw [LatencyMatrix.update]
  split
  · exact AList.lookup_insert_ne h
  · exact AList.lookup_insert_ne h

/-- The entry of an updated pair: the first sample, or the smoothed one. -/
theorem lookup_update_self (m : LatencyMatrix) (src dst : NodeId) (rtt : Duration) (now : Instant) :
    (m.update src dst rtt now).entries.lookup (src, dst) =
      match m.entries.lookup (src, dst) with
      | some e => some (e.smooth rtt now)
      | none => some ⟨rtt, 0, now, 1⟩ := by
  rw [LatencyMatrix.update]
  cases hlookup : m.entries.lookup (src, dst) with
  | none => exact AList.lookup_insert _
  | some e => exact AList.lookup_insert _

/-- The pairs that have an entry after an update. -/
theorem isSome_getRtt_update (m : LatencyMatrix) (src dst a b : NodeId) (rtt : Duration)
    (now : Instant) : ((m.update src dst rtt now).getRtt a b).isSome ↔
      (a, b) = (src, dst) ∨ (m.getRtt a b).isSome := by
  rw [LatencyMatrix.getRtt, LatencyMatrix.getRtt, Option.isSome_map, Option.isSome_map]
  by_cases hkey : (a, b) = (src, dst)
  · rw [hkey, lookup_update_self]
    split <;> simp
  · rw [lookup_update_of_ne rtt now hkey]
    simp [hkey]

end EntrouterLine.Mesh
