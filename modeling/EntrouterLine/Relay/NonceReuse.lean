import EntrouterLine.Relay.TunnelNet

/-!
# Nonces of the two directions of a pair

Two nodes that are each other's peer share one key, and each of the two tunnels between them counts
its own calls from zero. `makeNonce` puts nothing but the counter into the nonce, so each direction
by itself never repeats a nonce (`dirNonces_nodup`), while the two directions together repeat one as
soon as both have sent a packet. `pairNonces_nodup_iff` is the exact account: the nonces of the pair
are distinct precisely when at most one of the two sides ever sends.
-/

set_option autoImplicit false

namespace EntrouterLine.Relay

open EntrouterLine.Lib

/-- The pair of key and nonce that a call hands to the cipher. -/
def SendCall.keyNonce (c : SendCall) : Key × Nonce := (c.crypto.key, makeNonce c.seq)

/-- The key and nonce pairs used so far between `a` and `b`, both directions together. -/
def pairNonces (a b : NodeId) (s : Net) : List (Key × Nonce) :=
  (dirCalls a b s.calls ++ dirCalls b a s.calls).map SendCall.keyNonce

/-- Counters below `2 ^ 64` give different sequence numbers. -/
theorem nodup_map_ofNat_range {n : Nat} (hn : n ≤ 2 ^ 64) :
    ((List.range n).map UInt64.ofNat).Nodup := by
  refine List.Nodup.map_on ?_ List.nodup_range
  intro i hi j hj hij
  -- below `2 ^ 64` the cast loses nothing
  have hi' : i < 2 ^ 64 := Nat.lt_of_lt_of_le (List.mem_range.mp hi) hn
  have hj' : j < 2 ^ 64 := Nat.lt_of_lt_of_le (List.mem_range.mp hj) hn
  have heq := congrArg UInt64.toNat hij
  rwa [UInt64.toNat_ofNat', UInt64.toNat_ofNat', Nat.mod_eq_of_lt hi', Nat.mod_eq_of_lt hj'] at heq

/-- Distinct sequence numbers make distinct nonces. -/
theorem nodup_keyNonce_of_nodup_seq {cs : List SendCall} (h : (cs.map SendCall.seq).Nodup) :
    (cs.map SendCall.keyNonce).Nodup := by
  rw [List.Nodup, List.pairwise_map] at h ⊢
  apply h.imp
  intro c c' hseq hpair
  exact hseq (makeNonce_inj (congrArg Prod.snd hpair))

/-- One direction never repeats a nonce. -/
theorem dirNonces_nodup {a b : NodeId} {tunnel : Tunnel} {n : Nat} {s : Net}
    (hinv : SeqInv a b tunnel n s) (hn : n ≤ 2 ^ 64) :
    ((dirCalls a b s.calls).map SendCall.keyNonce).Nodup := by
  apply nodup_keyNonce_of_nodup_seq
  have hall := hinv.seqs.nodup_iff.mpr (nodup_map_ofNat_range hn)
  rw [dirCalls_append, List.map_append] at hall
  exact hall.of_append_left

/-- When no call is pending, a direction that has sent at all has sealed a packet under nonce
zero. -/
theorem exists_call_seq_zero {a b : NodeId} {tunnel : Tunnel} {n : Nat} {s : Net}
    (hinv : SeqInv a b tunnel n s) (hn : n ≠ 0) (hpending : dirCalls a b s.fetched = []) :
    ∃ c ∈ dirCalls a b s.calls, c.seq = 0 ∧ c.crypto = tunnel.crypto := by
  have hcalls : dirCalls a b (s.calls ++ s.fetched) = dirCalls a b s.calls := by
    rw [dirCalls_append, hpending, List.append_nil]
  -- the first call of a direction takes the number zero
  have hmem : (0 : UInt64) ∈ (List.range n).map UInt64.ofNat :=
    List.mem_map.mpr ⟨0, List.mem_range.mpr (Nat.pos_of_ne_zero hn), rfl⟩
  rw [← hinv.seqs.mem_iff, hcalls, List.mem_map] at hmem
  obtain ⟨c, hc, hseq⟩ := hmem
  refine ⟨c, hc, hseq, hinv.crypto c ?_⟩
  rw [hcalls]
  exact hc

/-- A side that never sends has used no nonce. -/
theorem dirCalls_eq_nil {a b : NodeId} {tunnel : Tunnel} {s : Net}
    (hinv : SeqInv a b tunnel 0 s) : dirCalls a b s.calls = [] := by
  have hlen := hinv.seqs.length_eq
  rw [dirCalls_append, List.length_map, List.length_append] at hlen
  simp only [List.range_zero, List.map_nil, List.length_nil] at hlen
  exact List.eq_nil_of_length_eq_zero (by omega)

/-- For two nodes that are each other's peer under one key, and every run with fewer than
`2 ^ 64` calls on either side: as long as at most one side sends, no key and nonce pair is used
twice in any state; and once the calls of both sides have been encrypted, no pair has been used
twice only if at most one side sent. -/
theorem pairNonces_nodup_iff {aead : Aead} {cfg : NetConfig} {a b : NodeId}
    {addrA addrB : SocketAddr} {key : Key} (hA : tunnelTo cfg a b = some (Tunnel.new addrB key))
    (hB : tunnelTo cfg b a = some (Tunnel.new addrA key)) {es : List NetEvent} {s : Net}
    {os : List (Option Passed)} (hrun : NetRun aead cfg es s os) (hfewA : sends a b es < 2 ^ 64)
    (hfewB : sends b a es < 2 ^ 64) :
    (sends a b es = 0 ∨ sends b a es = 0 → (pairNonces a b s).Nodup) ∧
      (dirCalls a b s.fetched = [] ∧ dirCalls b a s.fetched = [] →
        ((pairNonces a b s).Nodup ↔ sends a b es = 0 ∨ sends b a es = 0)) := by
  have hinvA := seqInv_run hA hrun
  have hinvB := seqInv_run hB hrun
  have honeSide : sends a b es = 0 ∨ sends b a es = 0 → (pairNonces a b s).Nodup := by
    rintro (hzero | hzero)
    · rw [hzero] at hinvA
      rw [pairNonces, dirCalls_eq_nil hinvA, List.nil_append]
      exact dirNonces_nodup hinvB (Nat.le_of_lt hfewB)
    · rw [hzero] at hinvB
      rw [pairNonces, dirCalls_eq_nil hinvB, List.append_nil]
      exact dirNonces_nodup hinvA (Nat.le_of_lt hfewA)
  refine ⟨honeSide, ?_⟩
  rintro ⟨hpendA, hpendB⟩
  refine ⟨?_, honeSide⟩
  intro hnodup
  by_contra hboth
  rw [not_or] at hboth
  -- both sides have sealed a packet under nonce zero and the shared key
  obtain ⟨c, hc, hseq, hkey⟩ := exists_call_seq_zero hinvA hboth.1 hpendA
  obtain ⟨c', hc', hseq', hkey'⟩ := exists_call_seq_zero hinvB hboth.2 hpendB
  have hsame : c.keyNonce = c'.keyNonce := by
    rw [SendCall.keyNonce, SendCall.keyNonce, hseq, hseq', hkey, hkey']
    rfl
  rw [pairNonces, List.map_append] at hnodup
  exact (List.nodup_append.mp hnodup).2.2 _ (List.mem_map_of_mem hc) _ (List.mem_map_of_mem hc')
    hsame

/-! ## A pair of nodes -/

/-- The all-zero key. -/
def zeroKey : Key := ⟨List.replicate keySize 0, by decide⟩

def sydAddr : SocketAddr := ⟨0xC0000201, 4433⟩
def sgpAddr : SocketAddr := ⟨0xC6336401, 4433⟩

/-- Two nodes configured as each other's peer under one key. -/
def pairCfg : NetConfig := fun node =>
  if node = "syd-01" then [⟨"sgp-01", sgpAddr, zeroKey⟩]
  else if node = "sgp-01" then [⟨"syd-01", sydAddr, zeroKey⟩]
  else []

theorem tunnelTo_pairCfg_syd :
    tunnelTo pairCfg "syd-01" "sgp-01" = some (Tunnel.new sgpAddr zeroKey) := by
  decide

theorem tunnelTo_pairCfg_sgp :
    tunnelTo pairCfg "sgp-01" "syd-01" = some (Tunnel.new sydAddr zeroKey) := by
  decide

/-- The two probe loops each send their first ping. -/
def bothPing : List NetEvent :=
  [.fetch "syd-01" "sgp-01" packetPing [1, 0, 0, 0], .encrypt 0,
    .fetch "sgp-01" "syd-01" packetPing [1, 0, 0, 0], .encrypt 0]

/-- One ping from each side uses one key and nonce pair twice. -/
theorem bothPing_reuses_nonce :
    tunnelTo pairCfg "syd-01" "sgp-01" = some (Tunnel.new sgpAddr zeroKey) ∧
      tunnelTo pairCfg "sgp-01" "syd-01" = some (Tunnel.new sydAddr zeroKey) ∧
      sends "syd-01" "sgp-01" bothPing = 1 ∧ sends "sgp-01" "syd-01" bothPing = 1 ∧
      ∃ s os, NetRun tagAead pairCfg bothPing s os ∧
        ¬ (pairNonces "syd-01" "sgp-01" s).Nodup := by
  refine ⟨tunnelTo_pairCfg_syd, tunnelTo_pairCfg_sgp, by decide, by decide, _, _, rfl, ?_⟩
  decide

/-- The first ping of one side alone. -/
def sydPing : List NetEvent :=
  [.fetch "syd-01" "sgp-01" packetPing [1, 0, 0, 0], .encrypt 0]

theorem pairNonces_nodup_iff_sydPing :
    ∃ s os, NetRun tagAead pairCfg sydPing s os ∧
      ((pairNonces "syd-01" "sgp-01" s).Nodup ↔
        sends "syd-01" "sgp-01" sydPing = 0 ∨ sends "sgp-01" "syd-01" sydPing = 0) := by
  have hrun : NetRun tagAead pairCfg sydPing _ _ := rfl
  exact ⟨_, _, hrun, (pairNonces_nodup_iff tunnelTo_pairCfg_syd tunnelTo_pairCfg_sgp hrun
    (by decide) (by decide)).2 ⟨by decide, by decide⟩⟩

end EntrouterLine.Relay
