import EntrouterLine.Mesh.Reachability

/-!
# What a latency matrix reports

A round-trip time is recorded for both directions of a pair, so a node's matrix has the same one for
both (`Prober.Alike`), and entries are never removed (`getRtt_isSome_run`). With `probeNet_inv`, it
has two entries at most for every peer of its node (`OwnPeers.pathCount_le`).
-/

set_option autoImplicit false

namespace EntrouterLine.Mesh

open EntrouterLine.Lib
open EntrouterLine.Relay

/-- `LatencyMatrix::path_count`. -/
def LatencyMatrix.pathCount (m : LatencyMatrix) : Nat := m.entries.keys.length

/-- The pairs of nodes that have an entry. -/
theorem mem_keys_iff {m : LatencyMatrix} {a b : NodeId} :
    (a, b) ∈ m.entries.keys ↔ (m.getRtt a b).isSome := by
  rw [LatencyMatrix.getRtt, Option.isSome_map, AList.lookup_isSome, AList.mem_keys]

theorem length_allEdges (m : LatencyMatrix) : m.allEdges.length = m.pathCount := by
  rw [LatencyMatrix.allEdges, LatencyMatrix.pathCount, AList.keys, List.keys, List.length_map,
    List.length_map]

/-- A matrix with more entries reports no fewer. -/
theorem pathCount_mono {m m' : LatencyMatrix}
    (h : ∀ a b, (m.getRtt a b).isSome → (m'.getRtt a b).isSome) : m.pathCount ≤ m'.pathCount := by
  apply List.Subperm.length_le
  refine m.entries.keys_nodup.subperm ?_
  rintro ⟨a, b⟩ hkey
  exact mem_keys_iff.mpr (h a b (mem_keys_iff.mp hkey))

variable {peers : PeerGraph} {x : NodeId} {p : Prober}

/-- Every entry joins the node and a peer, in one of the two directions. -/
theorem OwnPeers.pathCount_le (h : OwnPeers peers x p) :
    p.matrix.pathCount ≤ 2 * (peers x).dedup.length := by
  have hsub : p.matrix.entries.keys ⊆
      ((peers x).dedup.map fun peer => (x, peer)) ++ (peers x).dedup.map fun peer => (peer, x) := by
    rintro ⟨a, b⟩ hkey
    rw [List.mem_append, List.mem_map, List.mem_map]
    rcases h.edges a b (mem_keys_iff.mp hkey) with ⟨rfl, hpeer⟩ | ⟨rfl, hpeer⟩
    · exact Or.inl ⟨b, List.mem_dedup.mpr hpeer, rfl⟩
    · exact Or.inr ⟨a, List.mem_dedup.mpr hpeer, rfl⟩
  have hle := (p.matrix.entries.keys_nodup.subperm hsub).length_le
  rw [List.length_append, List.length_map, List.length_map] at hle
  rw [LatencyMatrix.pathCount]
  omega

/-! ## Both directions -/

/-- The round-trip time after a sample. -/
def sampledRtt (rtt : Duration) : Option Duration → Duration
  | none => rtt
  | some old => fromMicros (ewma (roundF64 (asMicros old)) (roundF64 (asMicros rtt)))

theorem getRtt_update_self (m : LatencyMatrix) (src dst : NodeId) (rtt : Duration)
    (now : Instant) :
    (m.update src dst rtt now).getRtt src dst = some (sampledRtt rtt (m.getRtt src dst)) := by
  rw [LatencyMatrix.getRtt, lookup_update_self, LatencyMatrix.getRtt]
  cases m.entries.lookup (src, dst) <;> rfl

theorem getRtt_update_of_ne {m : LatencyMatrix} {src dst a b : NodeId} (rtt : Duration)
    (now : Instant) (h : (a, b) ≠ (src, dst)) :
    (m.update src dst rtt now).getRtt a b = m.getRtt a b := by
  rw [LatencyMatrix.getRtt, lookup_update_of_ne rtt now h, LatencyMatrix.getRtt]

/-- The prober has measured both directions of a pair alike. -/
def Prober.Alike (p : Prober) : Prop := ∀ a b, p.matrix.getRtt a b = p.matrix.getRtt b a

theorem alike_record {m : LatencyMatrix} (h : ∀ a b, m.getRtt a b = m.getRtt b a)
    (nodeId peerId : NodeId) (rtt : Duration) (now now' : Instant) (a b : NodeId) :
    (m.record nodeId peerId rtt now now').getRtt a b =
      (m.record nodeId peerId rtt now now').getRtt b a := by
  by_cases hself : nodeId = peerId
  · -- one entry is updated twice
    subst hself
    by_cases hkey : (a, b) = (nodeId, nodeId)
    · cases hkey
      rfl
    · have hkey' : (b, a) ≠ (nodeId, nodeId) := fun heq => hkey (by cases heq; rfl)
      rw [LatencyMatrix.record, getRtt_update_of_ne _ _ hkey, getRtt_update_of_ne _ _ hkey,
        getRtt_update_of_ne _ _ hkey', getRtt_update_of_ne _ _ hkey']
      exact h a b
  · have hforth : (nodeId, peerId) ≠ (peerId, nodeId) := fun heq => hself (Prod.mk.inj heq).1
    have hboth : (m.record nodeId peerId rtt now now').getRtt nodeId peerId =
        (m.record nodeId peerId rtt now now').getRtt peerId nodeId := by
      rw [LatencyMatrix.record, getRtt_update_of_ne _ _ hforth, getRtt_update_self,
        getRtt_update_self, getRtt_update_of_ne _ _ hforth.symm, h]
    by_cases hkey : (a, b) = (nodeId, peerId)
    · cases hkey
      exact hboth
    · by_cases hback : (a, b) = (peerId, nodeId)
      · cases hback
        exact hboth.symm
      · have hkey' : (b, a) ≠ (peerId, nodeId) := fun heq => hkey (by cases heq; rfl)
        have hback' : (b, a) ≠ (nodeId, peerId) := fun heq => hback (by cases heq; rfl)
        rw [LatencyMatrix.record, getRtt_update_of_ne _ _ hback, getRtt_update_of_ne _ _ hkey,
          getRtt_update_of_ne _ _ hkey', getRtt_update_of_ne _ _ hback']
        exact h a b

theorem Prober.Alike.handlePong (h : p.Alike) (fromPeer : NodeId) (payload : Bytes)
    (received now now' : Instant) : (p.handlePong fromPeer payload received now now').Alike := by
  rcases handlePong_cases p fromPeer payload received now now' with
    ⟨heq, -⟩ | ⟨-, peerId, sendTime, -, heq⟩
  · rw [heq]
    exact h
  · rw [heq]
    exact alike_record h _ _ _ _ _

/-! ## Runs -/

/-- Invariant rule of the probers: what `create_ping` and `handle_pong` keep, every run keeps. -/
theorem forall_prober_run {P : NodeId → Prober → Prop}
    (hping : ∀ x p peerId sendTime clock, P x p → P x (p.createPing peerId sendTime clock).2)
    (hpong : ∀ x p fromPeer payload received now now', P x p →
      P x (p.handlePong fromPeer payload received now now'))
    {net net' : ProbeNet} {es : List ProbeNetEvent} {os : List Unit}
    (hrun : Machine.run (probeNetStep peers) net es = .ok (net', os))
    (hstart : ∀ x, P x (net.prober x)) : ∀ x, P x (net'.prober x) := by
  have hset : ∀ {net : ProbeNet} {x : NodeId} {p : Prober}, (∀ x, P x (net.prober x)) → P x p →
      ∀ y, P y (Function.update net.prober x p y) := by
    intro net x p h hp y
    rcases eq_or_ne y x with rfl | hne
    · rw [Function.update_self]
      exact hp
    · rw [Function.update_of_ne hne]
      exact h y
  refine Machine.run_induction (P := fun _ net _ => ∀ x, P x (net.prober x)) hstart ?_ es net' os
    hrun
  intro es net os e net' o h hstep
  rcases probeNetStep_cases hstep with rfl | ⟨sent, rfl⟩ |
    ⟨x, peerId, sendTime, clock, hpeer, rfl⟩ | ⟨packet, received, now, now', -, -, rfl⟩
  · exact h
  · exact h
  · exact hset h (hping _ _ _ _ _ (h x))
  · have hpong' := hset h (hpong _ _ packet.src packet.payload received now now' (h packet.dst))
    rw [ProbeNet.handleInbound]
    split
    · exact h
    · split
      · split
        · split
          · exact hpong'
          · exact hpong'
        · exact hpong'
      · exact h

theorem alike_run {net : ProbeNet} {es : List ProbeNetEvent} {os : List Unit}
    (hrun : Machine.run (probeNetStep peers) ProbeNet.start es = .ok (net, os)) (x : NodeId) :
    (net.prober x).Alike :=
  forall_prober_run (P := fun _ p => p.Alike) (fun _ _ _ _ _ h => h)
    (fun _ _ fromPeer payload received now now' h =>
      h.handlePong fromPeer payload received now now')
    hrun (fun _ _ _ => rfl) x

/-- No run removes an entry. -/
theorem getRtt_isSome_run {net net' : ProbeNet} {es : List ProbeNetEvent} {os : List Unit}
    (hrun : Machine.run (probeNetStep peers) net es = .ok (net', os)) (x a b : NodeId)
    (h : ((net.prober x).matrix.getRtt a b).isSome) :
    ((net'.prober x).matrix.getRtt a b).isSome :=
  forall_prober_run (P := fun x p => ((net.prober x).matrix.getRtt a b).isSome →
      (p.matrix.getRtt a b).isSome) (fun _ _ _ _ _ h => h)
    (fun _ _ _ _ _ _ _ h hsome => isSome_getRtt_handlePong (h hsome) _ _ _ _ _) hrun
    (fun _ h => h) x h

end EntrouterLine.Mesh
