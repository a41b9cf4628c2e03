import EntrouterLine.Mesh.ProbeLedger
import EntrouterLine.Mesh.Reachability
import EntrouterLine.Mesh.RttSmoothing

/-!
# The route to a peer

A prober writes to the matrix, and the router reads it. A probed matrix joins a node with the peers
it has pinged, so the route to a peer is the edge to it, and its round-trip time is what the answers
of the peer make of it, in the order in which they came (`route_follows_answers`). No answer, no
route; but a route that has been found stays, however long the peer has been silent.
-/

set_option autoImplicit false

namespace EntrouterLine.Mesh

open EntrouterLine.Lib
open EntrouterLine.Relay

/-! ## Samples as updates -/

/-- The round-trip times recorded for the peer, in whole microseconds. -/
def ProbeLog.rttsOf (l : ProbeLog) (peerId : NodeId) : List Nat :=
  (l.samples.filter fun sample => sample.peerId = peerId).map fun sample => asMicros sample.rtt

/-- The two calls of `update` for a sample. -/
def Sample.updates (nodeId : NodeId) (sample : Sample) : List RttUpdate :=
  [⟨nodeId, sample.peerId, sample.rtt, sample.now⟩,
    ⟨sample.peerId, nodeId, sample.rtt, sample.now'⟩]

theorem updates_flatMap (nodeId : NodeId) (samples : List Sample) (m : LatencyMatrix) :
    m.updates (samples.flatMap (Sample.updates nodeId)) =
      samples.foldl (LatencyMatrix.addSample nodeId) m := by
  induction samples generalizing m with
  | nil => rfl
  | cons sample samples ih =>
    rw [List.flatMap_cons, updates_append, List.foldl_cons, ih]
    rfl

/-- Of the two updates, one is of the edge from the node to the peer. -/
theorem samplesOf_flatMap {nodeId peerId : NodeId} (hne : peerId ≠ nodeId)
    (samples : List Sample) :
    samplesOf nodeId peerId (samples.flatMap (Sample.updates nodeId)) =
      (samples.filter fun sample => sample.peerId = peerId).map
        fun sample => asMicros sample.rtt := by
  induction samples with
  | nil => rfl
  | cons sample samples ih =>
    rw [List.flatMap_cons, samplesOf_append, ih]
    by_cases hpeer : sample.peerId = peerId
    · rw [List.filter_cons_of_pos (by simpa using hpeer)]
      simp [samplesOf, Sample.updates, hpeer, hne]
    · rw [List.filter_cons_of_neg (by simpa using hpeer)]
      simp [samplesOf, Sample.updates, hpeer, hne.symm]

/-- An entry counts the updates of its pair. -/
theorem sampleCount_updates (src dst : NodeId) (us : List RttUpdate) :
    (LatencyMatrix.new.updates us).sampleCount src dst = (samplesOf src dst us).length := by
  induction us using List.reverseRecOn with
  | nil => rfl
  | append_singleton us u ih =>
    rw [updates_append, samplesOf_append, List.length_append, ← ih]
    show ((LatencyMatrix.new.updates us).update u.src u.dst u.rtt u.now).sampleCount src dst = _
    rw [sampleCount_update]
    by_cases hpair : (src, dst) = (u.src, u.dst)
    · cases hpair
      simp [samplesOf]
    · have hpair' : ¬ (u.src = src ∧ u.dst = dst) := by
        rintro ⟨rfl, rfl⟩
        exact hpair rfl
      simp [samplesOf, hpair, hpair']

variable {nodeId : NodeId} {es : List ProbeEvent} {log : ProbeLog} {os : List Unit}

/-- The matrix of a run is the updates of its samples. -/
theorem matrix_eq_updates
    (hrun : Machine.run probeStep (ProbeLog.start nodeId) es = .ok (log, os))
    (hcount : es.countP ProbeEvent.isPing < 2 ^ 32) :
    log.prober.matrix =
      LatencyMatrix.new.updates (log.samples.flatMap (Sample.updates nodeId)) := by
  rw [updates_flatMap]
  exact (probeInv_run nodeId es log os hrun hcount).matrix

/-- As many round-trip times are recorded for a peer as probes to it have been answered. -/
theorem length_rttsOf
    (hrun : Machine.run probeStep (ProbeLog.start nodeId) es = .ok (log, os))
    (hcount : es.countP ProbeEvent.isPing < 2 ^ 32) {peerId : NodeId} (hne : peerId ≠ nodeId) :
    (log.rttsOf peerId).length = (Ledger.steps es).countTo .answered peerId := by
  rw [← ((accounted_run hrun hcount).samples peerId hne).1, matrix_eq_updates hrun hcount,
    sampleCount_updates, samplesOf_flatMap hne]
  rfl

/-- The measured time is the smoothed value of the recorded ones. -/
theorem getRtt_smoothed
    (hrun : Machine.run probeStep (ProbeLog.start nodeId) es = .ok (log, os))
    (hcount : es.countP ProbeEvent.isPing < 2 ^ 32) {peerId : NodeId} (hne : peerId ≠ nodeId)
    (hsmall : ∀ s ∈ log.rttsOf peerId, s < exactMicros) :
    (log.prober.matrix.getRtt nodeId peerId).map asMicros =
      (Smoother.run 7 (log.rttsOf peerId)).map Smoother.value := by
  have hsamples : samplesOf nodeId peerId (log.samples.flatMap (Sample.updates nodeId)) =
      log.rttsOf peerId := samplesOf_flatMap hne log.samples
  rw [← hsamples] at hsmall
  have heq := updates_eq_run hsmall
  rw [hsamples, ← matrix_eq_updates hrun hcount] at heq
  rw [← heq, LatencyMatrix.getRtt, Option.map_map, Option.map_map]
  rfl

/-! ## Routes of a probed matrix -/

/-- A prober keeps nothing of nodes that it has not pinged. -/
theorem ownPeers_run
    (hrun : Machine.run probeStep (ProbeLog.start nodeId) es = .ok (log, os)) {peers : PeerGraph}
    (hpinged : ∀ probe ∈ es.filterMap ProbeEvent.sent, probe.1 ∈ peers nodeId) :
    OwnPeers peers nodeId log.prober := by
  revert hpinged
  refine Machine.run_induction (P := fun es log _ =>
    (∀ probe ∈ es.filterMap ProbeEvent.sent, probe.1 ∈ peers nodeId) →
      OwnPeers peers nodeId log.prober) (fun _ => ownPeers_new peers nodeId) ?_ es log os hrun
  intro es log os e log' o ih hstep hpinged
  rw [List.filterMap_append, List.forall_mem_append] at hpinged
  have h := ih hpinged.1
  cases e with
  | createPing peerId sendTime clock =>
    simp only [probeStep, Except.ok.injEq, Prod.mk.injEq] at hstep
    rw [← hstep.1]
    exact h.createPing (hpinged.2 (peerId, sendTime) (by simp [ProbeEvent.sent])) sendTime clock
  | handlePong fromPeer payload received now now' =>
    simp only [probeStep, Except.ok.injEq, Prod.mk.injEq] at hstep
    rw [← hstep.1]
    exact h.handlePong fromPeer payload received now now'

variable {peers : PeerGraph} {x destination : NodeId} {p : Prober}

/-- The route to a node is the edge to it, if it has been measured and does not count as
unreachable; there is no other. -/
theorem OwnPeers.nextHop_cases (h : OwnPeers peers x p) (std : StdOrder) (hne : destination ≠ x) :
    (∃ rtt, p.matrix.getRtt x destination = some rtt ∧ edgeCost rtt < u64Max ∧
      (MeshRouter.mk x p.matrix).nextHop std destination =
        .ok (some ⟨destination, rtt, [x, destination]⟩)) ∨
    ((∀ rtt, p.matrix.getRtt x destination = some rtt → u64Max ≤ edgeCost rtt) ∧
      (MeshRouter.mk x p.matrix).nextHop std destination = .ok none) := by
  rcases dijkstra_spec std (MeshRouter.mk x p.matrix) hne with
    ⟨path, hpath, hnodup, hshort, hlt⟩ | ⟨hpath, hnone⟩
  · left
    obtain rfl := h.walk_eq hne hshort.walk hnodup
    have hedge := weights_isSome.mp (hshort.walk.edges (x, destination) (by simp))
    obtain ⟨rtt, hrtt⟩ := Option.isSome_iff_exists.mp hedge
    obtain ⟨totalRtt, hcost, hval⟩ := pathCost_ok ⟨x, p.matrix⟩ [x, destination]
      (by simpa using nanos_isLt _ (x, destination))
    -- the sum has one term
    have htotal : totalRtt = rtt := by
      apply Fin.ext
      rw [hval]
      simp [LatencyMatrix.nanos, hrtt]
    obtain ⟨hop, hhop, hresult⟩ := nextHop_of_dijkstra hne hpath hshort.walk hcost
    refine ⟨rtt, hrtt, ?_, ?_⟩
    · rw [← pathCost_edge hrtt]
      exact hlt
    · rw [hresult, htotal, ← Option.some.inj hhop]
  · right
    refine ⟨?_, nextHop_of_dijkstra_none hne hpath⟩
    intro rtt hrtt
    have hedge : p.matrix.weights x destination = some (edgeCost rtt) := by
      rw [LatencyMatrix.weights, hrtt]
      rfl
    have hge := hnone _ ((IsWalk.refl _ destination).cons hedge).1
    rwa [pathCost_edge hrtt] at hge

/-! ## Answers are not forgotten -/

theorem countTo_answered_step_le (l : Ledger) (e : ProbeEvent) (a : NodeId) :
    l.countTo .answered a ≤ (l.step e).countTo .answered a := by
  cases e with
  | createPing peerId sendTime clock =>
    rw [countTo_answered_createPing]
  | handlePong fromPeer payload received now now' =>
    rw [Ledger.step]
    split
    · exact Nat.le_refl _
    · rcases modify_answer_cases l ((pongId payload).toNat - 1) with
        ⟨-, heq⟩ | ⟨q, hq, hpending, -, heq⟩
      · rw [heq]
      · rw [heq, countTo_answered_set hq hpending]
        exact Nat.le_add_right _ _

theorem countTo_answered_mono {es' : List ProbeEvent} (h : es' <+: es) (a : NodeId) :
    (Ledger.steps es').countTo .answered a ≤ (Ledger.steps es).countTo .answered a := by
  obtain ⟨rest, rfl⟩ := h
  induction rest using List.reverseRecOn with
  | nil => rw [List.append_nil]
  | append_singleton rest e ih =>
    have hlast : Ledger.steps (es' ++ (rest ++ [e])) = (Ledger.steps (es' ++ rest)).step e := by
      rw [← List.append_assoc, Ledger.steps, List.foldl_append, List.foldl_cons, List.foldl_nil]
      rfl
    rw [hlast]
    exact Nat.le_trans ih (countTo_answered_step_le _ e a)

/-! ## Runs -/

/-- In every run with fewer than `2 ^ 32` probes, whatever the PONGs and the clocks: a node has as
many recorded times of another one as probes to it have been answered. Before the first of them
`next_hop` finds no route; from then on it finds the edge to the node, with the smoothed value of
all recorded times, which is within their range. -/
theorem route_follows_answers
    (hrun : Machine.run probeStep (ProbeLog.start nodeId) es = .ok (log, os))
    (hcount : es.countP ProbeEvent.isPing < 2 ^ 32) (hne : destination ≠ nodeId)
    (hsmall : ∀ s ∈ log.rttsOf destination, s < exactMicros) (std : StdOrder) :
    (log.rttsOf destination).length = (Ledger.steps es).countTo .answered destination ∧
    ((Ledger.steps es).countTo .answered destination = 0 →
      (MeshRouter.mk nodeId log.prober.matrix).nextHop std destination = .ok none) ∧
    ∀ es', es' <+: es → 0 < (Ledger.steps es').countTo .answered destination →
      ∃ rtt, (MeshRouter.mk nodeId log.prober.matrix).nextHop std destination =
          .ok (some ⟨destination, rtt, [nodeId, destination]⟩) ∧
        some (asMicros rtt) = (Smoother.run 7 (log.rttsOf destination)).map Smoother.value ∧
        ∀ lo hi, (∀ s ∈ log.rttsOf destination, lo ≤ s ∧ s ≤ hi) →
          lo ≤ asMicros rtt ∧ asMicros rtt ≤ hi := by
  have hlength := length_rttsOf hrun hcount hne
  have hsmoothed := getRtt_smoothed hrun hcount hne hsmall
  have hown : OwnPeers (fun _ => (es.filterMap ProbeEvent.sent).map Prod.fst) nodeId log.prober :=
    ownPeers_run hrun fun probe hprobe => List.mem_map_of_mem hprobe
  refine ⟨hlength, ?_, ?_⟩
  · intro hzero
    rw [hzero, List.length_eq_zero_iff] at hlength
    rw [hlength, Smoother.run, Option.map_none, Option.map_eq_none_iff] at hsmoothed
    rcases hown.nextHop_cases std hne with ⟨rtt, hrtt, -⟩ | ⟨-, hresult⟩
    · rw [hsmoothed] at hrtt
      cases hrtt
    · exact hresult
  · intro es' hprefix hpos
    have hnil : log.rttsOf destination ≠ [] := by
      have hmono := countTo_answered_mono hprefix destination
      rw [← List.length_pos_iff, hlength]
      exact Nat.lt_of_lt_of_le hpos hmono
    obtain ⟨t, ht⟩ : ∃ t, Smoother.run 7 (log.rttsOf destination) = some t :=
      Option.ne_none_iff_exists'.mp fun hnone => hnil (Smoother.run_eq_none_iff.mp hnone)
    have hwithin : ∀ lo hi, (∀ s ∈ log.rttsOf destination, lo ≤ s ∧ s ≤ hi) → t.Within lo hi :=
      fun lo hi => Smoother.within_run ht
    rw [ht, Option.map_some, Option.map_eq_some_iff] at hsmoothed
    obtain ⟨rtt, hrtt, hvalue⟩ := hsmoothed
    have hcost : edgeCost rtt < u64Max := by
      have hle := (hwithin 0 (exactMicros - 1) fun s hs =>
        ⟨Nat.zero_le s, Nat.le_sub_one_of_lt (hsmall s hs)⟩).le_hi
      rw [← hvalue] at hle
      calc edgeCost rtt ≤ asMicros rtt := Nat.mod_le _ _
        _ ≤ exactMicros - 1 := hle
        _ < u64Max := by decide
    rcases hown.nextHop_cases std hne with ⟨rtt', hrtt', -, hresult⟩ | ⟨hnone, -⟩
    · rw [hrtt, Option.some.injEq] at hrtt'
      subst hrtt'
      refine ⟨rtt, hresult, ?_, ?_⟩
      · rw [ht, hvalue]
        rfl
      · intro lo hi hrange
        rw [hvalue]
        exact ⟨(hwithin lo hi hrange).lo_le, (hwithin lo hi hrange).le_hi⟩
    · exact absurd hcost (Nat.not_lt.mpr (hnone rtt hrtt))

/-- The peer that has answered has a route with the time of its one answer, and the one that is
silent has none. -/
theorem route_follows_answers_syd : ∃ log os,
    Machine.run probeStep (ProbeLog.start "syd-01") threeProbes = .ok (log, os) ∧
    (∃ rtt, (MeshRouter.mk "syd-01" log.prober.matrix).nextHop .firstLeast "sgp-01" =
        .ok (some ⟨"sgp-01", rtt, ["syd-01", "sgp-01"]⟩) ∧ asMicros rtt = 30000) ∧
    (MeshRouter.mk "syd-01" log.prober.matrix).nextHop .firstLeast "tyo-01" = .ok none := by
  obtain ⟨log, os, hrun, hsgp, htyo⟩ : ∃ log os,
      Machine.run probeStep (ProbeLog.start "syd-01") threeProbes = .ok (log, os) ∧
        log.rttsOf "sgp-01" = [30000] ∧ log.rttsOf "tyo-01" = [] :=
    ⟨_, _, rfl, by decide, by decide⟩
  have hother : "sgp-01" ≠ "syd-01" ∧ "tyo-01" ≠ "syd-01" := by decide
  obtain ⟨-, -, hroute⟩ := route_follows_answers hrun (by decide) hother.1
    (by rw [hsgp]; decide) .firstLeast
  obtain ⟨-, hnone, -⟩ := route_follows_answers hrun (by decide) hother.2
    (by rw [htyo]; decide) .firstLeast
  obtain ⟨rtt, hresult, hsmoothed, -⟩ :=
    hroute threeProbes (List.prefix_refl _) (by decide)
  refine ⟨log, os, hrun, ⟨rtt, hresult, ?_⟩, hnone (by decide)⟩
  rw [hsgp] at hsmoothed
  exact Option.some.inj hsmoothed

end EntrouterLine.Mesh
