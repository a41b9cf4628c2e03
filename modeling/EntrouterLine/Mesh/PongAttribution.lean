import EntrouterLine.Lib.Machine
import EntrouterLine.Mesh.Probe

/-!
# Whose answer counts for whom

A prober issues probes and is handed PONGs of any content from any peer. As long as fewer than `2 ^
32` probes are issued, their ids are different, and each gives at most one sample, for the peer it
was issued to. Which peer the PONG comes from is not looked at: the samples are the peers' own
exactly in those runs in which no peer sends the id of a probe that another one has yet to answer
(`attributed_iff`), and there the entries of a peer are what its own PONGs make of them.
-/

set_option autoImplicit false

namespace EntrouterLine.Mesh

open EntrouterLine.Lib
open EntrouterLine.Lib.LittleEndian
open EntrouterLine.Relay

/-! ## Runs of one prober -/

/-- A round-trip time that was recorded for `peerId`, from a PONG of `fromPeer`. -/
structure Sample where
  probeId : UInt32
  peerId : NodeId
  fromPeer : NodeId
  rtt : Duration
  now : Instant
  now' : Instant
  deriving DecidableEq

/-- The matrix of `nodeId` with one more sample. -/
def LatencyMatrix.addSample (nodeId : NodeId) (m : LatencyMatrix) (sample : Sample) :
    LatencyMatrix :=
  m.record nodeId sample.peerId sample.rtt sample.now sample.now'

/-- A prober, the ids of all probes issued so far with the peer of each, and all samples. -/
structure ProbeLog where
  prober : Prober
  issued : List (UInt32 × NodeId)
  samples : List Sample

def ProbeLog.start (nodeId : NodeId) : ProbeLog := ⟨Prober.new nodeId LatencyMatrix.new, [], []⟩

/-- What `handle_pong` records. -/
def Prober.samplesOf (p : Prober) (fromPeer : NodeId) (payload : Bytes)
    (received now now' : Instant) : List Sample :=
  if payload.length < 4 then []
  else
    match p.pending (pongId payload) with
    | some (peerId, sendTime) =>
        [⟨pongId payload, peerId, fromPeer, elapsed received sendTime, now, now'⟩]
    | none => []

inductive ProbeEvent where
  | createPing (peerId : NodeId) (sendTime : Instant) (clock : UInt32 → Instant)
  | handlePong (fromPeer : NodeId) (payload : Bytes) (received now now' : Instant)

def probeStep (l : ProbeLog) : ProbeEvent → Except Empty (ProbeLog × Unit)
  | .createPing peerId sendTime clock =>
      .ok (⟨(l.prober.createPing peerId sendTime clock).2,
        l.issued ++ [(l.prober.nextProbeId, peerId)], l.samples⟩, ())
  | .handlePong fromPeer payload received now now' =>
      .ok (⟨l.prober.handlePong fromPeer payload received now now', l.issued,
        l.samples ++ l.prober.samplesOf fromPeer payload received now now'⟩, ())

def ProbeEvent.isPing : ProbeEvent → Bool
  | .createPing .. => true
  | .handlePong .. => false

/-- A PONG with the id of a pending probe comes from the peer that the probe was issued to. -/
def FromProbed (l : ProbeLog) : ProbeEvent → Prop
  | .createPing .. => True
  | .handlePong fromPeer payload _ _ _ => 4 ≤ payload.length → ∀ peerId sendTime,
      l.prober.pending (pongId payload) = some (peerId, sendTime) → fromPeer = peerId

/-- Every sample of a peer comes from the peer itself. -/
def ProbeLog.Attributed (l : ProbeLog) : Prop :=
  ∀ sample ∈ l.samples, sample.fromPeer = sample.peerId

/-- Either nothing happens, or the one sample is recorded and its probe is no longer pending. -/
theorem handlePong_samplesOf (p : Prober) (fromPeer : NodeId) (payload : Bytes)
    (received now now' : Instant) :
    (p.handlePong fromPeer payload received now now' = p ∧
      p.samplesOf fromPeer payload received now now' = [] ∧
      (4 ≤ payload.length → p.pending (pongId payload) = none)) ∨
    ∃ sample sendTime, p.samplesOf fromPeer payload received now now' = [sample] ∧
      4 ≤ payload.length ∧ sample.probeId = pongId payload ∧ sample.fromPeer = fromPeer ∧
      p.pending (pongId payload) = some (sample.peerId, sendTime) ∧
      p.handlePong fromPeer payload received now now' =
        p.answer sample.probeId sample.peerId sample.rtt sample.now sample.now' := by
  rcases handlePong_cases p fromPeer payload received now now' with
    ⟨heq, hshort | hnone⟩ | ⟨hlen, peerId, sendTime, hpending, heq⟩
  · exact Or.inl ⟨heq, if_pos hshort, fun hlen => absurd hshort (Nat.not_lt.mpr hlen)⟩
  · refine Or.inl ⟨heq, ?_, fun _ => hnone⟩
    simp [Prober.samplesOf, hnone]
  · refine Or.inr ⟨⟨pongId payload, peerId, fromPeer, elapsed received sendTime, now, now'⟩,
      sendTime,
      ?_, hlen, rfl, rfl, hpending, heq⟩
    simp [Prober.samplesOf, hpending, Nat.not_lt.mpr hlen]

/-! ## What holds in every run -/

/-- The ids of the first `n` probes. -/
def probeIds (n : Nat) : List UInt32 := (List.range n).map fun k => UInt32.ofNat (k + 1)

/-- The id after the first `n` is new, unless the counter has gone around. -/
theorem probeId_not_mem {n : Nat} (hn : n + 1 < 2 ^ 32) : UInt32.ofNat (n + 1) ∉ probeIds n := by
  intro hmem
  obtain ⟨k, hk, heq⟩ := List.mem_map.mp hmem
  rw [List.mem_range] at hk
  have hnat := congrArg UInt32.toNat heq
  rw [UInt32.toNat_ofNat', UInt32.toNat_ofNat'] at hnat
  omega

structure ProbeInv (nodeId : NodeId) (n : Nat) (l : ProbeLog) : Prop where
  owner : l.prober.nodeId = nodeId
  next : l.prober.nextProbeId = UInt32.ofNat (n + 1)
  ids : l.issued.map Prod.fst = probeIds n
  pending : ∀ id peerId sendTime, l.prober.pending id = some (peerId, sendTime) →
    (id, peerId) ∈ l.issued ∧ id ∉ l.samples.map Sample.probeId
  issued : ∀ sample ∈ l.samples, (sample.probeId, sample.peerId) ∈ l.issued
  once : (l.samples.map Sample.probeId).Nodup
  matrix : l.prober.matrix = l.samples.foldl (LatencyMatrix.addSample nodeId) LatencyMatrix.new

variable {nodeId : NodeId} {n : Nat} {l l' : ProbeLog}

theorem probeInv_start (nodeId : NodeId) : ProbeInv nodeId 0 (ProbeLog.start nodeId) :=
  ⟨rfl, rfl, rfl, nofun, nofun, List.nodup_nil, rfl⟩

theorem ProbeInv.createPing (h : ProbeInv nodeId n l) (hn : n + 1 < 2 ^ 32) (peerId : NodeId)
    (sendTime : Instant) (clock : UInt32 → Instant) :
    ProbeInv nodeId (n + 1) ⟨(l.prober.createPing peerId sendTime clock).2,
      l.issued ++ [(l.prober.nextProbeId, peerId)], l.samples⟩ := by
  have hnew : l.prober.nextProbeId ∉ l.samples.map Sample.probeId := by
    intro hmem
    obtain ⟨sample, hsample, hid⟩ := List.mem_map.mp hmem
    have hissued : sample.probeId ∈ l.issued.map Prod.fst :=
      List.mem_map_of_mem (f := Prod.fst) (h.issued sample hsample)
    rw [h.ids, hid, h.next] at hissued
    exact probeId_not_mem hn hissued
  constructor
  case owner => exact h.owner
  case next =>
    show l.prober.nextProbeId + 1 = _
    rw [h.next, ← UInt32.toNat_inj]
    simp
  case ids =>
    rw [List.map_append, h.ids, List.map_singleton, h.next, probeIds, probeIds, List.range_succ,
      List.map_append, List.map_singleton]
  case pending =>
    intro id peerId' sendTime' hpending
    rcases pending_createPing hpending with ⟨rfl, heq⟩ | ⟨-, hold⟩
    · rw [Prod.mk.injEq] at heq
      rw [heq.1]
      exact ⟨List.mem_append_right _ (List.mem_singleton_self _), hnew⟩
    · obtain ⟨hissued, hsamples⟩ := h.pending id peerId' sendTime' hold
      exact ⟨List.mem_append_left _ hissued, hsamples⟩
  case issued => exact fun sample hmem => List.mem_append_left _ (h.issued sample hmem)
  case once => exact h.once
  case matrix => exact h.matrix

theorem ProbeInv.handlePong (h : ProbeInv nodeId n l) (fromPeer : NodeId) (payload : Bytes)
    (received now now' : Instant) :
    ProbeInv nodeId n ⟨l.prober.handlePong fromPeer payload received now now', l.issued,
      l.samples ++ l.prober.samplesOf fromPeer payload received now now'⟩ := by
  rcases handlePong_samplesOf l.prober fromPeer payload received now now' with
    ⟨heq, hnone, -⟩ | ⟨sample, sendTime, hsamples, -, hid, -, hpending, heq⟩
  · rw [heq, hnone, List.append_nil]
    exact h
  · rw [heq, hsamples]
    rw [← hid] at hpending
    -- the ping was waiting, so that it has given no sample before
    obtain ⟨hissued, hnew⟩ := h.pending _ _ _ hpending
    constructor
    case owner => exact h.owner
    case next => exact h.next
    case ids => exact h.ids
    case pending =>
      intro id peerId sendTime' hid'
      obtain ⟨hne, hold⟩ := pending_answer hid'
      obtain ⟨hissued', hnew'⟩ := h.pending id peerId sendTime' hold
      refine ⟨hissued', ?_⟩
      simp [hne, hnew']
    case issued =>
      intro sample' hmem
      rcases List.mem_append.mp hmem with hold | hlast
      · exact h.issued sample' hold
      · rw [List.mem_singleton.mp hlast]
        exact hissued
    case once =>
      rw [List.map_append, List.map_singleton, List.nodup_append]
      refine ⟨h.once, List.nodup_singleton _, ?_⟩
      intro id hmem id' hlast heq'
      rw [List.mem_singleton] at hlast
      subst hlast heq'
      exact hnew hmem
    case matrix =>
      rw [List.foldl_append, ← h.matrix]
      show l.prober.matrix.record l.prober.nodeId _ _ _ _ = _
      rw [h.owner]
      rfl

theorem probeInv_run (nodeId : NodeId) (es : List ProbeEvent) (l : ProbeLog) (os : List Unit)
    (hrun : Machine.run probeStep (ProbeLog.start nodeId) es = .ok (l, os))
    (hcount : es.countP ProbeEvent.isPing < 2 ^ 32) :
    ProbeInv nodeId (es.countP ProbeEvent.isPing) l := by
  revert hcount
  refine Machine.run_induction (P := fun es l _ => es.countP ProbeEvent.isPing < 2 ^ 32 →
    ProbeInv nodeId (es.countP ProbeEvent.isPing) l) ?_ ?_ es l os hrun
  · exact fun _ => probeInv_start nodeId
  · intro es l os e l' o ih hstep hcount
    rw [List.countP_append, List.countP_singleton] at hcount ⊢
    cases e with
    | createPing peerId sendTime clock =>
      simp only [probeStep, Except.ok.injEq, Prod.mk.injEq] at hstep
      rw [← hstep.1]
      simp only [ProbeEvent.isPing, if_true] at hcount ⊢
      exact (ih (by omega)).createPing hcount peerId sendTime clock
    | handlePong fromPeer payload received now now' =>
      simp only [probeStep, Except.ok.injEq, Prod.mk.injEq] at hstep
      rw [← hstep.1]
      exact (ih (by omega)).handlePong fromPeer payload received now now'

/-! ## Attribution -/

/-- All samples of a run are the peers' own exactly if every step meets the condition. -/
theorem attributed_iff_along (nodeId : NodeId) (es : List ProbeEvent) (l : ProbeLog)
    (os : List Unit)
    (hrun : Machine.run probeStep (ProbeLog.start nodeId) es = .ok (l, os)) :
    l.Attributed ↔ Machine.Along probeStep FromProbed (ProbeLog.start nodeId) es := by
  induction es using List.reverseRecOn generalizing l os with
  | nil =>
    simp only [Machine.run_nil, Except.ok.injEq, Prod.mk.injEq] at hrun
    rw [← hrun.1]
    exact iff_of_true nofun trivial
  | append_singleton es e ih =>
    obtain ⟨s, os₁, o, hinit, hlast, -⟩ := Machine.run_snoc_inv hrun
    rw [Machine.along_snoc hinit, ← ih s os₁ hinit]
    cases e with
    | createPing peerId sendTime clock =>
      simp only [probeStep, Except.ok.injEq, Prod.mk.injEq] at hlast
      rw [← hlast.1]
      exact (and_iff_left trivial).symm
    | handlePong fromPeer payload received now now' =>
      simp only [probeStep, Except.ok.injEq, Prod.mk.injEq] at hlast
      rw [← hlast.1]
      rcases handlePong_samplesOf s.prober fromPeer payload received now now' with
        ⟨-, hnone, hpending⟩ | ⟨sample, sendTime, hsamples, hlen, -, hfrom, hpending, -⟩
      · -- no ping waits for this pong, and the condition asks nothing
        rw [hnone, List.append_nil]
        refine (and_iff_left ?_).symm
        intro hlen peerId sendTime hsome
        rw [hpending hlen] at hsome
        cases hsome
      · simp only [ProbeLog.Attributed, hsamples, List.forall_mem_append, List.forall_mem_singleton]
        refine and_congr_right fun _ => ?_
        rw [hfrom]
        constructor
        · intro hown _ peerId sendTime' hsome
          rw [hpending, Option.some.injEq, Prod.mk.injEq] at hsome
          rw [← hsome.1]
          exact hown
        · intro hown
          exact hown hlen _ _ hpending

/-- The samples that PONGs of one peer gave. -/
def ProbeLog.samplesFrom (l : ProbeLog) (peerId : NodeId) : List Sample :=
  l.samples.filter fun sample => sample.fromPeer = peerId

/-- An update of two matrices keeps them equal at an entry. -/
theorem lookup_update_congr {m m' : LatencyMatrix} {key : NodeId × NodeId}
    (h : m.entries.lookup key = m'.entries.lookup key) (src dst : NodeId) (rtt : Duration)
    (now : Instant) : (m.update src dst rtt now).entries.lookup key =
      (m'.update src dst rtt now).entries.lookup key := by
  by_cases hkey : key = (src, dst)
  · subst hkey
    rw [lookup_update_self, lookup_update_self, h]
  · obtain ⟨a, b⟩ := key
    rw [lookup_update_of_ne rtt now hkey, lookup_update_of_ne rtt now hkey, h]

/-- The entries of a peer are not those of another one. -/
theorem ne_of_other_peer {nodeId peerId other : NodeId} {key : NodeId × NodeId}
    (hkey : key = (nodeId, peerId) ∨ key = (peerId, nodeId)) (hne : other ≠ peerId) :
    key ≠ (nodeId, other) ∧ key ≠ (other, nodeId) := by
  rcases hkey with rfl | rfl <;> grind

/-- The samples of other peers leave the entries of a peer as they are. -/
theorem lookup_foldl_filter (nodeId peerId : NodeId) {key : NodeId × NodeId}
    (hkey : key = (nodeId, peerId) ∨ key = (peerId, nodeId)) (samples : List Sample)
    (m m' : LatencyMatrix) (h : m.entries.lookup key = m'.entries.lookup key) :
    (samples.foldl (LatencyMatrix.addSample nodeId) m).entries.lookup key =
      ((samples.filter fun sample => sample.peerId = peerId).foldl (LatencyMatrix.addSample nodeId)
        m').entries.lookup key := by
  induction samples generalizing m m' with
  | nil => exact h
  | cons sample samples ih =>
    by_cases hpeer : sample.peerId = peerId
    · rw [List.filter_cons_of_pos (by simpa using hpeer)]
      apply ih
      exact lookup_update_congr (lookup_update_congr h ..) ..
    · rw [List.filter_cons_of_neg (by simpa using hpeer)]
      apply ih
      rw [← h, LatencyMatrix.addSample]
      obtain ⟨hne, hne'⟩ := ne_of_other_peer hkey hpeer
      exact lookup_record_of_ne _ _ _ hne hne'

/-- Each probe gives at most one sample, which is recorded for the peer that the probe was issued
to. All samples are the peers' own exactly if no PONG carries the id of a probe that is pending for
another peer, and then the PONGs of other peers leave no trace in the entries of a peer. -/
theorem attributed_iff {nodeId : NodeId} {es : List ProbeEvent} {l : ProbeLog} {os : List Unit}
    (hrun : Machine.run probeStep (ProbeLog.start nodeId) es = .ok (l, os))
    (hcount : es.countP ProbeEvent.isPing < 2 ^ 32) :
    (l.samples.map Sample.probeId).Nodup ∧
    (∀ sample ∈ l.samples, (sample.probeId, sample.peerId) ∈ l.issued) ∧
    l.prober.matrix = l.samples.foldl (LatencyMatrix.addSample nodeId) LatencyMatrix.new ∧
    (l.Attributed ↔ Machine.Along probeStep FromProbed (ProbeLog.start nodeId) es) ∧
    (l.Attributed → ∀ peerId key, key = (nodeId, peerId) ∨ key = (peerId, nodeId) →
      l.prober.matrix.entries.lookup key =
        ((l.samplesFrom peerId).foldl (LatencyMatrix.addSample nodeId)
          LatencyMatrix.new).entries.lookup key) := by
  have hinv := probeInv_run nodeId es l os hrun hcount
  refine ⟨hinv.once, hinv.issued, hinv.matrix, attributed_iff_along nodeId es l os hrun, ?_⟩
  intro hown peerId key hkey
  have hfilter : l.samplesFrom peerId = l.samples.filter fun sample => sample.peerId = peerId := by
    apply List.filter_congr
    intro sample hmem
    rw [hown sample hmem]
  rw [hinv.matrix, hfilter]
  exact lookup_foldl_filter nodeId peerId hkey l.samples _ _ rfl

/-- Both peers are probed, one answers, and the answer of the other one is repeated. -/
def honestPongs : List ProbeEvent :=
  [.createPing "a" 0 fun _ => 0, .createPing "b" 0 fun _ => 0,
    .handlePong "b" (toBytes 4 2) 40000000 40000000 40000000,
    .handlePong "b" (toBytes 4 2) 50000000 50000000 50000000]

theorem attributed_iff_honestPongs :
    ∃ l os, Machine.run probeStep (ProbeLog.start "local") honestPongs = .ok (l, os) ∧
      (l.samples.map Sample.probeId).Nodup ∧
      (∀ sample ∈ l.samples, (sample.probeId, sample.peerId) ∈ l.issued) ∧
      l.prober.matrix = l.samples.foldl (LatencyMatrix.addSample "local") LatencyMatrix.new ∧
      (l.Attributed ↔ Machine.Along probeStep FromProbed (ProbeLog.start "local") honestPongs) ∧
      (l.Attributed → ∀ peerId key, key = ("local", peerId) ∨ key = (peerId, "local") →
        l.prober.matrix.entries.lookup key =
          ((l.samplesFrom peerId).foldl (LatencyMatrix.addSample "local")
            LatencyMatrix.new).entries.lookup key) := by
  have hrun : Machine.run probeStep (ProbeLog.start "local") honestPongs = .ok (_, _) := rfl
  exact ⟨_, _, hrun, attributed_iff hrun (by decide)⟩

/-- The peer `b` answers the probe of `a`, whose id it can count. -/
def forgedPong : List ProbeEvent :=
  [.createPing "a" 0 fun _ => 0, .createPing "b" 0 fun _ => 0,
    .handlePong "b" (toBytes 4 1) 1000000 1000000 1000000]

/-- The matrix has a round-trip time to `a`, which has sent nothing. -/
theorem forgedPong_is_recorded :
    ∃ l os, Machine.run probeStep (ProbeLog.start "local") forgedPong = .ok (l, os) ∧
      l.prober.matrix.getRtt "local" "a" = some 1000000 ∧
      (∀ payload received now now', .handlePong "a" payload received now now' ∉ forgedPong) ∧
      ¬l.Attributed := by
  have hrun : Machine.run probeStep (ProbeLog.start "local") forgedPong = .ok (_, _) := rfl
  refine ⟨_, _, hrun, by decide, ?_, ?_⟩
  · intro payload received now now'
    simp [forgedPong]
  · intro hown
    have hsample := hown ⟨1, "a", "b", 1000000, 1000000, 1000000⟩ (by decide)
    revert hsample
    decide

end EntrouterLine.Mesh
