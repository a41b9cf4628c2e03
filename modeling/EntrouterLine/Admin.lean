import EntrouterLine.Mesh.FlowCount
import EntrouterLine.Mesh.MatrixReport
import EntrouterLine.Mesh.ProbedMesh

/-!
# The admin endpoint

`/status` reports the counters of a node. The handler reads four maps, one after the other, while
the tasks of the node go on; `StatusReads` has the state of the mesh at each of the reads. With an
admin token, `auth_middleware` lets exactly those requests through whose `Authorization` header is
`Bearer` and the token (`authMiddleware_ok_iff`); a token with other characters than visible ASCII
locks everyone out. The iteration over the edges is one step here, and so are the two updates for a
pair of nodes: only with this is a pair always reported alike in both directions.
-/

set_option autoImplicit false

namespace EntrouterLine.Admin

open EntrouterLine.Lib
open EntrouterLine.Relay
open EntrouterLine.Edge
open EntrouterLine.Mesh

inductive StatusCode where
  | unauthorized
  deriving DecidableEq

/-- What the endpoint keeps beside the shared components. -/
structure AdminState where
  nodeId : NodeId
  region : String
  adminToken : Option String

/-! ## Authentication -/

/-- `HeaderValue::to_str`, which fails unless all bytes are visible ASCII characters or tabs. -/
def headerToStr (value : Bytes) : Option Bytes :=
  if value.all fun b => decide (32 ≤ b ∧ b < 127) || b == 9 then some value else none

/-- `"Bearer "`. -/
def bearer : Bytes := [66, 101, 97, 114, 101, 114, 32]

example : bearer = nodeBytes "Bearer " := by decide

/-- `auth_middleware` on the first `Authorization` header of a request. -/
def authMiddleware (adminToken : Option String) (authHeader : Option Bytes) :
    Except StatusCode Unit :=
  match adminToken with
  | none => .ok ()
  | some expected =>
      match authHeader.bind headerToStr with
      | none => .error .unauthorized
      | some value =>
          if bearer <+: value then
            let token := value.drop 7
            if token ≠ nodeBytes expected then .error .unauthorized else .ok ()
          else .error .unauthorized

/-- The header presents the token. -/
def Presents (token : String) (authHeader : Option Bytes) : Prop :=
  authHeader = some (bearer ++ nodeBytes token) ∧ headerToStr (nodeBytes token) ≠ none

theorem headerToStr_eq_some {value str : Bytes} : headerToStr value = some str ↔
    str = value ∧ ∀ b ∈ value, 32 ≤ b ∧ b < 127 ∨ b = 9 := by
  rw [headerToStr]
  split
  case isTrue h =>
    rw [List.all_eq_true] at h
    rw [Option.some.injEq, eq_comm, and_iff_left]
    intro b hb
    simpa using h b hb
  case isFalse h =>
    refine iff_of_false nofun ?_
    rintro ⟨-, hall⟩
    apply h
    rw [List.all_eq_true]
    intro b hb
    simpa using hall b hb

theorem headerToStr_ne_none {value : Bytes} : headerToStr value ≠ none ↔
    ∀ b ∈ value, 32 ≤ b ∧ b < 127 ∨ b = 9 := by
  rw [Option.ne_none_iff_exists']
  constructor
  · rintro ⟨str, hstr⟩
    exact (headerToStr_eq_some.mp hstr).2
  · exact fun hall => ⟨value, headerToStr_eq_some.mpr ⟨rfl, hall⟩⟩

/-- A request passes exactly if there is no token, or its header presents the token. -/
theorem authMiddleware_ok_iff {adminToken : Option String} {authHeader : Option Bytes} :
    authMiddleware adminToken authHeader = .ok () ↔
      ∀ token, adminToken = some token → Presents token authHeader := by
  cases adminToken with
  | none => exact iff_of_true rfl nofun
  | some expected =>
    simp only [Option.some.injEq, forall_eq']
    rw [authMiddleware]
    constructor
    · intro h
      cases hvalue : authHeader.bind headerToStr with
      | none => simp [hvalue] at h
      | some value =>
        simp only [hvalue] at h
        split at h
        case isFalse => cases h
        case isTrue hbearer =>
          split at h
          case isTrue => cases h
          case isFalse htoken =>
            rw [Decidable.not_not] at htoken
            obtain ⟨raw, rfl, hraw⟩ := Option.bind_eq_some_iff.mp hvalue
            obtain ⟨rfl, hall⟩ := headerToStr_eq_some.mp hraw
            obtain ⟨rest, rfl⟩ := hbearer
            obtain rfl : rest = nodeBytes expected := htoken
            exact ⟨rfl, headerToStr_ne_none.mpr fun b hb => hall b (List.mem_append_right _ hb)⟩
    · rintro ⟨rfl, hvisible⟩
      have hall := headerToStr_ne_none.mp hvisible
      have hscheme : ∀ b ∈ bearer, 32 ≤ b ∧ b < 127 ∨ b = 9 := by simp [bearer]
      have hvalue : headerToStr (bearer ++ nodeBytes expected) =
          some (bearer ++ nodeBytes expected) := by
        refine headerToStr_eq_some.mpr ⟨rfl, ?_⟩
        intro b hb
        rcases List.mem_append.mp hb with hb | hb
        · exact hscheme b hb
        · exact hall b hb
      have hdrop : (bearer ++ nodeBytes expected).drop 7 = nodeBytes expected :=
        List.drop_left' rfl
      simp [hvalue, hdrop]

theorem authMiddleware_cases (adminToken : Option String) (authHeader : Option Bytes) :
    authMiddleware adminToken authHeader = .ok () ∨
      authMiddleware adminToken authHeader = .error .unauthorized := by
  cases authMiddleware adminToken authHeader with
  | ok u => exact Or.inl rfl
  | error code =>
    cases code
    exact Or.inr rfl

/-! ## The report -/

/-- The states of the mesh in which the handler reads the edges of the matrix, the number of TCP
flows, that of QUIC flows, and the number of paths. -/
structure StatusReads where
  edges : ProbedMesh
  tcpFlows : ProbedMesh
  quicFlows : ProbedMesh
  paths : ProbedMesh

@[ext]
structure Status where
  nodeId : NodeId
  region : String
  peers : Nat
  tcpFlows : Nat
  quicFlows : Nat
  paths : Nat
  latencies : List (NodeId × NodeId × Nat)

/-- `Forwarder::peer_count`: one tunnel for every peer id. -/
def peerCount (cfg : ProbedConfig) (x : NodeId) : Nat := (cfg.peers x).dedup.length

/-- `status`. All edges are read in one step, and `handle_pong` records the two directions of a pair
in one. In the source these are an iteration over the map and two updates of it, and an iteration
during the two updates may see the first only. -/
def status (cfg : ProbedConfig) (admin : AdminState) (reads : StatusReads) : Status :=
  let x := admin.nodeId
  let edges := (reads.edges.probes.prober x).matrix.allEdges
  { nodeId := x
    region := admin.region
    peers := peerCount cfg x
    tcpFlows := ((reads.tcpFlows.mesh.node x).tables .tcp).activeFlowCount
    quicFlows := ((reads.quicFlows.mesh.node x).tables .quic).activeFlowCount
    paths := (reads.paths.probes.prober x).matrix.pathCount
    latencies := edges.map fun e => (e.1, e.2.1, asMicros e.2.2) }

/-- A `GET` of `/status`, which passes `auth_middleware` first. -/
def statusRoute (cfg : ProbedConfig) (admin : AdminState) (authHeader : Option Bytes)
    (reads : StatusReads) : Except StatusCode Status := do
  authMiddleware admin.adminToken authHeader
  return status cfg admin reads

/-! ## What the report says -/

variable {rs : ReedSolomon} {cfg : ProbedConfig}

/-- Everything that a step can do to the flows and to the probers. -/
theorem probedStep_cases {s t : ProbedMesh} {e : ProbedEvent} {o : Unit}
    (h : probedStep rs cfg s e = .ok (t, o)) :
    FlowMoves cfg.mesh s.mesh t.mesh ∧
      ∃ es os, Machine.run (probeNetStep cfg.peers) s.probes es = .ok (t.probes, os) := by
  cases e with
  | task std e =>
    simp only [probedStep] at h
    cases hanswered : s.answered std e with
    | error fault =>
      rw [hanswered] at h
      cases h
    | ok e' =>
      simp only [hanswered] at h
      cases hstep : s.mesh.step rs cfg.mesh e' with
      | error panic =>
        rw [hstep] at h
        cases h
      | ok mesh =>
        rw [hstep] at h
        cases h
        exact ⟨step_flowMoves hstep, [], [], rfl⟩
  | probe e =>
    simp only [probedStep] at h
    cases hstep : probeNetStep cfg.peers s.probes e with
    | error p => cases p
    | ok result =>
      obtain ⟨probes, o'⟩ := result
      rw [hstep] at h
      cases h
      exact ⟨.same (SameFlows.refl _), [e], [o'], Machine.run_cons_ok hstep (Machine.run_nil _)⟩

/-- What the handler relies on, in every state of a run. -/
structure Reportable (cfg : ProbedConfig) (s : ProbedMesh) : Prop where
  flows : FlowsTabulated s.mesh
  probed : ∃ es os, Machine.run (probeNetStep cfg.peers) ProbeNet.start es = .ok (s.probes, os)

theorem Reportable.run {s t : ProbedMesh} {es : List ProbedEvent} {os : List Unit}
    (h : Reportable cfg s) (hrun : Machine.run (probedStep rs cfg) s es = .ok (t, os)) :
    Reportable cfg t := by
  refine Machine.run_induction (P := fun _ t _ => Reportable cfg t) h ?_ es t os hrun
  rintro es s os e t o ⟨hflows, es₁, os₁, hprobed⟩ hstep
  obtain ⟨hmove, es₂, os₂, hprobes⟩ := probedStep_cases hstep
  exact ⟨hflows.moves hmove, _, _, Machine.run_append hprobed hprobes⟩

theorem reportable_run {s : ProbedMesh} {es : List ProbedEvent} {os : List Unit}
    (hrun : Machine.run (probedStep rs cfg) (ProbedMesh.start cfg) es = .ok (s, os)) :
    Reportable cfg s :=
  Reportable.run ⟨flowsTabulated_start cfg.mesh, [], [], rfl⟩ hrun

theorem Reportable.own {s : ProbedMesh} (h : Reportable cfg s) (x : NodeId) :
    OwnPeers cfg.peers x (s.probes.prober x) := by
  obtain ⟨es, os, hprobed⟩ := h.probed
  exact (probeNet_inv cfg.peers es s.probes os hprobed).own x

theorem Reportable.alike {s : ProbedMesh} (h : Reportable cfg s) (x : NodeId) :
    (s.probes.prober x).Alike := by
  obtain ⟨es, os, hprobed⟩ := h.probed
  exact alike_run hprobed x

/-- Entries and connections are never taken back. -/
theorem grows_run {s t : ProbedMesh} {es : List ProbedEvent} {os : List Unit}
    (hrun : Machine.run (probedStep rs cfg) s es = .ok (t, os)) :
    (∀ x, (s.probes.prober x).matrix.pathCount ≤ (t.probes.prober x).matrix.pathCount) ∧
      (t.mesh.WithinIds → s.mesh.WithinIds) := by
  refine Machine.run_induction
    (P := fun _ t _ => (∀ x, (s.probes.prober x).matrix.pathCount ≤
      (t.probes.prober x).matrix.pathCount) ∧ (t.mesh.WithinIds → s.mesh.WithinIds))
    ⟨fun _ => Nat.le_refl _, fun h => h⟩ ?_ es t os hrun
  rintro es s₁ os e t o ⟨hpaths, hids⟩ hstep
  obtain ⟨hmove, es₂, os₂, hprobes⟩ := probedStep_cases hstep
  refine ⟨fun x => (hpaths x).trans ?_, fun h => hids (hmove.withinIds h)⟩
  exact pathCount_mono fun a b => getRtt_isSome_run hprobes x a b

/-- The report of a node: the numbers of connections are exact when they are read, and the latencies
are those of the node's own peers, alike in both directions where no pair is recorded while the
edges are read. -/
structure Status.Exact (cfg : ProbedConfig) (admin : AdminState) (reads : StatusReads)
    (report : Status) : Prop where
  tcpFlows : report.tcpFlows = reads.tcpFlows.mesh.conns.countP fun conn =>
    conn.node = admin.nodeId ∧ conn.edge = .tcp ∧ ¬ conn.finished
  quicFlows : report.quicFlows = reads.quicFlows.mesh.conns.countP fun conn =>
    conn.node = admin.nodeId ∧ conn.edge = .quic ∧ ¬ conn.finished
  pairs : (report.latencies.map fun e => (e.1, e.2.1)).Nodup
  ends : ∀ a b us, (a, b, us) ∈ report.latencies →
    a = admin.nodeId ∧ b ∈ cfg.peers a ∨ b = admin.nodeId ∧ a ∈ cfg.peers b
  alike : ∀ a b us, (a, b, us) ∈ report.latencies → (b, a, us) ∈ report.latencies
  counted : report.latencies.length ≤ report.paths
  bounded : report.paths ≤ 2 * report.peers

theorem status_exact {admin : AdminState} {reads : StatusReads} {es₂ es₃ es₄ : List ProbedEvent}
    {os₂ os₃ os₄ : List Unit} (hedges : Reportable cfg reads.edges)
    (htcp : Machine.run (probedStep rs cfg) reads.edges es₂ = .ok (reads.tcpFlows, os₂))
    (hquic : Machine.run (probedStep rs cfg) reads.tcpFlows es₃ = .ok (reads.quicFlows, os₃))
    (hpaths : Machine.run (probedStep rs cfg) reads.quicFlows es₄ = .ok (reads.paths, os₄))
    (hids : reads.quicFlows.mesh.WithinIds) : (status cfg admin reads).Exact cfg admin reads := by
  have hmem : ∀ a b us, (a, b, us) ∈ (status cfg admin reads).latencies ↔
      ∃ rtt, (reads.edges.probes.prober admin.nodeId).matrix.getRtt a b = some rtt ∧
        asMicros rtt = us := by
    intro a b us
    refine List.mem_map.trans ?_
    constructor
    · rintro ⟨⟨a', b', rtt⟩, hedge, heq⟩
      rw [Prod.mk.injEq, Prod.mk.injEq] at heq
      obtain ⟨rfl, rfl, rfl⟩ := heq
      exact ⟨rtt, mem_allEdges.mp hedge, rfl⟩
    · rintro ⟨rtt, hrtt, rfl⟩
      exact ⟨(a, b, rtt), mem_allEdges.mpr hrtt, rfl⟩
  have hquicReport := (hedges.run htcp).run hquic
  refine ⟨?_, ?_, ?_, ?_, ?_, ?_, ?_⟩
  · dsimp only [status]
    exact (hedges.run htcp).flows.activeFlowCount_eq ((grows_run hquic).2 hids) admin.nodeId .tcp
  · dsimp only [status]
    exact hquicReport.flows.activeFlowCount_eq hids admin.nodeId .quic
  · show ((List.map _ _).map _).Nodup
    rw [List.map_map]
    exact nodup_allEdges _
  · intro a b us hlatency
    obtain ⟨rtt, hrtt, -⟩ := (hmem a b us).mp hlatency
    have hsome : ((reads.edges.probes.prober admin.nodeId).matrix.getRtt a b).isSome := by
      rw [hrtt]
      rfl
    rcases (hedges.own admin.nodeId).edges a b hsome with ⟨rfl, hpeer⟩ | ⟨rfl, hpeer⟩
    · exact Or.inl ⟨rfl, hpeer⟩
    · exact Or.inr ⟨rfl, hpeer⟩
  · intro a b us hlatency
    obtain ⟨rtt, hrtt, hus⟩ := (hmem a b us).mp hlatency
    refine (hmem b a us).mpr ⟨rtt, ?_, hus⟩
    rw [← hedges.alike admin.nodeId a b]
    exact hrtt
  · -- the number of paths is read last
    have hgrows := ((grows_run htcp).1 admin.nodeId).trans
      (((grows_run hquic).1 admin.nodeId).trans ((grows_run hpaths).1 admin.nodeId))
    refine Nat.le_trans (Nat.le_of_eq ?_) hgrows
    exact (List.length_map _).trans (length_allEdges _)
  · exact ((hquicReport.run hpaths).own admin.nodeId).pathCount_le

/-- The mesh on the line of three nodes after some steps. -/
def lineAfter (es : List ProbedEvent) : ProbedMesh :=
  ((Machine.run (probedStep smallCodec lineMesh) (ProbedMesh.start lineMesh) es).toOption.map
    Prod.fst).getD (ProbedMesh.start lineMesh)

/-- Sydney measures its peer and gets a client. -/
def sydneyServes : List ProbedEvent := sydneyMeasures ++ [.task .firstLeast (.accept "syd" .tcp)]

/-- Another client comes between the reads of the numbers of TCP and of QUIC flows. -/
def sydneyReads : StatusReads :=
  let before := lineAfter sydneyServes
  let after := lineAfter (sydneyServes ++ [.task .firstLeast (.accept "syd" .tcp)])
  ⟨before, before, after, after⟩

def sydneyAdmin : AdminState := ⟨"syd", "apac", some "secret"⟩

def sydneyStatus : Status :=
  ⟨"syd", "apac", 1, 1, 0, 2, [("sgp", "syd", 50000), ("syd", "sgp", 50000)]⟩

end EntrouterLine.Admin
