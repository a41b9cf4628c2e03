import EntrouterLine.Mesh.Provenance
import EntrouterLine.Relay.FecRoundTrip

/-!
# Which connections a client receives from

A relay payload carries its flow id and its destination, and nothing else about where it comes from.
Every node counts flow ids from the same start, and the destination's edge hands a delivery to
whichever of its own clients has that id. So the bytes of two source connections with one flow id
and one destination reach the same client (`twoSources_reach_one_client`). They are kept apart in
every run in which no connection reads while another has sent data to its destination under its flow
id (`flows_isolated`).
-/

set_option autoImplicit false

namespace EntrouterLine.Mesh

open EntrouterLine.Lib
open EntrouterLine.Relay
open EntrouterLine.Edge

variable {rs : ReedSolomon} {cfg : MeshConfig} {s t : MeshState} {c : ConnId}

/-- The two connections relay to one node under one flow id. -/
def Conn.SameTarget (conn other : Conn) : Prop :=
  conn.flowId = other.flowId ∧ wireDest conn.destNode = wireDest other.destNode

theorem Conn.SameTarget.symm {conn other : Conn} (h : conn.SameTarget other) :
    other.SameTarget conn :=
  ⟨h.1.symm, h.2.symm⟩

/-- Another connection, `b`, has sent data to the destination of `a` under the flow id of `a`. -/
def Clash (s : MeshState) (a b : ConnId) : Prop :=
  a ≠ b ∧ ∃ conn other, s.conns[a]? = some conn ∧ s.conns[b]? = some other ∧
    conn.SameTarget other ∧ other.bytesRead ≠ []

/-- The step is no read that makes connection `c` clash with another one. -/
def NoClash (c : ConnId) (s : MeshState) : MeshEvent → Prop
  | .read a _ => ∀ b, a = c ∨ b = c → ¬ Clash s a b
  | _ => True

/-- No other connection has sent data to the destination of `c` under its flow id, if `c` has. -/
def Alone (s : MeshState) (c : ConnId) : Prop :=
  ∀ (conn : Conn) (b : ConnId) (other : Conn), s.conns[c]? = some conn → s.conns[b]? = some other →
    conn.bytesRead ≠ [] → other.bytesRead ≠ [] → conn.SameTarget other → b = c

theorem alone_start (cfg : MeshConfig) (c : ConnId) : Alone (MeshState.start cfg) c := by
  intro conn b other h
  cases h

/-- A move without a clash leaves the connection alone. -/
theorem Alone.moves (h : Alone s c) {e : MeshEvent} (hclash : NoClash c s e)
    (hmove : Moves rs cfg s e t) : Alone t c := by
  intro conn' b other' hconn' hother' hread' hotherRead' hsame'
  by_contra hne
  obtain ⟨conn, hconn, -, hflow, hdest, hread⟩ := (hmove.continues hconn').resolve_left hread'
  obtain ⟨other, hother, -, hflow', hdest', hotherRead⟩ :=
    (hmove.continues hother').resolve_left hotherRead'
  have hsame : conn.SameTarget other := by
    rw [Conn.SameTarget, ← hflow, ← hflow', ← hdest, ← hdest']
    exact hsame'
  rcases hread with hread | ⟨data, rfl⟩
  · -- the connection had read before this step
    rw [hread] at hread'
    rcases hotherRead with hotherRead | ⟨data, rfl⟩
    · rw [hotherRead] at hotherRead'
      exact hne (h conn b other hconn hother hread' hotherRead' hsame)
    · -- the other connection reads
      exact hclash c (Or.inr rfl) ⟨hne, other, conn, hother, hconn, hsame.symm, hread'⟩
  · -- the connection itself reads, so the other one does not
    have hotherOld : other'.bytesRead = other.bytesRead := by
      rcases hotherRead with hold | ⟨data', heq⟩
      · exact hold
      · cases heq
        exact absurd rfl hne
    rw [hotherOld] at hotherRead'
    exact hclash b (Or.inl rfl)
      ⟨fun heq => hne heq.symm, conn, other, hconn, hother, hsame, hotherRead'⟩

/-- Two deliveries for one node under one flow id have one source, if it is alone. -/
theorem Addressed.source_eq {x : NodeId} {d d' : LocalDelivery} (h : Addressed s.conns x d)
    (h' : Addressed s.conns x d') (hflow : d.flowId = d'.flowId) (hsource : d.source = some c)
    (halone : Alone s c) : d'.source = some c := by
  obtain ⟨a, conn, hconn, hread, ha, hdest, hflowId⟩ := h
  obtain ⟨b, other, hother, hread', hb, hdest', hflowId'⟩ := h'
  rw [hsource, Option.some.injEq] at ha
  subst ha
  have hsame : conn.SameTarget other :=
    ⟨by rw [hflowId, hflowId', hflow], by rw [hdest, hdest']⟩
  rw [hb, halone conn b other hconn hother hread hread' hsame]

/-! ## Isolation -/

/-- No read clashes with another connection, and shards find their own entries. -/
def IsolationCond (s : MeshState) (e : MeshEvent) : Prop :=
  ShardsFindOwnEntries s e ∧ ∀ c, NoClash c s e

/-- Everything that has been put into a client's response channel comes from one connection. -/
def Isolated (s : MeshState) : Prop :=
  ∀ (k : ConnId) (conn : Conn), s.conns[k]? = some conn →
    ∃ c : ConnId, ∀ d ∈ conn.accepted, d.source = some c

/-- In every run along the condition, everything in a client's response channel comes from one
connection. -/
theorem flows_isolated (hlaw : ∀ x, Lawful rs (cfg.fecConfig x)) {es : List MeshEvent}
    (hcond : Machine.Along (meshStep rs cfg) IsolationCond (MeshState.start cfg) es) :
    ∃ s os, Machine.run (meshStep rs cfg) (MeshState.start cfg) es = .ok (s, os) ∧ Isolated s := by
  obtain ⟨s, os, hrun, hprov, halone⟩ := provenance_run (P := fun s => ∀ c, Alone s c) hlaw
    (fun s e h => h.1) (alone_start cfg)
    (fun s e t _ hP hC hmove c => (hP c).moves (hC.2 c) hmove) hcond
  refine ⟨s, os, hrun, ?_⟩
  intro k conn hconn
  cases hfirst : conn.accepted with
  | nil => exact ⟨0, fun d hd => by cases hd⟩
  | cons first rest =>
    rw [← hfirst]
    have hmem : first ∈ conn.accepted := by
      rw [hfirst]
      exact List.mem_cons_self
    obtain ⟨haddressed, hflow⟩ := hprov.accepted k conn hconn first hmem
    obtain ⟨c, -, -, -, hsource, -⟩ := id haddressed
    refine ⟨c, ?_⟩
    intro d hd
    -- all deliveries in the channel have the client's flow id, and are at its node
    obtain ⟨haddressed', hflow'⟩ := hprov.accepted k conn hconn d hd
    exact haddressed.source_eq haddressed' (hflow.trans hflow'.symm) hsource (halone c)

/-! ## Two sources -/

/-- Every node relays to `sgp-01`, over a tunnel of its own. -/
def toSgp : MeshConfig :=
  ⟨fun _ => "sgp-01", fun x y => x ≠ y, fun _ => replicaConfig⟩

theorem lawful_toSgp (x : NodeId) : Lawful smallCodec (toSgp.fecConfig x) := lawful_replica

/-- A client of `sgp-01`, and a client of `syd-01` whose byte reaches it. -/
def oneSource : List MeshEvent :=
  [.accept "sgp-01" .tcp, .accept "syd-01" .tcp, .read 1 [7], .send 1 (some "sgp-01"),
    .shard "syd-01" "sgp-01" 0 0 0, .route "sgp-01" none, .dispatch "sgp-01"]

/-- A client of `lon-01` does the same. -/
def twoSources : List MeshEvent :=
  oneSource ++ [.accept "lon-01" .tcp, .read 2 [8], .send 2 (some "sgp-01"),
    .shard "lon-01" "sgp-01" 0 0 0, .route "sgp-01" none, .dispatch "sgp-01"]

/-- All three clients have flow id 1, and the bytes of the other two are put into the channel of the
client of `sgp-01`. -/
theorem twoSources_reach_one_client :
    (∀ x, Lawful smallCodec (toSgp.fecConfig x)) ∧
      ∃ s os, Machine.run (meshStep smallCodec toSgp) (MeshState.start toSgp) twoSources =
        .ok (s, os) ∧ ¬ Isolated s := by
  refine ⟨lawful_toSgp, _, _, rfl, ?_⟩
  intro hisolated
  obtain ⟨c, hc⟩ := hisolated 0 _ rfl
  have hsyd : some 1 = some c := hc ⟨1, [7], "syd-01", some 1⟩ List.mem_cons_self
  have hlon : some 2 = some c :=
    hc ⟨1, [8], "lon-01", some 2⟩ (List.mem_cons_of_mem _ List.mem_cons_self)
  rw [← hsyd] at hlon
  exact absurd hlon (by decide)

theorem flows_isolated_oneSource :
    ∃ s os, Machine.run (meshStep smallCodec toSgp) (MeshState.start toSgp) oneSource =
        .ok (s, os) ∧ Isolated s := by
  apply flows_isolated lawful_toSgp
  refine Machine.Along.cons rfl ⟨trivial, fun _ => trivial⟩ ?_
  refine Machine.Along.cons rfl ⟨trivial, fun _ => trivial⟩ ?_
  refine Machine.Along.cons rfl ⟨trivial, fun c b _ => ?_⟩ ?_
  · -- the client of `sgp-01` has sent nothing
    rintro ⟨hne, conn, other, -, hother, -, hread⟩
    rcases b with _ | _ | b
    · cases hother
      exact hread rfl
    · exact hne rfl
    · cases hother
  refine Machine.Along.cons rfl ⟨trivial, fun _ => trivial⟩ ?_
  refine Machine.Along.cons rfl ⟨fun h => absurd rfl h, fun _ => trivial⟩ ?_
  refine Machine.Along.cons rfl ⟨trivial, fun _ => trivial⟩ ?_
  exact Machine.Along.cons rfl ⟨trivial, fun _ => trivial⟩ trivial

end EntrouterLine.Mesh
