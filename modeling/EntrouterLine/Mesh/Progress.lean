import EntrouterLine.Lib.Progress
import EntrouterLine.Mesh.FlowIsolation

/-!
# The forwarder finishes what it routes

While a forwarder routes payloads it takes no packet, and it waits while the local delivery channel
is full. The dispatcher empties the channel and never waits. So no node waits for another: in every
run in which a node's forwarder and dispatcher are served often enough, the forwarder gets through
the payloads it has, whatever happens in between.
-/

set_option autoImplicit false

namespace EntrouterLine.Mesh

open EntrouterLine.Lib
open EntrouterLine.Relay
open EntrouterLine.Edge

variable {rs : ReedSolomon} {cfg : MeshConfig} {s t : MeshState} {x : NodeId}

/-- Steps of the forwarder and of the dispatcher that are left. A payload that the forwarder routes
to its own node makes one for the dispatcher. -/
def Node.backlog (node : Node) : Nat := 2 * node.routing.length + node.localQueue.length

/-- A change of a node that leaves less to do, or as much of both. -/
def Node.Calms (node node' : Node) : Prop :=
  node'.backlog < node.backlog ∨
    node'.routing = node.routing ∧ node'.localQueue = node.localQueue

theorem Node.calms_refl (node : Node) : node.Calms node := Or.inr ⟨rfl, rfl⟩

theorem Node.Calms.backlog_le {node node' : Node} (h : node.Calms node') :
    node'.backlog ≤ node.backlog := by
  rcases h with hlt | ⟨hrouting, hqueue⟩
  · exact Nat.le_of_lt hlt
  · rw [Node.backlog, Node.backlog, hrouting, hqueue]

/-- A change of one node that calms it calms every node. -/
theorem calms_setNode (x : NodeId) {y : NodeId} {node : Node} (h : (s.node y).Calms node) :
    (s.node x).Calms ((s.setNode y node).node x) :=
  forall_node_setNode (P := fun x node => (s.node x).Calms node) h (fun x => (s.node x).calms_refl)
    x

theorem calms_of_node_eq (h : t.node = s.node) (x : NodeId) : (s.node x).Calms (t.node x) := by
  rw [h]
  exact Node.calms_refl _

theorem Delivers.node_eq {delivery : LocalDelivery} (h : Delivers s x delivery t) :
    t.node = s.node := by
  cases h <;> rfl

/-! ## What steps do to the backlog -/

theorem sendToNode_node {c : ConnId} {nextHop : Option NodeId}
    (h : sendToNode rs cfg s c nextHop = .ok t) : t.node = s.node := by
  rcases sendToNode_cases h with rfl | ⟨conn, -, rfl | ⟨piece, rest, hop, l, -, rfl⟩⟩
  · rfl
  · rfl
  · rfl

theorem flushSender_node {y peer : NodeId} (h : flushSender rs s y peer = .ok t) :
    t.node = s.node := by
  rcases flushSender_cases h with rfl | ⟨l, -, rfl⟩
  · rfl
  · rfl

/-- A busy forwarder takes no shard. -/
theorem handleInbound_node (hbusy : (s.node x).routing ≠ []) {fromPeer y : NodeId} {now n i : Nat}
    (h : handleInbound rs cfg s fromPeer y now n i = .ok t) : t.node x = s.node x := by
  rcases handleInbound_cases h with rfl | ⟨hidle, l, payloads, -, rfl⟩
  · rfl
  · have hne : x ≠ y := by
      rintro rfl
      exact hbusy hidle
    exact node_setNode_of_ne _ hne _

/-- The forwarder of `y` waits, because there is nothing to route or the channel is full, or the
first payload leaves its list. -/
theorem routeData_node {y : NodeId} {nextHop : Option NodeId}
    (h : routeData rs cfg s y nextHop = .ok t) :
    (t = s ∧ ((s.node y).routing = [] ∨ localCapacity ≤ (s.node y).localQueue.length)) ∨
      ∃ node, t.node = (s.setNode y node).node ∧ node.backlog < (s.node y).backlog := by
  rcases routeData_cases h with hwaits |
    ⟨payload, rest, hrouting, rfl | ⟨delivery, rfl⟩ | ⟨hop, l, -, rfl⟩⟩
  · exact Or.inl hwaits
  · refine Or.inr ⟨_, rfl, ?_⟩
    simp only [Node.backlog, hrouting, List.length_cons]
    omega
  · -- a payload for this node counts twice, and makes one delivery
    refine Or.inr ⟨_, rfl, ?_⟩
    simp only [Node.backlog, hrouting, List.length_cons, List.length_append, List.length_nil]
    omega
  · refine Or.inr ⟨_, rfl, ?_⟩
    simp only [Node.backlog, hrouting, List.length_cons]
    omega

/-- The forwarder routes a payload whenever the channel has room. -/
theorem backlog_routeData_lt (hbusy : (s.node x).routing ≠ [])
    (hroom : (s.node x).localQueue.length < localCapacity) {nextHop : Option NodeId}
    (hroute : routeData rs cfg s x nextHop = .ok t) :
    (t.node x).backlog < (s.node x).backlog := by
  rcases routeData_node hroute with ⟨-, hidle | hfull⟩ | ⟨node, hnode, hlt⟩
  · exact absurd hidle hbusy
  · omega
  · rw [hnode, node_setNode_self]
    exact hlt

theorem routeData_calms {y : NodeId} {nextHop : Option NodeId}
    (hroute : routeData rs cfg s y nextHop = .ok t) : (s.node x).Calms (t.node x) := by
  rcases routeData_node hroute with ⟨rfl, -⟩ | ⟨node, hnode, hlt⟩
  · exact Node.calms_refl _
  · rw [hnode]
    exact calms_setNode x (Or.inl hlt)

/-- The dispatcher takes a delivery whenever there is one. -/
theorem backlog_dispatch_lt (hqueue : (s.node x).localQueue ≠ []) :
    ((dispatch s x).node x).backlog < (s.node x).backlog := by
  obtain ⟨delivery, rest, hcons⟩ := List.exists_cons_of_ne_nil hqueue
  rw [dispatch, hcons]
  simp only [(deliver_delivers _ x _ delivery).node_eq, node_setNode_self, Node.backlog, hcons,
    List.length_cons]
  omega

/-- The tasks of a connection leave the nodes alone. -/
theorem readClient_node (s : MeshState) (c : ConnId) (data : Bytes) :
    (readClient s c data).node = s.node := by
  unfold readClient
  split
  · rfl
  · split <;> rfl

theorem endRead_node (s : MeshState) (c : ConnId) : (endRead s c).node = s.node := by
  unfold endRead
  split
  · rfl
  · split <;> rfl

theorem writeClient_node (s : MeshState) (c : ConnId) (ok : Bool) :
    (writeClient s c ok).node = s.node := by
  unfold writeClient
  split
  · rfl
  · split
    · split <;> rfl
    · rfl

theorem endWrite_node (s : MeshState) (c : ConnId) : (endWrite s c).node = s.node := by
  unfold endWrite
  split
  · rfl
  · split <;> rfl

/-- While a forwarder is busy no step raises its backlog, and one that does not lower it leaves the
payloads and the channel as they are. -/
theorem step_calms (hbusy : (s.node x).routing ≠ []) {e : MeshEvent}
    (h : s.step rs cfg e = .ok t) : (s.node x).Calms (t.node x) := by
  cases e with
  | accept y edge =>
    cases h
    exact calms_setNode x (Or.inr ⟨rfl, rfl⟩)
  | read c data =>
    cases h
    exact calms_of_node_eq (readClient_node s c data) x
  | send c nextHop => exact calms_of_node_eq (sendToNode_node h) x
  | endRead c =>
    cases h
    exact calms_of_node_eq (endRead_node s c) x
  | write c ok =>
    cases h
    exact calms_of_node_eq (writeClient_node s c ok) x
  | endWrite c =>
    cases h
    exact calms_of_node_eq (endWrite_node s c) x
  | endConnection c =>
    cases h
    unfold endConnection
    split
    · exact Node.calms_refl _
    · split
      · exact calms_setNode x (Or.inr ⟨rfl, rfl⟩)
      · exact Node.calms_refl _
  | shard fromPeer y now n i =>
    rw [handleInbound_node hbusy h]
    exact Node.calms_refl _
  | route y nextHop => exact routeData_calms h
  | flush y peer => exact calms_of_node_eq (flushSender_node h) x
  | expire y peer now =>
    cases h
    unfold expireReceiver
    split
    · exact Node.calms_refl _
    · exact Node.calms_refl _
  | dispatch y =>
    cases h
    cases hqueue : (s.node y).localQueue with
    | nil =>
      rw [dispatch, hqueue]
      exact Node.calms_refl _
    | cons delivery rest =>
      -- the edge drops the delivery or takes it, and the node is the same
      rw [dispatch, hqueue, (deliver_delivers _ y _ delivery).node_eq]
      refine calms_setNode x (Or.inl ?_)
      simp only [Node.backlog, hqueue, List.length_cons]
      omega

/-! ## Rounds -/

/-- A step of the forwarder or of the dispatcher of `x` that does not have to wait. -/
def Helps (x : NodeId) (s : MeshState) (e : MeshEvent) : Prop :=
  ((∃ nextHop, e = .route x nextHop) ∧ (s.node x).localQueue.length < localCapacity) ∨
    (e = .dispatch x ∧ (s.node x).localQueue ≠ [])

theorem helps_of_queue_eq {s t : MeshState} (h : (t.node x).localQueue = (s.node x).localQueue)
    {e : MeshEvent} (hhelps : Helps x s e) : Helps x t e := by
  rw [Helps, h]
  exact hhelps

theorem backlog_lt_of_helps (hbusy : (s.node x).routing ≠ []) {e : MeshEvent}
    (hhelps : Helps x s e) (hstep : s.step rs cfg e = .ok t) :
    (t.node x).backlog < (s.node x).backlog := by
  rcases hhelps with ⟨⟨nextHop, rfl⟩, hroom⟩ | ⟨rfl, hqueue⟩
  · exact backlog_routeData_lt hbusy hroom hstep
  · cases hstep
    exact backlog_dispatch_lt hqueue

/-- The forwarder and the dispatcher of `x` each take a step, in whatever order. -/
def ServesOnce (x : NodeId) (round : List MeshEvent) : Prop :=
  (∃ nextHop, .route x nextHop ∈ round) ∧ .dispatch x ∈ round

/-- One of the two never has to wait: a full channel is not empty. -/
theorem ServesOnce.exists_helps {round : List MeshEvent} (h : ServesOnce x round) (s : MeshState) :
    ∃ e ∈ round, Helps x s e := by
  obtain ⟨⟨nextHop, hroute⟩, hdispatch⟩ := h
  by_cases hroom : (s.node x).localQueue.length < localCapacity
  · exact ⟨_, hroute, Or.inl ⟨⟨nextHop, rfl⟩, hroom⟩⟩
  · refine ⟨_, hdispatch, Or.inr ⟨rfl, ?_⟩⟩
    intro hempty
    rw [hempty] at hroom
    exact hroom (by decide)

theorem step_of_meshStep {e : MeshEvent} {o : Unit} (h : meshStep rs cfg s e = .ok (t, o)) :
    s.step rs cfg e = .ok t := by
  unfold meshStep at h
  cases hstep : s.step rs cfg e with
  | error panic =>
    rw [hstep] at h
    cases h
  | ok t' =>
    rw [hstep] at h
    cases h
    rfl

/-- A step that succeeds advances a busy forwarder, or leaves what helps it as it is. -/
theorem advances_step (hbusy : (s.node x).routing ≠ []) {e : MeshEvent} {o : Unit}
    (hmesh : meshStep rs cfg s e = .ok (t, o)) :
    Machine.Advances (meshStep rs cfg) (fun _ => True) (fun s => (s.node x).backlog) (Helps x)
      s e t o := by
  refine ⟨hmesh, trivial, ?_⟩
  have hstep : s.step rs cfg e = .ok t := step_of_meshStep hmesh
  have hcalms := step_calms hbusy hstep
  have hle := hcalms.backlog_le
  by_cases hhelps : Helps x s e
  · exact Or.inl (backlog_lt_of_helps hbusy hhelps hstep)
  · rcases hcalms with hlt | ⟨hrouting, hqueue⟩
    · exact Or.inl hlt
    · exact Or.inr ⟨hle, hhelps, fun e' => helps_of_queue_eq hqueue⟩

/-- In every state, as many rounds as the forwarder of `x` has payloads and the channel has
deliveries, the payloads counted twice, let the forwarder finish, if no step aborts: it takes
packets again. The rounds may hold any other steps of this and of other nodes. -/
theorem forwarder_finishes {rounds : List (List MeshEvent)} {u : MeshState} {os : List Unit}
    (hrun : Machine.run (meshStep rs cfg) s rounds.flatten = .ok (u, os)) (x : NodeId)
    (hrounds : ∀ round ∈ rounds, ServesOnce x round)
    (hlen : 2 * (s.node x).routing.length + (s.node x).localQueue.length ≤ rounds.length) :
    ∃ steps t os', steps <+: rounds.flatten ∧
      Machine.run (meshStep rs cfg) s steps = .ok (t, os') ∧ (t.node x).routing = [] := by
  have hreaches : Machine.Reaches (meshStep rs cfg) (fun s => (s.node x).routing = []) s
      rounds.flatten := by
    apply Machine.reaches_of_rounds (I := fun _ => True)
      (C := fun s e => ∃ r, meshStep rs cfg s e = .ok r)
    · rintro s e - ⟨⟨t, o⟩, hstep⟩ hbusy
      exact ⟨t, o, advances_step hbusy hstep⟩
    · intro s _ hzero
      have hbacklog : 2 * (s.node x).routing.length + (s.node x).localQueue.length = 0 := hzero
      exact List.length_eq_zero_iff.mp (by omega)
    · exact fun round hround s _ _ => (hrounds round hround).exists_helps s
    · trivial
    · exact Machine.along_ok_of_run hrun
    · exact hlen
  obtain ⟨steps, t, os', hpre, hsteps, hidle⟩ := hreaches
  exact ⟨steps, t, os', hpre, hsteps, hidle⟩

/-- A byte of a client of `syd-01` has come to `sgp-01`, whose forwarder has to route it. -/
def sgpReceives : List MeshEvent :=
  [.accept "syd-01" .tcp, .read 0 [7], .send 0 (some "sgp-01"), .shard "syd-01" "sgp-01" 0 0 0]

/-- Two rounds at `sgp-01`, with a step of another node in between. -/
def sgpRounds : List (List MeshEvent) :=
  [[.dispatch "sgp-01", .read 0 [8], .route "sgp-01" none], [.route "sgp-01" none,
    .dispatch "sgp-01"]]

theorem forwarder_finishes_sgp :
    ∃ s os, Machine.run (meshStep smallCodec toSgp) (MeshState.start toSgp) sgpReceives =
        .ok (s, os) ∧ (s.node "sgp-01").routing.length = 1 ∧
      ∃ steps t os', steps <+: sgpRounds.flatten ∧
        Machine.run (meshStep smallCodec toSgp) s steps = .ok (t, os') ∧
          (t.node "sgp-01").routing = [] := by
  have hrun : Machine.run (meshStep smallCodec toSgp) (MeshState.start toSgp) sgpReceives =
      .ok (_, _) := rfl
  refine ⟨_, _, hrun, rfl, forwarder_finishes rfl "sgp-01" ?_ (Nat.le_refl 2)⟩
  intro round hround
  rcases List.mem_cons.mp hround with rfl | hlast
  · exact ⟨⟨none, by simp⟩, by simp⟩
  · rw [List.mem_singleton.mp hlast]
    exact ⟨⟨none, by simp⟩, by simp⟩

end EntrouterLine.Mesh
