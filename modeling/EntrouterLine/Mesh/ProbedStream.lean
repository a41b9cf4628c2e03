import EntrouterLine.Mesh.ProbedMesh
import EntrouterLine.Mesh.StreamOrder

/-!
# The order of a stream in the mesh with its routers

A stream keeps its order if its payloads take one course, which `StreamCond` asks of every answer of
`next_hop`. The routers of the program see to that: with the probers beside the mesh, the course of
a flow is the one link from its source to its destination, and every answer keeps to it
(`OneHop.streamCond`). What is left to ask for is the order in which the blocks of that link
complete, and that no other connection reads data for the destination under the flow's id.

The clients of the destination are given the data that is handed to the edges, less what finds a
response channel full or closed (`FromHanded`).
-/

set_option autoImplicit false

namespace EntrouterLine.Mesh

open EntrouterLine.Lib
open EntrouterLine.Lib.Course
open EntrouterLine.Relay
open EntrouterLine.Edge

/-! ## The course of a flow -/

/-- One hop, from the source to the destination. -/
def Flow.next (f : Flow) (x : NodeId) : Option NodeId :=
  if x = f.source ∧ f.dest ≠ f.source then some f.dest else none

variable {f : Flow}

theorem Flow.next_eq_some {x y : NodeId} (h : f.next x = some y) :
    x = f.source ∧ y = f.dest ∧ f.dest ≠ f.source := by
  rw [Flow.next] at h
  split at h
  case isTrue hx => exact ⟨hx.1, (Option.some.inj h).symm, hx.2⟩
  case isFalse => cases h

theorem Flow.oneCourse (f : Flow) : OneCourse f.next f.source where
  unique := by
    intro x x' y hx hx'
    rw [(Flow.next_eq_some hx).1, (Flow.next_eq_some hx').1]
  fresh := by
    intro x hx
    obtain ⟨-, hdest, hne⟩ := Flow.next_eq_some hx
    exact hne hdest.symm

/-- No other connection reads data for the destination under the flow's id, and the blocks of the
link from the source to the destination that carry the flow complete in the order in which they
were emitted. -/
def KeepsOrder (f : Flow) (s : ProbedMesh) : ProbedEvent → Prop
  | .task _ (.read a _) => a ≠ f.conn → ∀ other, s.mesh.conns[a]? = some other →
      other.flowId = f.flowId → other.destNode ≠ f.dest
  | .task _ (.shard fromPeer x _ n i) => FindsOwnEntry (s.mesh.link (fromPeer, x)).fec n ∧
      (fromPeer = f.source → x = f.dest → Completing (s.mesh.link (fromPeer, x)).fec n i →
        (s.mesh.link (fromPeer, x)).InOrder f.conn
          ((s.mesh.link (fromPeer, x)).returned ++ [n]))
  | _ => True

theorem KeepsOrder.shardsMeetOwn {s : ProbedMesh} {e : ProbedEvent} (h : KeepsOrder f s e) :
    ShardsMeetOwn s e := by
  cases e with
  | probe e => trivial
  | task std e =>
    cases e with
    | shard fromPeer x now n i => exact h.1
    | _ => trivial

/-- If the flow's connection has been accepted, it is the one that the flow says. -/
def Flow.Known (f : Flow) (s : MeshState) : Prop :=
  ∀ conn, s.conns[f.conn]? = some conn → f.Of conn

variable {rs : ReedSolomon} {cfg : ProbedConfig} {s t : MeshState}

/-- Data of the flow is on its one link only. -/
theorem Flow.Known.hop (h : f.Known s) {x y : NodeId} (hhop : Hop cfg s.conns x y (some f.conn)) :
    x = f.source ∧ y = f.dest := by
  obtain ⟨c, conn, hsource, hconn, hnode, hdest, -⟩ := hhop
  cases hsource
  have hof := h conn hconn
  exact ⟨hnode.symm.trans hof.node_eq, hdest.symm.trans hof.dest_eq⟩

/-- A link that carries nothing of the connection is in order for it. -/
theorem MeshLink.inOrder_of_absent {l : MeshLink} {c : ConnId}
    (h : ∀ t ∈ l.log, t.source ≠ some c) (returned : List Nat) : l.InOrder c returned := by
  have hnone : ∀ n ∈ returned, ¬ l.carries c n = true := by
    intro n _ hcarries
    obtain ⟨t, ht, hsource⟩ := List.any_eq_true.mp hcarries
    refine h t (List.mem_append_left _ ?_) (of_decide_eq_true hsource)
    rw [List.getD_eq_getElem?_getD] at ht
    cases hblock : l.blocks[n]? with
    | none =>
      rw [hblock] at ht
      cases ht
    | some block =>
      rw [hblock] at ht
      exact List.mem_flatten_of_mem (List.mem_of_getElem? hblock) ht
  rw [MeshLink.InOrder, List.filter_eq_nil_iff.mpr hnone]
  exact List.nil_prefix

/-! ## The answers keep to the course -/

/-- The router has no next hop for a connection that is not there, or that relays to its own node.
-/
theorem ProbedMesh.answered_send_none {s : ProbedMesh} {c : ConnId}
    (h : ∀ conn, s.mesh.conns[c]? = some conn → conn.destNode = conn.node) (std : StdOrder)
    (given : Option NodeId) : s.answered std (.send c given) = .ok (.send c none) := by
  rw [ProbedMesh.answered, MeshState.asks]
  cases hconn : s.mesh.conns[c]? with
  | none => rfl
  | some conn =>
    simp only [Option.map_some, ProbedMesh.nextHop, MeshRouter.nextHop, h conn hconn, if_true]
    rfl

/-- Every step comes with an answer that keeps to the course of the flow. -/
theorem OneHop.streamCond {s : ProbedMesh} (h : OneHop rs cfg s)
    (hshort : ∀ x, (nodeBytes (cfg.defaultDest x)).length ≤ 255) (hknown : f.Known s.mesh)
    {std : StdOrder} {e : MeshEvent} (hkeeps : KeepsOrder f s (.task std e)) :
    ∃ e', s.answered std e = .ok e' ∧ StreamCond cfg.mesh f.next f s.mesh e' := by
  obtain ⟨hop, hanswered, hdirect⟩ := ProbedMesh.answered_direct h.own std e
  cases e with
  | read a data =>
    refine ⟨_, hanswered, ?_⟩
    intro hne other hother hflow
    have hdest := h.direct.dests other (List.mem_of_getElem? hother)
    rw [wireDest_eq (by rw [hdest]; exact hshort _)]
    exact fun heq => hkeeps hne other hother hflow (Option.some.inj heq)
  | send c given =>
    by_cases hself : ∀ conn, s.mesh.conns[c]? = some conn → conn.destNode = conn.node
    · exact ⟨_, ProbedMesh.answered_send_none hself std given, fun _ => Or.inl rfl⟩
    · refine ⟨_, hanswered, ?_⟩
      rintro rfl
      obtain ⟨conn, hconn, hne⟩ := not_forall₂.mp hself
      have hof := hknown conn hconn
      cases hop with
      | none => exact Or.inl rfl
      | some hop =>
        -- the next hop is the destination
        obtain ⟨rfl, -⟩ := hdirect conn hconn
        right
        rw [hof.dest_eq, hof.node_eq] at hne
        rw [Flow.next, if_pos ⟨rfl, hne⟩, hof.dest_eq]
  | shard fromPeer x now n i =>
    refine ⟨_, hanswered, hkeeps.1, ?_⟩
    intro hcompleting
    by_cases hlink : fromPeer = f.source ∧ x = f.dest
    · exact hkeeps.2 hlink.1 hlink.2 hcompleting
    · apply MeshLink.inOrder_of_absent
      intro t ht hsource
      have hhop := h.direct.links fromPeer x t ht
      rw [hsource] at hhop
      exact hlink (hknown.hop hhop)
  | route x given =>
    refine ⟨_, hanswered, ?_⟩
    intro t rest hrouting hsource hne
    -- a payload of the flow is at a forwarder: at that of its destination
    have hhop := (h.direct.nodes x).routing t (by rw [hrouting]; exact List.mem_cons_self)
    rw [hsource] at hhop
    exact absurd (hknown.hop hhop).2 hne
  | _ => exact ⟨_, hanswered, trivial⟩

/-! ## What the clients are given -/

/-- What has been put into a client's response channel was handed to the edges of its node under its
flow id, in that order. -/
def FromHanded (s : MeshState) (conn : Conn) : Prop :=
  List.Sublist conn.accepted
    ((s.node conn.node).handed.filter fun d => d.flowId = conn.flowId)

def AllFromHanded (s : MeshState) : Prop := ∀ conn ∈ s.conns, FromHanded s conn

theorem AllFromHanded.of_handed (h : AllFromHanded s) (hconns : t.conns = s.conns)
    (hhanded : ∀ x, List.Sublist (s.node x).handed (t.node x).handed) : AllFromHanded t := by
  intro conn hconn
  rw [hconns] at hconn
  exact (h conn hconn).trans ((hhanded conn.node).filter _)

theorem AllFromHanded.setNode (h : AllFromHanded s) {x : NodeId} {node : Node}
    (hhanded : List.Sublist (s.node x).handed node.handed) : AllFromHanded (s.setNode x node) := by
  apply h.of_handed (conns_setNode s x node)
  exact forall_node_setNode
    (P := fun y node => List.Sublist (s.node y).handed node.handed) hhanded
      fun y => List.Sublist.refl _

theorem AllFromHanded.setConn (h : AllFromHanded s) {c : ConnId} {conn : Conn}
    (hconn : FromHanded s conn) : AllFromHanded (s.setConn c conn) := by
  intro other hother
  rcases List.mem_or_eq_of_mem_set hother with hold | rfl
  · exact h other hold
  · exact hconn

/-- A connection that stays who it is and is given nothing. -/
theorem AllFromHanded.setConn_of_same (h : AllFromHanded s) {c : ConnId} {conn conn' : Conn}
    (hconn : s.conns[c]? = some conn) (hnode : conn'.node = conn.node)
    (hflow : conn'.flowId = conn.flowId) (haccepted : conn'.accepted = conn.accepted) :
    AllFromHanded (s.setConn c conn') := by
  apply h.setConn
  rw [FromHanded, hnode, hflow, haccepted]
  exact h conn (List.mem_of_getElem? hconn)

theorem AllFromHanded.moves {cfg : MeshConfig} (h : AllFromHanded s) (hprov : Provenance rs cfg s)
    {e : MeshEvent} (hmove : Moves rs cfg s e t) : AllFromHanded t := by
  cases hmove with
  | idle => exact h
  | accept x edge =>
    have hnode : AllFromHanded (s.setNode x ((s.node x).setTable edge
        ⟨((s.node x).tables edge).nextFlowId + 1, Function.update
          ((s.node x).tables edge).activeFlows ((s.node x).tables edge).nextFlowId
            (some s.conns.length)⟩)) :=
      h.setNode (List.Sublist.refl _)
    intro conn hconn
    rcases List.mem_append.mp hconn with hold | hnew
    · exact hnode conn hold
    · rw [List.mem_singleton.mp hnew]
      exact List.nil_sublist _
  | read hconn => exact h.setConn_of_same hconn rfl rfl rfl
  | sent hconn =>
    exact AllFromHanded.setConn_of_same (h.of_handed rfl fun _ => List.Sublist.refl _) hconn rfl rfl
      rfl
  | sendFailed hconn => exact h.setConn_of_same hconn rfl rfl rfl
  | task hconn hstep =>
    exact h.setConn_of_same hconn hstep.node_eq hstep.flowId_eq hstep.accepted_eq
  | ended hconn =>
    refine AllFromHanded.setConn_of_same ?_ hconn rfl rfl rfl
    exact h.setNode (List.Sublist.refl _)
  | received =>
    exact AllFromHanded.setNode (h.of_handed rfl fun _ => List.Sublist.refl _)
      (List.Sublist.refl _)
  | routedHere => exact h.setNode (List.Sublist.refl _)
  | routedOn =>
    exact AllFromHanded.setNode (h.of_handed rfl fun _ => List.Sublist.refl _)
      (List.Sublist.refl _)
  | dropped => exact h.setNode (List.Sublist.refl _)
  | flushed => exact h.of_handed rfl fun _ => List.Sublist.refl _
  | expired => exact h.of_handed rfl fun _ => List.Sublist.refl _
  | @dispatched x delivery rest t hqueue hdelivers =>
    cases hdelivers with
    | dropped => exact h.setNode (List.sublist_append_left _ _)
    | @accepted edge c conn htable hconn =>
      have hnode : AllFromHanded (s.setNode x { s.node x with
          localQueue := rest
          handed := (s.node x).handed ++ [delivery] }) :=
        h.setNode (List.sublist_append_left _ _)
      apply hnode.setConn
      -- the connection is the one that the table names
      rw [node_setNode_self] at htable
      obtain ⟨conn', hconn', rfl, hflow⟩ := hprov.tables x edge delivery.flowId c htable
      rw [conns_setNode] at hconn
      rw [hconn, Option.some.injEq] at hconn'
      subst hconn'
      rw [FromHanded, node_setNode_self, List.filter_append,
        List.filter_cons_of_pos (by simpa using hflow.symm)]
      exact (h conn (List.mem_of_getElem? hconn)).append (List.Sublist.refl _)

/-! ## Runs -/

/-- What every run that keeps the order keeps. -/
structure StreamKept (rs : ReedSolomon) (cfg : ProbedConfig) (f : Flow) (s : ProbedMesh) :
    Prop where
  oneHop : OneHop rs cfg s
  fromHanded : AllFromHanded s.mesh
  inStream : f.Known s.mesh → f.Sole s.mesh ∧ InStream f.next f s.mesh

theorem streamKept_start (hlaw : ∀ x, Lawful rs (cfg.fecConfig x)) (f : Flow) :
    StreamKept rs cfg f (ProbedMesh.start cfg) where
  oneHop := ⟨⟨[], [], rfl⟩, provenance_start hlaw, direct_start cfg⟩
  fromHanded := nofun
  inStream _ := ⟨nofun, nofun⟩

/-- Every move keeps who the connections are. -/
theorem Moves.grows {cfg : MeshConfig} {e : MeshEvent} (hmove : Moves rs cfg s e t) :
    Grows s.conns t.conns := by
  have hrefl : Grows s.conns s.conns := fun c conn hconn =>
    ⟨conn, hconn, rfl, rfl, rfl, List.prefix_refl _⟩
  cases hmove with
  | idle => exact hrefl
  | accept x edge => exact grows_append _ _
  | read hconn => exact grows_set hconn rfl rfl rfl (List.prefix_append _ _)
  | sent hconn => exact grows_set hconn rfl rfl rfl (List.prefix_refl _)
  | sendFailed hconn => exact grows_set hconn rfl rfl rfl (List.prefix_refl _)
  | task hconn hstep =>
    apply grows_set hconn hstep.node_eq hstep.flowId_eq hstep.destNode_eq
    rw [hstep.bytesRead_eq]
  | ended hconn => exact grows_set hconn rfl rfl rfl (List.prefix_refl _)
  | received => exact hrefl
  | routedHere => exact hrefl
  | routedOn => exact hrefl
  | dropped => exact hrefl
  | flushed => exact hrefl
  | expired => exact hrefl
  | dispatched hqueue hdelivers =>
    cases hdelivers with
    | dropped => exact hrefl
    | accepted htable hconn => exact grows_set hconn rfl rfl rfl (List.prefix_refl _)

theorem Flow.Known.of_grows (h : f.Known t) (hgrows : Grows s.conns t.conns) : f.Known s := by
  intro conn hconn
  obtain ⟨conn', hconn', hnode, hflow, hdest, -⟩ := hgrows f.conn conn hconn
  exact (h conn' hconn').of_same hnode hdest hflow

theorem StreamKept.step {s : ProbedMesh} (h : StreamKept rs cfg f s)
    (hlaw : ∀ x, Lawful rs (cfg.fecConfig x))
    (hshort : ∀ x, (nodeBytes (cfg.defaultDest x)).length ≤ 255) {e : ProbedEvent}
    (hkeeps : KeepsOrder f s e) :
    ∃ t, probedStep rs cfg s e = .ok (t, ()) ∧ StreamKept rs cfg f t := by
  obtain ⟨t, hstep, honeHop, hmesh | ⟨std, e₀, e', rfl, hanswered, hmove⟩⟩ :=
    h.oneHop.step_moves hlaw hshort hkeeps.shardsMeetOwn
  · -- the mesh is as it was
    refine ⟨t, hstep, honeHop, ?_, ?_⟩
    · rw [hmesh]
      exact h.fromHanded
    · rw [hmesh]
      exact h.inStream
  · refine ⟨t, hstep, honeHop, h.fromHanded.moves h.oneHop.prov hmove, ?_⟩
    intro hknown
    have hknown' := hknown.of_grows hmove.grows
    obtain ⟨hsole, hstream⟩ := h.inStream hknown'
    obtain ⟨e'', hanswered', hcond⟩ := h.oneHop.streamCond hshort hknown' hkeeps
    rw [hanswered, Except.ok.injEq] at hanswered'
    subst hanswered'
    refine ⟨hsole.moves hcond hmove, ?_⟩
    intro conn hconn hof
    have hdest : wireDest f.dest = some f.dest := by
      apply wireDest_eq
      rw [← hof.dest_eq, honeHop.direct.dests conn (List.mem_of_getElem? hconn)]
      exact hshort conn.node
    exact hstream.moves h.oneHop.prov f.oneCourse hdest hcond hmove conn hconn hof

/-- Singapore has a client with the id of Sydney's. -/
def sydneyRelays : List ProbedEvent :=
  sydneyMeasures ++ [.task .firstLeast (.accept "syd" .tcp), .task .firstLeast (.accept "sgp" .tcp),
    .task .firstLeast (.read 0 [7]), .task .firstLeast (.send 0 none),
    .task .firstLeast (.shard "syd" "sgp" 0 0 0), .task .firstLeast (.route "sgp" none),
    .task .firstLeast (.dispatch "sgp")]

end EntrouterLine.Mesh
