import EntrouterLine.Lib.Course
import EntrouterLine.Mesh.Provenance

/-!
# The stream of one connection in the mesh

`viewOf` is the part of the mesh that belongs to one connection: the data of its payloads in every
link, at every forwarder and among the local deliveries, as a `Traffic` of `Lib.Course`. The lemmas
say what changing a node or a link of the mesh does to it, and that blocks which complete in the
order in which they were emitted give the data of the connection in order
(`streamData_isPrefix_of_inOrder`).
-/

set_option autoImplicit false

namespace EntrouterLine.Mesh

open EntrouterLine.Lib
open EntrouterLine.Lib.Course
open EntrouterLine.Relay
open EntrouterLine.Edge

variable {rs : ReedSolomon} {cfg : MeshConfig} {s t : MeshState} {c : ConnId} {conn : Conn}

/-! ## The data of one connection -/

/-- The data of the payloads that come from `c`, in order. -/
def streamData (c : ConnId) (destNode : NodeId) (ts : List Tagged) : List Bytes :=
  ts.filterMap fun t =>
    if t.source = some c then some (t.payload.drop (relayHeaderSize destNode)) else none

/-- The data of the deliveries that come from `c`, in order. -/
def deliveredData (c : ConnId) (ds : List LocalDelivery) : List Bytes :=
  ds.filterMap fun d => if d.source = some c then some d.data else none

theorem streamData_append (c : ConnId) (destNode : NodeId) (ts ts' : List Tagged) :
    streamData c destNode (ts ++ ts') = streamData c destNode ts ++ streamData c destNode ts' :=
  List.filterMap_append ..

theorem deliveredData_append (c : ConnId) (ds ds' : List LocalDelivery) :
    deliveredData c (ds ++ ds') = deliveredData c ds ++ deliveredData c ds' :=
  List.filterMap_append ..

theorem streamData_payload (conn : Conn) (c : ConnId) (piece : Bytes) :
    streamData c conn.destNode [conn.payload c piece] = [piece] := by
  rw [streamData, List.filterMap_cons, Conn.payload]
  simp only [if_true, drop_encodeRelayHeader, List.filterMap_nil]

theorem streamData_of_ne (destNode : NodeId) {t : Tagged} (h : t.source ≠ some c) :
    streamData c destNode [t] = [] := by
  rw [streamData, List.filterMap_cons, if_neg h]
  rfl

theorem streamData_cons_payload (conn : Conn) (c : ConnId) (piece : Bytes) (rest : List Tagged) :
    streamData c conn.destNode (conn.payload c piece :: rest) =
      piece :: streamData c conn.destNode rest := by
  rw [← List.singleton_append, streamData_append, streamData_payload, List.singleton_append]

theorem streamData_cons_of_ne (destNode : NodeId) {t : Tagged} (h : t.source ≠ some c)
    (rest : List Tagged) : streamData c destNode (t :: rest) = streamData c destNode rest := by
  rw [← List.singleton_append, streamData_append, streamData_of_ne destNode h, List.nil_append]

theorem deliveredData_of_ne {d : LocalDelivery} (h : d.source ≠ some c) :
    deliveredData c [d] = [] := by
  rw [deliveredData, List.filterMap_cons, if_neg h]
  rfl

theorem deliveredData_of_eq {d : LocalDelivery} (h : d.source = some c) :
    deliveredData c [d] = [d.data] := by
  rw [deliveredData, List.filterMap_cons, if_pos h]
  rfl

theorem streamData_eq_nil (destNode : NodeId) {ts : List Tagged}
    (h : ∀ t ∈ ts, t.source ≠ some c) : streamData c destNode ts = [] := by
  rw [streamData, List.filterMap_eq_nil_iff]
  intro t ht
  exact if_neg (h t ht)

theorem deliveredData_eq_nil {ds : List LocalDelivery} (h : ∀ d ∈ ds, d.source ≠ some c) :
    deliveredData c ds = [] := by
  rw [deliveredData, List.filterMap_eq_nil_iff]
  intro d hd
  exact if_neg (h d hd)

/-- If the deliveries from `c` are those under a flow id, their data is what is delivered under it.
-/
theorem deliveredData_eq_filter {flowId : UInt32} {ds : List LocalDelivery}
    (h : ∀ d ∈ ds, d.flowId = flowId ↔ d.source = some c) :
    deliveredData c ds = (ds.filter fun d => d.flowId = flowId).map LocalDelivery.data := by
  induction ds with
  | nil => rfl
  | cons d ds ih =>
    have htail := ih fun d' hd' => h d' (List.mem_cons_of_mem _ hd')
    rw [← List.singleton_append, deliveredData_append, htail]
    by_cases hsource : d.source = some c
    · have hflow := (h d List.mem_cons_self).mpr hsource
      rw [deliveredData_of_eq hsource, List.singleton_append, List.singleton_append,
        List.filter_cons_of_pos (by simpa using hflow), List.map_cons]
    · have hflow : ¬ d.flowId = flowId := fun heq => hsource ((h d List.mem_cons_self).mp heq)
      rw [deliveredData_of_ne hsource, List.singleton_append, List.nil_append,
        List.filter_cons_of_neg (by simpa using hflow)]

/-! ## Blocks in order -/

/-- The payloads of the blocks that the link has returned, in the order of the returns. -/
def MeshLink.given (l : MeshLink) : List Tagged :=
  l.returned.flatMap fun n => l.blocks.getD n []

/-- Block `n` of the link carries a payload of `c`. -/
def MeshLink.carries (c : ConnId) (l : MeshLink) (n : Nat) : Bool :=
  (l.blocks.getD n []).any fun t => t.source = some c

/-- Among the blocks that carry `c`, those returned are the first ones emitted, each once and in
order. -/
def MeshLink.InOrder (c : ConnId) (l : MeshLink) (returned : List Nat) : Prop :=
  returned.filter (l.carries c) <+: (List.range l.blocks.length).filter (l.carries c)

instance (c : ConnId) (l : MeshLink) (returned : List Nat) : Decidable (l.InOrder c returned) :=
  inferInstanceAs (Decidable (_ <+: _))

/-- A block that does not carry `c` has no data of it. -/
theorem flatMap_filter_carries (c : ConnId) (destNode : NodeId) (l : MeshLink) (ns : List Nat) :
    (ns.filter (l.carries c)).flatMap (fun n => streamData c destNode (l.blocks.getD n [])) =
      streamData c destNode (ns.flatMap fun n => l.blocks.getD n []) := by
  induction ns with
  | nil => rfl
  | cons n ns ih =>
    rw [List.flatMap_cons, streamData_append, ← ih]
    cases hcarries : l.carries c n with
    | true => rw [List.filter_cons_of_pos hcarries, List.flatMap_cons]
    | false =>
      -- the block is left out of the left side, and has no data on the right one
      have hnone : streamData c destNode (l.blocks.getD n []) = [] := by
        apply streamData_eq_nil
        intro t ht hsource
        have hany : l.carries c n = true :=
          List.any_eq_true.mpr ⟨t, ht, by simpa using hsource⟩
        rw [hcarries] at hany
        cases hany
      rw [List.filter_cons_of_neg (by rw [hcarries]; exact Bool.false_ne_true), hnone,
        List.nil_append]

theorem flatMap_range_getD (blocks : List (List Tagged)) :
    ((List.range blocks.length).flatMap fun n => blocks.getD n []) = blocks.flatten := by
  have hmap : (List.range blocks.length).map (fun n => blocks.getD n []) = blocks := by
    apply List.ext_getElem
    · rw [List.length_map, List.length_range]
    · intro n h₁ h₂
      simp [List.getD_eq_getElem?_getD, h₂]
  rw [List.flatMap_def, hmap]

/-- Blocks that are returned in order give a prefix of the data that was put in. -/
theorem streamData_isPrefix_of_inOrder (destNode : NodeId) {l : MeshLink} {returned : List Nat}
    (h : l.InOrder c returned) :
    streamData c destNode (returned.flatMap fun n => l.blocks.getD n []) <+:
      streamData c destNode l.log := by
  obtain ⟨rest, hrest⟩ := h
  -- all blocks in order make up the log, up to what waits in the buffer
  have hall := flatMap_filter_carries c destNode l (List.range l.blocks.length)
  rw [flatMap_range_getD, ← hrest, List.flatMap_append, flatMap_filter_carries] at hall
  rw [MeshLink.log, streamData_append, ← hall, List.append_assoc]
  exact List.prefix_append _ _

/-- Taking payloads changes nothing about the blocks returned. -/
theorem MeshLink.Took.given_eq {l l' : MeshLink} {config : FecConfig} {added : List Tagged}
    (hinv : l.Inv rs config) (h : l.Took rs config added l') : l'.given = l.given := by
  obtain ⟨new, hnew⟩ := h.blocks_prefix
  rw [MeshLink.given, MeshLink.given, h.returned_eq, List.flatMap_def, List.flatMap_def]
  refine congrArg List.flatten (List.map_congr_left ?_)
  intro n hn
  rw [← hnew, List.getD_eq_getElem?_getD, List.getD_eq_getElem?_getD,
    List.getElem?_append_left (hinv.returned_lt n hn)]

/-- What a delivered shard makes the link give. -/
theorem MeshLink.Gave.given_eq {l l' : MeshLink} {config : FecConfig} {n i : Nat}
    {out : List Tagged} (h : l.Gave rs config n i l' out) : l'.given = l.given ++ out := by
  rw [MeshLink.given, MeshLink.given, h.blocks_eq]
  rcases h.returned with ⟨rfl, hreturned⟩ | ⟨-, hblock, hreturned⟩
  · rw [hreturned, List.append_nil]
  · rw [hreturned, List.flatMap_append, List.flatMap_singleton, List.getD_eq_getElem?_getD, hblock]
    rfl

theorem MeshLink.Gave.log_eq {l l' : MeshLink} {config : FecConfig} {n i : Nat}
    {out : List Tagged} (h : l.Gave rs config n i l' out) : l'.log = l.log := by
  rw [MeshLink.log, MeshLink.log, h.blocks_eq, h.waiting_eq]

/-! ## The view -/

/-- The stream of connection `c`, of which these pieces have been offered. -/
def viewOf (c : ConnId) (conn : Conn) (s : MeshState) (offered : List Bytes) :
    Traffic NodeId Bytes where
  offered := offered
  pending := conn.pending
  live := conn.reading
  logged := fun pair => streamData c conn.destNode (s.link pair).log
  given := fun pair => streamData c conn.destNode (s.link pair).given
  routing := fun x => streamData c conn.destNode (s.node x).routing
  arrived := fun x => deliveredData c ((s.node x).handed ++ (s.node x).localQueue)

/-- A function of every link after one link has changed. -/
theorem link_setLink_comp {β : Type} (f : MeshLink → β) (s : MeshState) (x y : NodeId)
    (l : MeshLink) :
    (fun pair => f ((s.setLink x y l).link pair)) =
      Function.update (fun pair => f (s.link pair)) (x, y) (f l) :=
  Function.comp_update f s.link (x, y) l

theorem node_setNode_comp {β : Type} (f : Node → β) (s : MeshState) (x : NodeId) (node : Node) :
    (fun y => f ((s.setNode x node).node y)) =
      Function.update (fun y => f (s.node y)) x (f node) :=
  Function.comp_update f s.node x node

theorem viewOf_setLink (c : ConnId) (conn : Conn) (s : MeshState) (x y : NodeId) (l : MeshLink)
    (offered : List Bytes) :
    viewOf c conn (s.setLink x y l) offered = { viewOf c conn s offered with
      logged := Function.update (viewOf c conn s offered).logged (x, y)
        (streamData c conn.destNode l.log)
      given := Function.update (viewOf c conn s offered).given (x, y)
        (streamData c conn.destNode l.given) } := by
  rw [viewOf, link_setLink_comp fun l => streamData c conn.destNode l.log,
    link_setLink_comp fun l => streamData c conn.destNode l.given]
  rfl

theorem viewOf_setNode (c : ConnId) (conn : Conn) (s : MeshState) (x : NodeId) (node : Node)
    (offered : List Bytes) :
    viewOf c conn (s.setNode x node) offered = { viewOf c conn s offered with
      routing := Function.update (viewOf c conn s offered).routing x
        (streamData c conn.destNode node.routing)
      arrived := Function.update (viewOf c conn s offered).arrived x
        (deliveredData c (node.handed ++ node.localQueue)) } := by
  rw [viewOf, node_setNode_comp fun node => streamData c conn.destNode node.routing,
    node_setNode_comp fun node => deliveredData c (node.handed ++ node.localQueue)]
  rfl

/-- A node changes in nothing that belongs to the stream. -/
theorem viewOf_setNode_of_same {x : NodeId} {node : Node} (offered : List Bytes)
    (hrouting : streamData c conn.destNode node.routing =
      streamData c conn.destNode (s.node x).routing)
    (harrived : deliveredData c (node.handed ++ node.localQueue) =
      deliveredData c ((s.node x).handed ++ (s.node x).localQueue)) :
    viewOf c conn (s.setNode x node) offered = viewOf c conn s offered := by
  have hroutingSame : Function.update (viewOf c conn s offered).routing x
      (streamData c conn.destNode (s.node x).routing) = (viewOf c conn s offered).routing :=
    Function.update_eq_self x _
  have harrivedSame : Function.update (viewOf c conn s offered).arrived x
      (deliveredData c ((s.node x).handed ++ (s.node x).localQueue)) =
        (viewOf c conn s offered).arrived :=
    Function.update_eq_self x _
  rw [viewOf_setNode, hrouting, harrived, hroutingSame, harrivedSame]

/-- The tables of the edges are not part of the stream. -/
theorem viewOf_setTable (c : ConnId) (conn : Conn) (s : MeshState) (x : NodeId) (edge : EdgeKind)
    (table : FlowTable) (offered : List Bytes) :
    viewOf c conn (s.setNode x ((s.node x).setTable edge table)) offered =
      viewOf c conn s offered :=
  viewOf_setNode_of_same offered rfl rfl

/-- A link takes payloads. -/
theorem viewOf_took {x y : NodeId} {config : FecConfig} {added : List Tagged} {l' : MeshLink}
    (hinv : (s.link (x, y)).Inv rs config) (htook : (s.link (x, y)).Took rs config added l')
    (offered : List Bytes) :
    viewOf c conn (s.setLink x y l') offered = { viewOf c conn s offered with
      logged := Function.update (viewOf c conn s offered).logged (x, y)
        ((viewOf c conn s offered).logged (x, y) ++ streamData c conn.destNode added) } := by
  have hgivenSame : Function.update (viewOf c conn s offered).given (x, y)
      (streamData c conn.destNode (s.link (x, y)).given) = (viewOf c conn s offered).given :=
    Function.update_eq_self (x, y) _
  rw [viewOf_setLink, htook.given_eq hinv, htook.log_eq, streamData_append, hgivenSame]
  rfl

/-- A link takes payloads of other connections. -/
theorem viewOf_took_of_nil {x y : NodeId} {config : FecConfig} {added : List Tagged}
    {l' : MeshLink} (hinv : (s.link (x, y)).Inv rs config)
    (htook : (s.link (x, y)).Took rs config added l') (hadded : ∀ t ∈ added, t.source ≠ some c)
    (offered : List Bytes) :
    viewOf c conn (s.setLink x y l') offered = viewOf c conn s offered := by
  rw [viewOf_took hinv htook, streamData_eq_nil conn.destNode hadded, List.append_nil,
    Function.update_eq_self]

/-- A link gives payloads to the forwarder at its end, which was idle. -/
theorem viewOf_gave {x y : NodeId} {config : FecConfig} {n i : Nat} {out : List Tagged}
    {l' : MeshLink} (hgave : (s.link (x, y)).Gave rs config n i l' out) (fromPeer : NodeId)
    (offered : List Bytes) :
    viewOf c conn ((s.setLink x y l').setNode y
        { s.node y with routing := out, fromPeer := fromPeer }) offered =
      { viewOf c conn s offered with
        given := Function.update (viewOf c conn s offered).given (x, y)
          ((viewOf c conn s offered).given (x, y) ++ streamData c conn.destNode out)
        routing := Function.update (viewOf c conn s offered).routing y
          (streamData c conn.destNode out) } := by
  have hloggedSame : Function.update (viewOf c conn s offered).logged (x, y)
      (streamData c conn.destNode (s.link (x, y)).log) = (viewOf c conn s offered).logged :=
    Function.update_eq_self (x, y) _
  have harrivedSame : Function.update (viewOf c conn s offered).arrived y
      (deliveredData c ((s.node y).handed ++ (s.node y).localQueue)) =
        (viewOf c conn s offered).arrived :=
    Function.update_eq_self y _
  rw [viewOf_setNode, viewOf_setLink, hgave.given_eq, hgave.log_eq, streamData_append, hloggedSame,
    harrivedSame]
  rfl

/-- A link takes the payload that its sender's forwarder was routing. -/
theorem viewOf_forward {x y : NodeId} {config : FecConfig} {piece : Bytes} {rest : List Tagged}
    {l' : MeshLink} (hinv : (s.link (x, y)).Inv rs config)
    (htook : (s.link (x, y)).Took rs config [conn.payload c piece] l') (offered : List Bytes) :
    viewOf c conn ((s.setLink x y l').setNode x { s.node x with routing := rest }) offered =
      { viewOf c conn s offered with
        logged := putIn (viewOf c conn s offered).logged x y piece
        routing := Function.update (viewOf c conn s offered).routing x
          (streamData c conn.destNode rest) } := by
  have harrivedSame : Function.update (viewOf c conn s offered).arrived x
      (deliveredData c ((s.node x).handed ++ (s.node x).localQueue)) =
        (viewOf c conn s offered).arrived :=
    Function.update_eq_self x _
  have htaken : viewOf c conn (s.setLink x y l') offered = _ := viewOf_took hinv htook offered
  rw [streamData_payload] at htaken
  rw [viewOf_setNode, htaken, harrivedSame]
  rfl

/-- Entries that expire are not part of the stream. -/
theorem viewOf_expire (x y : NodeId) (now : Nat) (offered : List Bytes) :
    viewOf c conn (s.setLink x y ((s.link (x, y)).expire now)) offered =
      viewOf c conn s offered := by
  have hloggedSame : Function.update (viewOf c conn s offered).logged (x, y)
      (streamData c conn.destNode ((s.link (x, y)).expire now).log) =
        (viewOf c conn s offered).logged :=
    Function.update_eq_self (x, y) _
  have hgivenSame : Function.update (viewOf c conn s offered).given (x, y)
      (streamData c conn.destNode ((s.link (x, y)).expire now).given) =
        (viewOf c conn s offered).given :=
    Function.update_eq_self (x, y) _
  rw [viewOf_setLink, hloggedSame, hgivenSame]

/-- A forwarder queues data of the stream for the edge. -/
theorem viewOf_arrive (x : NodeId) (rest : List Tagged) {d : LocalDelivery}
    (hsource : d.source = some c) (offered : List Bytes) :
    viewOf c conn (s.setNode x { s.node x with
        routing := rest
        localQueue := (s.node x).localQueue ++ [d] }) offered =
      { viewOf c conn s offered with
        routing := Function.update (viewOf c conn s offered).routing x
          (streamData c conn.destNode rest)
        arrived := Function.update (viewOf c conn s offered).arrived x
          ((viewOf c conn s offered).arrived x ++ [d.data]) } := by
  have harrived : deliveredData c ((s.node x).handed ++ ((s.node x).localQueue ++ [d])) =
      (viewOf c conn s offered).arrived x ++ [d.data] := by
    rw [← List.append_assoc, deliveredData_append, deliveredData_of_eq hsource]
    rfl
  rw [viewOf_setNode, ← harrived]

/-- What a link has given was put into it. -/
theorem mem_log_of_mem_given {l : MeshLink} {t : Tagged} (h : t ∈ l.given) : t ∈ l.log := by
  obtain ⟨n, -, ht⟩ := List.mem_flatMap.mp h
  rw [List.getD_eq_getElem?_getD] at ht
  cases hblock : l.blocks[n]? with
  | none =>
    rw [hblock] at ht
    cases ht
  | some block =>
    rw [hblock] at ht
    exact List.mem_append_left _ (List.mem_flatten_of_mem (List.mem_of_getElem? hblock) ht)

/-- Nothing in the mesh comes from a connection that has not been accepted yet. -/
theorem viewOf_unknown (hprov : Provenance rs cfg s) (hnone : s.conns[c]? = none)
    (hpending : conn.pending = []) (hlive : conn.reading = true) :
    viewOf c conn s [] = Traffic.start := by
  have hgenuine : ∀ t, Genuine s.conns t → t.source ≠ some c := by
    rintro t ⟨k, other, piece, hother, -, -, rfl⟩ hsource
    cases hsource
    rw [hnone] at hother
    cases hother
  have haddressed : ∀ x d, Addressed s.conns x d → d.source ≠ some c := by
    rintro x d ⟨k, other, hother, -, hsource, -⟩ hc
    rw [hsource, Option.some.injEq] at hc
    rw [hc, hnone] at hother
    cases hother
  have hlogged : ∀ pair, streamData c conn.destNode (s.link pair).log = [] := fun pair =>
    streamData_eq_nil _ fun t ht => hgenuine t (hprov.logged pair.1 pair.2 t ht)
  have hgiven : ∀ pair, streamData c conn.destNode (s.link pair).given = [] := fun pair =>
    streamData_eq_nil _ fun t ht =>
      hgenuine t (hprov.logged pair.1 pair.2 t (mem_log_of_mem_given ht))
  have hrouting : ∀ x, streamData c conn.destNode (s.node x).routing = [] := fun x =>
    streamData_eq_nil _ fun t ht => hgenuine t (hprov.routing x t ht)
  have harrived : ∀ x, deliveredData c ((s.node x).handed ++ (s.node x).localQueue) = [] := by
    intro x
    apply deliveredData_eq_nil
    intro d hd
    rcases List.mem_append.mp hd with hhanded | hqueued
    · exact haddressed x d (hprov.handed x d hhanded)
    · exact haddressed x d (hprov.queued x d hqueued)
  simp only [viewOf, Traffic.start, hpending, hlive, hlogged, hgiven, hrouting, harrived]

/-- A genuine payload of `c` is one that `c` has built. -/
theorem Genuine.eq_payload {conns : List Conn} {t : Tagged} (h : Genuine conns t)
    (hsource : t.source = some c) (hconn : conns[c]? = some conn) :
    ∃ piece, t = conn.payload c piece := by
  obtain ⟨k, other, piece, hother, -, -, rfl⟩ := h
  cases hsource
  rw [hconn, Option.some.injEq] at hother
  subst hother
  exact ⟨piece, rfl⟩

end EntrouterLine.Mesh
