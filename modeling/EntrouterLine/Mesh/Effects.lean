import EntrouterLine.Mesh.Moves
import EntrouterLine.Relay.SealedLink

/-!
# What a step can change

Steps of the mesh change its state in a few ways only. A step accepts a connection, or ends one; or
it is quiet (`step_effect`): it changes what a task keeps of its connection, what a forwarder keeps,
and links, where the sender may emit blocks and takes none back. This does not depend on what the
links do, and holds for every step that succeeds.
-/

set_option autoImplicit false

namespace EntrouterLine.Mesh

open EntrouterLine.Lib
open EntrouterLine.Relay
open EntrouterLine.Edge

variable {rs : ReedSolomon} {cfg : MeshConfig} {s t u : MeshState}

/-! ## One link -/

/-- The sender of the link has emitted some blocks of DATA and PARITY packets. -/
def LinkGrows (l l' : FecLink) : Prop :=
  ∃ blocks, l'.emitted = l.emitted ++ blocks ∧
    ∀ block ∈ blocks, ∀ frame ∈ block.shards, isShardType frame.1

theorem linkGrows_of_eq {l l' : FecLink} (h : l'.emitted = l.emitted) : LinkGrows l l' :=
  ⟨[], by rw [h, List.append_nil], nofun⟩

theorem LinkGrows.trans {l l' l'' : FecLink} (h : LinkGrows l l') (h' : LinkGrows l' l'') :
    LinkGrows l l'' := by
  obtain ⟨blocks, heq, htypes⟩ := h
  obtain ⟨blocks', heq', htypes'⟩ := h'
  refine ⟨blocks ++ blocks', by rw [heq', heq, List.append_assoc], ?_⟩
  intro block hblock
  rcases List.mem_append.mp hblock with hold | hnew
  · exact htypes block hold
  · exact htypes' block hnew

theorem isShardType_frameShard (config : FecConfig) (blockId : UInt16) (i : Nat) (shard : Bytes) :
    isShardType (frameShard config blockId i shard).1 := by
  rw [frameShard]
  split
  · rfl
  · rfl

theorem isShardType_flush {sender sender' : FecSender} {shards : List (UInt8 × Bytes)}
    (h : sender.flush rs = .ok (sender', shards)) : ∀ frame ∈ shards, isShardType frame.1 := by
  unfold FecSender.flush at h
  cases hencoder : FecEncoder.new rs sender.config with
  | error p =>
    rw [hencoder] at h
    cases h
  | ok encoder =>
    rw [hencoder] at h
    cases hencode : encoder.encode rs (dataShardsOf sender.config sender.buffer) with
    | error p =>
      change (encoder.encode rs (dataShardsOf sender.config sender.buffer) >>= _) = _ at h
      rw [hencode] at h
      cases h
    | ok block =>
      change (encoder.encode rs (dataShardsOf sender.config sender.buffer) >>= _) = _ at h
      rw [hencode] at h
      cases h
      intro frame hframe
      obtain ⟨i, hi, rfl⟩ := List.mem_mapIdx.mp hframe
      exact isShardType_frameShard ..

/-- What the sender hands to a send task are DATA and PARITY packets. -/
theorem isShardType_send {sender : FecSender}
    {result : FecSender × Option (List (UInt8 × Bytes))}
    (h : (∃ payload, sender.submit rs payload = .ok result) ∨ sender.flushPartial rs = .ok result) :
    ∀ shards ∈ result.2, ∀ frame ∈ shards, isShardType frame.1 := by
  have hflushed : ∀ sender' : FecSender,
      (sender'.flush rs).map (fun r => (r.1, some r.2)) = .ok result →
        ∀ shards ∈ result.2, ∀ frame ∈ shards, isShardType frame.1 := by
    intro sender' hflush
    cases hr : sender'.flush rs with
    | error p =>
      rw [hr] at hflush
      cases hflush
    | ok r =>
      rw [hr] at hflush
      cases hflush
      rintro shards ⟨⟩
      exact isShardType_flush hr
  rcases h with ⟨payload, hsubmit⟩ | hflush
  · rw [submit_eq] at hsubmit
    split at hsubmit
    · exact hflushed _ hsubmit
    · cases hsubmit
      nofun
  · rw [flushPartial_eq] at hflush
    split at hflush
    · cases hflush
      nofun
    · exact hflushed _ hflush

theorem linkGrows_sent (l : FecLink) (payloads : List Bytes)
    {result : FecSender × Option (List (UInt8 × Bytes))}
    (h : ∀ shards ∈ result.2, ∀ frame ∈ shards, isShardType frame.1) :
    LinkGrows l (l.sent payloads result) := by
  refine ⟨_, rfl, ?_⟩
  intro block hblock
  obtain ⟨shards, hshards, rfl⟩ := List.mem_map.mp hblock
  exact h shards (Option.mem_toList.mp hshards)

theorem linkGrows_step {l l' : FecLink} {e : LinkEvent} {out : Option (List Bytes)}
    (h : linkStep rs l e = .ok (l', out)) : LinkGrows l l' := by
  cases e with
  | submit payload =>
    cases hsubmit : l.sender.submit rs payload with
    | error p =>
      rw [linkStep, hsubmit] at h
      cases h
    | ok result =>
      rw [linkStep, hsubmit] at h
      cases h
      exact linkGrows_sent l _ (isShardType_send (Or.inl ⟨payload, hsubmit⟩))
  | flushPartial =>
    cases hflush : l.sender.flushPartial rs with
    | error p =>
      rw [linkStep, hflush] at h
      cases h
    | ok result =>
      rw [linkStep, hflush] at h
      cases h
      exact linkGrows_sent l _ (isShardType_send (Or.inr hflush))
  | deliver now n i => exact linkGrows_of_eq (emitted_deliver h)
  | expire now maxAgeMs =>
    cases h
    exact linkGrows_of_eq rfl

theorem linkGrows_submit {l l' : MeshLink} {payload : Tagged}
    (h : l.submit rs payload = .ok l') : LinkGrows l.fec l'.fec := by
  unfold MeshLink.submit at h
  cases hstep : linkStep rs l.fec (.submit payload.payload) with
  | error p =>
    rw [hstep] at h
    cases h
  | ok result =>
    rw [hstep] at h
    cases h
    rw [MeshLink.sent]
    split
    · exact linkGrows_step hstep
    · exact linkGrows_step hstep

theorem linkGrows_flushPartial {l l' : MeshLink} (h : l.flushPartial rs = .ok l') :
    LinkGrows l.fec l'.fec := by
  unfold MeshLink.flushPartial at h
  cases hstep : linkStep rs l.fec .flushPartial with
  | error p =>
    rw [hstep] at h
    cases h
  | ok result =>
    rw [hstep] at h
    cases h
    rw [MeshLink.sent]
    split
    · exact linkGrows_step hstep
    · exact linkGrows_step hstep

theorem linkGrows_receive {l l' : MeshLink} {now n i : Nat} {out : List Tagged}
    (h : l.receive rs now n i = .ok (l', out)) : LinkGrows l.fec l'.fec := by
  unfold MeshLink.receive at h
  cases hstep : linkStep rs l.fec (.deliver now n i) with
  | error p =>
    rw [hstep] at h
    cases h
  | ok result =>
    obtain ⟨fec, returned⟩ := result
    rw [hstep] at h
    cases returned with
    | none =>
      cases h
      exact linkGrows_step hstep
    | some payloads =>
      cases h
      exact linkGrows_step hstep

/-! ## The mesh -/

/-- A connection's place among the entries of all edges. -/
def Conn.flowKey (conn : Conn) : NodeId × EdgeKind × UInt32 := (conn.node, conn.edge, conn.flowId)

/-- `handle_connection` has not ended. -/
def Conn.live (conn : Conn) : Bool := !conn.finished

/-- The steps that leave the flows as they are, and take no block from a link. -/
inductive Quiet (s : MeshState) : MeshState → Prop
  | refl : Quiet s s
  | node {t : MeshState} {x : NodeId} {node : Node} (h : Quiet s t)
      (htables : node.tables = (t.node x).tables) : Quiet s (t.setNode x node)
  | conn {t : MeshState} {c : ConnId} {conn conn' : Conn} (h : Quiet s t)
      (hconn : t.conns[c]? = some conn) (hkey : conn'.flowKey = conn.flowKey)
      (hlive : conn'.live = conn.live) : Quiet s (t.setConn c conn')
  | link {t : MeshState} {x y : NodeId} {l : MeshLink} (h : Quiet s t)
      (hgrows : LinkGrows (t.link (x, y)).fec l.fec) : Quiet s (t.setLink x y l)

/-- What a step can do. -/
inductive Effect (cfg : MeshConfig) (s : MeshState) : MeshState → Prop
  | quiet {t : MeshState} (h : Quiet s t) : Effect cfg s t
  | accepted (x : NodeId) (edge : EdgeKind) : Effect cfg s (accept cfg s x edge)
  | ended {c : ConnId} {conn : Conn} (hconn : s.conns[c]? = some conn)
      (hlive : conn.live = true) :
      Effect cfg s ((s.setNode conn.node ((s.node conn.node).setTable conn.edge
        { (s.node conn.node).tables conn.edge with
          activeFlows := Function.update ((s.node conn.node).tables conn.edge).activeFlows
            conn.flowId none })).setConn c { conn with finished := true })

theorem quiet_deliver (h : Quiet s t) (x : NodeId) (edge : EdgeKind) (delivery : LocalDelivery) :
    Quiet s (deliver t x edge delivery) := by
  unfold deliver
  split
  · exact h
  · split
    · exact h
    · rename_i conn hconn
      split
      · exact .conn h hconn rfl rfl
      · exact h

theorem quiet_sendToNode {c : ConnId} {nextHop : Option NodeId}
    (h : sendToNode rs cfg s c nextHop = .ok t) : Quiet s t := by
  rcases sendToNode_cases h with rfl | ⟨conn, hconn, rfl | ⟨piece, rest, hop, l, hsubmit, rfl⟩⟩
  · exact .refl
  · exact .conn .refl hconn rfl rfl
  · exact .conn (.link .refl (linkGrows_submit hsubmit)) hconn rfl rfl

theorem quiet_routeData {x : NodeId} {nextHop : Option NodeId}
    (h : routeData rs cfg s x nextHop = .ok t) : Quiet s t := by
  rcases routeData_cases h with ⟨rfl, -⟩ |
    ⟨payload, rest, -, rfl | ⟨delivery, rfl⟩ | ⟨hop, l, hsubmit, rfl⟩⟩
  · exact .refl
  · exact .node .refl rfl
  · exact .node .refl rfl
  · exact .node (.link .refl (linkGrows_submit hsubmit)) rfl

theorem quiet_handleInbound {fromPeer x : NodeId} {now n i : Nat}
    (h : handleInbound rs cfg s fromPeer x now n i = .ok t) : Quiet s t := by
  rcases handleInbound_cases h with rfl | ⟨-, l, payloads, hreceive, rfl⟩
  · exact .refl
  · exact .node (.link .refl (linkGrows_receive hreceive)) rfl

theorem quiet_flushSender {x peer : NodeId} (h : flushSender rs s x peer = .ok t) :
    Quiet s t := by
  rcases flushSender_cases h with rfl | ⟨l, hflush, rfl⟩
  · exact .refl
  · exact .link .refl (linkGrows_flushPartial hflush)

/-- A step that succeeds accepts a connection, ends one, or is quiet. -/
theorem step_effect {e : MeshEvent} (h : s.step rs cfg e = .ok t) : Effect cfg s t := by
  cases e with
  | accept x edge =>
    cases h
    exact .accepted x edge
  | read c data =>
    cases h
    refine .quiet ?_
    unfold readClient
    split
    · exact .refl
    · rename_i conn hconn
      split
      · exact .conn .refl hconn rfl rfl
      · exact .refl
  | send c nextHop => exact .quiet (quiet_sendToNode h)
  | endRead c =>
    cases h
    refine .quiet ?_
    unfold endRead
    split
    · exact .refl
    · rename_i conn hconn
      split
      · exact .conn .refl hconn rfl rfl
      · exact .refl
  | write c ok =>
    cases h
    refine .quiet ?_
    unfold writeClient
    split
    · exact .refl
    · rename_i conn hconn
      split
      · split
        · exact .refl
        · exact .conn .refl hconn rfl rfl
      · exact .refl
  | endWrite c =>
    cases h
    refine .quiet ?_
    unfold endWrite
    split
    · exact .refl
    · rename_i conn hconn
      split
      · exact .conn .refl hconn rfl rfl
      · exact .refl
  | endConnection c =>
    cases h
    unfold endConnection
    split
    · exact .quiet .refl
    · rename_i conn hconn
      split
      · rename_i hend
        exact .ended hconn (by simpa [Conn.live] using hend.1)
      · exact .quiet .refl
  | shard fromPeer x now n i => exact .quiet (quiet_handleInbound h)
  | route x nextHop => exact .quiet (quiet_routeData h)
  | flush x peer => exact .quiet (quiet_flushSender h)
  | expire x peer now =>
    cases h
    refine .quiet ?_
    unfold expireReceiver
    split
    · exact .link .refl (linkGrows_of_eq rfl)
    · exact .refl
  | dispatch x =>
    cases h
    refine .quiet ?_
    unfold dispatch
    split
    · exact .refl
    · refine quiet_deliver ?_ _ _ _
      exact .node .refl rfl

/-! ## Links -/

/-- No link has lost a block. -/
def LinksGrow (s t : MeshState) : Prop := ∀ x y, LinkGrows (s.link (x, y)).fec (t.link (x, y)).fec

theorem Quiet.linksGrow (h : Quiet s t) : LinksGrow s t := by
  intro x y
  induction h with
  | refl => exact linkGrows_of_eq rfl
  | node h htables ih => exact ih
  | conn h hconn hkey hlive ih => exact ih
  | @link t x' y' l h hgrows ih =>
    by_cases hpair : (x, y) = (x', y')
    · rw [hpair, link_setLink_self]
      rw [hpair] at ih
      exact ih.trans hgrows
    · rw [link_setLink_of_ne t hpair]
      exact ih

theorem step_linksGrow {e : MeshEvent} (h : s.step rs cfg e = .ok t) : LinksGrow s t := by
  cases step_effect h with
  | quiet hquiet => exact hquiet.linksGrow
  | accepted x edge => exact fun _ _ => linkGrows_of_eq rfl
  | ended hconn hlive => exact fun _ _ => linkGrows_of_eq rfl

end EntrouterLine.Mesh
