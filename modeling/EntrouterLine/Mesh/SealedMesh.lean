import EntrouterLine.Lib.Simulation
import EntrouterLine.Mesh.Effects
import EntrouterLine.Mesh.ProbedMesh

/-!
# The mesh over its tunnels

`ProbedMesh` hands shards and probes from node to node as they are. In the program they go through
tunnels: the send task of a block, the loop that probes a peer and the forwarder that answers a PING
call `Tunnel::send`; the network carries datagrams; the receive loop of a node opens them and puts
the packets into a channel, and the forwarder takes them from there. `SealedMesh` is all nodes with
all of this.

As long as the cipher keeps its promise and the network does not alter frames, `ProbedMesh`
simulates the whole (`sealedMesh_simulates`): its nodes are always in a state that a run of
`ProbedMesh` reaches, so that what holds of those runs holds of the program on its tunnels.
-/

set_option autoImplicit false

namespace EntrouterLine.Mesh

open EntrouterLine.Lib
open EntrouterLine.Relay
open EntrouterLine.Edge

/-! ## The machine -/

/-- The `[[peers]]` of every node, the node that its clients' data goes to, and its FEC parameters.
-/
structure SealedConfig where
  net : NetConfig
  defaultDest : NodeId → NodeId
  fecConfig : NodeId → FecConfig

def SealedConfig.probed (cfg : SealedConfig) : ProbedConfig :=
  ⟨fun x => (cfg.net x).map Relay.PeerConfig.nodeId, cfg.defaultDest, cfg.fecConfig⟩

/-- The nodes, the network, how many shards of each block of a link its send task has sent, which
PINGs and PONGs have been sent, and the channel from the receive loop of each node to its forwarder.
-/
structure SealedMesh where
  state : ProbedMesh
  net : Net
  shardsSent : NodeId × NodeId → Nat → Nat
  probesSent : List Nat
  inbound : NodeId → List (NodeId × ReceivedPacket)

def SealedMesh.start (cfg : SealedConfig) : SealedMesh :=
  ⟨ProbedMesh.start cfg.probed, Net.start cfg.net, fun _ _ => 0, [], fun _ => []⟩

/-- The last emitted block that has such a shard. -/
def MeshLink.blockOf? (l : MeshLink) (bytes : Bytes) : Option Nat :=
  (List.range l.fec.emitted.length).reverse.find? fun n =>
    l.fec.emitted[n]?.any fun block => block.shards.any fun frame => frame.2 = bytes

/-- `receive_shard` at the end of a link. The record of the link has the block whose shard it is. -/
def MeshLink.receiveShard (rs : ReedSolomon) (l : MeshLink) (now : Nat) (bytes : Bytes) :
    Except Panic (MeshLink × List Tagged) := do
  let (receiver, out) ← l.fec.receiver.receiveShard rs now bytes
  let block := l.blockOf? bytes
  let opened := match block with
    | some n => l.fec.openedBy n
    | none => l.fec.opened
  let fec := { l.fec with receiver := receiver, opened := opened }
  match out with
  | none => return ({ l with fec := fec }, [])
  | some payloads =>
      return ({ l with fec := fec, returned := l.returned ++ block.toList },
        tagged ((block.map fun n => l.blocks.getD n []).getD []) payloads)

/-- `Forwarder::handle_inbound` on a packet from a peer. -/
def ProbedMesh.handlePacket (rs : ReedSolomon) (cfg : ProbedConfig) (m : ProbedMesh)
    (fromPeer x : NodeId) (packet : ReceivedPacket) (now : Nat) (received now' now'' : Instant) :
    Except ProbedFault ProbedMesh :=
  if packet.packetType = packetPing ∨ packet.packetType = packetPong then
    .ok { m with
      probes := m.probes.handleInbound x fromPeer packet.packetType packet.payload received now'
        now'' }
  else if isShardType packet.packetType then
    if fromPeer ∈ cfg.peers x then
      match (m.mesh.link (fromPeer, x)).receiveShard rs now packet.payload with
      | .error p => .error (.fec p)
      | .ok (l, payloads) =>
          .ok { m with
            mesh := (m.mesh.setLink fromPeer x l).setNode x
              { m.mesh.node x with routing := payloads, fromPeer := fromPeer } }
    else
      -- without a FEC receiver for the peer, the packet is routed as it is
      .ok { m with
        mesh := m.mesh.setNode x
          { m.mesh.node x with routing := [⟨packet.payload, none⟩], fromPeer := fromPeer } }
  else .ok m

/-- A step of a tunnel or a receive loop. What the loop passes on goes into the channel. -/
def SealedMesh.netStep (aead : Aead) (cfg : SealedConfig) (s : SealedMesh) (e : NetEvent) :
    SealedMesh :=
  match Relay.netStep aead cfg.net s.net e with
  | .ok (net, passed) =>
      { s with
        net := net
        inbound := match passed with
          | none => s.inbound
          | some p => Function.update s.inbound p.node (s.inbound p.node ++ [(p.peer, p.packet)]) }

/-- A step of the nodes that needs no packet. -/
def SealedMesh.advance (rs : ReedSolomon) (cfg : SealedConfig) (s : SealedMesh) (e : ProbedEvent) :
    Except ProbedFault (SealedMesh × Unit) :=
  match probedStep rs cfg.probed s.state e with
  | .error fault => .error fault
  | .ok (state, _) => .ok ({ s with state := state }, ())

inductive SealedMeshEvent where
  | task (std : StdOrder) (e : MeshEvent)
  | probe (x peerId : NodeId) (sendTime : Instant) (clock : UInt32 → Instant)
  | sendShard (x y : NodeId) (n : Nat)
  | sendProbe (k : Nat)
  | encrypt (j : Nat)
  | datagram (x : NodeId) (source : SocketAddr) (bytes : Bytes)
  | handle (x : NodeId) (now : Nat) (received now' now'' : Instant)

/-- One step. Shards arrive by `handle` only, which waits while the forwarder is routing payloads;
the receive loop waits while the channel is full. -/
def sealedMeshStep (rs : ReedSolomon) (aead : Aead) (cfg : SealedConfig) (s : SealedMesh) :
    SealedMeshEvent → Except ProbedFault (SealedMesh × Unit)
  | .task _ (.shard ..) => .ok (s, ())
  | .task std e => s.advance rs cfg (.task std e)
  | .probe x peerId sendTime clock => s.advance rs cfg (.probe (.probe x peerId sendTime clock))
  | .sendShard x y n =>
      -- the send task of a block sends its shards in order
      match (s.state.mesh.link (x, y)).fec.emitted[n]?.bind fun block =>
          block.shards[s.shardsSent (x, y) n]? with
      | none => .ok (s, ())
      | some (packetType, shard) =>
          .ok ({ s.netStep aead cfg (.fetch x y packetType shard) with
            shardsSent := Function.update s.shardsSent (x, y)
              (Function.update (s.shardsSent (x, y)) n (s.shardsSent (x, y) n + 1)) }, ())
  | .sendProbe k =>
      match s.state.probes.sent[k]? with
      | none => .ok (s, ())
      | some packet =>
          -- every packet is sent once
          if k ∈ s.probesSent then .ok (s, ())
          else
            .ok ({ s.netStep aead cfg (.fetch packet.src packet.dst packet.packetType
                packet.payload) with probesSent := s.probesSent ++ [k] }, ())
  | .encrypt j => .ok (s.netStep aead cfg (.encrypt j), ())
  | .datagram x source bytes =>
      if forwardCapacity ≤ (s.inbound x).length then .ok (s, ())
      else .ok (s.netStep aead cfg (.datagram x source bytes), ())
  | .handle x now received now' now'' =>
      if (s.state.mesh.node x).routing = [] then
        match s.inbound x with
        | [] => .ok (s, ())
        | (fromPeer, packet) :: rest =>
            match s.state.handlePacket rs cfg.probed fromPeer x packet now received now' now'' with
            | .error fault => .error fault
            | .ok state =>
                .ok ({ s with
                  state := state
                  inbound := Function.update s.inbound x rest }, ())
      else .ok (s, ())

/-- The cipher keeps its promise, and the network leaves the frame as it was built. -/
def SealedMesh.Faithful (aead : Aead) (cfg : SealedConfig) (s : SealedMesh) :
    SealedMeshEvent → Prop
  | .datagram x source bytes =>
      HolderSealed aead cfg.net s.net (.datagram x source bytes) ∧
        Unaltered aead cfg.net s.net (.datagram x source bytes)
  | _ => True

/-! ## Shards -/

variable {rs : ReedSolomon} {aead : Aead} {cfg : SealedConfig} {s : SealedMesh}

theorem exists_shard_of_blockOf? {l : MeshLink} {bytes : Bytes} {n : Nat}
    (h : l.blockOf? bytes = some n) : ∃ i, l.fec.shard? n i = some bytes := by
  have hany := List.find?_some h
  cases hblock : l.fec.emitted[n]? with
  | none =>
    rw [hblock] at hany
    cases hany
  | some block =>
    rw [hblock, Option.any_some] at hany
    obtain ⟨frame, hframe, hbytes⟩ := List.any_eq_true.mp hany
    obtain ⟨i, hi⟩ := List.mem_iff_getElem?.mp hframe
    refine ⟨i, ?_⟩
    rw [FecLink.shard?, hblock, Option.bind_some, hi, Option.map_some, of_decide_eq_true hbytes]

theorem exists_blockOf? {l : MeshLink} {bytes : Bytes} (h : l.fec.IsShard bytes) :
    ∃ n, l.blockOf? bytes = some n := by
  obtain ⟨n, i, hshard⟩ := h
  obtain ⟨block, hblock, hi⟩ := Option.bind_eq_some_iff.mp hshard
  apply Option.ne_none_iff_exists'.mp
  intro hnone
  have hn := (List.getElem?_eq_some_iff.mp hblock).1
  have hnot := List.find?_eq_none.mp hnone n (by simpa using hn)
  apply hnot
  rw [hblock]
  obtain ⟨frame, hframe, hbytes⟩ := Option.map_eq_some_iff.mp hi
  rw [Option.any_some]
  exact List.any_eq_true.mpr ⟨frame, List.mem_of_getElem? hframe, decide_eq_true hbytes⟩

/-- A shard of the link does what the link does with it. -/
theorem receiveShard_eq_receive {l : MeshLink} {bytes : Bytes} {n i : Nat}
    (hblock : l.blockOf? bytes = some n) (hshard : l.fec.shard? n i = some bytes) (now : Nat) :
    l.receiveShard rs now bytes = l.receive rs now n i := by
  rw [MeshLink.receiveShard, MeshLink.receive]
  cases hreceive : l.fec.receiver.receiveShard rs now bytes with
  | error p =>
    simp only [linkStep, hshard, hreceive]
    rfl
  | ok result =>
    obtain ⟨receiver, out⟩ := result
    simp only [linkStep, hshard, hreceive, hblock]
    cases out with
    | none => rfl
    | some payloads => rfl

/-! ## What is on its way -/

/-- One of the nodes has sent this: a shard that its link has emitted, or a packet of its probers.
-/
def ProbedMesh.Sent (m : ProbedMesh) (a b : NodeId) (packetType : UInt8) (payload : Bytes) : Prop :=
  if isShardType packetType then (m.mesh.link (a, b)).fec.IsShard payload
  else ⟨a, b, packetType, payload⟩ ∈ m.probes.sent

/-- The state after a step: what has been sent stays sent, and what is new are shards, PINGs and
PONGs. -/
structure ProbedMesh.Grew (m m' : ProbedMesh) : Prop where
  links : LinksGrow m.mesh m'.mesh
  probes : ∃ packets, m'.probes.sent = m.probes.sent ++ packets ∧
    ∀ packet ∈ packets, packet.packetType = packetPing ∨ packet.packetType = packetPong

theorem ProbedMesh.Grew.sent {m m' : ProbedMesh} (h : m.Grew m') {a b : NodeId}
    {packetType : UInt8} {payload : Bytes} (hsent : m.Sent a b packetType payload) :
    m'.Sent a b packetType payload := by
  rw [ProbedMesh.Sent] at hsent ⊢
  split
  case isTrue htype =>
    rw [if_pos htype] at hsent
    obtain ⟨n, i, hshard⟩ := hsent
    obtain ⟨blocks, heq, -⟩ := h.links a b
    obtain ⟨block, hblock, hi⟩ := Option.bind_eq_some_iff.mp hshard
    refine ⟨n, i, ?_⟩
    rw [FecLink.shard?, heq, List.getElem?_append_left (List.getElem?_eq_some_iff.mp hblock).1,
      hblock]
    exact hi
  case isFalse htype =>
    rw [if_neg htype] at hsent
    obtain ⟨packets, heq, -⟩ := h.probes
    rw [heq]
    exact List.mem_append_left _ hsent

theorem grew_handleInbound (m : ProbedMesh) (x fromPeer : NodeId) (packetType : UInt8)
    (payload : Bytes) (received now now' : Instant) :
    m.Grew { m with
      probes := m.probes.handleInbound x fromPeer packetType payload received now now' } := by
  have hsame : ∀ net : ProbeNet, net.sent = m.probes.sent → m.Grew { m with probes := net } :=
    fun net heq => ⟨fun _ _ => linkGrows_of_eq rfl, [], by rw [heq, List.append_nil],
      List.forall_mem_nil _⟩
  rw [ProbeNet.handleInbound]
  split
  · refine ⟨fun _ _ => linkGrows_of_eq rfl, _, rfl, ?_⟩
    intro packet hpacket
    rw [List.mem_singleton.mp hpacket]
    exact Or.inr rfl
  · split
    · apply hsame
      dsimp only
      split
      · split
        · rfl
        · rfl
      · rfl
    · exact hsame _ rfl

/-- Nothing sends control packets. -/
def ProbedEvent.NoControl : ProbedEvent → Prop
  | .probe (.control ..) => False
  | _ => True

theorem grew_probedStep {cfg : ProbedConfig} {m m' : ProbedMesh} {e : ProbedEvent}
    (he : e.NoControl)
    (h : probedStep rs cfg m e = .ok (m', ())) : m.Grew m' := by
  cases e with
  | task std e =>
    simp only [probedStep] at h
    split at h
    · cases h
    · split at h
      · cases h
      · rename_i mesh hstep
        cases h
        exact ⟨step_linksGrow hstep, [], by rw [List.append_nil], List.forall_mem_nil _⟩
  | probe e =>
    have hlinks : LinksGrow m.mesh m.mesh := fun _ _ => linkGrows_of_eq rfl
    simp only [probedStep] at h
    split at h
    rename_i probes o hstep
    cases h
    cases e with
    | probe x peerId sendTime clock =>
      simp only [probeNetStep] at hstep
      split at hstep
      · cases hstep
        refine ⟨hlinks, _, rfl, ?_⟩
        intro packet hpacket
        rw [List.mem_singleton.mp hpacket]
        exact Or.inl rfl
      · cases hstep
        exact ⟨hlinks, [], by rw [List.append_nil], List.forall_mem_nil _⟩
    | deliver k received now now' =>
      simp only [probeNetStep] at hstep
      split at hstep
      · split at hstep
        · cases hstep
          exact grew_handleInbound ..
        · cases hstep
          exact ⟨hlinks, [], by rw [List.append_nil], List.forall_mem_nil _⟩
      · cases hstep
        exact ⟨hlinks, [], by rw [List.append_nil], List.forall_mem_nil _⟩
    | control x peerId payload => exact he.elim

/-- Everything on its way was sent by the node it is said to come from. -/
structure SealedMesh.Backed (aead : Aead) (cfg : SealedConfig) (s : SealedMesh) : Prop where
  reached : ∃ es os, NetRun aead cfg.net es s.net os
  frames : ∀ x y, ∀ block ∈ (s.state.mesh.link (x, y)).fec.emitted, ∀ frame ∈ block.shards,
    isShardType frame.1
  probes : ∀ packet ∈ s.state.probes.sent,
    packet.packetType = packetPing ∨ packet.packetType = packetPong
  called : ∀ c ∈ s.net.calls ++ s.net.fetched, s.state.Sent c.src c.dst c.packetType c.payload
  arrived : ∀ x, ∀ r ∈ s.inbound x, r.1 ∈ cfg.probed.peers x ∧
    s.state.Sent r.1 x r.2.packetType r.2.payload

theorem backed_start (aead : Aead) (cfg : SealedConfig) :
    (SealedMesh.start cfg).Backed aead cfg :=
  ⟨⟨[], [], rfl⟩, fun _ _ => List.forall_mem_nil _, List.forall_mem_nil _, List.forall_mem_nil _,
    fun _ => List.forall_mem_nil _⟩

/-- The nodes have taken a step. -/
theorem SealedMesh.Backed.grew (h : s.Backed aead cfg) {state : ProbedMesh}
    (hgrew : s.state.Grew state) : SealedMesh.Backed aead cfg { s with state := state } where
  reached := h.reached
  frames := by
    intro x y block hblock
    obtain ⟨blocks, heq, htypes⟩ := hgrew.links x y
    rw [heq] at hblock
    rcases List.mem_append.mp hblock with hold | hnew
    · exact h.frames x y block hold
    · exact htypes block hnew
  probes := by
    intro packet hpacket
    obtain ⟨packets, heq, htypes⟩ := hgrew.probes
    rw [heq] at hpacket
    rcases List.mem_append.mp hpacket with hold | hnew
    · exact h.probes packet hold
    · exact htypes packet hnew
  called := fun c hc => hgrew.sent (h.called c hc)
  arrived := fun x r hr => ⟨(h.arrived x r hr).1, hgrew.sent (h.arrived x r hr).2⟩

/-- The forwarder has taken a packet from its channel. -/
theorem SealedMesh.Backed.take (h : s.Backed aead cfg) {x : NodeId}
    {r : NodeId × ReceivedPacket} {rest : List (NodeId × ReceivedPacket)}
    (hinbound : s.inbound x = r :: rest) :
    SealedMesh.Backed aead cfg { s with inbound := Function.update s.inbound x rest } where
  reached := h.reached
  frames := h.frames
  probes := h.probes
  called := h.called
  arrived := by
    intro y r' hr'
    dsimp only at hr' ⊢
    by_cases hy : y = x
    · subst hy
      rw [Function.update_self] at hr'
      apply h.arrived y
      rw [hinbound]
      exact List.mem_cons_of_mem _ hr'
    · rw [Function.update_of_ne hy] at hr'
      exact h.arrived y r' hr'

theorem state_netStep (aead : Aead) (cfg : SealedConfig) (s : SealedMesh) (e : NetEvent) :
    (s.netStep aead cfg e).state = s.state := by
  rw [SealedMesh.netStep]
  split
  rfl

/-- A step of the network that leaves frames as they are, where only what has been sent is given to
a tunnel. -/
theorem SealedMesh.Backed.netStep (h : s.Backed aead cfg) (hopens : aead.Opens) {e : NetEvent}
    (hsealed : HolderSealed aead cfg.net s.net e) (hunaltered : Unaltered aead cfg.net s.net e)
    (hfetch : ∀ src dst packetType payload, e = .fetch src dst packetType payload →
      s.state.Sent src dst packetType payload) :
    (s.netStep aead cfg e).Backed aead cfg := by
  cases hstep : Relay.netStep aead cfg.net s.net e with
  | error p => cases p
  | ok result =>
    obtain ⟨net, passed⟩ := result
    simp only [SealedMesh.netStep, hstep]
    constructor
    case reached =>
      obtain ⟨es, os, hrun⟩ := h.reached
      exact ⟨_, _, Machine.run_snoc hrun hstep⟩
    case frames => exact h.frames
    case probes => exact h.probes
    case called =>
      intro c hc
      rcases netStep_calls hstep hc with hold | hnew
      · exact h.called c hold
      · exact hfetch _ _ _ _ hnew
    case arrived =>
      intro x r hr
      cases passed with
      | none => exact h.arrived x r hr
      | some p =>
        by_cases hx : x = p.node
        · subst hx
          dsimp only at hr
          rw [Function.update_self] at hr
          rcases List.mem_append.mp hr with hold | hnew
          · exact h.arrived p.node r hold
          · -- what the loop has passed on is a packet that a peer sent
            rw [List.mem_singleton.mp hnew]
            obtain ⟨c, hc, hsrc, hdst, htype, -, hpayload⟩ :=
              passesAuthentic_of_unaltered hopens hsealed hunaltered net p hstep
            obtain ⟨source, bytes, o, -, ho, hpeer, -⟩ := netStep_passes hstep
            obtain ⟨q, hq, hid, -⟩ := mem_of_peerMap (opened_eq_some.mp ho).2.1
            refine ⟨List.mem_map.mpr ⟨q, hq, hid.trans hpeer.symm⟩, ?_⟩
            have hcalled := h.called c (List.mem_append_left _ hc)
            rw [hsrc, hdst, htype, hpayload] at hcalled
            exact hcalled
        · dsimp only at hr
          rw [Function.update_of_ne hx] at hr
          exact h.arrived x r hr

/-! ## The simulation -/

/-- What is left of a step of the nodes without the packets that arrive. -/
def ProbedEvent.own : ProbedEvent → List ProbedEvent
  | .task _ (.shard ..) => []
  | .task std e => [.task std e]
  | .probe (.probe x peerId sendTime clock) => [.probe (.probe x peerId sendTime clock)]
  | .probe _ => []

/-- What is left of a step of the whole without tunnels and receive loops. -/
def SealedMeshEvent.own : SealedMeshEvent → List ProbedEvent
  | .task std e => ProbedEvent.own (.task std e)
  | .probe x peerId sendTime clock => [.probe (.probe x peerId sendTime clock)]
  | _ => []

/-- The step of the nodes that does what the step of the whole does. -/
def SealedMesh.Mirrors (s : SealedMesh) : SealedMeshEvent → ProbedEvent → Prop
  | .task _ (.shard ..), _ => False
  | .task std e, d => d = .task std e
  | .probe x peerId sendTime clock, d => d = .probe (.probe x peerId sendTime clock)
  | .handle x now received now' now'', d =>
      (∃ std fromPeer n i, d = .task std (.shard fromPeer x now n i) ∧
        ((s.state.mesh.link (fromPeer, x)).fec.shard? n i).isSome) ∨
      ∃ k, d = .probe (.deliver k received now' now'')
  | _, _ => False

theorem SealedMesh.Mirrors.own_eq {e : SealedMeshEvent} {d : ProbedEvent} (h : s.Mirrors e d) :
    e.own = d.own := by
  cases e with
  | task std e =>
    cases e with
    | shard fromPeer x now n i => cases h
    | _ =>
      cases h
      rfl
  | probe x peerId sendTime clock =>
    cases h
    rfl
  | handle x now received now' now'' =>
    rcases h with ⟨std, fromPeer, n, i, rfl, -⟩ | ⟨k, rfl⟩
    · rfl
    · rfl
  | _ => cases h

/-- What the forwarder does with a packet that has arrived is a step of the nodes. -/
theorem handlePacket_eq (rs : ReedSolomon) (h : s.Backed aead cfg) {x fromPeer : NodeId}
    {packet : ReceivedPacket} (hmem : (fromPeer, packet) ∈ s.inbound x)
    (hidle : (s.state.mesh.node x).routing = [])
    (now : Nat) (received now' now'' : Instant) :
    ∃ d, s.Mirrors (.handle x now received now' now'') d ∧
      d.NoControl ∧
      probedStep rs cfg.probed s.state d =
        (s.state.handlePacket rs cfg.probed fromPeer x packet now received now' now'').map
          fun m => (m, ()) := by
  obtain ⟨hpeer, hsent⟩ := h.arrived x (fromPeer, packet) hmem
  -- a shard goes to the FEC receiver of the peer, which exists; all else came from a prober
  rw [ProbedMesh.Sent] at hsent
  split at hsent
  case isTrue htype =>
    have hprobe : ¬ (packet.packetType = packetPing ∨ packet.packetType = packetPong) := by
      rintro (heq | heq)
      · rw [heq] at htype
        cases htype
      · rw [heq] at htype
        cases htype
    obtain ⟨n, hblock⟩ := exists_blockOf? hsent
    obtain ⟨i, hshard⟩ := exists_shard_of_blockOf? hblock
    refine ⟨.task .firstLeast (.shard fromPeer x now n i),
      Or.inl ⟨_, fromPeer, n, i, rfl, by rw [hshard]; rfl⟩, trivial, ?_⟩
    have hready : cfg.probed.mesh.isPeer x fromPeer ∧ (s.state.mesh.node x).routing = [] :=
      ⟨decide_eq_true hpeer, hidle⟩
    rw [ProbedMesh.handlePacket, if_neg hprobe, if_pos htype, if_pos hpeer,
      receiveShard_eq_receive hblock hshard]
    simp only [probedStep, ProbedMesh.answered, MeshState.asks, MeshEvent.answer, MeshState.step,
      handleInbound, if_pos hready]
    cases (s.state.mesh.link (fromPeer, x)).receive rs now n i with
    | error p => rfl
    | ok result => rfl
  case isFalse htype =>
    obtain ⟨k, hk⟩ := List.mem_iff_getElem?.mp hsent
    refine ⟨.probe (.deliver k received now' now''), Or.inr ⟨k, rfl⟩, trivial, ?_⟩
    rw [ProbedMesh.handlePacket, if_pos (h.probes _ hsent)]
    simp only [probedStep, probeNetStep, hk, if_pos hpeer]
    rfl

/-- What a step of the whole is for the nodes: nothing, a step that mirrors it, or an abort. -/
inductive SealedMesh.Mirrored (rs : ReedSolomon) (aead : Aead) (cfg : SealedConfig) (s : SealedMesh)
    (e : SealedMeshEvent) : Prop
  | idle {s' : SealedMesh} (hown : e.own = [])
      (hstep : sealedMeshStep rs aead cfg s e = .ok (s', ())) (hstate : s'.state = s.state)
      (hbacked : s'.Backed aead cfg)
  | moved {s' : SealedMesh} {d : ProbedEvent} (hmirrors : s.Mirrors e d)
      (hstep : sealedMeshStep rs aead cfg s e = .ok (s', ()))
      (hstep' : probedStep rs cfg.probed s.state d = .ok (s'.state, ()))
      (hbacked : s'.Backed aead cfg)
  | aborted {d : ProbedEvent} {fault : ProbedFault} (hmirrors : s.Mirrors e d)
      (hstep : sealedMeshStep rs aead cfg s e = .error fault)
      (hstep' : probedStep rs cfg.probed s.state d = .error fault)

variable {e : SealedMeshEvent}

theorem SealedMesh.advance_eq {d : ProbedEvent} {state : ProbedMesh}
    (h : probedStep rs cfg.probed s.state d = .ok (state, ())) :
    s.advance rs cfg d = .ok ({ s with state := state }, ()) := by
  rw [SealedMesh.advance, h]

/-- A step of the nodes that needs no packet. -/
theorem SealedMesh.Backed.advance (h : s.Backed aead cfg) {d : ProbedEvent}
    (hmirrors : s.Mirrors e d) (hcontrol : d.NoControl)
    (hstep : sealedMeshStep rs aead cfg s e = s.advance rs cfg d) : s.Mirrored rs aead cfg e := by
  cases hprobed : probedStep rs cfg.probed s.state d with
  | error fault =>
    refine .aborted hmirrors ?_ hprobed
    rw [hstep, SealedMesh.advance, hprobed]
  | ok result =>
    obtain ⟨state, o⟩ := result
    have hok : sealedMeshStep rs aead cfg s e = .ok ({ s with state := state }, ()) := by
      rw [hstep, SealedMesh.advance_eq hprobed]
    exact .moved hmirrors hok hprobed (h.grew (grew_probedStep hcontrol hprobed))

/-- A tunnel is given a packet that has been sent. -/
theorem SealedMesh.Backed.fetch (h : s.Backed aead cfg) (hopens : aead.Opens) {x y : NodeId}
    {packetType : UInt8} {payload : Bytes} (hsent : s.state.Sent x y packetType payload) :
    (s.netStep aead cfg (.fetch x y packetType payload)).Backed aead cfg := by
  apply h.netStep hopens
  · trivial
  · trivial
  · intro src dst packetType' payload' heq
    cases heq
    exact hsent

theorem SealedMesh.Backed.step (h : s.Backed aead cfg) (hopens : aead.Opens)
    (hfaithful : s.Faithful aead cfg e) : s.Mirrored rs aead cfg e := by
  cases e with
  | task std e =>
    cases e with
    | shard fromPeer x now n i => exact .idle rfl rfl rfl h
    | _ => exact h.advance rfl trivial rfl
  | probe x peerId sendTime clock => exact h.advance rfl trivial rfl
  | sendShard x y n =>
    cases hshard : (s.state.mesh.link (x, y)).fec.emitted[n]?.bind fun block =>
        block.shards[s.shardsSent (x, y) n]? with
    | none =>
      have hok : sealedMeshStep rs aead cfg s (.sendShard x y n) = .ok (s, ()) := by
        simp only [sealedMeshStep, hshard]
      exact .idle rfl hok rfl h
    | some frame =>
      -- the next shard of the block has been emitted, so the tunnel is given what has been sent
      obtain ⟨packetType, shard⟩ := frame
      obtain ⟨block, hblock, hframe⟩ := Option.bind_eq_some_iff.mp hshard
      have htype : isShardType packetType :=
        h.frames x y block (List.mem_of_getElem? hblock) _ (List.mem_of_getElem? hframe)
      have hsent : s.state.Sent x y packetType shard := by
        rw [ProbedMesh.Sent, if_pos htype]
        refine ⟨n, s.shardsSent (x, y) n, ?_⟩
        rw [FecLink.shard?, hblock, Option.bind_some, hframe]
        rfl
      have hbacked := h.fetch hopens hsent
      have hok : sealedMeshStep rs aead cfg s (.sendShard x y n) =
          .ok ({ s.netStep aead cfg (.fetch x y packetType shard) with
            shardsSent := Function.update s.shardsSent (x, y)
              (Function.update (s.shardsSent (x, y)) n (s.shardsSent (x, y) n + 1)) }, ()) := by
        simp only [sealedMeshStep, hshard]
      refine .idle rfl hok (state_netStep aead cfg s _) ?_
      exact ⟨hbacked.reached, hbacked.frames, hbacked.probes, hbacked.called, hbacked.arrived⟩
  | sendProbe k =>
    cases hpacket : s.state.probes.sent[k]? with
    | none =>
      have hok : sealedMeshStep rs aead cfg s (.sendProbe k) = .ok (s, ()) := by
        simp only [sealedMeshStep, hpacket]
      exact .idle rfl hok rfl h
    | some packet =>
      by_cases hk : k ∈ s.probesSent
      · have hok : sealedMeshStep rs aead cfg s (.sendProbe k) = .ok (s, ()) := by
          simp only [sealedMeshStep, hpacket, if_pos hk]
        exact .idle rfl hok rfl h
      · -- PINGs and PONGs are no shards
        have hmem := List.mem_of_getElem? hpacket
        have htype : ¬ isShardType packet.packetType := by
          rcases h.probes packet hmem with heq | heq
          · rw [heq]
            exact Bool.false_ne_true
          · rw [heq]
            exact Bool.false_ne_true
        have hsent : s.state.Sent packet.src packet.dst packet.packetType packet.payload := by
          rw [ProbedMesh.Sent, if_neg htype]
          exact hmem
        have hbacked := h.fetch hopens hsent
        have hok : sealedMeshStep rs aead cfg s (.sendProbe k) =
            .ok ({ s.netStep aead cfg (.fetch packet.src packet.dst packet.packetType
                packet.payload) with probesSent := s.probesSent ++ [k] }, ()) := by
          simp only [sealedMeshStep, hpacket, if_neg hk]
        refine .idle rfl hok (state_netStep aead cfg s _) ?_
        exact ⟨hbacked.reached, hbacked.frames, hbacked.probes, hbacked.called, hbacked.arrived⟩
  | encrypt j =>
    refine .idle rfl rfl (state_netStep aead cfg s _) ?_
    apply h.netStep hopens
    · trivial
    · trivial
    · intro _ _ _ _ heq
      cases heq
  | datagram x source bytes =>
    by_cases hfull : forwardCapacity ≤ (s.inbound x).length
    · have hok : sealedMeshStep rs aead cfg s (.datagram x source bytes) = .ok (s, ()) := by
        rw [sealedMeshStep, if_pos hfull]
      exact .idle rfl hok rfl h
    · have hok : sealedMeshStep rs aead cfg s (.datagram x source bytes) =
          .ok (s.netStep aead cfg (.datagram x source bytes), ()) := by
        rw [sealedMeshStep, if_neg hfull]
      refine .idle rfl hok (state_netStep aead cfg s _) ?_
      apply h.netStep hopens hfaithful.1 hfaithful.2
      intro _ _ _ _ heq
      cases heq
  | handle x now received now' now'' =>
    by_cases hidle : (s.state.mesh.node x).routing = []
    · cases hinbound : s.inbound x with
      | nil =>
        have hok : sealedMeshStep rs aead cfg s (.handle x now received now' now'') =
            .ok (s, ()) := by
          simp only [sealedMeshStep, if_pos hidle, hinbound]
        exact .idle rfl hok rfl h
      | cons r rest =>
        obtain ⟨fromPeer, packet⟩ := r
        have hmem : (fromPeer, packet) ∈ s.inbound x := by
          rw [hinbound]
          exact List.mem_cons_self
        -- the nodes do with it what they do with a packet of their own
        obtain ⟨d, hmirrors, hcontrol, heq⟩ :=
          handlePacket_eq rs h hmem hidle now received now' now''
        cases hhandle : s.state.handlePacket rs cfg.probed fromPeer x packet now received now'
            now'' with
        | error fault =>
          rw [hhandle] at heq
          refine .aborted hmirrors ?_ heq
          simp only [sealedMeshStep, if_pos hidle, hinbound, hhandle]
        | ok state =>
          rw [hhandle] at heq
          have hok : sealedMeshStep rs aead cfg s (.handle x now received now' now'') =
              .ok ({ s with
                state := state
                inbound := Function.update s.inbound x rest }, ()) := by
            simp only [sealedMeshStep, if_pos hidle, hinbound, hhandle]
          exact .moved hmirrors hok heq ((h.take hinbound).grew (grew_probedStep hcontrol heq))
    · have hok : sealedMeshStep rs aead cfg s (.handle x now received now' now'') =
          .ok (s, ()) := by
        simp only [sealedMeshStep, if_neg hidle]
      exact .idle rfl hok rfl h

/-! ## Runs -/

/-- The nodes alone simulate the nodes with their tunnels, by steps that mirror those of the whole.
-/
theorem sealedMesh_simulates (rs : ReedSolomon) (hopens : aead.Opens)
    {C : SealedMesh → SealedMeshEvent → Prop} {D : ProbedMesh → ProbedEvent → Prop}
    {I : ProbedMesh → Prop} (hC : ∀ s e, s.Backed aead cfg → C s e → s.Faithful aead cfg e)
    (hI : ∀ m d m', I m → D m d → probedStep rs cfg.probed m d = .ok (m', ()) → I m')
    (hD : ∀ s e d, I s.state → C s e → s.Mirrors e d → D s.state d) :
    Machine.Simulates (sealedMeshStep rs aead cfg) (fun e _ => e.own) C
      (probedStep rs cfg.probed) (fun d _ => d.own) D
      (fun s t => t = s.state ∧ s.Backed aead cfg ∧ I s.state) := by
  rintro s _ e ⟨rfl, h, hinv⟩ hcond
  have hmirrored : s.Mirrored rs aead cfg e := h.step hopens (hC s e h hcond)
  cases hmirrored with
  | idle hown hstep hstate hbacked =>
    exact .idle hstep hown ⟨hstate.symm, hbacked, by rw [hstate]; exact hinv⟩
  | moved hmirrors hstep hstep' hbacked =>
    have hd := hD s e _ hinv hcond hmirrors
    exact .moved hstep hd hstep' hmirrors.own_eq ⟨rfl, hbacked, hI _ _ _ hinv hd hstep'⟩
  | aborted hmirrors hstep hstep' =>
    exact .aborted hstep (hD s e _ hinv hcond hmirrors) hstep'

/-- In every run in which the network leaves frames as they are, whatever datagrams are lost,
delayed, reordered or repeated: the nodes are in the state to which the same steps of theirs lead,
in the same order, in a run without tunnels, and every packet in the channel of a node was sent by
the peer it is said to come from; or the run aborts as a run without tunnels does. -/
theorem sealedMesh_refines (hopens : aead.Opens) {es : List SealedMeshEvent}
    (hfaithful : Machine.Along (sealedMeshStep rs aead cfg) (SealedMesh.Faithful aead cfg)
      (SealedMesh.start cfg) es) :
    (∃ s os ds os', Machine.run (sealedMeshStep rs aead cfg) (SealedMesh.start cfg) es =
        .ok (s, os) ∧
      Machine.run (probedStep rs cfg.probed) (ProbedMesh.start cfg.probed) ds =
        .ok (s.state, os') ∧
      es.flatMap SealedMeshEvent.own = ds.flatMap ProbedEvent.own ∧
      ∀ x, ∀ r ∈ s.inbound x, r.1 ∈ cfg.probed.peers x ∧
        s.state.Sent r.1 x r.2.packetType r.2.payload) ∨
    ∃ fault ds fault', Machine.run (sealedMeshStep rs aead cfg) (SealedMesh.start cfg) es =
        .error fault ∧
      Machine.run (probedStep rs cfg.probed) (ProbedMesh.start cfg.probed) ds = .error fault' := by
  have hsim : Machine.Simulates (sealedMeshStep rs aead cfg) (fun e _ => e.own)
      (SealedMesh.Faithful aead cfg) (probedStep rs cfg.probed) (fun d _ => d.own)
      (fun _ _ => True) (fun s t => t = s.state ∧ s.Backed aead cfg ∧ True) :=
    sealedMesh_simulates rs hopens (fun _ _ _ h => h) (fun _ _ _ _ _ _ => trivial)
      fun _ _ _ _ _ _ => trivial
  rcases hsim.run ⟨rfl, backed_start aead cfg, trivial⟩ hfaithful with
    ⟨s, os, ds, t, os', hrun, -, hrun', ⟨rfl, hbacked, -⟩, htrace⟩ |
      ⟨fault, ds, fault', hrun, -, hrun'⟩
  · refine Or.inl ⟨s, os, ds, os', hrun, hrun', ?_, hbacked.arrived⟩
    rw [Machine.trace_eq_flatMap (Machine.length_outputs hrun),
      Machine.trace_eq_flatMap (Machine.length_outputs hrun')] at htrace
    exact htrace
  · exact Or.inr ⟨fault, ds, fault', hrun, hrun'⟩

/-! ## Two nodes -/

/-- Sydney and Singapore are each other's peer; clients' data goes to Singapore. -/
def pairMesh : SealedConfig := ⟨pairCfg, fun _ => "sgp-01", fun _ => replicaConfig⟩

def pingCall : SendCall :=
  ⟨"syd-01", "sgp-01", (Tunnel.new sgpAddr zeroKey).crypto, packetPing, 0, [1, 0, 0, 0]⟩

def pongCall : SendCall :=
  ⟨"sgp-01", "syd-01", (Tunnel.new sydAddr zeroKey).crypto, packetPong, 0, [1, 0, 0, 0]⟩

/-- Sydney measures Singapore over the tunnels. -/
def pairProbes : List SealedMeshEvent :=
  [.probe "syd-01" "sgp-01" 0 fun _ => 0, .sendProbe 0, .encrypt 0,
    .datagram "sgp-01" sydAddr (pingCall.frame tagAead), .handle "sgp-01" 0 0 0 0,
    .sendProbe 1, .encrypt 0, .datagram "syd-01" sgpAddr (pongCall.frame tagAead),
    .handle "syd-01" 0 50000000 50000000 50000000]

/-- The data shard of the block of one byte for Singapore. -/
def relayedCall : SendCall :=
  ⟨"syd-01", "sgp-01", (Tunnel.new sgpAddr zeroKey).crypto, packetData, 1,
    [0, 0, 0, 1, 1, 12, 0, 12, 0, 1, 0, 0, 0, 6, 115, 103, 112, 45, 48, 49, 7]⟩

/-- Then a byte of a client of Sydney goes to Singapore. -/
def pairSends : List SealedMeshEvent :=
  pairProbes ++ [.task .firstLeast (.accept "syd-01" .tcp), .task .firstLeast (.read 0 [7]),
    .task .firstLeast (.send 0 none), .sendShard "syd-01" "sgp-01" 0, .encrypt 0,
    .datagram "sgp-01" sydAddr (relayedCall.frame tagAead), .handle "sgp-01" 0 0 0 0,
    .task .firstLeast (.route "sgp-01" none), .task .firstLeast (.dispatch "sgp-01")]

/-- The frames are left as they are, no step aborts, and Singapore has handed the byte to its
edge. -/
theorem pairSends_run :
    Machine.Along (sealedMeshStep smallCodec tagAead pairMesh)
        (SealedMesh.Faithful tagAead pairMesh) (SealedMesh.start pairMesh) pairSends ∧
      ∃ s os, Machine.run (sealedMeshStep smallCodec tagAead pairMesh) (SealedMesh.start pairMesh)
          pairSends = .ok (s, os) ∧
        (s.state.mesh.node "sgp-01").handed = [⟨1, [7], "syd-01", some 0⟩] := by
  refine Machine.Along.run_cons rfl trivial ?_
  refine Machine.Along.run_cons rfl trivial ?_
  refine Machine.Along.run_cons rfl trivial ?_
  refine Machine.Along.run_cons rfl (by constructor <;> decide) ?_
  refine Machine.Along.run_cons rfl trivial ?_
  refine Machine.Along.run_cons rfl trivial ?_
  refine Machine.Along.run_cons rfl trivial ?_
  refine Machine.Along.run_cons rfl (by constructor <;> decide) ?_
  refine Machine.Along.run_cons rfl trivial ?_
  refine Machine.Along.run_cons rfl trivial ?_
  refine Machine.Along.run_cons rfl trivial ?_
  -- the router of Sydney has measured the edge to Singapore
  have hown := (probeNet_inv pairMesh.probed.peers [.probe "syd-01" "sgp-01" 0 fun _ => 0,
    .deliver 0 0 0 0, .deliver 1 50000000 50000000 50000000] _ _ rfl).own "syd-01"
  refine Machine.Along.run_cons (SealedMesh.advance_eq (probedStep_task
    (ProbedMesh.answered_send rfl hown (by decide) rfl (by decide) _ _) rfl)) trivial ?_
  refine Machine.Along.run_cons rfl trivial ?_
  refine Machine.Along.run_cons rfl trivial ?_
  refine Machine.Along.run_cons rfl (by constructor <;> decide) ?_
  refine Machine.Along.run_cons rfl trivial ?_
  refine Machine.Along.run_cons rfl trivial ?_
  refine Machine.Along.run_cons rfl trivial ?_
  exact ⟨trivial, _, _, rfl, rfl⟩

theorem sealedMesh_refines_pair :
    ∃ s os ds os', Machine.run (sealedMeshStep smallCodec tagAead pairMesh)
        (SealedMesh.start pairMesh) pairSends = .ok (s, os) ∧
      (s.state.mesh.node "sgp-01").handed = [⟨1, [7], "syd-01", some 0⟩] ∧
      Machine.run (probedStep smallCodec pairMesh.probed) (ProbedMesh.start pairMesh.probed) ds =
        .ok (s.state, os') ∧
      pairSends.flatMap SealedMeshEvent.own = ds.flatMap ProbedEvent.own ∧
      ∀ x, ∀ r ∈ s.inbound x, r.1 ∈ pairMesh.probed.peers x ∧
        s.state.Sent r.1 x r.2.packetType r.2.payload := by
  obtain ⟨hfaithful, t, ts, hrun, hhanded⟩ := pairSends_run
  rcases sealedMesh_refines tagAead_opens hfaithful with
    ⟨s, os, ds, os', hrun', hrefined⟩ | ⟨fault, -, -, hrun', -⟩
  · rw [hrun] at hrun'
    cases hrun'
    exact ⟨t, ts, ds, os', hrun, hhanded, hrefined⟩
  · rw [hrun] at hrun'
    cases hrun'

end EntrouterLine.Mesh
