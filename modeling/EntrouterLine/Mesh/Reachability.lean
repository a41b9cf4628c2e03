import EntrouterLine.Lib.Machine
import EntrouterLine.Mesh.NextHop
import EntrouterLine.Mesh.Probe

/-!
# Which nodes a node has routes to

All nodes probe their peers and answer the probes of their peers; the network may lose, reorder and
repeat the packets. The matrix of a node gets entries of its own peers only (`probeNet_inv`): a node
answers a PING by echoing it, and a control packet is only logged, so nothing that another node has
measured arrives. So after every pair of peers has exchanged probes, `next_hop` finds a route to the
peers of the node and to no other node (`nextHop_iff_peer`), however the peers are connected.
-/

set_option autoImplicit false

namespace EntrouterLine.Mesh

open EntrouterLine.Lib
open EntrouterLine.Relay

/-! ## The network of probers -/

/-- A packet between two nodes. -/
structure ProbePacket where
  src : NodeId
  dst : NodeId
  packetType : UInt8
  payload : Bytes
  deriving DecidableEq

/-- The probers of all nodes, every packet sent so far, and the pairs of a node and a peer from
which the node has received the PONG to a probe that it had sent to this peer. -/
structure ProbeNet where
  prober : NodeId → Prober
  sent : List ProbePacket
  exchanged : List (NodeId × NodeId)

def ProbeNet.start : ProbeNet := ⟨fun x => Prober.new x LatencyMatrix.new, [], []⟩

/-- The peers in the configuration of each node. -/
abbrev PeerGraph := NodeId → List NodeId

def ProbeNet.setProber (net : ProbeNet) (x : NodeId) (p : Prober) : ProbeNet :=
  { net with prober := Function.update net.prober x p }

/-- A tick of `probe_loop` at `x` for its peer. -/
def ProbeNet.probe (net : ProbeNet) (x peerId : NodeId) (sendTime : Instant)
    (clock : UInt32 → Instant) : ProbeNet :=
  let (payload, p) := (net.prober x).createPing peerId sendTime clock
  { net.setProber x p with sent := net.sent ++ [⟨x, peerId, packetPing, payload⟩] }

/-- `handle_inbound` at the node `x`, as far as the probers go: data goes to the FEC receivers, and
a control packet or one of unknown type is logged. -/
def ProbeNet.handleInbound (net : ProbeNet) (x fromPeer : NodeId) (packetType : UInt8)
    (payload : Bytes) (received now now' : Instant) : ProbeNet :=
  if packetType = packetPing then
    { net with sent := net.sent ++ [⟨x, fromPeer, packetPong, createPong payload⟩] }
  else if packetType = packetPong then
    let net' := net.setProber x ((net.prober x).handlePong fromPeer payload received now now')
    match (net.prober x).pending (pongId payload) with
    | some (peerId, _) =>
        if peerId = fromPeer ∧ 4 ≤ payload.length then
          { net' with exchanged := net.exchanged ++ [(x, fromPeer)] }
        else net'
    | none => net'
  else net

inductive ProbeNetEvent where
  | probe (x peerId : NodeId) (sendTime : Instant) (clock : UInt32 → Instant)
  | deliver (k : Nat) (received now now' : Instant)
  | control (x peerId : NodeId) (payload : Bytes)

/-- A probe goes to a peer of the configuration. The network hands any packet that was ever sent to
its destination, which takes packets from its own peers only. -/
def probeNetStep (peers : PeerGraph) (net : ProbeNet) :
    ProbeNetEvent → Except Empty (ProbeNet × Unit)
  | .probe x peerId sendTime clock =>
      if peerId ∈ peers x then .ok (net.probe x peerId sendTime clock, ()) else .ok (net, ())
  | .deliver k received now now' =>
      match net.sent[k]? with
      | some packet =>
          if packet.src ∈ peers packet.dst then
            .ok (net.handleInbound packet.dst packet.src packet.packetType packet.payload received
              now
              now', ())
          else .ok (net, ())
      | none => .ok (net, ())
  | .control x peerId payload =>
      .ok ({ net with sent := net.sent ++ [⟨x, peerId, packetControl, payload⟩] }, ())

/-! ## What a matrix can hold -/

/-- All that a node keeps of others are its own peers: it waits for them, and it has entries for the
edges between them and itself. -/
structure OwnPeers (peers : PeerGraph) (x : NodeId) (p : Prober) : Prop where
  nodeId : p.nodeId = x
  pending : ∀ id peerId sendTime, p.pending id = some (peerId, sendTime) → peerId ∈ peers x
  edges : ∀ a b, (p.matrix.getRtt a b).isSome → a = x ∧ b ∈ peers x ∨ b = x ∧ a ∈ peers x

structure ProbeNetInv (peers : PeerGraph) (net : ProbeNet) : Prop where
  own : ∀ x, OwnPeers peers x (net.prober x)
  measured : ∀ x peerId, (x, peerId) ∈ net.exchanged →
    ((net.prober x).matrix.getRtt x peerId).isSome

variable {peers : PeerGraph} {x : NodeId} {p : Prober} {net : ProbeNet}

theorem ownPeers_new (peers : PeerGraph) (x : NodeId) :
    OwnPeers peers x (Prober.new x LatencyMatrix.new) :=
  ⟨rfl, nofun, fun _ _ h => nomatch h⟩

theorem OwnPeers.createPing (h : OwnPeers peers x p) {peerId : NodeId} (hpeer : peerId ∈ peers x)
    (sendTime : Instant) (clock : UInt32 → Instant) :
    OwnPeers peers x (p.createPing peerId sendTime clock).2 := by
  refine ⟨h.nodeId, ?_, h.edges⟩
  intro id peerId' sendTime' hpending
  rcases pending_createPing hpending with ⟨-, heq⟩ | ⟨-, hold⟩
  · rw [Prod.mk.injEq] at heq
    rw [heq.1]
    exact hpeer
  · exact h.pending id peerId' sendTime' hold

theorem OwnPeers.handlePong (h : OwnPeers peers x p) (fromPeer : NodeId) (payload : Bytes)
    (received now now' : Instant) :
    OwnPeers peers x (p.handlePong fromPeer payload received now now') := by
  rcases handlePong_cases p fromPeer payload received now now' with
    ⟨heq, -⟩ | ⟨-, peerId, sendTime, hpending, heq⟩
  · rw [heq]
    exact h
  · rw [heq]
    have hpeer := h.pending _ _ _ hpending
    refine ⟨h.nodeId, ?_, ?_⟩
    · intro id peerId' sendTime' hid
      exact h.pending id peerId' sendTime' (pending_answer hid).2
    · intro a b hsome
      rcases (isSome_getRtt_record ..).mp hsome with hkey | hkey | hold
      · rw [Prod.mk.injEq, h.nodeId] at hkey
        exact Or.inl ⟨hkey.1, by rw [hkey.2]; exact hpeer⟩
      · rw [Prod.mk.injEq, h.nodeId] at hkey
        exact Or.inr ⟨hkey.2, by rw [hkey.1]; exact hpeer⟩
      · exact h.edges a b hold

/-- `handle_pong` removes no entry. -/
theorem isSome_getRtt_handlePong {a b : NodeId} (h : (p.matrix.getRtt a b).isSome)
    (fromPeer : NodeId) (payload : Bytes) (received now now' : Instant) :
    ((p.handlePong fromPeer payload received now now').matrix.getRtt a b).isSome := by
  rcases handlePong_cases p fromPeer payload received now now' with
    ⟨heq, -⟩ | ⟨-, peerId, sendTime, -, heq⟩
  · rw [heq]
    exact h
  · rw [heq]
    exact (isSome_getRtt_record ..).mpr (Or.inr (Or.inr h))

/-- A new state of one prober keeps the invariant if it keeps what the node has. -/
theorem ProbeNetInv.setProber (h : ProbeNetInv peers net) (hp : OwnPeers peers x p)
    (hkept : ∀ a b, ((net.prober x).matrix.getRtt a b).isSome → (p.matrix.getRtt a b).isSome) :
    ProbeNetInv peers (net.setProber x p) := by
  constructor
  · intro y
    by_cases hy : y = x
    · subst hy
      show OwnPeers peers y (Function.update net.prober y p y)
      rw [Function.update_self]
      exact hp
    · show OwnPeers peers y (Function.update net.prober x p y)
      rw [Function.update_of_ne hy]
      exact h.own y
  · intro y peerId hmem
    have hold := h.measured y peerId hmem
    by_cases hy : y = x
    · subst hy
      show ((Function.update net.prober y p y).matrix.getRtt y peerId).isSome
      rw [Function.update_self]
      exact hkept _ _ hold
    · show ((Function.update net.prober x p y).matrix.getRtt y peerId).isSome
      rw [Function.update_of_ne hy]
      exact hold

/-- The packets in the network are none of the invariant's business. -/
theorem ProbeNetInv.send (h : ProbeNetInv peers net) (sent : List ProbePacket) :
    ProbeNetInv peers { net with sent := sent } :=
  ⟨h.own, h.measured⟩

theorem ProbeNetInv.handleInbound (h : ProbeNetInv peers net) (x fromPeer : NodeId)
    (packetType : UInt8) (payload : Bytes) (received now now' : Instant) :
    ProbeNetInv peers (net.handleInbound x fromPeer packetType payload received now now') := by
  have hset := h.setProber ((h.own x).handlePong fromPeer payload received now now')
    fun _ _ hsome => isSome_getRtt_handlePong hsome fromPeer payload received now now'
  rw [ProbeNet.handleInbound]
  by_cases hping : packetType = packetPing
  · rw [if_pos hping]
    exact h.send _
  · rw [if_neg hping]
    by_cases hpong : packetType = packetPong
    · rw [if_pos hpong]
      cases hpending : (net.prober x).pending (pongId payload) with
      | none => exact hset
      | some probe =>
        obtain ⟨peerId, sendTime⟩ := probe
        by_cases hfrom : peerId = fromPeer ∧ 4 ≤ payload.length
        · simp only [if_pos hfrom]
          refine ⟨hset.own, ?_⟩
          intro y peerId' hmem
          rcases List.mem_append.mp hmem with hold | hnew
          · exact hset.measured y peerId' hold
          · -- the exchange that ends here has just been recorded
            rw [List.mem_singleton, Prod.mk.injEq] at hnew
            obtain ⟨rfl, rfl⟩ := hnew
            obtain ⟨rfl, hlen⟩ := hfrom
            rcases handlePong_cases (net.prober y) peerId payload received now now' with
              ⟨-, hshort | hnone⟩ | ⟨-, peerId', sendTime', hpending', heq⟩
            · omega
            · rw [hpending] at hnone
              cases hnone
            · rw [hpending, Option.some.injEq, Prod.mk.injEq] at hpending'
              obtain ⟨rfl, rfl⟩ := hpending'
              show ((Function.update net.prober y _ y).matrix.getRtt y peerId).isSome
              rw [Function.update_self, heq]
              refine (isSome_getRtt_record ..).mpr (Or.inl ?_)
              rw [(h.own y).nodeId]
        · simp only [if_neg hfrom]
          exact hset
    · rw [if_neg hpong]
      exact h

/-- Everything a step can do. -/
theorem probeNetStep_cases {net' : ProbeNet} {e : ProbeNetEvent} {o : Unit}
    (h : probeNetStep peers net e = .ok (net', o)) :
    net' = net ∨ (∃ sent, net' = { net with sent := sent }) ∨
    (∃ x peerId sendTime clock, peerId ∈ peers x ∧ net' = net.probe x peerId sendTime clock) ∨
    ∃ packet received now now', packet ∈ net.sent ∧ packet.src ∈ peers packet.dst ∧
      net' = net.handleInbound packet.dst packet.src packet.packetType packet.payload received now
        now' := by
  cases e with
  | probe x peerId sendTime clock =>
    simp only [probeNetStep] at h
    split at h
    case isTrue hpeer =>
      rw [Except.ok.injEq, Prod.mk.injEq] at h
      exact Or.inr (Or.inr (Or.inl ⟨x, peerId, sendTime, clock, hpeer, h.1.symm⟩))
    case isFalse =>
      rw [Except.ok.injEq, Prod.mk.injEq] at h
      exact Or.inl h.1.symm
  | deliver k received now now' =>
    cases hpacket : net.sent[k]? with
    | none =>
      simp only [probeNetStep, hpacket, Except.ok.injEq, Prod.mk.injEq] at h
      exact Or.inl h.1.symm
    | some packet =>
      simp only [probeNetStep, hpacket] at h
      split at h
      case isTrue hpeer =>
        rw [Except.ok.injEq, Prod.mk.injEq] at h
        exact Or.inr (Or.inr (Or.inr ⟨packet, received, now, now',
          List.mem_of_getElem? hpacket, hpeer, h.1.symm⟩))
      case isFalse =>
        rw [Except.ok.injEq, Prod.mk.injEq] at h
        exact Or.inl h.1.symm
  | control x peerId payload =>
    rw [probeNetStep, Except.ok.injEq, Prod.mk.injEq] at h
    exact Or.inr (Or.inl ⟨_, h.1.symm⟩)

/-- In every run, a node has entries of its own peers only, and of those it has exchanged probes
with. -/
theorem probeNet_inv (peers : PeerGraph) (es : List ProbeNetEvent) (net : ProbeNet) (os : List Unit)
    (hrun : Machine.run (probeNetStep peers) ProbeNet.start es = .ok (net, os)) :
    ProbeNetInv peers net := by
  refine Machine.run_induction (P := fun _ net _ => ProbeNetInv peers net) ?_ ?_ es net os hrun
  · exact ⟨ownPeers_new peers, nofun⟩
  · intro es net os e net' o h hstep
    rcases probeNetStep_cases hstep with rfl | ⟨sent, rfl⟩ |
      ⟨x, peerId, sendTime, clock, hpeer, rfl⟩ | ⟨packet, received, now, now', -, -, rfl⟩
    · exact h
    · exact h.send sent
    · exact (h.setProber ((h.own x).createPing hpeer sendTime clock) fun _ _ hsome => hsome).send _
    · exact h.handleInbound ..

/-! ## Routes -/

theorem weights_isSome {m : LatencyMatrix} {a b : NodeId} :
    (m.weights a b).isSome ↔ (m.getRtt a b).isSome := by
  rw [LatencyMatrix.weights, Option.isSome_map]

/-- A walk from the node that repeats no node is one edge long: every edge has an end at the node.
-/
theorem OwnPeers.walk_eq (h : OwnPeers peers x p) {y : NodeId} (hne : y ≠ x) {path : List NodeId}
    (hwalk : IsWalk p.matrix.weights x y path) (hnodup : path.Nodup) : path = [x, y] := by
  obtain ⟨v, l, rfl⟩ := hwalk.exists_cons (Ne.symm hne)
  have hrest := hwalk.uncons.2
  have hv : v ≠ x := by
    rintro rfl
    simp at hnodup
  by_cases hend : v = y
  · subst hend
    cases l with
    | nil => rfl
    | cons u l =>
      -- the end would come twice
      have hlast : v ∈ u :: l := List.mem_of_getLast? (by simpa using hrest.last)
      exact absurd hlast (List.nodup_cons.mp (List.nodup_cons.mp hnodup).2).1
  · obtain ⟨u, l', heq⟩ := hrest.exists_cons hend
    rw [heq] at hrest hnodup
    -- the second edge leads back to the node
    have hedge := h.edges v u (weights_isSome.mp (hrest.edges (v, u) (by simp)))
    rcases hedge with ⟨heq', -⟩ | ⟨rfl, -⟩
    · exact absurd heq' hv
    · simp at hnodup

theorem OwnPeers.peer_of_walk (h : OwnPeers peers x p) {y : NodeId} (hne : y ≠ x)
    {path : List NodeId}
    (hwalk : IsWalk p.matrix.weights x y path) (hnodup : path.Nodup) : y ∈ peers x := by
  obtain rfl := h.walk_eq hne hwalk hnodup
  have hedge := hwalk.edges (x, y) (by simp)
  rcases h.edges x y (weights_isSome.mp hedge) with ⟨-, hpeer⟩ | ⟨heq, -⟩
  · exact hpeer
  · exact absurd heq hne

/-- A node has no route to a node that is not its peer. -/
theorem OwnPeers.nextHop_none (h : OwnPeers peers x p) (std : StdOrder) {y : NodeId} (hne : y ≠ x)
    (hpeer : y ∉ peers x) : (MeshRouter.mk x p.matrix).nextHop std y = .ok none := by
  rcases dijkstra_spec std (MeshRouter.mk x p.matrix) hne with
    ⟨path, -, hnodup, hshort, -⟩ | ⟨hpath, -⟩
  · exact absurd (h.peer_of_walk hne hshort.walk hnodup) hpeer
  · exact nextHop_of_dijkstra_none hne hpath

theorem nanos_isLt (m : LatencyMatrix) (e : NodeId × NodeId) : m.nanos e < 2 ^ 64 * 1000000000 := by
  rw [LatencyMatrix.nanos]
  cases m.getRtt e.1 e.2 with
  | none => decide
  | some rtt => exact rtt.isLt

theorem pathCost_edge {m : LatencyMatrix} {a b : NodeId} {rtt : Duration}
    (h : m.getRtt a b = some rtt) : pathCost m.weights [a, b] = edgeCost rtt := by
  simp [LatencyMatrix.weights, h]

/-- After all peers have exchanged probes, `next_hop` finds a route exactly to the peers of the node
whose cost is less than `u64::MAX`. -/
theorem nextHop_iff_peer (peers : PeerGraph) (es : List ProbeNetEvent) (net : ProbeNet)
    (os : List Unit)
    (hrun : Machine.run (probeNetStep peers) ProbeNet.start es = .ok (net, os))
    (hexchanged : ∀ x, ∀ peerId ∈ peers x, (x, peerId) ∈ net.exchanged)
    (std : StdOrder) (source destination : NodeId) (hne : destination ≠ source) :
    ∃ result,
      (MeshRouter.mk source (net.prober source).matrix).nextHop std destination = .ok result ∧
      (result.isSome ↔ destination ∈ peers source ∧
        ∀ rtt, (net.prober source).matrix.getRtt source destination = some rtt →
          edgeCost rtt ≠ u64Max) := by
  have hinv := probeNet_inv peers es net os hrun
  have hown := hinv.own source
  rcases dijkstra_spec std (MeshRouter.mk source (net.prober source).matrix) hne with
    ⟨path, hpath, hnodup, hshort, hlt⟩ | ⟨hpath, hnone⟩
  · have hpeer := hown.peer_of_walk hne hshort.walk hnodup
    -- the path that was found is the edge to the destination
    obtain rfl := hown.walk_eq hne hshort.walk hnodup
    have hedge := hshort.walk.edges (source, destination) (by simp)
    obtain ⟨rtt, hrtt⟩ := Option.isSome_iff_exists.mp (weights_isSome.mp hedge)
    rw [pathCost_edge hrtt] at hlt
    obtain ⟨totalRtt, hcost, -⟩ := pathCost_ok ⟨source, (net.prober source).matrix⟩
      [source, destination] (by simpa using nanos_isLt _ (source, destination))
    obtain ⟨hop, -, hresult⟩ := nextHop_of_dijkstra hne hpath hshort.walk hcost
    refine ⟨_, hresult, iff_of_true rfl ⟨hpeer, ?_⟩⟩
    intro rtt' hrtt'
    rw [hrtt, Option.some.injEq] at hrtt'
    rw [← hrtt']
    exact Nat.ne_of_lt hlt
  · refine ⟨none, nextHop_of_dijkstra_none hne hpath, iff_of_false nofun ?_⟩
    rintro ⟨hpeer, hfast⟩
    -- the edge to the peer is a path
    obtain ⟨rtt, hrtt⟩ :=
      Option.isSome_iff_exists.mp (hinv.measured source destination (hexchanged source _ hpeer))
    have hedge : (net.prober source).matrix.weights source destination = some (edgeCost rtt) := by
      rw [LatencyMatrix.weights, hrtt]
      rfl
    have hge := hnone _ ((IsWalk.refl _ destination).cons hedge).1
    rw [pathCost_edge hrtt] at hge
    have hlt : edgeCost rtt < 2 ^ 64 := Nat.mod_lt _ (by decide)
    have hcap : u64Max = 2 ^ 64 - 1 := rfl
    have hne' := hfast rtt hrtt
    omega

/-- Three nodes in a line: Sydney and London have Singapore as a peer. -/
def linePeers : PeerGraph := fun x =>
  if x = "sgp" then ["syd", "lon"] else if x = "syd" ∨ x = "lon" then ["sgp"] else []

theorem mem_linePeers {x y : NodeId} (h : y ∈ linePeers x) :
    (x = "sgp" ∧ (y = "syd" ∨ y = "lon")) ∨ ((x = "syd" ∨ x = "lon") ∧ y = "sgp") := by
  by_cases hsgp : x = "sgp"
  · simp only [linePeers, if_pos hsgp] at h
    exact Or.inl ⟨hsgp, by simpa using h⟩
  · by_cases hend : x = "syd" ∨ x = "lon"
    · simp only [linePeers, if_neg hsgp, if_pos hend] at h
      exact Or.inr ⟨hend, by simpa using h⟩
    · simp [linePeers, hsgp, hend] at h

/-- Every node of the line probes its peers once, and all packets arrive. -/
def lineExchanges : List ProbeNetEvent :=
  [.probe "syd" "sgp" 0 fun _ => 0, .probe "sgp" "syd" 0 fun _ => 0,
    .probe "sgp" "lon" 0 fun _ => 0, .probe "lon" "sgp" 0 fun _ => 0] ++
  (List.range 8).map fun k => .deliver k 50000000 50000000 50000000

theorem line_exchanged {net : ProbeNet} {os : List Unit}
    (hrun : Machine.run (probeNetStep linePeers) ProbeNet.start lineExchanges = .ok (net, os)) :
    ∀ x, ∀ peerId ∈ linePeers x, (x, peerId) ∈ net.exchanged := by
  have hmap : (Machine.run (probeNetStep linePeers) ProbeNet.start lineExchanges).map
      (fun result => result.1.exchanged) =
        .ok [("syd", "sgp"), ("sgp", "syd"), ("sgp", "lon"), ("lon", "sgp")] := rfl
  rw [hrun] at hmap
  have hnet : net.exchanged = _ := Except.ok.inj hmap
  rw [hnet]
  intro x peerId hpeer
  rcases mem_linePeers hpeer with ⟨rfl, rfl | rfl⟩ | ⟨rfl | rfl, rfl⟩ <;> decide

theorem nextHop_iff_peer_line :
    ∃ net os, Machine.run (probeNetStep linePeers) ProbeNet.start lineExchanges = .ok (net, os) ∧
      ∃ result, (MeshRouter.mk "syd" (net.prober "syd").matrix).nextHop StdOrder.firstLeast "sgp" =
          .ok result ∧
        (result.isSome ↔ "sgp" ∈ linePeers "syd" ∧
          ∀ rtt, (net.prober "syd").matrix.getRtt "syd" "sgp" = some rtt →
            edgeCost rtt ≠ u64Max) := by
  have hrun : Machine.run (probeNetStep linePeers) ProbeNet.start lineExchanges = .ok (_, _) := rfl
  exact ⟨_, _, hrun, nextHop_iff_peer linePeers lineExchanges _ _ hrun (line_exchanged hrun)
    StdOrder.firstLeast "syd" "sgp" (by decide)⟩

/-- In the line, Sydney has no route to London, although all probes have been answered. -/
theorem line_has_no_route :
    (∀ x, ∀ y ∈ linePeers x, x ∈ linePeers y) ∧
    Relation.ReflTransGen (fun x y => y ∈ linePeers x) "syd" "lon" ∧
    ∃ net os, Machine.run (probeNetStep linePeers) ProbeNet.start lineExchanges = .ok (net, os) ∧
      (∀ x, ∀ peerId ∈ linePeers x, (x, peerId) ∈ net.exchanged) ∧
      ∀ std, (MeshRouter.mk "syd" (net.prober "syd").matrix).nextHop std "lon" = .ok none := by
  have hrun : Machine.run (probeNetStep linePeers) ProbeNet.start lineExchanges = .ok (_, _) := rfl
  refine ⟨?_, ?_, _, _, hrun, line_exchanged hrun, ?_⟩
  · intro x y hpeer
    rcases mem_linePeers hpeer with ⟨rfl, rfl | rfl⟩ | ⟨rfl | rfl, rfl⟩ <;> decide
  · exact (Relation.ReflTransGen.single (b := "sgp") (by decide)).tail (by decide)
  · intro std
    exact ((probeNet_inv linePeers lineExchanges _ _ hrun).own "syd").nextHop_none std (by decide)
      (by decide)

end EntrouterLine.Mesh
