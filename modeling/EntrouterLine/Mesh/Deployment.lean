import EntrouterLine.Mesh.Integrity
import EntrouterLine.Mesh.ProbedStream
import EntrouterLine.Mesh.SealedMesh
import EntrouterLine.Relay.FrameRoundTrip
import EntrouterLine.Relay.SealedRun
import EntrouterLine.Startup

/-!
# A deployed mesh

Here the pieces come together: nodes with agreeing configuration files, their tunnels, probers,
routers, forwarders and edges, and a network that loses, delays, reorders and repeats datagrams and
may make up others that no key opens. Nothing else is assumed of the cipher than that it opens what
it has sealed: that the network leaves frames as they are (`SealedMesh.Faithful`) follows from the
files (`Unforged.faithful`).

As long as no link uses up its block ids, no step of such a mesh fails, and every delivery is a
stretch of what a client of the node that it names has sent, to the node that its file names.
-/

set_option autoImplicit false

namespace EntrouterLine.Mesh

open EntrouterLine.Lib
open EntrouterLine.Relay
open EntrouterLine.Edge

variable {rs : ReedSolomon} {aead : Aead} {cfg : SealedConfig} {s : SealedMesh}
  {decode : String → Option Bytes} {files : MeshFiles} {publicAddr : NodeId → SocketAddr}

/-! ## The network -/

/-- The configuration is that of the files. -/
structure Deploys (decode : String → Option Bytes) (files : MeshFiles) (cfg : SealedConfig) :
    Prop where
  net : cfg.net = files.netConfig decode
  defaultDest : ∀ x c, files x = some c → cfg.defaultDest x = c.defaultDest
  fecConfig : ∀ x c, files x = some c → cfg.fecConfig x = c.toConfig.fecConfig

/-- A datagram is the frame of a call to the node that it arrives at, from the address of the node
that made it, or the node does not open it. -/
def SealedMesh.Unforged (aead : Aead) (cfg : SealedConfig) (publicAddr : NodeId → SocketAddr)
    (s : SealedMesh) : SealedMeshEvent → Prop
  | .datagram x source bytes =>
      opened aead (peerMap cfg.net x) source (bytes.take maxPacket) = none ∨
        ∃ c ∈ s.net.calls, c.dst = x ∧ source = publicAddr c.src ∧ bytes = c.frame aead ∧
          (c.frame aead).length ≤ maxDatagram
  | _ => True

/-- The ids of the blocks of every link are different. -/
def SealedMesh.FewBlocks (s : SealedMesh) : Prop :=
  ∀ x y, (s.state.mesh.link (x, y)).fec.emitted.length ≤ idCount

/-- A node knows the sender of a call to it by its address, with the key of the call, or not at all.
-/
theorem SealedMesh.Backed.entry_of_call (h : s.Backed aead cfg)
    (hnet : cfg.net = files.netConfig decode) (hagree : files.Agree decode publicAddr)
    {c : SendCall} (hc : c ∈ s.net.calls) {entry : NodeId × TunnelCrypto}
    (hentry : peerMap cfg.net c.dst (publicAddr c.src) = some entry) :
    entry = (c.src, c.crypto) := by
  obtain ⟨es, os, hrun⟩ := h.reached
  obtain ⟨tunnel, htunnel, hcrypto⟩ := tunnel_of_call hrun hc
  rw [hnet] at htunnel hentry
  obtain ⟨q, hq, hqdst, rfl⟩ := hagree.tunnelTo_eq_some htunnel
  -- the sender lists the receiver, so that its own address belongs to no other member
  have hmember : files.Member c.src := by
    obtain ⟨file, hfile, -⟩ := mem_netConfig.mp hq
    exact Or.inl (by rw [hfile]; rfl)
  rcases hagree.peerMap_publicAddr hmember with ⟨p, hp, hpsrc, hpeer⟩ | ⟨-, hnone⟩
  · rw [hpeer, Option.some.injEq] at hentry
    rw [← hentry, hcrypto, hagree.peer_key hp hq hpsrc hqdst]
    rfl
  · rw [hnone] at hentry
    cases hentry

/-- Agreeing files make such a network leave frames as they are. -/
theorem SealedMesh.Unforged.faithful (h : s.Backed aead cfg) (hopens : aead.Opens)
    (hnet : cfg.net = files.netConfig decode) (hagree : files.Agree decode publicAddr)
    {e : SealedMeshEvent} (hunforged : s.Unforged aead cfg publicAddr e) :
    s.Faithful aead cfg e := by
  cases e with
  | datagram x source bytes =>
    rcases hunforged with hnone | ⟨c, hc, rfl, rfl, rfl, hudp⟩
    · -- the node does not open the datagram, so no call has sealed it
      constructor
      · intro o ho
        rw [hnone] at ho
        cases ho
      · rintro entry hentry fields hfields ⟨c, hc, hsealed⟩
        -- the cipher opens what a call has sealed
        have hopened : opened aead (peerMap cfg.net x) source (bytes.take maxPacket) =
            some ⟨entry.1, entry.2, fields.1, fields.2.1, fields.2.2, c.payload⟩ := by
          refine opened_eq_some.mpr ⟨hfields, hentry, ?_⟩
          obtain ⟨hkey, hct⟩ := hsealed
          rw [decrypt_eq_ok_iff, ← hct, SendCall.ciphertext, TunnelCrypto.encrypt]
          obtain ⟨hkey, hnonce⟩ := Prod.mk.inj hkey
          rw [← hkey, ← hnonce]
          exact hopens _ _ _
        rw [hnone] at hopened
        cases hopened
    · -- the frame of a call: the receiver has the key of the call for the sender's address
      constructor
      · intro o ho
        obtain ⟨hcarried, hentry, hdec⟩ := opened_eq_some.mp ho
        obtain ⟨-, hfields⟩ := carried_take_frame hudp hcarried
        obtain ⟨-, hcrypto⟩ := Prod.mk.inj (h.entry_of_call hnet hagree hc hentry)
        obtain ⟨-, hfields⟩ := Prod.mk.inj hfields
        obtain ⟨hseq, hct⟩ := Prod.mk.inj hfields
        refine ⟨c, hc, ⟨?_, hct.symm⟩, ?_⟩
        · rw [hcrypto, hseq]
          rfl
        · rw [hcrypto, hseq, hct, decrypt_eq_ok_iff] at hdec
          have hopen := hopens c.crypto.key (makeNonce c.seq) c.payload
          exact Option.some.inj (hopen.symm.trans hdec)
      · intro entry hentry fields hfields _
        have hfits : (c.frame aead).length ≤ maxPacket := (carried_take_frame hudp hfields).1
        obtain ⟨hsrc, hcrypto⟩ := Prod.mk.inj (h.entry_of_call hnet hagree hc hentry)
        refine ⟨c, hc, hsrc.symm, rfl, hcrypto.symm, ?_⟩
        rw [List.take_of_length_le hfits]
  | _ => trivial

/-! ## The nodes -/

/-- What every run of the nodes keeps. -/
structure Kept (rs : ReedSolomon) (cfg : ProbedConfig) (m : ProbedMesh) : Prop where
  oneHop : OneHop rs cfg m
  fromHanded : AllFromHanded m.mesh
  intact : Intact m.mesh

theorem kept_start {cfg : ProbedConfig} (hlaw : ∀ x, Lawful rs (cfg.fecConfig x)) :
    Kept rs cfg (ProbedMesh.start cfg) where
  oneHop := ⟨⟨[], [], rfl⟩, provenance_start hlaw, direct_start cfg⟩
  fromHanded := List.forall_mem_nil _
  intact := intact_start cfg.mesh

theorem Kept.step {cfg : ProbedConfig} {m : ProbedMesh} (h : Kept rs cfg m)
    (hlaw : ∀ x, Lawful rs (cfg.fecConfig x))
    (hshort : ∀ x, (nodeBytes (cfg.defaultDest x)).length ≤ 255) {d : ProbedEvent}
    (hown : ShardsMeetOwn m d) :
    ∃ m', probedStep rs cfg m d = .ok (m', ()) ∧ Kept rs cfg m' := by
  obtain ⟨m', hstep, honeHop, hmesh | ⟨_, _, _, _, _, hmove⟩⟩ :=
    h.oneHop.step_moves hlaw hshort hown
  · -- a probe leaves the mesh as it was
    refine ⟨m', hstep, honeHop, ?_, ?_⟩
    · rw [hmesh]
      exact h.fromHanded
    · rw [hmesh]
      exact h.intact
  · exact ⟨m', hstep, honeHop, h.fromHanded.moves h.oneHop.prov hmove, h.intact.moves hmove⟩

theorem kept_run {cfg : ProbedConfig} (hlaw : ∀ x, Lawful rs (cfg.fecConfig x))
    (hshort : ∀ x, (nodeBytes (cfg.defaultDest x)).length ≤ 255) {ds : List ProbedEvent}
    (hown : Machine.Along (probedStep rs cfg) ShardsMeetOwn (ProbedMesh.start cfg) ds) :
    ∃ m os, Machine.run (probedStep rs cfg) (ProbedMesh.start cfg) ds = .ok (m, os) ∧
      Kept rs cfg m := by
  refine Machine.run_safe (P := fun _ m _ => Kept rs cfg m) (kept_start hlaw) ?_ ds hown
  intro ds m os d h hd
  obtain ⟨m', hstep, h'⟩ := h.step hlaw hshort hd
  exact ⟨m', (), hstep, h'⟩

/-- Where ids are different, a shard finds the entry of its own block, or none. -/
theorem SealedMesh.FewBlocks.shardsMeetOwn (hfew : s.FewBlocks)
    (hprov : Provenance rs cfg.probed.mesh s.state.mesh) {e : SealedMeshEvent} {d : ProbedEvent}
    (hmirrors : s.Mirrors e d) : ShardsMeetOwn s.state d := by
  cases e with
  | task std e =>
    cases e with
    | shard fromPeer x now n i => cases hmirrors
    | _ =>
      cases hmirrors
      trivial
  | probe x peerId sendTime clock =>
    cases hmirrors
    trivial
  | handle x now received now' now'' =>
    rcases hmirrors with ⟨std, fromPeer, n, i, rfl, hshard⟩ | ⟨k, rfl⟩
    · have hshard' : Relay.FewBlocks (s.state.mesh.link (fromPeer, x)).fec (.deliver now n i) :=
        hshard
      exact ((hprov.links fromPeer x).wrap.ownEntry (hfew fromPeer x) hshard').2
    · trivial
  | _ => cases hmirrors

/-! ## Runs -/

/-- The delivery is a stretch of what a client of the node that it names has sent. The file of that
node has `x` as the default destination, and as a peer. -/
def SentBy (files : MeshFiles) (conns : List Conn) (x : NodeId) (delivery : LocalDelivery) : Prop :=
  ∃ (c : ConnId) (source : Conn) (file : NodeConfig), delivery.source = some c ∧
    conns[c]? = some source ∧ source.node = delivery.sourceNode ∧
    source.flowId = delivery.flowId ∧ delivery.data <:+: source.bytesRead ∧
    files source.node = some file ∧ file.defaultDest = x ∧
    ∃ entry ∈ file.peers, entry.peer.nodeId = x

theorem Kept.sentBy (hcfg : Deploys decode files cfg) {m : ProbedMesh}
    (h : Kept rs cfg.probed m) {x : NodeId} {delivery : LocalDelivery}
    (hmem : delivery ∈ (m.mesh.node x).handed) : SentBy files m.mesh.conns x delivery := by
  obtain ⟨c, source, hsource, hconn, hnode, hdest, hpeer⟩ :=
    (h.oneHop.direct.nodes x).handed delivery hmem
  obtain ⟨c₁, source₁, hconn₁, -, hsource₁, -, hflow⟩ := h.oneHop.prov.handed x delivery hmem
  obtain ⟨c₂, source₂, hsource₂, hconn₂, hdata⟩ := (h.intact.nodes x).handed delivery hmem
  -- a delivery has one source
  rw [hsource, Option.some.injEq] at hsource₁ hsource₂
  subst hsource₁ hsource₂
  rw [hconn, Option.some.injEq] at hconn₁ hconn₂
  subst hconn₁ hconn₂
  -- the hop goes to a peer, and a peer is an entry of the file
  obtain ⟨p, hp, hpeerId⟩ := List.mem_map.mp hpeer
  rw [hcfg.net] at hp
  obtain ⟨file, hfile, entry, hentry, hid, -⟩ := mem_netConfig.mp hp
  rw [← hnode] at hfile
  have hdefault : file.defaultDest = x := by
    rw [← hdest, h.oneHop.direct.dests source (List.mem_of_getElem? hconn)]
    exact (hcfg.defaultDest _ _ hfile).symm
  exact ⟨c, source, file, hsource, hconn, hnode, hflow, hdata, hfile, hdefault, entry, hentry,
    hid.trans hpeerId⟩

/-- In every run of a mesh with agreeing files, on a network that carries frames and whatever no
node opens, and with no more blocks on a link than there are ids: no step fails, every delivery that
a node hands to its edges was sent to it by a client of the node that the delivery names, and the
node's clients are given of these deliveries those with their flow ids, in order. -/
theorem agreeing_mesh_delivers_sent (hopens : aead.Opens)
    (hagree : files.Agree decode publicAddr) (hcfg : Deploys decode files cfg)
    (hlaw : ∀ x, Lawful rs (cfg.fecConfig x))
    (hshort : ∀ x, (nodeBytes (cfg.defaultDest x)).length ≤ 255) {es : List SealedMeshEvent}
    (hcond : Machine.Along (sealedMeshStep rs aead cfg)
      (fun s e => s.Unforged aead cfg publicAddr e ∧ s.FewBlocks) (SealedMesh.start cfg) es) :
    ∃ s os, Machine.run (sealedMeshStep rs aead cfg) (SealedMesh.start cfg) es = .ok (s, os) ∧
      (∀ x, ∀ delivery ∈ (s.state.mesh.node x).handed,
        SentBy files s.state.mesh.conns x delivery) ∧
      ∀ conn ∈ s.state.mesh.conns, List.Sublist conn.accepted
        ((s.state.mesh.node conn.node).handed.filter fun delivery =>
          delivery.flowId = conn.flowId) := by
  have hsim : Machine.Simulates (sealedMeshStep rs aead cfg) (fun e _ => e.own)
      (fun s e => s.Unforged aead cfg publicAddr e ∧ s.FewBlocks) (probedStep rs cfg.probed)
      (fun d _ => d.own) ShardsMeetOwn
      (fun s t => t = s.state ∧ s.Backed aead cfg ∧ Kept rs cfg.probed s.state) := by
    apply sealedMesh_simulates rs hopens
    · intro s e hbacked h
      exact h.1.faithful hbacked hopens hcfg.net hagree
    · intro m d m' h hown hstep
      obtain ⟨m₁, hstep₁, h'⟩ := h.step hlaw hshort hown
      rw [hstep] at hstep₁
      cases hstep₁
      exact h'
    · intro s e d h hC hmirrors
      exact hC.2.shardsMeetOwn h.oneHop.prov hmirrors
  have hsafe : ∀ ds, Machine.Along (probedStep rs cfg.probed) ShardsMeetOwn
      (ProbedMesh.start cfg.probed) ds → ∃ m os, Machine.run (probedStep rs cfg.probed)
        (ProbedMesh.start cfg.probed) ds = .ok (m, os) := by
    intro ds hds
    obtain ⟨m, os, hrun, -⟩ := kept_run hlaw hshort hds
    exact ⟨m, os, hrun⟩
  obtain ⟨s, os, ds, t, os', hrun, -, -, ⟨rfl, -, hkept⟩, -⟩ :=
    hsim.run_ok hsafe ⟨rfl, backed_start aead cfg, kept_start hlaw⟩ hcond
  exact ⟨s, os, hrun, fun x delivery hmem => hkept.sentBy hcfg hmem, hkept.fromHanded⟩

/-! ## Sydney and Singapore -/

/-- The files of `sydSgpFiles`, with one data shard and one parity shard a block. -/
def replicaFiles : MeshFiles := fun x =>
  (sydSgpFiles x).map fun c => { c with relay := ⟨some 1, some 1⟩ }

def replicaMesh : SealedConfig :=
  ⟨replicaFiles.netConfig decodeZeroKey, fun x => if x = "sgp-01" then "syd-01" else "sgp-01",
    fun _ => replicaConfig⟩

theorem deploys_replicaMesh : Deploys decodeZeroKey replicaFiles replicaMesh where
  net := rfl
  defaultDest := by
    intro x c hfile
    obtain ⟨c', hc', rfl⟩ := Option.map_eq_some_iff.mp hfile
    rcases sydSgpFiles_eq_some hc' with ⟨rfl, rfl⟩ | ⟨rfl, rfl⟩ | ⟨rfl, rfl⟩ <;> rfl
  fecConfig := by
    intro x c hfile
    obtain ⟨c', hc', rfl⟩ := Option.map_eq_some_iff.mp hfile
    rfl

/-- Agreement is about the peers only. -/
theorem agree_of_peers {files files' : MeshFiles} (h : files.Agree decode publicAddr)
    (hpeers : ∀ x c', files' x = some c' → ∃ c, files x = some c ∧ c.peers = c'.peers) :
    files'.Agree decode publicAddr where
  addrs := by
    intro x c' hfile entry hentry
    obtain ⟨c, hc, heq⟩ := hpeers x c' hfile
    exact h.addrs x c hc entry (heq ▸ hentry)
  distinct := by
    apply h.distinct.mono
    rintro x (hfile | ⟨y, hnames⟩)
    · obtain ⟨c', hc'⟩ := Option.isSome_iff_exists.mp hfile
      obtain ⟨c, hc, -⟩ := hpeers x c' hc'
      exact Or.inl (by rw [hc]; rfl)
    · obtain ⟨c', hc', entry, hentry, hid⟩ := names_iff.mp hnames
      obtain ⟨c, hc, heq⟩ := hpeers y c' hc'
      exact Or.inr ⟨y, names_iff.mpr ⟨c, hc, entry, heq ▸ hentry, hid⟩⟩
  keys := by
    intro x c₁ y c₂ hfile₁ hfile₂ entry₁ hentry₁ entry₂ hentry₂
    obtain ⟨c, hc, heq⟩ := hpeers x c₁ hfile₁
    obtain ⟨c', hc', heq'⟩ := hpeers y c₂ hfile₂
    exact h.keys x c y c' hc hc' entry₁ (heq ▸ hentry₁) entry₂ (heq' ▸ hentry₂)

theorem agree_replicaFiles : replicaFiles.Agree decodeZeroKey sydSgpAddr := by
  apply agree_of_peers agree_sydSgpFiles
  intro x c' hfile
  obtain ⟨c, hc, rfl⟩ := Option.map_eq_some_iff.mp hfile
  exact ⟨c, hc, rfl⟩

theorem fewBlocks_update {link : NodeId × NodeId → MeshLink} {pair : NodeId × NodeId}
    {l : MeshLink} (hl : l.fec.emitted.length ≤ idCount)
    (h : ∀ x y, (link (x, y)).fec.emitted.length ≤ idCount) (x y : NodeId) :
    (Function.update link pair l (x, y)).fec.emitted.length ≤ idCount := by
  by_cases hpair : (x, y) = pair
  · rw [hpair, Function.update_self]
    exact hl
  · rw [Function.update_of_ne hpair]
    exact h x y

theorem along_pairSends_replica :
    Machine.Along (sealedMeshStep smallCodec tagAead replicaMesh)
      (fun s e => s.Unforged tagAead replicaMesh sydSgpAddr e ∧ s.FewBlocks)
      (SealedMesh.start replicaMesh) pairSends := by
  refine Machine.Along.cons rfl ⟨trivial, fun _ _ => Nat.zero_le _⟩ ?_
  refine Machine.Along.cons rfl ⟨trivial, fun _ _ => Nat.zero_le _⟩ ?_
  refine Machine.Along.cons rfl ⟨trivial, fun _ _ => Nat.zero_le _⟩ ?_
  refine Machine.Along.cons rfl ⟨Or.inr ⟨pingCall, List.mem_cons_self, rfl, rfl, rfl, by decide⟩,
    fun _ _ => Nat.zero_le _⟩ ?_
  refine Machine.Along.cons rfl ⟨trivial, fun _ _ => Nat.zero_le _⟩ ?_
  refine Machine.Along.cons rfl ⟨trivial, fun _ _ => Nat.zero_le _⟩ ?_
  refine Machine.Along.cons rfl ⟨trivial, fun _ _ => Nat.zero_le _⟩ ?_
  refine Machine.Along.cons rfl ⟨Or.inr ⟨pongCall, List.mem_cons_of_mem _ List.mem_cons_self, rfl,
    rfl, rfl, by decide⟩, fun _ _ => Nat.zero_le _⟩ ?_
  refine Machine.Along.cons rfl ⟨trivial, fun _ _ => Nat.zero_le _⟩ ?_
  refine Machine.Along.cons rfl ⟨trivial, fun _ _ => Nat.zero_le _⟩ ?_
  refine Machine.Along.cons rfl ⟨trivial, fun _ _ => Nat.zero_le _⟩ ?_
  -- the router of Sydney has measured the edge to Singapore
  have hown := (probeNet_inv replicaMesh.probed.peers [.probe "syd-01" "sgp-01" 0 fun _ => 0,
    .deliver 0 0 0 0, .deliver 1 50000000 50000000 50000000] _ _ rfl).own "syd-01"
  refine Machine.Along.cons (SealedMesh.advance_eq (probedStep_task
    (ProbedMesh.answered_send rfl hown (by decide) rfl (by decide) _ _) rfl))
      ⟨trivial, fun _ _ => Nat.zero_le _⟩ ?_
  refine Machine.Along.cons rfl ⟨trivial,
    fewBlocks_update (by decide) fun _ _ => Nat.zero_le _⟩ ?_
  refine Machine.Along.cons rfl ⟨trivial,
    fewBlocks_update (by decide) fun _ _ => Nat.zero_le _⟩ ?_
  refine Machine.Along.cons rfl ⟨Or.inr ⟨relayedCall, List.mem_cons_of_mem _
    (List.mem_cons_of_mem _ List.mem_cons_self), rfl, rfl, rfl, by decide⟩,
    fewBlocks_update (by decide) fun _ _ => Nat.zero_le _⟩ ?_
  refine Machine.Along.cons rfl ⟨trivial,
    fewBlocks_update (by decide) fun _ _ => Nat.zero_le _⟩ ?_
  refine Machine.Along.cons rfl ⟨trivial, fewBlocks_update (by decide)
    (fewBlocks_update (by decide) fun _ _ => Nat.zero_le _)⟩ ?_
  exact Machine.Along.cons rfl ⟨trivial, fewBlocks_update (by decide)
    (fewBlocks_update (by decide) fun _ _ => Nat.zero_le _)⟩ trivial

theorem agreeing_mesh_delivers_sent_pair :
    ∃ s os, Machine.run (sealedMeshStep smallCodec tagAead replicaMesh)
        (SealedMesh.start replicaMesh) pairSends = .ok (s, os) ∧
      (∀ x, ∀ delivery ∈ (s.state.mesh.node x).handed,
        SentBy replicaFiles s.state.mesh.conns x delivery) ∧
      ∀ conn ∈ s.state.mesh.conns, List.Sublist conn.accepted
        ((s.state.mesh.node conn.node).handed.filter fun delivery =>
          delivery.flowId = conn.flowId) := by
  have hshort : ∀ x, (nodeBytes (replicaMesh.defaultDest x)).length ≤ 255 := by
    intro x
    show (nodeBytes (if x = "sgp-01" then "syd-01" else "sgp-01")).length ≤ 255
    split
    · decide
    · decide
  exact agreeing_mesh_delivers_sent tagAead_opens agree_replicaFiles deploys_replicaMesh
    (fun _ => lawful_replica) hshort along_pairSends_replica

end EntrouterLine.Mesh
