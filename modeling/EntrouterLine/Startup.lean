import EntrouterLine.Admin
import EntrouterLine.Config
import EntrouterLine.Lib.Settles
import EntrouterLine.Relay.Authenticity
import EntrouterLine.Relay.ForwardPanic

/-!
# Startup of a node

`run` loads and validates the configuration, decodes the key of every peer, and gives each one a
tunnel, FEC state, an entry in the map of the receive loop and a probe loop. The two maps are keyed
differently, by node id and by address, and a later peer overwrites an earlier one. They are the
ones that the network is built on (`Wired`), for every configuration that `validate` accepts.

What `validate` does not look at can still end the process: sockets that cannot be bound, TLS files,
a crypto provider that rustls cannot determine, shard counts for which there is no memory, and a
probe interval of zero. The node is ready exactly if none of this happens (`main_ready`).

Validation does not compare the peers with each other, nor two configurations. A mesh is linked as
its files say if every entry has the address that the node it names sends from, no two nodes send
from the same address, and the two ends of a pair have the same key (`MeshFiles.Agree`,
`agreeing_files_link`). A node that lists a peer which does not list it sends, and is not heard.
-/

set_option autoImplicit false

namespace EntrouterLine

open EntrouterLine.Lib
open EntrouterLine.Relay
open EntrouterLine.Admin

/-! ## The configuration file -/

/-- A `[[peers]]` entry: what `validate` reads of it, and the address. -/
structure PeerEntry where
  peer : PeerConfig
  addr : SocketAddr

/-- The configuration file, as far as `run` uses it. -/
structure NodeConfig where
  nodeId : NodeId
  region : String
  adminToken : Option String
  listen : ListenConfig
  probeIntervalMs : Nat
  defaultDest : NodeId
  relay : RelayConfig
  peers : List PeerEntry

/-- What `validate` reads. -/
def NodeConfig.toConfig (c : NodeConfig) : Config :=
  ⟨c.nodeId, c.listen, c.relay, c.peers.map PeerEntry.peer⟩

/-! ## The surroundings -/

/-- The crypto providers that rustls is built with. -/
structure CryptoFeatures where
  ring : Bool
  awsLcRs : Bool
  deriving DecidableEq

inductive CryptoProvider where
  | ring
  | awsLcRs
  deriving DecidableEq

/-- The provider that rustls takes. The program installs none, so the build must leave one only. -/
def CryptoFeatures.provider : CryptoFeatures → Option CryptoProvider
  | ⟨true, false⟩ => some .ring
  | ⟨false, true⟩ => some .awsLcRs
  | _ => none

/-- What ends the process without an error to report. -/
inductive StartAbort where
  | capacityOverflow
  | outOfMemory
  | noCryptoProvider
  | selfSignedCert
  | quicConfig
  | zeroInterval
  deriving DecidableEq

/-- How a start fails. `E` are the errors of the operating system and of libraries. -/
inductive StartError (E : Type) where
  | config (error : ConfigError)
  | other (error : E)
  | abort (reason : StartAbort)

/-- What the operating system and the libraries have to say when a node starts: the sockets, the
memory for the sender of a peer, the TLS files and what rustls makes of them, and whether the
certificate and the configuration of the QUIC edge can be made. -/
structure Host (Pem TlsConfig E : Type) where
  features : CryptoFeatures
  allocates : NodeId → Nat → Bool
  relaySocket : Except E Unit
  tcpListener : Except E Unit
  quicEndpoint : Except E Unit
  adminListener : Except E Unit
  readPem : String → String → Except E Pem
  singleCert : CryptoProvider → Pem → Except E TlsConfig
  selfSigned : Bool
  quicConfig : CryptoProvider → Bool

variable {Pem TlsConfig E : Type}

/-- The most bytes that a vector can have. -/
def isizeMax : Nat := 2 ^ 63 - 1

/-- `Vec::with_capacity(n)`, for elements of so many bytes. -/
def Host.vecWithCapacity (host : Host Pem TlsConfig E) (peerId : NodeId) (size n : Nat) :
    Except (StartError E) Unit :=
  if isizeMax < size * n then .error (.abort .capacityOverflow)
  -- no memory is taken for no elements
  else if n = 0 ∨ host.allocates peerId (size * n) then .ok ()
  else .error (.abort .outOfMemory)

/-- `FecSender::new`: its buffer holds vectors of 24 bytes, and its list of lengths `u16`s. -/
def Host.fecSenderNew (host : Host Pem TlsConfig E) (peerId : NodeId) (fecConfig : FecConfig) :
    Except (StartError E) Unit := do
  host.vecWithCapacity peerId 24 fecConfig.dataShards
  host.vecWithCapacity peerId 2 fecConfig.dataShards

/-- `rustls::ServerConfig::builder`. -/
def Host.builder (host : Host Pem TlsConfig E) : Except (StartError E) CryptoProvider :=
  match host.features.provider with
  | some provider => .ok provider
  -- rustls is built with none, or with two
  | none => .error (.abort .noCryptoProvider)

/-- `load_tls_config`. -/
def Host.loadTlsConfig (host : Host Pem TlsConfig E) (certPath keyPath : String) :
    Except (StartError E) TlsConfig := do
  let pem ← (host.readPem certPath keyPath).mapError .other
  let provider ← host.builder
  (host.singleCert provider pem).mapError .other

/-- `expect`. -/
def expect (ok : Bool) (reason : StartAbort) : Except (StartError E) Unit :=
  if ok then .ok () else .error (.abort reason)

/-- `make_server_config`, with the certificate of `generate_self_signed_cert`. -/
def Host.makeServerConfig (host : Host Pem TlsConfig E) : Except (StartError E) Unit := do
  expect host.selfSigned .selfSignedCert
  let provider ← host.builder
  expect (host.quicConfig provider) .quicConfig

/-! ## Starting -/

/-- A spawned `probe_loop`. -/
structure ProbeLoop where
  peerId : NodeId
  tunnel : TunnelRef
  intervalMs : Nat
  deriving DecidableEq

/-- What the loop over the peers builds: the tunnels, the maps of the forwarder, the map of the
receive loop, and the probe loops. -/
structure Wiring where
  tunnels : List Tunnel
  forwarder : Forwarder
  peerCrypto : PeerMap
  probeLoops : List ProbeLoop

def Wiring.new (fecConfig : FecConfig) : Wiring :=
  ⟨[], Forwarder.new fecConfig, fun _ => none, []⟩

/-- The wiring with a tunnel to one more peer. -/
def Wiring.add (intervalMs : Nat) (w : Wiring) (p : Relay.PeerConfig) : Wiring :=
  let tunnel := w.tunnels.length
  { tunnels := w.tunnels ++ [Tunnel.new p.addr p.sharedKey]
    forwarder := w.forwarder.addTunnel p.nodeId tunnel
    peerCrypto := Function.update w.peerCrypto p.addr (some (p.nodeId, ⟨p.sharedKey⟩))
    probeLoops := w.probeLoops ++ [⟨p.nodeId, tunnel, intervalMs⟩] }

/-- `add_tunnel` makes a sender for an id that has none. -/
def Wiring.newSender (host : Host Pem TlsConfig E) (w : Wiring) (peerId : NodeId) :
    Except (StartError E) Unit :=
  match w.forwarder.fecSenders peerId with
  | none => host.fecSenderNew peerId w.forwarder.fecConfig
  | some _ => .ok ()

/-- The body of the loop over the peers. -/
def addPeer (decode : String → Option Bytes) (host : Host Pem TlsConfig E) (intervalMs : Nat)
    (w : Wiring) (entry : PeerEntry) : Except (StartError E) Wiring := do
  let key ← (entry.peer.decodeKey decode).mapError .config
  w.newSender host entry.peer.nodeId
  return w.add intervalMs ⟨entry.peer.nodeId, entry.addr, key⟩

/-- A node that is ready. `tcpTls` is the TLS configuration of the TCP edge, which takes plain
connections without one. -/
structure StartedNode (TlsConfig : Type) where
  wiring : Wiring
  tcpTls : Option TlsConfig
  defaultDest : NodeId
  admin : AdminState

/-- The TLS configuration of the TCP edge: it is loaded if both paths are there. -/
def ListenConfig.tcpTls (host : Host Pem TlsConfig E) (listen : ListenConfig) :
    Except (StartError E) (Option TlsConfig) :=
  match listen.tlsCertPath, listen.tlsKeyPath with
  | some certPath, some keyPath => (host.loadTlsConfig certPath keyPath).map some
  | _, _ => .ok none

/-- `run` on a parsed configuration, up to the line that says that the node is ready. -/
def NodeConfig.run (decode : String → Option Bytes) (host : Host Pem TlsConfig E)
    (c : NodeConfig) : Except (StartError E) (StartedNode TlsConfig) := do
  -- `Config::load` validates
  (c.toConfig.validate decode).mapError .config
  host.relaySocket.mapError .other
  let wiring ← c.peers.foldlM (addPeer decode host c.probeIntervalMs)
    (Wiring.new c.toConfig.fecConfig)
  host.tcpListener.mapError .other
  let tcpTls ← c.listen.tcpTls host
  -- the QUIC edge, which needs a provider whether or not there are TLS paths
  host.makeServerConfig
  host.quicEndpoint.mapError .other
  host.adminListener.mapError .other
  return ⟨wiring, tcpTls, c.defaultDest, ⟨c.nodeId, c.region, c.adminToken⟩⟩

/-- `probe_loop` begins. `interval` panics if the period is zero. -/
def ProbeLoop.begin (loop : ProbeLoop) : Except (StartError E) Unit :=
  if loop.intervalMs = 0 then .error (.abort .zeroInterval) else .ok ()

/-- The process: the main task and the probe loops that it has spawned. They run at the same time,
and with `panic = "abort"`, as in a release, a panic in any of them ends all. Packets and clients
that come before the node is ready are left out. -/
def NodeConfig.main (decode : String → Option Bytes) (host : Host Pem TlsConfig E)
    (c : NodeConfig) : Except (StartError E) (StartedNode TlsConfig) := do
  let node ← c.run decode host
  node.wiring.probeLoops.forM ProbeLoop.begin
  return node

/-! ## What the loop builds -/

/-- The wiring of these peers. For every id and every address the last entry counts. -/
structure Wired (fecConfig : FecConfig) (intervalMs : Nat) (peers : List Relay.PeerConfig)
    (w : Wiring) : Prop where
  fecConfig_eq : w.forwarder.fecConfig = fecConfig
  tunnels : w.tunnels = peers.map fun p => Tunnel.new p.addr p.sharedKey
  refs : ∀ dst ref, w.forwarder.tunnels dst = some ref → ref < w.tunnels.length
  tunnelTo : ∀ dst, (w.forwarder.tunnels dst).bind (fun ref => w.tunnels[ref]?) =
    (peers.reverse.find? fun p => p.nodeId = dst).map fun p => Tunnel.new p.addr p.sharedKey
  peerCrypto : ∀ addr, w.peerCrypto addr =
    (peers.reverse.find? fun p => p.addr = addr).map fun p => (p.nodeId, ⟨p.sharedKey⟩)
  senders : ∀ id, w.forwarder.fecSenders id =
    if id ∈ peers.map Relay.PeerConfig.nodeId then some (FecSender.new fecConfig) else none
  receivers : ∀ id, w.forwarder.fecReceivers id =
    if id ∈ peers.map Relay.PeerConfig.nodeId then some FecReceiver.new else none
  probeLoops : w.probeLoops = peers.mapIdx fun i p => ⟨p.nodeId, i, intervalMs⟩

variable {fecConfig : FecConfig} {intervalMs : Nat} {peers : List Relay.PeerConfig} {w : Wiring}

theorem wired_new (fecConfig : FecConfig) (intervalMs : Nat) :
    Wired fecConfig intervalMs [] (Wiring.new fecConfig) :=
  ⟨rfl, rfl, nofun, fun _ => rfl, fun _ => rfl, fun _ => rfl, fun _ => rfl, rfl⟩

/-- The last entry that a key finds, after one more. -/
theorem find?_reverse_append {α : Type} (p : α → Bool) (l : List α) (a : α) :
    (l ++ [a]).reverse.find? p = if p a then some a else l.reverse.find? p := by
  rw [List.reverse_append, List.reverse_singleton, List.singleton_append, List.find?_cons]
  cases p a <;> rfl

/-- `entry(id).or_insert_with(..)` in a map where every value is a new one. -/
theorem update_getD_self {α : Type} {f : NodeId → Option α} {ids : List NodeId} {value : α}
    (h : ∀ id, f id = if id ∈ ids then some value else none) (newId id : NodeId) :
    Function.update f newId (some ((f newId).getD value)) id =
      if id ∈ ids ++ [newId] then some value else none := by
  have hget : (f newId).getD value = value := by
    rw [h]
    split <;> rfl
  by_cases hid : id = newId
  · subst hid
    rw [Function.update_self, hget, if_pos (List.mem_append_right _ (List.mem_singleton_self _))]
  · rw [Function.update_of_ne hid, h]
    simp [hid]

/-- One more peer is wired. -/
theorem Wired.add (h : Wired fecConfig intervalMs peers w) (p : Relay.PeerConfig) :
    Wired fecConfig intervalMs (peers ++ [p]) (w.add intervalMs p) where
  fecConfig_eq := h.fecConfig_eq
  tunnels := by
    rw [Wiring.add, h.tunnels, List.map_append]
    rfl
  refs := by
    intro dst ref href
    change Function.update w.forwarder.tunnels p.nodeId _ dst = some ref at href
    rw [Wiring.add, List.length_append, List.length_singleton]
    by_cases hdst : dst = p.nodeId
    · rw [hdst, Function.update_self, Option.some.injEq] at href
      rw [← href]
      exact Nat.lt_succ_self _
    · rw [Function.update_of_ne hdst] at href
      exact Nat.lt_succ_of_lt (h.refs dst ref href)
  tunnelTo := by
    intro dst
    rw [find?_reverse_append]
    show (Function.update w.forwarder.tunnels p.nodeId (some w.tunnels.length) dst).bind
      (fun ref => (w.tunnels ++ [Tunnel.new p.addr p.sharedKey])[ref]?) = _
    by_cases hdst : p.nodeId = dst
    · subst hdst
      rw [Function.update_self, Option.bind_some, List.getElem?_concat_length]
      simp
    · rw [Function.update_of_ne (Ne.symm hdst), if_neg (by simpa using hdst), ← h.tunnelTo dst]
      -- the older tunnels keep their places
      cases href : w.forwarder.tunnels dst with
      | none => rfl
      | some ref => exact List.getElem?_append_left (h.refs dst ref href)
  peerCrypto := by
    intro addr
    rw [find?_reverse_append]
    show Function.update w.peerCrypto p.addr _ addr = _
    by_cases haddr : p.addr = addr
    · subst haddr
      simp
    · rw [Function.update_of_ne (Ne.symm haddr), h.peerCrypto]
      simp [haddr]
  senders := by
    intro id
    rw [List.map_append]
    show Function.update w.forwarder.fecSenders p.nodeId _ id = _
    rw [h.fecConfig_eq]
    exact update_getD_self h.senders _ id
  receivers := by
    intro id
    rw [List.map_append]
    exact update_getD_self h.receivers _ id
  probeLoops := by
    have hlength : w.tunnels.length = peers.length := by
      rw [h.tunnels, List.length_map]
    rw [Wiring.add, h.probeLoops, List.mapIdx_append, hlength]
    simp

theorem Wired.mem_probeLoops (h : Wired fecConfig intervalMs peers w) {i : Nat}
    {p : Relay.PeerConfig} (hi : peers[i]? = some p) :
    (⟨p.nodeId, i, intervalMs⟩ : ProbeLoop) ∈ w.probeLoops := by
  rw [h.probeLoops]
  apply List.mem_of_getElem? (i := i)
  rw [List.getElem?_mapIdx, hi]
  rfl

/-- The peers with their keys decoded. -/
def decodedPeers (decode : String → Option Bytes) (entries : List PeerEntry) :
    List Relay.PeerConfig :=
  entries.filterMap fun entry =>
    match entry.peer.decodeKey decode with
    | .ok key => some ⟨entry.peer.nodeId, entry.addr, key⟩
    | .error _ => none

theorem decodedPeers_snoc {decode : String → Option Bytes} {entries : List PeerEntry}
    {entry : PeerEntry} {key : Key} (hkey : entry.peer.decodeKey decode = .ok key) :
    decodedPeers decode (entries ++ [entry]) =
      decodedPeers decode entries ++ [⟨entry.peer.nodeId, entry.addr, key⟩] := by
  rw [decodedPeers, List.filterMap_append, List.filterMap_cons, hkey]
  rfl

/-! ## Started nodes -/

/-- The configurations of the nodes of a mesh. -/
abbrev MeshFiles := NodeId → Option NodeConfig

/-- The file of `x` has an entry for `y`. -/
def MeshFiles.names (files : MeshFiles) (x y : NodeId) : Bool :=
  match files x with
  | none => false
  | some c => c.peers.any fun entry => entry.peer.nodeId = y

/-- The peers of every node, as the network has them. -/
def MeshFiles.netConfig (decode : String → Option Bytes) (files : MeshFiles) : NetConfig := fun x =>
  match files x with
  | none => []
  | some c => decodedPeers decode c.peers

/-- The node has been built as the network has it: the tunnel to each peer, with FEC state and a
probe loop that runs, and the map of the receive loop. It keeps the TLS configuration, if one is
given, and takes plain connections only if none is. -/
structure StartedNode.Ready (cfg : NetConfig) (host : Host Pem TlsConfig E) (c : NodeConfig)
    (node : StartedNode TlsConfig) : Prop where
  tunnels : ∀ dst, (node.wiring.forwarder.tunnels dst).bind
    (fun ref => node.wiring.tunnels[ref]?) = tunnelTo cfg c.nodeId dst
  peerCrypto : node.wiring.peerCrypto = peerMap cfg c.nodeId
  protected_iff : ∀ id, (node.wiring.forwarder.tunnels id).isSome ↔
    node.wiring.forwarder.fecSenders id = some (FecSender.new c.toConfig.fecConfig) ∧
      node.wiring.forwarder.fecReceivers id = some FecReceiver.new
  peers : ∀ entry ∈ c.peers, (node.wiring.forwarder.tunnels entry.peer.nodeId).isSome
  probed : ∀ entry ∈ c.peers, ∃ loop ∈ node.wiring.probeLoops, loop.peerId = entry.peer.nodeId ∧
    (node.wiring.tunnels[loop.tunnel]?).map Tunnel.peerAddr = some entry.addr ∧
    loop.intervalMs = c.probeIntervalMs ∧ 0 < loop.intervalMs
  plain_iff : node.tcpTls = none ↔ c.listen.tlsCertPath = none ∧ c.listen.tlsKeyPath = none
  tls : ∀ tlsConfig, node.tcpTls = some tlsConfig → ∃ certPath keyPath,
    c.listen.tlsCertPath = some certPath ∧ c.listen.tlsKeyPath = some keyPath ∧
      host.loadTlsConfig certPath keyPath = .ok tlsConfig

/-- There is memory for the sender of a peer. -/
structure Host.HasBuffers (host : Host Pem TlsConfig E) (fecConfig : FecConfig) (peerId : NodeId) :
    Prop where
  capacity : 24 * fecConfig.dataShards ≤ isizeMax
  memory : fecConfig.dataShards = 0 ∨ host.allocates peerId (24 * fecConfig.dataShards) = true ∧
    host.allocates peerId (2 * fecConfig.dataShards) = true

/-- Everything that a start depends on. -/
structure NodeConfig.Startable (decode : String → Option Bytes) (host : Host Pem TlsConfig E)
    (c : NodeConfig) : Prop where
  valid : c.toConfig.Valid decode
  relaySocket : host.relaySocket = .ok ()
  buffers : ∀ entry ∈ c.peers, host.HasBuffers c.toConfig.fecConfig entry.peer.nodeId
  tcpListener : host.tcpListener = .ok ()
  tls : ∀ certPath keyPath, c.listen.tlsCertPath = some certPath →
    c.listen.tlsKeyPath = some keyPath → ∃ tlsConfig, host.loadTlsConfig certPath keyPath =
      .ok tlsConfig
  selfSigned : host.selfSigned = true
  provider : ∃ provider, host.features.provider = some provider ∧ host.quicConfig provider = true
  quicEndpoint : host.quicEndpoint = .ok ()
  adminListener : host.adminListener = .ok ()
  probing : 0 < c.probeIntervalMs

/-- What is behind a failure. -/
def StartError.CausedBy (decode : String → Option Bytes) (host : Host Pem TlsConfig E)
    (c : NodeConfig) : StartError E → Prop
  | .config error => c.toConfig.validate decode = .error error
  | .other error => host.relaySocket = .error error ∨ host.tcpListener = .error error ∨
      host.quicEndpoint = .error error ∨ host.adminListener = .error error ∨
      ∃ certPath keyPath, c.listen.tlsCertPath = some certPath ∧
        c.listen.tlsKeyPath = some keyPath ∧ host.loadTlsConfig certPath keyPath =
          .error (.other error)
  | .abort .capacityOverflow => isizeMax < 24 * c.toConfig.fecConfig.dataShards
  | .abort .outOfMemory => ∃ entry ∈ c.peers, c.toConfig.fecConfig.dataShards ≠ 0 ∧
      (host.allocates entry.peer.nodeId (24 * c.toConfig.fecConfig.dataShards) = false ∨
        host.allocates entry.peer.nodeId (2 * c.toConfig.fecConfig.dataShards) = false)
  | .abort .noCryptoProvider => host.features.provider = none
  | .abort .selfSignedCert => host.selfSigned = false
  | .abort .quicConfig => ∃ provider, host.features.provider = some provider ∧
      host.quicConfig provider = false
  | .abort .zeroInterval => c.probeIntervalMs = 0

variable {decode : String → Option Bytes} {host : Host Pem TlsConfig E} {c : NodeConfig}

/-- A validated configuration has a peer. -/
theorem NodeConfig.exists_peer (hvalid : c.toConfig.Valid decode) : ∃ entry, entry ∈ c.peers := by
  apply List.exists_mem_of_ne_nil
  intro hnil
  apply hvalid.peers
  rw [NodeConfig.toConfig, hnil]
  rfl

/-- What makes a start fail is something that it depends on. -/
theorem StartError.CausedBy.not_startable {e : StartError E} (h : e.CausedBy decode host c) :
    ¬ c.Startable decode host := by
  intro hstart
  cases e with
  | config error =>
    have hvalid := (validate_ok_iff _).mpr hstart.valid
    rw [CausedBy, hvalid] at h
    cases h
  | other error =>
    rcases h with h | h | h | h | ⟨certPath, keyPath, hcert, hkey, h⟩
    · rw [hstart.relaySocket] at h
      cases h
    · rw [hstart.tcpListener] at h
      cases h
    · rw [hstart.quicEndpoint] at h
      cases h
    · rw [hstart.adminListener] at h
      cases h
    · obtain ⟨tlsConfig, hload⟩ := hstart.tls certPath keyPath hcert hkey
      rw [hload] at h
      cases h
  | abort reason =>
    cases reason with
    | capacityOverflow =>
      obtain ⟨entry, hentry⟩ := NodeConfig.exists_peer hstart.valid
      exact Nat.not_lt_of_le (hstart.buffers entry hentry).capacity h
    | outOfMemory =>
      obtain ⟨entry, hentry, hpos, hnone⟩ := h
      rcases (hstart.buffers entry hentry).memory with hzero | ⟨hbuffer, hlens⟩
      · exact hpos hzero
      · simp [hbuffer, hlens] at hnone
    | noCryptoProvider =>
      obtain ⟨provider, hsome, -⟩ := hstart.provider
      rw [CausedBy, hsome] at h
      cases h
    | selfSignedCert =>
      rw [CausedBy, hstart.selfSigned] at h
      cases h
    | quicConfig =>
      obtain ⟨provider, hsome, hquic⟩ := hstart.provider
      obtain ⟨provider', hsome', hfail⟩ := h
      rw [hsome, Option.some.injEq] at hsome'
      rw [← hsome', hquic] at hfail
      cases hfail
    | zeroInterval => exact Nat.ne_of_gt hstart.probing h

/-! ## The parts of a start -/

theorem settles_vecWithCapacity (host : Host Pem TlsConfig E) (peerId : NodeId) (size n : Nat) :
    Settles (host.vecWithCapacity peerId size n)
      (fun _ => size * n ≤ isizeMax ∧ (n = 0 ∨ host.allocates peerId (size * n) = true))
      (fun e => (e = .abort .capacityOverflow ∧ isizeMax < size * n) ∨
        (e = .abort .outOfMemory ∧ n ≠ 0 ∧ host.allocates peerId (size * n) = false)) := by
  unfold Host.vecWithCapacity
  split
  case isTrue hlarge => exact Or.inl ⟨rfl, hlarge⟩
  case isFalse hfits =>
    split
    case isTrue hmem => exact ⟨Nat.le_of_not_lt hfits, hmem⟩
    case isFalse hmem =>
      obtain ⟨hpos, hnone⟩ := not_or.mp hmem
      exact Or.inr ⟨rfl, hpos, Bool.eq_false_iff.mpr hnone⟩

/-- A sender is made if there is memory for it. -/
theorem settles_fecSenderNew {entry : PeerEntry} (hentry : entry ∈ c.peers) :
    Settles (host.fecSenderNew entry.peer.nodeId c.toConfig.fecConfig)
      (fun _ => host.HasBuffers c.toConfig.fecConfig entry.peer.nodeId)
      (fun e => e.CausedBy decode host c) := by
  refine Settles.bind (P := fun _ => 24 * c.toConfig.fecConfig.dataShards ≤ isizeMax ∧
    (c.toConfig.fecConfig.dataShards = 0 ∨ host.allocates entry.peer.nodeId
      (24 * c.toConfig.fecConfig.dataShards) = true)) ?_ ?_
  · refine (settles_vecWithCapacity host _ _ _).mono (fun _ h => h) ?_
    rintro e (⟨rfl, hlarge⟩ | ⟨rfl, hpos, hnone⟩)
    · exact hlarge
    · exact ⟨entry, hentry, hpos, Or.inl hnone⟩
  · rintro - ⟨hfits, hbuffer⟩
    refine (settles_vecWithCapacity host _ _ _).mono ?_ ?_
    · rintro - ⟨-, hlens⟩
      refine ⟨hfits, ?_⟩
      rcases hbuffer with hzero | hbuffer
      · exact Or.inl hzero
      · exact hlens.imp id fun hlens => ⟨hbuffer, hlens⟩
    · rintro e (⟨rfl, hlarge⟩ | ⟨rfl, hpos, hnone⟩)
      · -- the larger vector has come first
        show isizeMax < 24 * c.toConfig.fecConfig.dataShards
        omega
      · exact ⟨entry, hentry, hpos, Or.inr hnone⟩

theorem settles_builder (host : Host Pem TlsConfig E) :
    Settles host.builder (fun provider => host.features.provider = some provider)
      (fun e => e = .abort .noCryptoProvider ∧ host.features.provider = none) := by
  unfold Host.builder
  split
  case h_1 provider hsome => exact hsome
  case h_2 hnone => exact ⟨rfl, hnone⟩

/-- The TLS configuration of two paths fails to load with an error, or without a provider. -/
theorem settles_loadTlsConfig (host : Host Pem TlsConfig E) (certPath keyPath : String) :
    Settles (host.loadTlsConfig certPath keyPath)
      (fun tlsConfig => host.loadTlsConfig certPath keyPath = .ok tlsConfig)
      (fun e => (e = .abort .noCryptoProvider ∧ host.features.provider = none) ∨
        ∃ error, e = .other error ∧
          host.loadTlsConfig certPath keyPath = .error (.other error)) := by
  cases hload : host.loadTlsConfig certPath keyPath with
  | ok tlsConfig => exact rfl
  | error e =>
    cases hread : host.readPem certPath keyPath with
    | error error =>
      rw [Host.loadTlsConfig, hread] at hload
      cases hload
      exact Or.inr ⟨error, rfl, rfl⟩
    | ok pem =>
      cases hprovider : host.features.provider with
      | none =>
        rw [Host.loadTlsConfig, Host.builder, hread, hprovider] at hload
        cases hload
        exact Or.inl ⟨rfl, rfl⟩
      | some provider =>
        cases hcert : host.singleCert provider pem with
        | error error =>
          rw [Host.loadTlsConfig, Host.builder, hread, hprovider] at hload
          change (host.singleCert provider pem).mapError _ = _ at hload
          rw [hcert] at hload
          cases hload
          exact Or.inr ⟨error, rfl, rfl⟩
        | ok tlsConfig =>
          rw [Host.loadTlsConfig, Host.builder, hread, hprovider] at hload
          change (host.singleCert provider pem).mapError _ = _ at hload
          rw [hcert] at hload
          cases hload

theorem settles_expect (ok : Bool) (reason : StartAbort) :
    Settles (expect ok reason : Except (StartError E) Unit) (fun _ => ok = true)
      (fun e => e = .abort reason ∧ ok = false) := by
  cases ok with
  | true => exact rfl
  | false => exact ⟨rfl, rfl⟩

theorem settles_makeServerConfig :
    Settles host.makeServerConfig
      (fun _ => host.selfSigned = true ∧
        ∃ provider, host.features.provider = some provider ∧ host.quicConfig provider = true)
      (fun e => e.CausedBy decode host c) := by
  refine Settles.bind ((settles_expect _ _).mono (fun _ h => h) ?_) ?_
  · rintro e ⟨rfl, hcert⟩
    exact hcert
  · intro _ hcert
    refine Settles.bind ((settles_builder host).mono (fun _ h => h) ?_) ?_
    · rintro e ⟨rfl, hnone⟩
      exact hnone
    · intro provider hprovider
      refine (settles_expect _ _).mono (fun _ hquic => ⟨hcert, provider, hprovider, hquic⟩) ?_
      rintro e ⟨rfl, hquic⟩
      exact ⟨provider, hprovider, hquic⟩

/-- The peers of a validated configuration have keys. -/
theorem NodeConfig.keys {c : NodeConfig} (hvalid : c.toConfig.validate decode = .ok ()) :
    ∀ entry ∈ c.peers, ∃ key, entry.peer.decodeKey decode = .ok key :=
  fun _ hentry => decodeKey_ok hvalid _ (List.mem_map_of_mem hentry)

theorem mem_decodedPeers {entries : List PeerEntry} {p : Relay.PeerConfig} :
    p ∈ decodedPeers decode entries ↔ ∃ entry ∈ entries, entry.peer.nodeId = p.nodeId ∧
      entry.addr = p.addr ∧ entry.peer.decodeKey decode = .ok p.sharedKey := by
  rw [decodedPeers, List.mem_filterMap]
  constructor
  · rintro ⟨entry, hentry, heq⟩
    cases hkey : entry.peer.decodeKey decode with
    | error e =>
      rw [hkey] at heq
      cases heq
    | ok key =>
      rw [hkey] at heq
      cases heq
      exact ⟨entry, hentry, rfl, rfl, hkey⟩
  · rintro ⟨entry, hentry, hid, haddr, hkey⟩
    refine ⟨entry, hentry, ?_⟩
    rw [hkey, hid, haddr]

theorem exists_mem_decodedPeers
    (hkeys : ∀ entry ∈ c.peers, ∃ key, entry.peer.decodeKey decode = .ok key) {entry : PeerEntry}
    (hentry : entry ∈ c.peers) :
    ∃ key, (⟨entry.peer.nodeId, entry.addr, key⟩ : Relay.PeerConfig) ∈
      decodedPeers decode c.peers := by
  obtain ⟨key, hkey⟩ := hkeys entry hentry
  exact ⟨key, mem_decodedPeers.mpr ⟨entry, hentry, rfl, rfl, hkey⟩⟩

/-- With both paths or none, the edge is given the TLS configuration of the paths, or is plain. -/
theorem settles_tcpTls (hvalid : c.toConfig.Valid decode) :
    Settles (c.listen.tcpTls host)
      (fun tcpTls =>
        (tcpTls = none ↔ c.listen.tlsCertPath = none ∧ c.listen.tlsKeyPath = none) ∧
        ∀ tlsConfig, tcpTls = some tlsConfig → ∃ certPath keyPath,
          c.listen.tlsCertPath = some certPath ∧ c.listen.tlsKeyPath = some keyPath ∧
            host.loadTlsConfig certPath keyPath = .ok tlsConfig)
      (fun e => e.CausedBy decode host c) := by
  have hboth : c.listen.tlsCertPath.isSome ↔ c.listen.tlsKeyPath.isSome := hvalid.tls
  cases hcert : c.listen.tlsCertPath with
  | none =>
    have hkey : c.listen.tlsKeyPath = none := by
      rw [hcert] at hboth
      simpa using hboth
    rw [ListenConfig.tcpTls, hcert, hkey]
    exact ⟨iff_of_true rfl ⟨rfl, rfl⟩, nofun⟩
  | some certPath =>
    obtain ⟨keyPath, hkey⟩ := Option.isSome_iff_exists.mp (hboth.mp (by rw [hcert]; rfl))
    rw [ListenConfig.tcpTls, hcert, hkey]
    refine Settles.map (x := host.loadTlsConfig certPath keyPath)
      ((settles_loadTlsConfig host certPath keyPath).mono ?_ ?_)
    · intro tlsConfig hload
      refine ⟨iff_of_false nofun nofun, ?_⟩
      rintro _ ⟨⟩
      exact ⟨certPath, keyPath, rfl, rfl, hload⟩
    · rintro e (⟨rfl, hnone⟩ | ⟨error, rfl, hfail⟩)
      · exact hnone
      · exact Or.inr (Or.inr (Or.inr (Or.inr ⟨certPath, keyPath, hcert, hkey, hfail⟩)))

theorem settles_newSender {entry : PeerEntry} (hentry : entry ∈ c.peers)
    (hconfig : w.forwarder.fecConfig = c.toConfig.fecConfig)
    (hold : ∀ sender, w.forwarder.fecSenders entry.peer.nodeId = some sender →
      host.HasBuffers c.toConfig.fecConfig entry.peer.nodeId) :
    Settles (w.newSender host entry.peer.nodeId)
      (fun _ => host.HasBuffers c.toConfig.fecConfig entry.peer.nodeId)
      (fun e => e.CausedBy decode host c) := by
  unfold Wiring.newSender
  split
  case h_1 =>
    rw [hconfig]
    exact settles_fecSenderNew hentry
  case h_2 sender hsender => exact hold sender hsender

/-- The loop wires all peers of a validated configuration, if there is memory for their senders. -/
theorem settles_addPeers (hvalid : c.toConfig.validate decode = .ok ()) :
    Settles (c.peers.foldlM (addPeer decode host c.probeIntervalMs)
        (Wiring.new c.toConfig.fecConfig))
      (fun w => Wired c.toConfig.fecConfig c.probeIntervalMs (decodedPeers decode c.peers) w ∧
        ∀ entry ∈ c.peers, host.HasBuffers c.toConfig.fecConfig entry.peer.nodeId)
      (fun e => e.CausedBy decode host c) := by
  refine Settles.foldlM (I := fun done w =>
    Wired c.toConfig.fecConfig c.probeIntervalMs (decodedPeers decode done) w ∧
      ∀ entry ∈ done, host.HasBuffers c.toConfig.fecConfig entry.peer.nodeId) ?_
    ⟨wired_new _ _, List.forall_mem_nil _⟩
  rintro done entry rest w hpeers ⟨hwired, hbuffers⟩
  -- the key is there, because `validate` has decoded it before
  have hentry : entry ∈ c.peers := by simp [hpeers]
  obtain ⟨key, hkey⟩ := NodeConfig.keys hvalid entry hentry
  rw [addPeer, hkey]
  refine Settles.bind (x := w.newSender host entry.peer.nodeId)
    (settles_newSender hentry hwired.fecConfig_eq ?_) ?_
  · -- an id that has a sender is that of an entry before
    intro sender hsender
    rw [hwired.senders] at hsender
    split at hsender
    case isTrue hmem =>
      obtain ⟨p, hp, hid⟩ := List.mem_map.mp hmem
      obtain ⟨entry', hentry', hid', -⟩ := mem_decodedPeers.mp hp
      rw [← hid, ← hid']
      exact hbuffers entry' hentry'
    case isFalse => cases hsender
  · intro _ hnew
    refine ⟨?_, ?_⟩
    · rw [decodedPeers_snoc hkey]
      exact hwired.add _
    · intro entry' hmem
      rcases List.mem_append.mp hmem with hold | hlast
      · exact hbuffers entry' hold
      · rw [List.mem_singleton.mp hlast]
        exact hnew

/-- What has been wired from the node's own entries is what the network has for the node. -/
theorem Wired.ready {files : MeshFiles} (hfile : files c.nodeId = some c)
    (hkeys : ∀ entry ∈ c.peers, ∃ key, entry.peer.decodeKey decode = .ok key)
    (h : Wired c.toConfig.fecConfig c.probeIntervalMs (decodedPeers decode c.peers) w)
    (hprobing : 0 < c.probeIntervalMs) {tcpTls : Option TlsConfig} {defaultDest : NodeId}
    {admin : AdminState}
    (hplain : tcpTls = none ↔ c.listen.tlsCertPath = none ∧ c.listen.tlsKeyPath = none)
    (htls : ∀ tlsConfig, tcpTls = some tlsConfig → ∃ certPath keyPath,
      c.listen.tlsCertPath = some certPath ∧ c.listen.tlsKeyPath = some keyPath ∧
        host.loadTlsConfig certPath keyPath = .ok tlsConfig) :
    StartedNode.Ready (files.netConfig decode) host c ⟨w, tcpTls, defaultDest, admin⟩ := by
  have hcfg : files.netConfig decode c.nodeId = decodedPeers decode c.peers := by
    rw [MeshFiles.netConfig, hfile]
  have hsome : ∀ id, (w.forwarder.tunnels id).isSome ↔
      id ∈ (decodedPeers decode c.peers).map Relay.PeerConfig.nodeId := by
    intro id
    have hbound : ((w.forwarder.tunnels id).bind fun ref => w.tunnels[ref]?).isSome ↔
        (w.forwarder.tunnels id).isSome := by
      cases href : w.forwarder.tunnels id with
      | none => rfl
      | some ref =>
        rw [Option.bind_some, List.getElem?_eq_getElem (h.refs id ref href)]
        rfl
    rw [← hbound, h.tunnelTo, Option.isSome_map, List.find?_isSome, List.mem_map]
    simp only [List.mem_reverse, decide_eq_true_iff]
  constructor
  · intro dst
    rw [Relay.tunnelTo, hcfg]
    exact h.tunnelTo dst
  · funext addr
    rw [peerMap, hcfg]
    exact h.peerCrypto addr
  · intro id
    show (w.forwarder.tunnels id).isSome ↔ w.forwarder.fecSenders id = _ ∧ _
    rw [hsome, h.senders, h.receivers]
    split
    case isTrue hmem => exact iff_of_true hmem ⟨rfl, rfl⟩
    case isFalse hmem =>
      refine iff_of_false hmem ?_
      rintro ⟨hsender, -⟩
      cases hsender
  · intro entry hmem
    obtain ⟨key, hp⟩ := exists_mem_decodedPeers hkeys hmem
    exact (hsome _).mpr (List.mem_map.mpr ⟨_, hp, rfl⟩)
  · intro entry hmem
    obtain ⟨key, hp⟩ := exists_mem_decodedPeers hkeys hmem
    obtain ⟨i, hi⟩ := List.mem_iff_getElem?.mp hp
    refine ⟨⟨entry.peer.nodeId, i, c.probeIntervalMs⟩, h.mem_probeLoops hi, rfl, ?_, rfl, hprobing⟩
    · show (w.tunnels[i]?).map Tunnel.peerAddr = _
      rw [h.tunnels, List.getElem?_map, hi]
      rfl
  · exact hplain
  · exact htls

/-- The probe loops begin, if the interval is not zero. -/
theorem settles_begin (hvalid : c.toConfig.validate decode = .ok ())
    (h : Wired c.toConfig.fecConfig c.probeIntervalMs (decodedPeers decode c.peers) w) :
    Settles (w.probeLoops.forM ProbeLoop.begin) (fun _ => 0 < c.probeIntervalMs)
      (fun e : StartError E => e.CausedBy decode host c) := by
  have hloop : ∀ loop ∈ w.probeLoops, loop.intervalMs = c.probeIntervalMs := by
    intro loop hmem
    rw [h.probeLoops] at hmem
    obtain ⟨i, hi, rfl⟩ := List.mem_mapIdx.mp hmem
    rfl
  refine (Settles.forM (P := fun loop => 0 < loop.intervalMs) ?_).mono ?_ (fun _ h => h)
  · intro loop hmem
    unfold ProbeLoop.begin
    split
    case isTrue hzero =>
      rw [hloop loop hmem] at hzero
      exact hzero
    case isFalse hpos => exact Nat.pos_of_ne_zero hpos
  · -- there is a peer, and so a probe loop
    intro _ hall
    obtain ⟨entry, hentry⟩ := NodeConfig.exists_peer ((validate_ok_iff _).mp hvalid)
    obtain ⟨key, hp⟩ := exists_mem_decodedPeers (NodeConfig.keys hvalid) hentry
    obtain ⟨i, hi⟩ := List.mem_iff_getElem?.mp hp
    exact hall _ (h.mem_probeLoops hi)

/-- A socket is bound, or its error ends the start. -/
theorem settles_other {x : Except E Unit}
    (herror : ∀ error, x = .error error → (StartError.other error).CausedBy decode host c) :
    Settles (x.mapError StartError.other) (fun _ => x = .ok ())
      (fun e => e.CausedBy decode host c) :=
  ((settles_self x).mono (fun _ h => h) herror).mapError

/-- The main task stops for one of the reasons there are, or has come to a node that is ready if the
probe interval is not zero. -/
theorem settles_run {files : MeshFiles} (hfile : files c.nodeId = some c) :
    Settles (c.run decode host)
      (fun node => c.toConfig.validate decode = .ok () ∧
        Wired c.toConfig.fecConfig c.probeIntervalMs (decodedPeers decode c.peers) node.wiring ∧
        (0 < c.probeIntervalMs → c.Startable decode host ∧
          node.Ready (files.netConfig decode) host c))
      (fun e => e.CausedBy decode host c) := by
  have hconfig : Settles ((c.toConfig.validate decode).mapError StartError.config)
      (fun _ => c.toConfig.validate decode = .ok ())
      (fun e => e.CausedBy decode host c) :=
    Settles.mapError (f := StartError.config) (settles_self (c.toConfig.validate decode))
  refine Settles.bind hconfig fun _ hvalidate => ?_
  have hvalid := (validate_ok_iff _).mp hvalidate
  refine Settles.bind (settles_other fun _ h => Or.inl h) fun _ hrelay => ?_
  refine Settles.bind (settles_addPeers hvalidate) ?_
  rintro w ⟨hwired, hbuffers⟩
  refine Settles.bind (settles_other fun _ h => Or.inr (Or.inl h)) fun _ htcp => ?_
  refine Settles.bind (settles_tcpTls hvalid) ?_
  rintro tcpTls ⟨hplain, htls⟩
  refine Settles.bind settles_makeServerConfig ?_
  rintro _ ⟨hcert, hprovider⟩
  -- the sockets of the QUIC edge and of the admin endpoint come last
  refine Settles.bind (settles_other fun _ h => Or.inr (Or.inr (Or.inl h))) fun _ hquic => ?_
  refine Settles.bind (settles_other fun _ h => Or.inr (Or.inr (Or.inr (Or.inl h))))
    fun _ hadmin => ?_
  refine ⟨hvalidate, hwired, fun hprobing => ⟨?_, ?_⟩⟩
  · refine ⟨hvalid, hrelay, hbuffers, htcp, ?_, hcert, hprovider, hquic, hadmin, hprobing⟩
    -- the edge has a TLS configuration, which was loaded from these two paths
    intro certPath keyPath hcertPath hkeyPath
    obtain ⟨tlsConfig, hsome⟩ := Option.ne_none_iff_exists'.mp fun hnone => by
      rw [(hplain.mp hnone).1] at hcertPath
      cases hcertPath
    obtain ⟨certPath', keyPath', hcertPath', hkeyPath', hload⟩ := htls tlsConfig hsome
    rw [hcertPath, Option.some.injEq] at hcertPath'
    rw [hkeyPath, Option.some.injEq] at hkeyPath'
    rw [hcertPath', hkeyPath']
    exact ⟨tlsConfig, hload⟩
  · exact hwired.ready hfile (NodeConfig.keys hvalidate) hprobing hplain htls

/-- The node is ready exactly if nothing that the start depends on fails; and otherwise the process
ends, for a reason that is there. A key that cannot be decoded is found by `validate`, never
later. -/
theorem main_ready {files : MeshFiles} (hfile : files c.nodeId = some c) :
    ((∃ node, c.main decode host = .ok node) ↔ c.Startable decode host) ∧
    (∀ node, c.main decode host = .ok node → node.Ready (files.netConfig decode) host c) ∧
    ∀ e, c.main decode host = .error e → e.CausedBy decode host c := by
  have hsettles : Settles (c.main decode host)
      (fun node => c.Startable decode host ∧ node.Ready (files.netConfig decode) host c)
      (fun e => e.CausedBy decode host c) := by
    refine Settles.bind (settles_run hfile) ?_
    rintro node ⟨hvalidate, hwired, hready⟩
    exact Settles.bind (settles_begin hvalidate hwired) fun _ hprobing => hready hprobing
  cases hmain : c.main decode host with
  | ok node =>
    rw [hmain] at hsettles
    refine ⟨iff_of_true ⟨node, rfl⟩ hsettles.1, ?_, nofun⟩
    rintro _ ⟨⟩
    exact hsettles.2
  | error e =>
    rw [hmain] at hsettles
    refine ⟨iff_of_false nofun (StartError.CausedBy.not_startable hsettles), nofun, ?_⟩
    rintro _ ⟨⟩
    exact hsettles

/-- A decoder for the key of 32 zero bytes. -/
def decodeZeroKey (text : String) : Option Bytes :=
  if text = "AAAAAAAAAAAAAAAAAAAAAAAAAAAAAAAAAAAAAAAAAAA=" then some (List.replicate keySize 0)
  else none

/-- The file of one node of a pair. -/
def pairFile (nodeId region peerId : String) (peerAddr : SocketAddr) : NodeConfig where
  nodeId := nodeId
  region := region
  adminToken := none
  listen := ⟨some "/etc/entrouter/cert.pem", some "/etc/entrouter/key.pem"⟩
  probeIntervalMs := 500
  defaultDest := peerId
  relay := ⟨none, none⟩
  peers := [⟨⟨peerId, "AAAAAAAAAAAAAAAAAAAAAAAAAAAAAAAAAAAAAAAAAAA="⟩, peerAddr⟩]

/-- Sydney and Singapore name each other; Tokyo names Singapore, which does not name it. -/
def sydSgpFiles : MeshFiles := fun x =>
  if x = "syd-01" then some (pairFile "syd-01" "syd" "sgp-01" sgpAddr)
  else if x = "sgp-01" then some (pairFile "sgp-01" "sgp" "syd-01" sydAddr)
  else if x = "tyo-01" then some (pairFile "tyo-01" "tyo" "sgp-01" sgpAddr)
  else none

/-- A host on which nothing fails, with one crypto provider. -/
def plainHost : Host String String Empty where
  features := ⟨true, false⟩
  allocates := fun _ _ => true
  relaySocket := .ok ()
  tcpListener := .ok ()
  quicEndpoint := .ok ()
  adminListener := .ok ()
  readPem := fun certPath keyPath => .ok (certPath ++ keyPath)
  singleCert := fun _ pem => .ok pem
  selfSigned := true
  quicConfig := fun _ => true

/-- The features that `Cargo.lock` selects: rustls is built with both providers. -/
def lockedFeatures : CryptoFeatures := ⟨true, true⟩

/-- With both providers, no node is ever ready. -/
theorem not_startable_locked (hlocked : host.features = lockedFeatures) :
    ¬ c.Startable decode host := by
  intro hstart
  obtain ⟨provider, hsome, -⟩ := hstart.provider
  rw [hlocked] at hsome
  cases hsome

/-- Sydney starts, with the TLS configuration of its two paths; with both providers it does not, and
neither with a probe interval of zero. -/
theorem main_ready_sydney :
    (∃ node, (pairFile "syd-01" "syd" "sgp-01" sgpAddr).main decodeZeroKey plainHost = .ok node ∧
      node.Ready (sydSgpFiles.netConfig decodeZeroKey) plainHost
        (pairFile "syd-01" "syd" "sgp-01" sgpAddr)) ∧
    (pairFile "syd-01" "syd" "sgp-01" sgpAddr).main decodeZeroKey
      { plainHost with features := lockedFeatures } = .error (.abort .noCryptoProvider) ∧
    { pairFile "syd-01" "syd" "sgp-01" sgpAddr with probeIntervalMs := 0 }.main decodeZeroKey
      plainHost = .error (.abort .zeroInterval) := by
  refine ⟨?_, rfl, rfl⟩
  have hmain : (pairFile "syd-01" "syd" "sgp-01" sgpAddr).main decodeZeroKey plainHost =
      .ok _ := rfl
  exact ⟨_, hmain, (main_ready rfl).2.1 _ hmain⟩

/-! ## A mesh of started nodes -/

/-- The node has a file, or a file names it. -/
def MeshFiles.Member (files : MeshFiles) (x : NodeId) : Prop :=
  (files x).isSome ∨ ∃ y, files.names y x = true

/-- The files of a mesh agree. A node's datagrams come from its `publicAddr`. -/
structure MeshFiles.Agree (decode : String → Option Bytes) (publicAddr : NodeId → SocketAddr)
    (files : MeshFiles) : Prop where
  addrs : ∀ x c, files x = some c → ∀ entry ∈ c.peers, entry.addr = publicAddr entry.peer.nodeId
  distinct : Set.InjOn publicAddr {x | files.Member x}
  keys : ∀ x c y c', files x = some c → files y = some c' →
    ∀ entry ∈ c.peers, ∀ entry' ∈ c'.peers, entry.peer.nodeId = y → entry'.peer.nodeId = x →
      decode entry.peer.sharedKey = decode entry'.peer.sharedKey

section
variable {files : MeshFiles} {publicAddr : NodeId → SocketAddr}

theorem names_iff {x y : NodeId} : files.names x y = true ↔
    ∃ c, files x = some c ∧ ∃ entry ∈ c.peers, entry.peer.nodeId = y := by
  rw [MeshFiles.names]
  cases files x with
  | none => simp
  | some c => simp

/-- A peer of the network is an entry of the file. -/
theorem mem_netConfig {x : NodeId} {p : Relay.PeerConfig} :
    p ∈ files.netConfig decode x ↔ ∃ c, files x = some c ∧ ∃ entry ∈ c.peers,
      entry.peer.nodeId = p.nodeId ∧ entry.addr = p.addr ∧
        entry.peer.decodeKey decode = .ok p.sharedKey := by
  rw [MeshFiles.netConfig]
  cases files x with
  | none => simp
  | some c => simp only [mem_decodedPeers, Option.some.injEq, exists_eq_left']

/-- Validated files name exactly the peers of the network. -/
theorem names_iff_netConfig (hvalid : ∀ x c, files x = some c → c.toConfig.Valid decode)
    {x y : NodeId} : files.names x y = true ↔ ∃ p ∈ files.netConfig decode x, p.nodeId = y := by
  rw [names_iff]
  constructor
  · rintro ⟨c, hfile, entry, hentry, rfl⟩
    obtain ⟨key, hkey⟩ := NodeConfig.keys ((validate_ok_iff _).mpr (hvalid x c hfile)) entry hentry
    exact ⟨⟨entry.peer.nodeId, entry.addr, key⟩,
      mem_netConfig.mpr ⟨c, hfile, entry, hentry, rfl, rfl, hkey⟩, rfl⟩
  · rintro ⟨p, hp, rfl⟩
    obtain ⟨c, hfile, entry, hentry, hid, -⟩ := mem_netConfig.mp hp
    exact ⟨c, hfile, entry, hentry, hid⟩

/-- The bytes of a key come from the decoder. -/
theorem decode_of_decodeKey {peer : PeerConfig} {key : Key} (h : peer.decodeKey decode = .ok key) :
    decode peer.sharedKey = some key.1 := by
  rw [PeerConfig.decodeKey] at h
  split at h
  case h_1 => cases h
  case h_2 bytes hbytes =>
    split at h
    case isTrue hlength =>
      cases h
      exact hbytes
    case isFalse => cases h

theorem MeshFiles.Agree.peer_addr (hagree : files.Agree decode publicAddr) {x : NodeId}
    {p : Relay.PeerConfig} (hp : p ∈ files.netConfig decode x) : p.addr = publicAddr p.nodeId := by
  obtain ⟨c, hfile, entry, hentry, hid, haddr, -⟩ := mem_netConfig.mp hp
  rw [← hid, ← haddr]
  exact hagree.addrs x c hfile entry hentry

theorem MeshFiles.Agree.peer_key (hagree : files.Agree decode publicAddr) {x y : NodeId}
    {p q : Relay.PeerConfig} (hp : p ∈ files.netConfig decode x)
    (hq : q ∈ files.netConfig decode y) (hpy : p.nodeId = y) (hqx : q.nodeId = x) :
    p.sharedKey = q.sharedKey := by
  obtain ⟨c, hfile, entry, hentry, hid, -, hkey⟩ := mem_netConfig.mp hp
  obtain ⟨c', hfile', entry', hentry', hid', -, hkey'⟩ := mem_netConfig.mp hq
  have hdecode := hagree.keys x c y c' hfile hfile' entry hentry entry' hentry'
    (hid.trans hpy) (hid'.trans hqx)
  rw [decode_of_decodeKey hkey, decode_of_decodeKey hkey', Option.some.injEq] at hdecode
  exact Subtype.ext hdecode

theorem member_of_mem {x : NodeId} {p : Relay.PeerConfig} (hp : p ∈ files.netConfig decode x) :
    files.Member p.nodeId := by
  obtain ⟨c, hfile, entry, hentry, hid, -⟩ := mem_netConfig.mp hp
  exact Or.inr ⟨x, names_iff.mpr ⟨c, hfile, entry, hentry, hid⟩⟩

/-- The tunnel of a node to a peer leads to the peer's address, and has the key of an entry. -/
theorem MeshFiles.Agree.tunnelTo_eq_some (hagree : files.Agree decode publicAddr) {x y : NodeId}
    {tunnel : Tunnel} (h : tunnelTo (files.netConfig decode) x y = some tunnel) :
    ∃ p ∈ files.netConfig decode x, p.nodeId = y ∧
      tunnel = Tunnel.new (publicAddr y) p.sharedKey := by
  obtain ⟨p, hfind, rfl⟩ := Option.map_eq_some_iff.mp h
  have hp := List.mem_reverse.mp (List.mem_of_find?_eq_some hfind)
  have hid : p.nodeId = y := by simpa using List.find?_some hfind
  refine ⟨p, hp, hid, ?_⟩
  rw [hagree.peer_addr hp, hid]

/-- The receive loop knows a node by its address if it lists it, and else not at all. -/
theorem MeshFiles.Agree.peerMap_publicAddr (hagree : files.Agree decode publicAddr)
    {x y : NodeId} (hmember : files.Member y) :
    (∃ p ∈ files.netConfig decode x, p.nodeId = y ∧
      peerMap (files.netConfig decode) x (publicAddr y) = some (y, ⟨p.sharedKey⟩)) ∨
    ((∀ p ∈ files.netConfig decode x, p.nodeId ≠ y) ∧
      peerMap (files.netConfig decode) x (publicAddr y) = none) := by
  have hid : ∀ p ∈ files.netConfig decode x, p.addr = publicAddr y → p.nodeId = y := by
    intro p hp haddr
    exact hagree.distinct (member_of_mem hp) hmember ((hagree.peer_addr hp).symm.trans haddr)
  cases hfind : (files.netConfig decode x).reverse.find? fun p => p.addr = publicAddr y with
  | none =>
    refine Or.inr ⟨?_, ?_⟩
    · rintro p hp rfl
      have hne := List.find?_eq_none.mp hfind p (List.mem_reverse.mpr hp)
      exact hne (decide_eq_true (hagree.peer_addr hp))
    · rw [peerMap, hfind]
      rfl
  | some p =>
    have hp := List.mem_reverse.mp (List.mem_of_find?_eq_some hfind)
    have hpy := hid p hp (by simpa using List.find?_some hfind)
    refine Or.inl ⟨p, hp, hpy, ?_⟩
    rw [peerMap, hfind, Option.map_some, hpy]

/-- Files in which peers name each other give both ends of every tunnel one key. -/
theorem MeshFiles.Agree.keysMatch (hagree : files.Agree decode publicAddr)
    (hvalid : ∀ x c, files x = some c → c.toConfig.Valid decode)
    (hmutual : ∀ x y, files.names x y = true → files.names y x = true) :
    KeysMatch (files.netConfig decode) := by
  intro node addr peer crypto hpeer
  obtain ⟨p, hp, hpeerId, hcrypto⟩ := mem_of_peerMap hpeer
  have hback := hmutual node peer ((names_iff_netConfig hvalid).mpr ⟨p, hp, hpeerId⟩)
  obtain ⟨q, hq, hqnode⟩ := (names_iff_netConfig hvalid).mp hback
  have hsome : (tunnelTo (files.netConfig decode) peer node).isSome := by
    rw [Relay.tunnelTo, Option.isSome_map, List.find?_isSome]
    exact ⟨q, List.mem_reverse.mpr hq, decide_eq_true hqnode⟩
  obtain ⟨tunnel, htunnel⟩ := Option.isSome_iff_exists.mp hsome
  obtain ⟨q', hq', hq'node, rfl⟩ := hagree.tunnelTo_eq_some htunnel
  refine ⟨_, htunnel, ?_⟩
  rw [← hcrypto, hagree.peer_key hp hq' hpeerId hq'node]
  rfl

end

/-! ## Calls on tunnels -/

/-- A pair of nodes without a tunnel keeps none, and makes no call. -/
theorem noTunnel_run {aead : Aead} {cfg : NetConfig} {a b : NodeId}
    (hnone : tunnelTo cfg a b = none) {es : List NetEvent} {s : Net} {os : List (Option Passed)}
    (hrun : NetRun aead cfg es s os) :
    s.tunnels a b = none ∧ dirCalls a b (s.calls ++ s.fetched) = [] := by
  refine Lib.Machine.run_induction
    (P := fun _ s _ => s.tunnels a b = none ∧ dirCalls a b (s.calls ++ s.fetched) = [])
    ⟨hnone, rfl⟩ ?_ es s os hrun
  rintro es s os e t o ⟨htun, hcalls⟩ hstep
  cases e with
  | fetch src dst packetType payload =>
    obtain ⟨-, ⟨-, rfl⟩ | ⟨tunnel, hsome, rfl⟩⟩ := netStep_fetch_inv hstep
    · exact ⟨htun, hcalls⟩
    · have hdir : ¬ (src = a ∧ dst = b) := by
        rintro ⟨rfl, rfl⟩
        rw [htun] at hsome
        cases hsome
      refine ⟨(setTunnel_of_ne s _ hdir).trans htun, ?_⟩
      rw [setTunnel_calls, ← List.append_assoc, dirCalls_append, hcalls]
      simp [dirCalls, hdir]
  | encrypt j =>
    obtain ⟨-, rfl | ⟨call, hcall, rfl⟩⟩ := netStep_encrypt_inv hstep
    · exact ⟨htun, hcalls⟩
    · have hperm : (dirCalls a b ((s.calls ++ [call]) ++ s.fetched.eraseIdx j)).Perm
          (dirCalls a b (s.calls ++ s.fetched)) := (perm_encrypt hcall).filter _
      rw [hcalls] at hperm
      exact ⟨htun, hperm.eq_nil⟩
  | datagram node source bytes =>
    obtain ⟨htunnels, hfetched, hcalls', -⟩ := netStep_datagram_inv hstep
    rw [htunnels, hfetched, hcalls']
    exact ⟨htun, hcalls⟩

/-- Every call was made on a tunnel of the configuration, under its key. -/
theorem tunnel_of_call {aead : Aead} {cfg : NetConfig} {es : List NetEvent} {s : Net}
    {os : List (Option Passed)} (hrun : NetRun aead cfg es s os) {c : SendCall}
    (hc : c ∈ s.calls) :
    ∃ tunnel, tunnelTo cfg c.src c.dst = some tunnel ∧ c.crypto = tunnel.crypto := by
  cases htun : tunnelTo cfg c.src c.dst with
  | none =>
    have hmem : c ∈ dirCalls c.src c.dst (s.calls ++ s.fetched) :=
      mem_dirCalls.mpr ⟨List.mem_append_left _ hc, rfl, rfl⟩
    rw [(noTunnel_run htun hrun).2] at hmem
    cases hmem
  | some tunnel => exact ⟨tunnel, rfl, crypto_of_call hrun hc htun⟩

theorem netStep_datagram (aead : Aead) (cfg : NetConfig) (s : Net) (node : NodeId)
    (source : SocketAddr) (bytes : Bytes) :
    ∃ t, netStep aead cfg s (.datagram node source bytes) =
      .ok (t, (judge aead (peerMap cfg node) source (bytes.take maxPacket)).toOption.map
        fun r => ⟨node, r.1, r.2⟩) := by
  cases hstep : netStep aead cfg s (.datagram node source bytes) with
  | error e => exact e.elim
  | ok r =>
    obtain ⟨t, o⟩ := r
    obtain ⟨-, -, -, rfl⟩ := netStep_datagram_inv hstep
    exact ⟨t, rfl⟩

/-- A mesh with valid files that agree is linked as they say. In every run, every call was made
towards the address of its receiver; and if its frame fits the receive buffer, then whenever it
comes from the address of its sender it is passed on as what was sent, with the sender's id, if the
receiver lists the sender, and else is not passed on. Whatever is passed on came from the address of
the peer it is attributed to, which is listed. If all peers list each other, the keys of the two
ends of every tunnel match. -/
theorem agreeing_files_link {aead : Aead} (hlength : aead.TagLength) (hopens : aead.Opens)
    {publicAddr : NodeId → SocketAddr} {files : MeshFiles}
    (hagree : files.Agree decode publicAddr)
    (hvalid : ∀ x c, files x = some c → c.toConfig.Valid decode) :
    (∀ es s os, NetRun aead (files.netConfig decode) es s os →
      (∀ c ∈ s.calls, files.names c.src c.dst = true ∧
        (∃ tunnel, tunnelTo (files.netConfig decode) c.src c.dst = some tunnel ∧
          tunnel.peerAddr = publicAddr c.dst) ∧
        (c.payload.length ≤ maxPayload → ∃ t, netStep aead (files.netConfig decode) s
            (.datagram c.dst (publicAddr c.src) (c.frame aead)) =
          .ok (t, if files.names c.dst c.src then
            some ⟨c.dst, c.src, ⟨c.packetType, c.seq, c.payload, publicAddr c.src⟩⟩ else none))) ∧
      ∀ node source bytes t p, netStep aead (files.netConfig decode) s
          (.datagram node source bytes) = .ok (t, some p) →
        p.node = node ∧ p.packet.source = source ∧ source = publicAddr p.peer ∧
          files.names node p.peer = true) ∧
    ((∀ x y, files.names x y = true → files.names y x = true) →
      KeysMatch (files.netConfig decode)) := by
  refine ⟨?_, hagree.keysMatch hvalid⟩
  intro es s os hrun
  refine ⟨?_, ?_⟩
  · intro c hc
    obtain ⟨tunnel, htunnel, hcrypto⟩ := tunnel_of_call hrun hc
    obtain ⟨q, hq, hqdst, rfl⟩ := hagree.tunnelTo_eq_some htunnel
    have hnames : files.names c.src c.dst = true :=
      (names_iff_netConfig hvalid).mpr ⟨q, hq, hqdst⟩
    refine ⟨hnames, ⟨_, htunnel, rfl⟩, ?_⟩
    intro hpayload
    have hmember : files.Member c.src := by
      obtain ⟨cfile, hfile, -⟩ := names_iff.mp hnames
      exact Or.inl (by rw [hfile]; rfl)
    obtain ⟨t, hstep⟩ := netStep_datagram aead (files.netConfig decode) s c.dst (publicAddr c.src)
      (c.frame aead)
    refine ⟨t, ?_⟩
    rw [hstep]
    rcases hagree.peerMap_publicAddr (x := c.dst) hmember with
      ⟨p, hp, hpsrc, hpeer⟩ | ⟨hother, hpeer⟩
    · -- the receiver lists the sender, so it opens the frame with the sender's key
      have hkey : (⟨p.sharedKey⟩ : TunnelCrypto) = c.crypto := by
        rw [hcrypto, hagree.peer_key hp hq hpsrc hqdst]
        rfl
      have hback : files.names c.dst c.src = true :=
        (names_iff_netConfig hvalid).mpr ⟨p, hp, hpsrc⟩
      have hfits : (c.frame aead).length ≤ maxPacket := by
        have hct := hlength c.crypto.key (makeNonce c.seq) c.payload
        rw [SendCall.frame, SendCall.ciphertext, length_frameOf, TunnelCrypto.encrypt, hct,
          maxPacket]
        omega
      rw [hkey] at hpeer
      rw [SendCall.frame, SendCall.ciphertext, judge_frame hopens hpeer _ _ _ hfits, if_pos hback]
      rfl
    · -- the receiver does not list the sender, so the address is unknown
      have hback : files.names c.dst c.src = false := by
        rw [Bool.eq_false_iff]
        intro hnamed
        obtain ⟨p, hp, hpsrc⟩ := (names_iff_netConfig hvalid).mp hnamed
        exact hother p hp hpsrc
      rw [hback]
      cases hjudge : judge aead (peerMap (files.netConfig decode) c.dst) (publicAddr c.src)
          ((c.frame aead).take maxPacket) with
      | error skip => rfl
      | ok r =>
        obtain ⟨_, _, _, _, _, _, hknown, _⟩ := judge_eq_ok_iff.mp hjudge
        rw [hpeer] at hknown
        cases hknown
  · intro node source bytes t p hstep
    obtain ⟨source', bytes', o, hevent, ho, hpeer, hpacket⟩ := netStep_passes hstep
    cases hevent
    obtain ⟨-, hknown, -⟩ := opened_eq_some.mp ho
    obtain ⟨q, hfind, hpair⟩ := Option.map_eq_some_iff.mp hknown
    obtain ⟨hid, -⟩ := Prod.mk.inj hpair
    have hq := List.mem_reverse.mp (List.mem_of_find?_eq_some hfind)
    have haddr : q.addr = source := by simpa using List.find?_some hfind
    refine ⟨rfl, by rw [hpacket], ?_, ?_⟩
    · rw [hpeer, ← hid, ← hagree.peer_addr hq, haddr]
    · exact (names_iff_netConfig hvalid).mpr ⟨q, hq, hid.trans hpeer.symm⟩

def tyoAddr : SocketAddr := ⟨0xCB007101, 4433⟩

def sydSgpAddr (x : NodeId) : SocketAddr :=
  if x = "syd-01" then sydAddr else if x = "sgp-01" then sgpAddr else tyoAddr

theorem sydSgpFiles_eq_some {x : NodeId} {c : NodeConfig} (h : sydSgpFiles x = some c) :
    (x = "syd-01" ∧ c = pairFile "syd-01" "syd" "sgp-01" sgpAddr) ∨
      (x = "sgp-01" ∧ c = pairFile "sgp-01" "sgp" "syd-01" sydAddr) ∨
      (x = "tyo-01" ∧ c = pairFile "tyo-01" "tyo" "sgp-01" sgpAddr) := by
  rw [sydSgpFiles] at h
  split_ifs at h with hsyd hsgp htyo
  · exact Or.inl ⟨hsyd, (Option.some.inj h).symm⟩
  · exact Or.inr (Or.inl ⟨hsgp, (Option.some.inj h).symm⟩)
  · exact Or.inr (Or.inr ⟨htyo, (Option.some.inj h).symm⟩)

theorem member_sydSgpFiles {x : NodeId} (h : sydSgpFiles.Member x) :
    x = "syd-01" ∨ x = "sgp-01" ∨ x = "tyo-01" := by
  rcases h with h | ⟨y, hy⟩
  · obtain ⟨c, hc⟩ := Option.isSome_iff_exists.mp h
    rcases sydSgpFiles_eq_some hc with h | h | h
    · exact Or.inl h.1
    · exact Or.inr (Or.inl h.1)
    · exact Or.inr (Or.inr h.1)
  · obtain ⟨c, hfile, entry, hentry, rfl⟩ := names_iff.mp hy
    rcases sydSgpFiles_eq_some hfile with ⟨-, rfl⟩ | ⟨-, rfl⟩ | ⟨-, rfl⟩
    · cases List.mem_singleton.mp hentry
      exact Or.inr (Or.inl rfl)
    · cases List.mem_singleton.mp hentry
      exact Or.inl rfl
    · cases List.mem_singleton.mp hentry
      exact Or.inr (Or.inl rfl)

theorem agree_sydSgpFiles : sydSgpFiles.Agree decodeZeroKey sydSgpAddr where
  addrs := by
    intro x c hfile entry hentry
    rcases sydSgpFiles_eq_some hfile with ⟨-, rfl⟩ | ⟨-, rfl⟩ | ⟨-, rfl⟩
    all_goals
      cases List.mem_singleton.mp hentry
      rfl
  distinct := by
    intro x hx y hy heq
    rcases member_sydSgpFiles hx with rfl | rfl | rfl <;>
      rcases member_sydSgpFiles hy with rfl | rfl | rfl <;> revert heq <;> decide
  keys := by
    intro x c y c' hfile hfile' entry hentry entry' hentry' _ _
    have hkey : ∀ x c, sydSgpFiles x = some c → ∀ entry ∈ c.peers,
        entry.peer.sharedKey = "AAAAAAAAAAAAAAAAAAAAAAAAAAAAAAAAAAAAAAAAAAA=" := by
      intro x c hfile entry hentry
      rcases sydSgpFiles_eq_some hfile with ⟨-, rfl⟩ | ⟨-, rfl⟩ | ⟨-, rfl⟩
      all_goals
        cases List.mem_singleton.mp hentry
        rfl
    rw [hkey x c hfile entry hentry, hkey y c' hfile' entry' hentry']

theorem valid_sydSgpFiles : ∀ x c, sydSgpFiles x = some c → c.toConfig.Valid decodeZeroKey := by
  intro x c hfile
  apply (validate_ok_iff _).mp
  rcases sydSgpFiles_eq_some hfile with ⟨-, rfl⟩ | ⟨-, rfl⟩ | ⟨-, rfl⟩ <;> decide

/-- The first ping of Tokyo to Singapore. -/
def tokyoPing : SendCall :=
  ⟨"tyo-01", "sgp-01", (Tunnel.new sgpAddr zeroKey).crypto, packetPing, 0, [1, 0, 0, 0]⟩

/-- Sydney sends data and Tokyo a ping to Singapore, which hears Sydney only. -/
def bothSendSingapore : List NetEvent :=
  sendData ++ [.fetch "tyo-01" "sgp-01" tokyoPing.packetType tokyoPing.payload, .encrypt 0]

theorem agreeing_files_link_singapore :
    ∃ s os, NetRun tagAead (sydSgpFiles.netConfig decodeZeroKey) bothSendSingapore s os ∧
      (∃ t, netStep tagAead (sydSgpFiles.netConfig decodeZeroKey) s
          (.datagram "sgp-01" sydAddr (dataCall.frame tagAead)) =
        .ok (t, some ⟨"sgp-01", "syd-01", ⟨packetData, 0, [7], sydAddr⟩⟩)) ∧
      ∃ t, netStep tagAead (sydSgpFiles.netConfig decodeZeroKey) s
          (.datagram "sgp-01" tyoAddr (tokyoPing.frame tagAead)) = .ok (t, none) := by
  obtain ⟨s, os, hrun, hcalls⟩ :
      ∃ s os, NetRun tagAead (sydSgpFiles.netConfig decodeZeroKey) bothSendSingapore s os ∧
        s.calls = [dataCall, tokyoPing] := ⟨_, _, rfl, rfl⟩
  have hlinks := ((agreeing_files_link tagAead_tagLength tagAead_opens agree_sydSgpFiles
    valid_sydSgpFiles).1 bothSendSingapore s os hrun).1
  rw [hcalls] at hlinks
  refine ⟨s, os, hrun, ?_, ?_⟩
  · exact (hlinks dataCall (List.mem_cons_self ..)).2.2 (by decide)
  · exact (hlinks tokyoPing (List.mem_cons_of_mem _ (List.mem_singleton_self _))).2.2 (by decide)

end EntrouterLine
