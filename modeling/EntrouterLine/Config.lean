import EntrouterLine.Relay.Fec
import EntrouterLine.Relay.Tunnel

/-!
# Configuration

`Config` is what `validate` reads of the configuration file, and the shard counts that `run` builds
the FEC configuration from. The base64 decoder is a parameter. `validate_ok_iff` says what an
accepted configuration is: one with an id, with peers that all have a key of 32 bytes, and with both
TLS paths or none. The shard counts are not among the things it checks.
-/

set_option autoImplicit false

namespace EntrouterLine

open EntrouterLine.Relay

structure ListenConfig where
  tlsCertPath : Option String
  tlsKeyPath : Option String
  deriving DecidableEq

structure RelayConfig where
  fecDataShards : Option Nat
  fecParityShards : Option Nat
  deriving DecidableEq

structure PeerConfig where
  nodeId : NodeId
  sharedKey : String
  deriving DecidableEq

structure Config where
  nodeId : NodeId
  listen : ListenConfig
  relay : RelayConfig
  peers : List PeerConfig
  deriving DecidableEq

inductive ConfigError where
  | validation (message : String)
  deriving DecidableEq

/-- `PeerConfig::decode_key`. -/
def PeerConfig.decodeKey (decode : String → Option Bytes) (peer : PeerConfig) :
    Except ConfigError Key :=
  match decode peer.sharedKey with
  | none => .error (.validation ("invalid base64 shared_key for peer " ++ peer.nodeId))
  | some bytes =>
      if h : bytes.length = keySize then .ok ⟨bytes, h⟩
      else .error (.validation ("shared_key for peer " ++ peer.nodeId ++ " must be 32 bytes" ++
        " (got " ++ toString bytes.length ++ ")"))

/-- The body of the loop over the peers in `validate`, which makes the checks of `decode_key`. -/
def checkPeer (decode : String → Option Bytes) (peer : PeerConfig) : Except ConfigError Unit :=
  (peer.decodeKey decode).map fun _ => ()

/-- The TLS check of `validate`. -/
def ListenConfig.checkTls (listen : ListenConfig) : Except ConfigError Unit :=
  match listen.tlsCertPath, listen.tlsKeyPath with
  | some _, none => .error (.validation "tls_cert_path set without tls_key_path")
  | none, some _ => .error (.validation "tls_key_path set without tls_cert_path")
  | _, _ => .ok ()

/-- `Config::validate`. -/
def Config.validate (decode : String → Option Bytes) (config : Config) : Except ConfigError Unit :=
  if config.nodeId = "" then .error (.validation "node_id cannot be empty")
  else if config.peers = [] then .error (.validation "at least one peer required")
  else do
    config.peers.forM (checkPeer decode)
    config.listen.checkTls

/-- The FEC configuration that `run` builds. -/
def Config.fecConfig (config : Config) : FecConfig :=
  ⟨config.relay.fecDataShards.getD 10, config.relay.fecParityShards.getD 4⟩

/-- What `validate` checks. -/
structure Config.Valid (decode : String → Option Bytes) (config : Config) : Prop where
  nodeId : config.nodeId ≠ ""
  peers : config.peers ≠ []
  keys : ∀ peer ∈ config.peers, ∃ bytes, decode peer.sharedKey = some bytes ∧ bytes.length = keySize
  tls : config.listen.tlsCertPath.isSome ↔ config.listen.tlsKeyPath.isSome

variable {decode : String → Option Bytes}

theorem checkPeer_ok_iff {peer : PeerConfig} : checkPeer decode peer = .ok () ↔
    ∃ bytes, decode peer.sharedKey = some bytes ∧ bytes.length = keySize := by
  cases hdecode : decode peer.sharedKey with
  | none => simp [checkPeer, PeerConfig.decodeKey, hdecode, Except.map]
  | some bytes =>
    by_cases hlen : bytes.length = keySize
    · simp [checkPeer, PeerConfig.decodeKey, hdecode, hlen, Except.map]
    · simp [checkPeer, PeerConfig.decodeKey, hdecode, hlen, Except.map]

theorem forM_checkPeer_ok_iff {peers : List PeerConfig} :
    peers.forM (checkPeer decode) = .ok () ↔ ∀ peer ∈ peers, checkPeer decode peer = .ok () := by
  induction peers with
  | nil => exact iff_of_true rfl nofun
  | cons peer peers ih =>
    rw [List.forall_mem_cons, ← ih, List.forM_eq_forM, List.forM_cons]
    cases hpeer : checkPeer decode peer with
    | error e => exact iff_of_false nofun fun h => nomatch h.1
    | ok u => exact ⟨fun h => ⟨rfl, h⟩, fun h => h.2⟩

theorem checkTls_ok_iff {listen : ListenConfig} : listen.checkTls = .ok () ↔
    (listen.tlsCertPath.isSome ↔ listen.tlsKeyPath.isSome) := by
  obtain ⟨cert, key⟩ := listen
  cases cert <;> cases key <;> simp [ListenConfig.checkTls]

/-- `validate` accepts exactly the valid configurations. -/
theorem validate_ok_iff (config : Config) :
    config.validate decode = .ok () ↔ config.Valid decode := by
  have hpeers : config.peers.forM (checkPeer decode) = .ok () ↔ ∀ peer ∈ config.peers,
      ∃ bytes, decode peer.sharedKey = some bytes ∧ bytes.length = keySize := by
    rw [forM_checkPeer_ok_iff]
    exact forall₂_congr fun _ _ => checkPeer_ok_iff
  rw [Config.validate]
  by_cases hid : config.nodeId = ""
  · rw [if_pos hid]
    exact iff_of_false nofun fun h => h.nodeId hid
  by_cases hnone : config.peers = []
  · rw [if_neg hid, if_pos hnone]
    exact iff_of_false nofun fun h => h.peers hnone
  rw [if_neg hid, if_neg hnone]
  cases hcheck : config.peers.forM (checkPeer decode) with
  | error e =>
    refine iff_of_false nofun fun h => ?_
    rw [hpeers.mpr h.keys] at hcheck
    cases hcheck
  | ok u =>
    show config.listen.checkTls = .ok () ↔ _
    rw [checkTls_ok_iff]
    exact ⟨fun htls => ⟨hid, hnone, hpeers.mp hcheck, htls⟩, fun h => h.tls⟩

/-- Every peer of a validated configuration has a key, as `run` relies on. -/
theorem decodeKey_ok {config : Config} (h : config.validate decode = .ok ()) :
    ∀ peer ∈ config.peers, ∃ key, peer.decodeKey decode = .ok key := by
  intro peer hpeer
  obtain ⟨bytes, hdecode, hlen⟩ := ((validate_ok_iff config).mp h).keys peer hpeer
  exact ⟨⟨bytes, hlen⟩, by simp [PeerConfig.decodeKey, hdecode, hlen]⟩

end EntrouterLine
