import EntrouterLine.Lib.Machine
import EntrouterLine.Relay.Tunnel

/-!
# A network of nodes and their tunnels

Every node holds one tunnel for each peer of its configuration and one receive loop for all of
them (`run` in `main.rs`). A call to `Tunnel::send` is two steps, so that concurrent calls
interleave: `fetch_add` on the tunnel's counter, and later encryption, framing and `send_to`. The
network is free: a `datagram` event hands any bytes, from any source address, to any node's receive
loop. The conditions on runs say what it is allowed to do.

`SeqInv` is what every run keeps in one direction of a pair of nodes: the counter counts the calls,
and the sequence numbers of the calls are the numbers below it, each once.
-/

set_option autoImplicit false

namespace EntrouterLine.Relay

open EntrouterLine.Lib

/-- One `[[peers]]` entry, with its key decoded. -/
structure PeerConfig where
  nodeId : NodeId
  addr : SocketAddr
  sharedKey : Key

/-- The `peers` list of every node. -/
abbrev NetConfig := NodeId → List PeerConfig

/-- The tunnel `run` builds at `src` for peer `dst`: the last entry of that id stays in the map. -/
def tunnelTo (cfg : NetConfig) (src dst : NodeId) : Option Tunnel :=
  ((cfg src).reverse.find? fun p => p.nodeId = dst).map fun p => Tunnel.new p.addr p.sharedKey

/-- `peer_crypto_map` of `node`. -/
def peerMap (cfg : NetConfig) (node : NodeId) : PeerMap := fun addr =>
  ((cfg node).reverse.find? fun p => p.addr = addr).map fun p => (p.nodeId, ⟨p.sharedKey⟩)

/-- One call to `Tunnel::send`, with the sequence number it fetched and the key it seals under. -/
structure SendCall where
  src : NodeId
  dst : NodeId
  crypto : TunnelCrypto
  packetType : UInt8
  seq : UInt64
  payload : Bytes
  deriving DecidableEq

def SendCall.ciphertext (aead : Aead) (c : SendCall) : Bytes :=
  c.crypto.encrypt aead c.seq c.payload

/-- The datagram of the call. -/
def SendCall.frame (aead : Aead) (c : SendCall) : Bytes :=
  frameOf c.packetType c.seq (c.ciphertext aead)

/-- What the receive loop of `node` hands to its forwarder. -/
structure Passed where
  node : NodeId
  peer : NodeId
  packet : ReceivedPacket
  deriving DecidableEq

/-- Tunnels, calls that have fetched their sequence number but not encrypted yet, calls that have
encrypted (in that order), and the receive buffers. -/
structure Net where
  tunnels : NodeId → NodeId → Option Tunnel
  fetched : List SendCall
  calls : List SendCall
  rxBuf : NodeId → RxBuf

inductive NetEvent where
  | fetch (src dst : NodeId) (packetType : UInt8) (payload : Bytes)
  | encrypt (j : Nat)
  | datagram (node : NodeId) (source : SocketAddr) (bytes : Bytes)
  deriving DecidableEq

def Net.start (cfg : NetConfig) : Net :=
  ⟨tunnelTo cfg, [], [], fun _ => RxBuf.zero⟩

def Net.setTunnel (s : Net) (src dst : NodeId) (t : Tunnel) : Net :=
  { s with
    tunnels := Function.update s.tunnels src (Function.update (s.tunnels src) dst (some t)) }

@[simp] theorem setTunnel_calls (s : Net) (src dst : NodeId) (t : Tunnel) :
    (s.setTunnel src dst t).calls = s.calls := rfl

@[simp] theorem setTunnel_self (s : Net) (src dst : NodeId) (t : Tunnel) :
    (s.setTunnel src dst t).tunnels src dst = some t := by
  simp [Net.setTunnel]

theorem setTunnel_of_ne (s : Net) {src dst a b : NodeId} (t : Tunnel)
    (h : ¬ (src = a ∧ dst = b)) : (s.setTunnel src dst t).tunnels a b = s.tunnels a b := by
  by_cases hsrc : src = a
  · have hdst : b ≠ dst := fun hb => h ⟨hsrc, hb.symm⟩
    subst hsrc
    simp [Net.setTunnel, hdst]
  · simp [Net.setTunnel, Function.update_of_ne (Ne.symm hsrc)]

/-- One step of the network; no step aborts. The output is what a receive loop passes on. -/
def netStep (aead : Aead) (cfg : NetConfig) (s : Net) :
    NetEvent → Except Empty (Net × Option Passed)
  | .fetch src dst packetType payload =>
      match s.tunnels src dst with
      | none => .ok (s, none)
      | some tunnel =>
          let (seq, tunnel') := tunnel.fetchSeq
          let call : SendCall := ⟨src, dst, tunnel.crypto, packetType, seq, payload⟩
          .ok ({ s.setTunnel src dst tunnel' with fetched := s.fetched ++ [call] }, none)
  | .encrypt j =>
      -- concurrent calls encrypt in any order
      match s.fetched[j]? with
      | none => .ok (s, none)
      | some call =>
          .ok ({ s with fetched := s.fetched.eraseIdx j, calls := s.calls ++ [call] }, none)
  | .datagram node source bytes =>
      let (buf, result) := handleDatagram aead (peerMap cfg node) (s.rxBuf node) source bytes
      let s' := { s with rxBuf := Function.update s.rxBuf node buf }
      match result with
      | .ok (peer, packet) => .ok (s', some ⟨node, peer, packet⟩)
      | .error _ => .ok (s', none)

/-- Runs of the network from its configuration. -/
abbrev NetRun (aead : Aead) (cfg : NetConfig) (es : List NetEvent) (s : Net)
    (os : List (Option Passed)) : Prop :=
  Machine.run (netStep aead cfg) (Net.start cfg) es = .ok (s, os)

/-- The calls of one direction. -/
def dirCalls (a b : NodeId) (cs : List SendCall) : List SendCall :=
  cs.filter fun c => c.src = a ∧ c.dst = b

/-- The event is a `Tunnel::send` call of `a` towards `b`. -/
def NetEvent.isFetch (a b : NodeId) : NetEvent → Bool
  | .fetch src dst _ _ => src = a ∧ dst = b
  | _ => false

/-- The number of `Tunnel::send` calls of `a` towards `b`. -/
def sends (a b : NodeId) (es : List NetEvent) : Nat := es.countP (NetEvent.isFetch a b)

@[simp] theorem sends_snoc (a b : NodeId) (es : List NetEvent) (e : NetEvent) :
    sends a b (es ++ [e]) = sends a b es + if e.isFetch a b then 1 else 0 := by
  simp [sends, List.countP_append, List.countP_singleton]

theorem dirCalls_append (a b : NodeId) (cs cs' : List SendCall) :
    dirCalls a b (cs ++ cs') = dirCalls a b cs ++ dirCalls a b cs' :=
  List.filter_append ..

theorem mem_dirCalls {a b : NodeId} {cs : List SendCall} {c : SendCall} :
    c ∈ dirCalls a b cs ↔ c ∈ cs ∧ c.src = a ∧ c.dst = b := by
  simp [dirCalls]

/-! ## What one step does -/

/-- A `fetch` event without a tunnel does nothing; with one it appends a call under the tunnel's
counter and key, and advances the counter. -/
theorem netStep_fetch_inv {aead : Aead} {cfg : NetConfig} {s t : Net} {o : Option Passed}
    {src dst : NodeId} {packetType : UInt8} {payload : Bytes}
    (h : netStep aead cfg s (.fetch src dst packetType payload) = .ok (t, o)) :
    o = none ∧ ((s.tunnels src dst = none ∧ t = s) ∨
      ∃ tunnel, s.tunnels src dst = some tunnel ∧
        t = { s.setTunnel src dst { tunnel with txSeq := tunnel.txSeq + 1 } with
          fetched := s.fetched ++
            [⟨src, dst, tunnel.crypto, packetType, tunnel.txSeq, payload⟩] }) := by
  simp only [netStep] at h
  cases htun : s.tunnels src dst with
  | none =>
    simp only [htun, Except.ok.injEq, Prod.mk.injEq] at h
    exact ⟨h.2.symm, Or.inl ⟨rfl, h.1.symm⟩⟩
  | some tunnel =>
    simp only [htun, Tunnel.fetchSeq, Except.ok.injEq, Prod.mk.injEq] at h
    exact ⟨h.2.symm, Or.inr ⟨tunnel, rfl, h.1.symm⟩⟩

/-- An `encrypt` event moves one fetched call to the encrypted ones. -/
theorem netStep_encrypt_inv {aead : Aead} {cfg : NetConfig} {s t : Net} {o : Option Passed}
    {j : Nat} (h : netStep aead cfg s (.encrypt j) = .ok (t, o)) :
    o = none ∧ (t = s ∨ ∃ call, s.fetched[j]? = some call ∧
      t = { s with fetched := s.fetched.eraseIdx j, calls := s.calls ++ [call] }) := by
  simp only [netStep] at h
  cases hcall : s.fetched[j]? with
  | none =>
    simp only [hcall, Except.ok.injEq, Prod.mk.injEq] at h
    exact ⟨h.2.symm, Or.inl h.1.symm⟩
  | some call =>
    simp only [hcall, Except.ok.injEq, Prod.mk.injEq] at h
    exact ⟨h.2.symm, Or.inr ⟨call, rfl, h.1.symm⟩⟩

/-- A `datagram` event changes a receive buffer only, and its output is the round's judgement of
the received bytes. -/
theorem netStep_datagram_inv {aead : Aead} {cfg : NetConfig} {s t : Net} {o : Option Passed}
    {node : NodeId} {source : SocketAddr} {bytes : Bytes}
    (h : netStep aead cfg s (.datagram node source bytes) = .ok (t, o)) :
    t.tunnels = s.tunnels ∧ t.fetched = s.fetched ∧ t.calls = s.calls ∧
      o = (judge aead (peerMap cfg node) source (bytes.take maxPacket)).toOption.map
        fun r => ⟨node, r.1, r.2⟩ := by
  have hjudge := handleDatagram_eq_judge aead (peerMap cfg node) (s.rxBuf node) source bytes
  rw [← hjudge]
  simp only [netStep] at h
  cases hres : (handleDatagram aead (peerMap cfg node) (s.rxBuf node) source bytes).2 with
  | ok r =>
    simp only [hres, Except.ok.injEq, Prod.mk.injEq] at h
    obtain ⟨rfl, rfl⟩ := h
    exact ⟨rfl, rfl, rfl, rfl⟩
  | error e =>
    simp only [hres, Except.ok.injEq, Prod.mk.injEq] at h
    obtain ⟨rfl, rfl⟩ := h
    exact ⟨rfl, rfl, rfl, rfl⟩

/-! ## One direction of a pair of nodes -/

/-- After `n` calls of `a` towards `b` over a tunnel that started at `tunnel`: the counter stands
at `n`, every call sealed under the tunnel's key, and the sequence numbers of the calls are those
below `n`, each once. -/
structure SeqInv (a b : NodeId) (tunnel : Tunnel) (n : Nat) (s : Net) : Prop where
  counter : s.tunnels a b = some { tunnel with txSeq := UInt64.ofNat n }
  crypto : ∀ c ∈ dirCalls a b (s.calls ++ s.fetched), c.crypto = tunnel.crypto
  seqs : ((dirCalls a b (s.calls ++ s.fetched)).map SendCall.seq).Perm
    ((List.range n).map UInt64.ofNat)

theorem seqInv_start {cfg : NetConfig} {a b : NodeId} {tunnel : Tunnel}
    (h : tunnelTo cfg a b = some tunnel) : SeqInv a b tunnel 0 (Net.start cfg) := by
  have hzero : tunnel.txSeq = 0 := by
    simp only [tunnelTo, Option.map_eq_some_iff] at h
    obtain ⟨p, -, rfl⟩ := h
    rfl
  refine ⟨?_, ?_, ?_⟩
  · show tunnelTo cfg a b = _
    rw [h]
    cases tunnel
    simp only at hzero
    subst hzero
    rfl
  · intro c hc
    simp [Net.start, dirCalls] at hc
  · simp [Net.start, dirCalls]

/-- The calls fetched and encrypted so far, after the `j`-th fetched call has encrypted. -/
theorem perm_encrypt {cs fs : List SendCall} {j : Nat} {call : SendCall}
    (h : fs[j]? = some call) : ((cs ++ [call]) ++ fs.eraseIdx j).Perm (cs ++ fs) := by
  obtain ⟨hj, hget⟩ := List.getElem?_eq_some_iff.mp h
  have hsplit : fs.Perm (call :: fs.eraseIdx j) := by
    rw [← hget]
    exact (List.getElem_cons_eraseIdx_perm hj).symm
  rw [List.append_assoc]
  exact (List.Perm.append_left cs hsplit).symm

/-- A call of the direction takes the next number. -/
theorem SeqInv.fetch {a b : NodeId} {tunnel : Tunnel} {n : Nat} {s : Net}
    (hinv : SeqInv a b tunnel n s) (packetType : UInt8) (payload : Bytes) :
    SeqInv a b tunnel (n + 1) { s.setTunnel a b { tunnel with txSeq := UInt64.ofNat n + 1 } with
      fetched := s.fetched ++
        [⟨a, b, tunnel.crypto, packetType, UInt64.ofNat n, payload⟩] } := by
  refine ⟨?_, ?_, ?_⟩
  · rw [setTunnel_self, UInt64.ofNat_add]
    rfl
  · intro c hc
    rw [← List.append_assoc, dirCalls_append, List.mem_append] at hc
    rcases hc with hc | hc
    · exact hinv.crypto c hc
    · -- the new call
      obtain ⟨hmem, -⟩ := mem_dirCalls.mp hc
      rw [List.mem_singleton] at hmem
      rw [hmem]
  · rw [← List.append_assoc, dirCalls_append, List.map_append, List.range_succ, List.map_append]
    apply List.Perm.append hinv.seqs
    simp [dirCalls]

/-- A call of another direction changes neither the counter nor the calls of this one. -/
theorem SeqInv.fetch_of_ne {a b src dst : NodeId} {tunnel : Tunnel} {n : Nat} {s : Net}
    (hinv : SeqInv a b tunnel n s) (hdir : ¬ (src = a ∧ dst = b)) (tunnel' : Tunnel)
    (crypto : TunnelCrypto) (packetType : UInt8) (seq : UInt64) (payload : Bytes) :
    SeqInv a b tunnel n { s.setTunnel src dst tunnel' with
      fetched := s.fetched ++ [⟨src, dst, crypto, packetType, seq, payload⟩] } := by
  have hdirs : dirCalls a b (s.calls ++ (s.fetched ++
      [⟨src, dst, crypto, packetType, seq, payload⟩])) = dirCalls a b (s.calls ++ s.fetched) := by
    rw [← List.append_assoc, dirCalls_append]
    simp [dirCalls, hdir]
  refine ⟨?_, ?_, ?_⟩
  · rw [setTunnel_of_ne s _ hdir, hinv.counter]
  · simpa only [setTunnel_calls, hdirs] using hinv.crypto
  · simpa only [setTunnel_calls, hdirs] using hinv.seqs

/-- One step keeps `SeqInv`, counting a `fetch` event of its direction. -/
theorem SeqInv.step {aead : Aead} {cfg : NetConfig} {a b : NodeId} {tunnel : Tunnel} {n : Nat}
    {s t : Net} {e : NetEvent} {o : Option Passed} (hinv : SeqInv a b tunnel n s)
    (h : netStep aead cfg s e = .ok (t, o)) :
    SeqInv a b tunnel (n + if e.isFetch a b then 1 else 0) t := by
  cases e with
  | fetch src dst packetType payload =>
    obtain ⟨-, hcase⟩ := netStep_fetch_inv h
    by_cases hdir : src = a ∧ dst = b
    · obtain ⟨rfl, rfl⟩ := hdir
      have hfetch : (NetEvent.fetch src dst packetType payload).isFetch src dst = true := by
        simp [NetEvent.isFetch]
      rw [hfetch, if_pos rfl]
      rcases hcase with ⟨hnone, -⟩ | ⟨tun, hsome, rfl⟩
      · rw [hinv.counter] at hnone
        cases hnone
      · rw [hinv.counter, Option.some.injEq] at hsome
        subst hsome
        exact hinv.fetch packetType payload
    · have hfetch : (NetEvent.fetch src dst packetType payload).isFetch a b = false := by
        simpa [NetEvent.isFetch] using hdir
      simp only [hfetch, Bool.false_eq_true, if_false, Nat.add_zero]
      rcases hcase with ⟨-, rfl⟩ | ⟨tun, -, rfl⟩
      · exact hinv
      · exact hinv.fetch_of_ne hdir _ _ _ _ _
  | encrypt j =>
    simp only [NetEvent.isFetch, Bool.false_eq_true, if_false, Nat.add_zero]
    obtain ⟨-, rfl | ⟨call, hcall, rfl⟩⟩ := netStep_encrypt_inv h
    · exact hinv
    · -- encrypting moves a call from one list to the other
      have hperm : (dirCalls a b ((s.calls ++ [call]) ++ s.fetched.eraseIdx j)).Perm
          (dirCalls a b (s.calls ++ s.fetched)) := (perm_encrypt hcall).filter _
      refine ⟨hinv.counter, ?_, ?_⟩
      · intro c hc
        exact hinv.crypto c (hperm.mem_iff.mp hc)
      · exact (hperm.map SendCall.seq).trans hinv.seqs
  | datagram node source bytes =>
    simp only [NetEvent.isFetch, Bool.false_eq_true, if_false, Nat.add_zero]
    obtain ⟨htun, hfetched, hcalls, -⟩ := netStep_datagram_inv h
    refine ⟨?_, ?_, ?_⟩
    · rw [htun]
      exact hinv.counter
    · rw [hfetched, hcalls]
      exact hinv.crypto
    · rw [hfetched, hcalls]
      exact hinv.seqs

/-- Every run keeps `SeqInv` with the number of calls it has made. -/
theorem seqInv_run {aead : Aead} {cfg : NetConfig} {a b : NodeId} {tunnel : Tunnel}
    (htun : tunnelTo cfg a b = some tunnel) {es : List NetEvent} {s : Net}
    {os : List (Option Passed)} (hrun : NetRun aead cfg es s os) :
    SeqInv a b tunnel (sends a b es) s := by
  refine Machine.run_induction (P := fun es s _ => SeqInv a b tunnel (sends a b es) s)
    (seqInv_start htun) ?_ es s os hrun
  intro es s os e t o hinv hstep
  rw [sends_snoc]
  exact hinv.step hstep

end EntrouterLine.Relay
