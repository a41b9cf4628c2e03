import EntrouterLine.Lib.Simulation
import EntrouterLine.Relay.Authenticity
import EntrouterLine.Relay.FecWrap

/-!
# A FEC link over sealed tunnels

`FecLink` hands the shards of emitted blocks to the receiver as they are. In the program each block
goes to a send task of its own, which sends its shards through the tunnel to the peer; there the
receive loop opens the datagrams and puts the packets into a channel, and the forwarder takes them
from the channel. `SealedLink` is this whole path, from the node `a` to its peer `b`, in a network
that carries the packets of all other nodes as well.

As long as the cipher keeps its promise and the network does not alter frames, `FecLink` simulates
the path (`sealedLink_simulates`): whatever datagrams are lost, delayed, reordered or repeated, the
forwarder of `b` gets what it would get if the network handed over the shards themselves.
-/

set_option autoImplicit false

namespace EntrouterLine.Relay

open EntrouterLine.Lib

/-- Packets that `handle_inbound` gives to the FEC receiver. -/
def isShardType (packetType : UInt8) : Bool :=
  packetType = packetData ∨ packetType = packetParity

/-- A spawned task that sends the shards of a block one after the other. -/
structure ShardTask where
  block : EmittedBlock
  sentCount : Nat

/-- The network, the FEC sender of `a` for `b` and all send tasks it has given a block to, the
channel from the receive loop of `b` to its forwarder, and the FEC receiver of `b` for `a`. -/
structure SealedLink where
  net : Net
  sender : FecSender
  tasks : List ShardTask
  inbound : List (NodeId × ReceivedPacket)
  receiver : FecReceiver

def SealedLink.start (cfg : NetConfig) (config : FecConfig) : SealedLink :=
  ⟨Net.start cfg, FecSender.new config, [], [], FecReceiver.new⟩

/-- Capacity of the channel. -/
def forwardCapacity : Nat := 8192

inductive SealedEvent where
  | submit (payload : Bytes)
  | flushPartial
  | sendShard (j : Nat)
  | net (e : NetEvent)
  | handle (now : Nat)
  | expire (now maxAgeMs : Nat)
  deriving DecidableEq

/-- The sender has moved on, and has spawned a task for the shards it emitted, if any. -/
def SealedLink.spawn (s : SealedLink) (payloads : List Bytes)
    (result : FecSender × Option (List (UInt8 × Bytes))) : SealedLink :=
  { s with
    sender := result.1
    tasks := s.tasks ++ result.2.toList.map fun shards => ⟨⟨payloads, shards⟩, 0⟩ }

/-- The step of a node in the network. What the receive loop of `b` passes on goes into the
channel. -/
def SealedLink.netStep (aead : Aead) (cfg : NetConfig) (b : NodeId) (s : SealedLink)
    (e : NetEvent) : SealedLink :=
  match Relay.netStep aead cfg s.net e with
  | .ok (net, passed) =>
      { s with
        net := net
        inbound := s.inbound ++
          (passed.toList.filter fun p => p.node = b).map fun p => (p.peer, p.packet) }

/-- The step is not the network's to take: a send task of `a` takes it, or the receive loop of `b`
waits for room in the channel. -/
def SealedLink.withholds (a b : NodeId) (s : SealedLink) : NetEvent → Bool
  | .fetch src dst packetType _ => src = a ∧ dst = b ∧ isShardType packetType
  | .datagram node _ _ => node = b ∧ forwardCapacity ≤ s.inbound.length
  | .encrypt _ => false

/-- One step of the path from `a` to `b`. The output is what `receive_shard` returns at `b`. -/
def sealedStep (rs : ReedSolomon) (aead : Aead) (cfg : NetConfig) (a b : NodeId) (s : SealedLink) :
    SealedEvent → Except Panic (SealedLink × Option (List Bytes))
  | .submit payload => do
      let result ← s.sender.submit rs payload
      return (s.spawn (s.sender.buffer ++ [payload]) result, none)
  | .flushPartial => do
      let result ← s.sender.flushPartial rs
      return (s.spawn s.sender.buffer result, none)
  | .sendShard j =>
      match s.tasks[j]? with
      | none => .ok (s, none)
      | some task =>
          match task.block.shards[task.sentCount]? with
          | none => .ok (s, none)
          | some (packetType, shard) =>
              .ok ({ s.netStep aead cfg b (.fetch a b packetType shard) with
                tasks := s.tasks.set j ⟨task.block, task.sentCount + 1⟩ }, none)
  | .net e => .ok (if s.withholds a b e then s else s.netStep aead cfg b e, none)
  | .handle now =>
      match s.inbound with
      | [] => .ok (s, none)
      | (fromPeer, packet) :: rest =>
          if fromPeer = a ∧ isShardType packet.packetType then do
            let (receiver, out) ← s.receiver.receiveShard rs now packet.payload
            return ({ s with inbound := rest, receiver := receiver }, out)
          else .ok ({ s with inbound := rest }, none)
  | .expire now maxAgeMs =>
      .ok ({ s with receiver := s.receiver.expireOld now maxAgeMs }, none)

/-- The cipher keeps its promise, and the network leaves the frame as it was built. -/
def Faithful (aead : Aead) (cfg : NetConfig) (s : SealedLink) : SealedEvent → Prop
  | .net e => HolderSealed aead cfg s.net e ∧ Unaltered aead cfg s.net e
  | _ => True

instance (aead : Aead) (cfg : NetConfig) (s : SealedLink) (e : SealedEvent) :
    Decidable (Faithful aead cfg s e) :=
  match e with
  | .net _ => inferInstanceAs (Decidable (_ ∧ _))
  | .submit _ => isTrue trivial
  | .flushPartial => isTrue trivial
  | .sendShard _ => isTrue trivial
  | .handle _ => isTrue trivial
  | .expire _ _ => isTrue trivial

/-! ## The simulation -/

/-- Payloads that go into a link, and lists of payloads that come out. -/
inductive Crossing where
  | submitted (payload : Bytes)
  | returned (payloads : List Bytes)
  deriving DecidableEq

def SealedEvent.payload? : SealedEvent → Option Bytes
  | .submit payload => some payload
  | _ => none

def LinkEvent.payload? : LinkEvent → Option Bytes
  | .submit payload => some payload
  | _ => none

/-- What crosses the ends of a link in a step. -/
def crossings {ε : Type} (payload? : ε → Option Bytes) (e : ε) (out : Option (List Bytes)) :
    List Crossing :=
  (payload? e).toList.map .submitted ++ out.toList.map .returned

/-- The bytes are a shard of an emitted block. -/
def FecLink.IsShard (l : FecLink) (bytes : Bytes) : Prop := ∃ n i, l.shard? n i = some bytes

/-- The sender and the receiver are those of the link, every task sends a block of the link, and
every packet on its way from `a` to the receiver carries a shard. -/
structure Tracks (a b : NodeId) (s : SealedLink) (l : FecLink) : Prop where
  sender_eq : l.sender = s.sender
  emitted_eq : l.emitted = s.tasks.map ShardTask.block
  receiver_eq : l.receiver = s.receiver
  called : ∀ c ∈ s.net.calls ++ s.net.fetched, c.src = a → c.dst = b →
    isShardType c.packetType → l.IsShard c.payload
  arrived : ∀ r ∈ s.inbound, r.1 = a → isShardType r.2.packetType → l.IsShard r.2.payload

theorem tracks_start (cfg : NetConfig) (config : FecConfig) (a b : NodeId) :
    Tracks a b (SealedLink.start cfg config) (FecLink.start config) :=
  ⟨rfl, rfl, rfl, nofun, nofun⟩

variable {rs : ReedSolomon} {aead : Aead} {cfg : NetConfig} {config : FecConfig} {a b : NodeId}
  {s : SealedLink} {l : FecLink}

theorem FecLink.IsShard.sent {bytes : Bytes} (h : l.IsShard bytes) (payloads : List Bytes)
    (result : FecSender × Option (List (UInt8 × Bytes))) :
    (l.sent payloads result).IsShard bytes := by
  obtain ⟨n, i, hshard⟩ := h
  refine ⟨n, i, ?_⟩
  obtain ⟨block, hblock, hi⟩ := Option.bind_eq_some_iff.mp hshard
  rw [FecLink.shard?, FecLink.sent,
    List.getElem?_append_left (List.getElem?_eq_some_iff.mp hblock).1, hblock]
  exact hi

/-- The sender emits the same block on both sides. -/
theorem Tracks.sent (h : Tracks a b s l) (payloads : List Bytes)
    (result : FecSender × Option (List (UInt8 × Bytes))) :
    Tracks a b (s.spawn payloads result) (l.sent payloads result) where
  sender_eq := rfl
  emitted_eq := by
    show l.emitted ++ _ = (s.tasks ++ _).map ShardTask.block
    rw [List.map_append, h.emitted_eq, List.map_map]
    rfl
  receiver_eq := h.receiver_eq
  called := fun c hc hsrc hdst htype => (h.called c hc hsrc hdst htype).sent payloads result
  arrived := fun r hr hpeer htype => (h.arrived r hr hpeer htype).sent payloads result

/-- What holds of all calls of the network after a step: it held before, or the call is the one that
the step fetched. -/
theorem netStep_calls {net net' : Net} {e : NetEvent} {o : Option Passed}
    (h : netStep aead cfg net e = .ok (net', o)) {c : SendCall}
    (hc : c ∈ net'.calls ++ net'.fetched) :
    c ∈ net.calls ++ net.fetched ∨ e = .fetch c.src c.dst c.packetType c.payload := by
  cases e with
  | fetch src dst packetType payload =>
    obtain ⟨-, ⟨-, rfl⟩ | ⟨tunnel, -, rfl⟩⟩ := netStep_fetch_inv h
    · exact Or.inl hc
    · rcases List.mem_append.mp hc with hcall | hfetched
      · exact Or.inl (List.mem_append_left _ hcall)
      · rcases List.mem_append.mp hfetched with hold | hnew
        · exact Or.inl (List.mem_append_right _ hold)
        · rw [List.mem_singleton.mp hnew]
          exact Or.inr rfl
  | encrypt j =>
    obtain ⟨-, rfl | ⟨call, hcall, rfl⟩⟩ := netStep_encrypt_inv h
    · exact Or.inl hc
    · exact Or.inl ((perm_encrypt hcall).mem_iff.mp hc)
  | datagram node source bytes =>
    obtain ⟨-, hfetched, hcalls, -⟩ := netStep_datagram_inv h
    rw [hfetched, hcalls] at hc
    exact Or.inl hc

/-- A step of the network that fetches no numbers for packets that are not shards keeps what is on
its way, if all that it passes on is authentic. -/
theorem Tracks.netStep (h : Tracks a b s l) (hopens : aead.Opens) {e : NetEvent}
    (hsealed : HolderSealed aead cfg s.net e) (hunaltered : Unaltered aead cfg s.net e)
    (hfetch : ∀ packetType payload, e = .fetch a b packetType payload → isShardType packetType →
      l.IsShard payload) : Tracks a b (s.netStep aead cfg b e) l := by
  cases hstep : Relay.netStep aead cfg s.net e with
  | error p => cases p
  | ok result =>
    obtain ⟨net, passed⟩ := result
    have hs : s.netStep aead cfg b e = { s with
        net := net
        inbound := s.inbound ++
          (passed.toList.filter fun p => p.node = b).map fun p => (p.peer, p.packet) } := by
      simp only [SealedLink.netStep, hstep]
    rw [hs]
    refine ⟨h.sender_eq, h.emitted_eq, h.receiver_eq, ?_, ?_⟩
    · intro c hc hsrc hdst htype
      rcases netStep_calls hstep hc with hold | hnew
      · exact h.called c hold hsrc hdst htype
      · rw [hsrc, hdst] at hnew
        exact hfetch _ _ hnew htype
    · intro r hr hpeer htype
      rcases List.mem_append.mp hr with hold | hnew
      · exact h.arrived r hold hpeer htype
      · -- what the loop has passed on is a packet that `a` sent
        obtain ⟨p, hp, rfl⟩ := List.mem_map.mp hnew
        rw [List.mem_filter, Option.mem_toList, decide_eq_true_eq] at hp
        obtain ⟨rfl, hnode⟩ := hp
        obtain ⟨c, hc, hsrc, hdst, hctype, -, hpayload⟩ :=
          passesAuthentic_of_unaltered hopens hsealed hunaltered net p hstep
        rw [← hpayload]
        refine h.called c (List.mem_append_left _ hc) (hsrc.trans hpeer) (hdst.trans hnode) ?_
        rw [hctype]
        exact htype

/-- The step of the link that does what the step of the path does. -/
def Mirrors (l : FecLink) : SealedEvent → LinkEvent → Prop
  | .submit payload, d => d = .submit payload
  | .flushPartial, d => d = .flushPartial
  | .handle now, d => ∃ n i, d = .deliver now n i ∧ (l.shard? n i).isSome
  | .expire now maxAgeMs, d => d = .expire now maxAgeMs
  | .sendShard _, _ => False
  | .net _, _ => False

/-- The next shard of a task is a shard of the link. -/
theorem Tracks.isShard_task (h : Tracks a b s l) {j : Nat} {task : ShardTask}
    (htask : s.tasks[j]? = some task) {k : Nat} {packetType : UInt8} {shard : Bytes}
    (hshard : task.block.shards[k]? = some (packetType, shard)) : l.IsShard shard := by
  refine ⟨j, k, ?_⟩
  rw [FecLink.shard?, h.emitted_eq, List.getElem?_map, htask]
  simp only [Option.map_some, Option.bind_some, hshard]

variable {C : SealedLink → SealedEvent → Prop} {D : FecLink → LinkEvent → Prop}

/-- The link simulates the path, by steps that mirror those of the path. -/
theorem sealedLink_simulates (hopens : aead.Opens) (a b : NodeId)
    (hC : ∀ s e, C s e → Faithful aead cfg s e)
    (hD : ∀ s l e d, Tracks a b s l → C s e → Mirrors l e d → D l d) :
    Machine.Simulates (sealedStep rs aead cfg a b) (crossings SealedEvent.payload?)
      C (linkStep rs) (crossings LinkEvent.payload?) D (Tracks a b) := by
  intro s l e h hcond
  cases e with
  | submit payload =>
    have hd := hD s l _ (.submit payload) h hcond rfl
    cases hsubmit : s.sender.submit rs payload with
    | error p =>
      have hstep : sealedStep rs aead cfg a b s (.submit payload) = .error p := by
        rw [sealedStep, hsubmit]
        rfl
      have hlink : linkStep rs l (.submit payload) = .error p := by
        rw [linkStep, h.sender_eq, hsubmit]
        rfl
      exact .aborted hstep hd hlink
    | ok result =>
      have hstep : sealedStep rs aead cfg a b s (.submit payload) =
          .ok (s.spawn (s.sender.buffer ++ [payload]) result, none) := by
        rw [sealedStep, hsubmit]
        rfl
      have hlink : linkStep rs l (.submit payload) =
          .ok (l.sent (s.sender.buffer ++ [payload]) result, none) := by
        rw [linkStep, h.sender_eq, hsubmit]
        rfl
      exact .moved hstep hd hlink rfl (h.sent _ result)
  | flushPartial =>
    have hd := hD s l _ .flushPartial h hcond rfl
    cases hflush : s.sender.flushPartial rs with
    | error p =>
      have hstep : sealedStep rs aead cfg a b s .flushPartial = .error p := by
        rw [sealedStep, hflush]
        rfl
      have hlink : linkStep rs l .flushPartial = .error p := by
        rw [linkStep, h.sender_eq, hflush]
        rfl
      exact .aborted hstep hd hlink
    | ok result =>
      have hstep : sealedStep rs aead cfg a b s .flushPartial =
          .ok (s.spawn s.sender.buffer result, none) := by
        rw [sealedStep, hflush]
        rfl
      have hlink : linkStep rs l .flushPartial = .ok (l.sent s.sender.buffer result, none) := by
        rw [linkStep, h.sender_eq, hflush]
        rfl
      exact .moved hstep hd hlink rfl (h.sent _ result)
  | sendShard j =>
    cases htask : s.tasks[j]? with
    | none =>
      have hstep : sealedStep rs aead cfg a b s (.sendShard j) = .ok (s, none) := by
        rw [sealedStep, htask]
      exact .idle hstep rfl h
    | some task =>
      cases hshard : task.block.shards[task.sentCount]? with
      | none =>
        have hstep : sealedStep rs aead cfg a b s (.sendShard j) = .ok (s, none) := by
          simp only [sealedStep, htask, hshard]
        exact .idle hstep rfl h
      | some frame =>
        obtain ⟨packetType, shard⟩ := frame
        have hnet : Tracks a b (s.netStep aead cfg b (.fetch a b packetType shard)) l := by
          apply h.netStep hopens
          · trivial
          · trivial
          intro packetType' payload heq _
          cases heq
          exact h.isShard_task htask hshard
        have hstep : sealedStep rs aead cfg a b s (.sendShard j) =
            .ok ({ s.netStep aead cfg b (.fetch a b packetType shard) with
              tasks := s.tasks.set j ⟨task.block, task.sentCount + 1⟩ }, none) := by
          simp only [sealedStep, htask, hshard]
        refine .idle hstep rfl ⟨hnet.sender_eq, ?_, hnet.receiver_eq, hnet.called, hnet.arrived⟩
        -- the task stays with its block
        have hblock : (s.tasks.map ShardTask.block)[j]? = some task.block := by
          rw [List.getElem?_map, htask]
          rfl
        obtain ⟨hj, hget⟩ := List.getElem?_eq_some_iff.mp hblock
        rw [h.emitted_eq, List.map_set, ← hget, List.set_getElem_self]
  | net e =>
    cases hwithheld : s.withholds a b e with
    | true =>
      have hstep : sealedStep rs aead cfg a b s (.net e) = .ok (s, none) := by
        rw [sealedStep, hwithheld, if_pos rfl]
      exact .idle hstep rfl h
    | false =>
      have hstep : sealedStep rs aead cfg a b s (.net e) =
          .ok (s.netStep aead cfg b e, none) := by
        rw [sealedStep, hwithheld, if_neg Bool.false_ne_true]
      refine .idle hstep rfl ?_
      obtain ⟨hsealed, hunaltered⟩ := hC s _ hcond
      apply h.netStep hopens hsealed hunaltered
      rintro packetType payload rfl htype
      simp [SealedLink.withholds, htype] at hwithheld
  | handle now =>
    cases hinbound : s.inbound with
    | nil =>
      have hstep : sealedStep rs aead cfg a b s (.handle now) = .ok (s, none) := by
        simp only [sealedStep, hinbound]
      exact .idle hstep rfl h
    | cons r rest =>
      obtain ⟨fromPeer, packet⟩ := r
      have hrest : ∀ r ∈ rest, r.1 = a → isShardType r.2.packetType → l.IsShard r.2.payload := by
        intro r hr
        apply h.arrived
        rw [hinbound]
        exact List.mem_cons_of_mem _ hr
      by_cases hmine : fromPeer = a ∧ isShardType packet.packetType
      · obtain ⟨n, i, hshard⟩ := h.arrived (fromPeer, packet) (by simp [hinbound]) hmine.1 hmine.2
        have hd := hD s l _ (.deliver now n i) h hcond ⟨n, i, rfl, by rw [hshard]; rfl⟩
        cases hreceive : s.receiver.receiveShard rs now packet.payload with
        | error p =>
          have hstep : sealedStep rs aead cfg a b s (.handle now) = .error p := by
            simp only [sealedStep, hinbound, if_pos hmine, hreceive]
            rfl
          have hlink : linkStep rs l (.deliver now n i) = .error p := by
            simp only [linkStep, hshard, h.receiver_eq, hreceive]
            rfl
          exact .aborted hstep hd hlink
        | ok result =>
          obtain ⟨receiver, out⟩ := result
          have hstep : sealedStep rs aead cfg a b s (.handle now) =
              .ok ({ s with inbound := rest, receiver := receiver }, out) := by
            simp only [sealedStep, hinbound, if_pos hmine, hreceive]
            rfl
          have hlink : linkStep rs l (.deliver now n i) =
              .ok ({ l with receiver := receiver, opened := l.openedBy n }, out) := by
            simp only [linkStep, hshard, h.receiver_eq, hreceive]
            rfl
          exact .moved hstep hd hlink rfl ⟨h.sender_eq, h.emitted_eq, rfl, h.called, hrest⟩
      · have hstep : sealedStep rs aead cfg a b s (.handle now) =
            .ok ({ s with inbound := rest }, none) := by
          simp only [sealedStep, hinbound, if_neg hmine]
        exact .idle hstep rfl ⟨h.sender_eq, h.emitted_eq, h.receiver_eq, h.called, hrest⟩
  | expire now maxAgeMs =>
    have hd := hD s l _ (.expire now maxAgeMs) h hcond rfl
    have hstep : sealedStep rs aead cfg a b s (.expire now maxAgeMs) =
        .ok ({ s with receiver := s.receiver.expireOld now maxAgeMs }, none) := rfl
    have hlink : linkStep rs l (.expire now maxAgeMs) =
        .ok ({ l with receiver := l.receiver.expireOld now maxAgeMs }, none) := rfl
    refine .moved hstep hd hlink rfl ⟨h.sender_eq, h.emitted_eq, ?_, h.called, h.arrived⟩
    rw [h.receiver_eq]

end EntrouterLine.Relay
