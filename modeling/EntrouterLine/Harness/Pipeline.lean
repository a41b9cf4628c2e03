import EntrouterLine.Relay.BlockSend
import EntrouterLine.Relay.ReceiveLoop

/-!
# The end-to-end test

`test_harness` sends FEC blocks through a proxy that drops datagrams, and reports what a receiver
can recover of them. The sender cuts each block as `send_with_fec` does, but puts six bytes before
every shard, the numbers of the block and of the shard, by which the receiver sorts the shards. A
`DONE` packet, or two seconds without a datagram, ends the receiver's loop.

The proxy is the one of the `lossy_proxy` binary without its `bidirectional` option
(`runLossyProxy`, `lossyProxyRound`). What its random numbers decide is part of its input.
-/

set_option autoImplicit false

namespace EntrouterLine.Harness

open EntrouterLine.Lib
open EntrouterLine.Relay

/-! ## Sender -/

/-- The `width` low bytes of a number, most significant first. -/
def toBeBytes (width n : Nat) : Bytes := (LittleEndian.toBytes width n).reverse

def ofBeBytes (bytes : Bytes) : Nat := LittleEndian.ofBytes bytes.reverse

/-- A shard behind the number of its block as a `u32` and its own as a `u16`. -/
def prefixShard (blockIdx shardIdx : Nat) (shard : Bytes) : Bytes :=
  toBeBytes 4 blockIdx ++ toBeBytes 2 shardIdx ++ shard

/-- The shards of a block. -/
def encodeBlock (rs : ReedSolomon) (config : FecConfig) (data : Bytes) :
    Except SendPanic (List Bytes) := do
  let encoder ← (FecEncoder.new rs config).mapError .fec
  if config.dataShards = 0 then .error .divideByZero
  else
    let shardSize := divCeil data.length config.dataShards
    -- `data.chunks(0)`
    if shardSize = 0 then .error .zeroChunkSize
    else (encoder.encode rs (chunkShards config shardSize data)).mapError .fec

/-- The loop that sends the blocks, at the `blockIdx`-th of them: the frames of each block. The
sender builds its frames as a tunnel does. -/
def sendBlocks (rs : ReedSolomon) (aead : Aead) (config : FecConfig) :
    Tunnel → Nat → List Bytes → Except SendPanic (List (List Bytes) × Tunnel)
  | t, _, [] => .ok ([], t)
  | t, blockIdx, data :: rest => do
      let shards ← encodeBlock rs config data
      let (frames, t) := t.sendShards aead config 0 (shards.mapIdx (prefixShard blockIdx))
      let (blocks, t) ← sendBlocks rs aead config t (blockIdx + 1) rest
      return (frames :: blocks, t)

/-- `b"DONE"`. -/
def termPayload : Bytes := [0x44, 0x4F, 0x4E, 0x45]

/-- What the sender hands to its socket: the frames of the blocks, and then the termination
signal. -/
def sendAll (rs : ReedSolomon) (aead : Aead) (config : FecConfig) (t : Tunnel)
    (blocks : List Bytes) : Except SendPanic (List (List Bytes) × Bytes) := do
  let (frames, t) ← sendBlocks rs aead config t 0 blocks
  return (frames, (t.send aead packetControl termPayload).1)

/-! ## Proxy -/

/-- The receive buffers of the proxy and the receiver have 2048 bytes. -/
def bufSize : Nat := 2048

structure Buf where
  bytes : Bytes
  size : bytes.length = bufSize

def Buf.zero : Buf := ⟨List.replicate bufSize 0, List.length_replicate⟩

/-- `recv_from`, which cuts a longer datagram. -/
def Buf.recvFrom (buf : Buf) (datagram : Bytes) : Nat × Buf :=
  let received := datagram.take bufSize
  (received.length, ⟨received ++ buf.bytes.drop received.length, by
    have h : received.length ≤ bufSize := List.length_take_le _ _
    rw [List.length_append, List.length_drop, buf.size]
    omega⟩)

structure Proxy where
  buf : Buf
  total : Nat
  dropped : Nat
  senderAddr : Option SocketAddr

def Proxy.start : Proxy := ⟨Buf.zero, 0, 0, none⟩

/-- A datagram at the proxy, and whether the random number for it is below the loss rate. -/
structure ProxyArrival where
  source : SocketAddr
  bytes : Bytes
  lost : Bool

/-- One round of the loop in `lossy_proxy`. The output is what is sent, and where. -/
def lossyProxyRound (listen target : SocketAddr) (bidirectional : Bool) (p : Proxy)
    (arrival : ProxyArrival) : Proxy × Option (SocketAddr × Bytes) :=
  let (len, buf) := p.buf.recvFrom arrival.bytes
  let p := { p with buf := buf, total := p.total + 1 }
  let isFromTarget := arrival.source == target
  if isFromTarget && !bidirectional then
    -- return traffic is not dropped
    (p, p.senderAddr.map fun addr => (addr, buf.bytes.take len))
  else
    let p := if isFromTarget then p else { p with senderAddr := some arrival.source }
    if arrival.lost then ({ p with dropped := p.dropped + 1 }, none)
    else
      let dest := if isFromTarget then p.senderAddr.getD listen else target
      (p, some (dest, buf.bytes.take len))

/-- One round of `run_lossy_proxy`, which never needs a default destination. -/
def runLossyProxy (target : SocketAddr) :
    Proxy → ProxyArrival → Proxy × Option (SocketAddr × Bytes) :=
  lossyProxyRound target target false

/-- The rounds of `run_lossy_proxy`: all that is sent, in order. -/
def runLossyProxyAll (target : SocketAddr) : Proxy → List ProxyArrival → List (SocketAddr × Bytes)
  | _, [] => []
  | p, arrival :: arrivals =>
      let (p, out) := runLossyProxy target p arrival
      out.toList ++ runLossyProxyAll target p arrivals

/-! ## Receiver -/

/-- The `HashMap` from `block_idx` to the shards of the block. -/
abbrev Blocks := UInt32 → Option (List (Option Bytes))

/-- The variables of the loop. `tracking` holds `expected_seq` and `loss_tracker`, which the loop
updates as `receive_loop` does. -/
structure Receiver where
  buf : Buf
  tracking : ReceiveLoop
  blocks : Blocks

def Receiver.start : Receiver :=
  ⟨Buf.zero, ReceiveLoop.start (LossTracker.new 1000), fun _ => none⟩

/-- `blocks.entry(block_idx).or_insert_with(..)`. -/
def Blocks.entry (config : FecConfig) (blocks : Blocks) (blockIdx : UInt32) :
    List (Option Bytes) :=
  (blocks blockIdx).getD (List.replicate config.totalShards none)

/-- A shard is put into its block, if the block has a place for it. -/
def Blocks.put (config : FecConfig) (blocks : Blocks) (blockIdx : UInt32) (shardIdx : Nat)
    (shard : Bytes) : Blocks :=
  let block := blocks.entry config blockIdx
  Function.update blocks blockIdx
    (some (if shardIdx < config.totalShards then block.set shardIdx (some shard) else block))

/-- One round of `run_receiver`, and whether the loop ends with it. -/
def receiverRound (aead : Aead) (crypto : TunnelCrypto) (config : FecConfig) (r : Receiver)
    (datagram : Bytes) : Except Panic (Receiver × Bool) :=
  let (len, buf) := r.buf.recvFrom datagram
  let r := { r with buf := buf }
  if len < headerSize then .ok (r, false)
  else
    let (packetType, seq, payloadLen) := decodeHeader buf.bytes
    let ctEnd := headerSize + payloadLen.toNat
    if ctEnd > len then .ok (r, false)
    else do
      let tracking ← r.tracking.trackGap seq
      let tracking ← tracking.record (.arrived seq)
      let r := { r with tracking := { tracking with expectedSeq := tracking.expectedSeq + 1 } }
      match crypto.decrypt aead seq ((buf.bytes.take ctEnd).drop headerSize) with
      | .error _ => return (r, false)
      | .ok plaintext =>
          if packetType = packetControl ∧ plaintext = termPayload then return (r, true)
          else if plaintext.length < 6 then return (r, false)
          else
            let blockIdx := UInt32.ofNat (ofBeBytes (plaintext.take 4))
            let shardIdx := ofBeBytes ((plaintext.drop 4).take 2)
            return ({ r with
              blocks := r.blocks.put config blockIdx shardIdx (plaintext.drop 6) }, false)

/-- The loop of `run_receiver`. The end of the list is the timeout. -/
def receiverLoop (aead : Aead) (crypto : TunnelCrypto) (config : FecConfig) :
    Receiver → List Bytes → Except Panic Receiver
  | r, [] => .ok r
  | r, datagram :: datagrams => do
      let (r, done) ← receiverRound aead crypto config r datagram
      if done then return r
      else receiverLoop aead crypto config r datagrams

structure BlockResult where
  success : Bool
  shardsLost : Nat
  deriving DecidableEq

/-- The result for a block, and its shards after reconstruction. -/
def blockResult (rs : ReedSolomon) (config : FecConfig) (block : List (Option Bytes)) :
    Except Panic (BlockResult × List (Option Bytes)) := do
  let shardsLost := block.countP Option.isNone
  let encoder ← FecEncoder.new rs config
  match encoder.reconstruct rs block with
  | .ok full => return (⟨true, shardsLost⟩, full)
  | .error _ => return (⟨false, shardsLost⟩, block)

/-- `run_receiver`: the results of the blocks `0..expected_blocks as u32`. -/
def runReceiver (rs : ReedSolomon) (aead : Aead) (crypto : TunnelCrypto) (config : FecConfig)
    (expectedBlocks : Nat) (datagrams : List Bytes) :
    Except Panic (List (BlockResult × List (Option Bytes))) := do
  let r ← receiverLoop aead crypto config Receiver.start datagrams
  (List.range (UInt32.ofNat expectedBlocks).toNat).mapM fun blockIdx =>
    blockResult rs config (r.blocks.entry config (UInt32.ofNat blockIdx))

/-! ## Summary -/

/-- What `main` counts. -/
structure Summary where
  recovered : Nat
  failed : Nat
  totalShardsLost : Nat
  deriving DecidableEq

def Summary.add (s : Summary) (result : BlockResult) : Summary :=
  let s := if result.success then { s with recovered := s.recovered + 1 }
    else { s with failed := s.failed + 1 }
  { s with totalShardsLost := s.totalShardsLost + result.shardsLost }

def summarize (results : List BlockResult) : Summary := results.foldl Summary.add ⟨0, 0, 0⟩

/-- The test announces that no block has been lost. -/
def Summary.zeroLoss (s : Summary) : Bool := s.failed = 0

end EntrouterLine.Harness
