import EntrouterLine.Relay.Fec

/-!
# The FEC codec

`FecSender` gathers payloads into blocks of `dataShards`, appends parity shards and frames every
shard with a 7-byte header. `FecReceiver` collects shards by their 16-bit block id, reconstructs a
block as soon as it holds `dataShards` of its shards, and removes it.

The header reads back (`decodeShardHeader_shardHeaderBytes`), and every data shard carries its
payload back to the receiver, in order (`filterMap_shardPayload_dataShardsOf`).
-/

set_option autoImplicit false

namespace EntrouterLine.Relay

open EntrouterLine.Lib.LittleEndian

/-- Size of the per-shard FEC header. -/
def shardHeaderSize : Nat := 7

/-- The seven header bytes. -/
def shardHeaderBytes (blockId : UInt16) (shardIdx dataShards parityShards : UInt8)
    (originalLen : UInt16) : Bytes :=
  toBytes 2 blockId.toNat ++ [shardIdx, dataShards, parityShards] ++ toBytes 2 originalLen.toNat

/-- `encode_shard_header`: the header overwrites the front of the buffer. -/
def encodeShardHeader (buf : Bytes) (blockId : UInt16) (shardIdx dataShards parityShards : UInt8)
    (originalLen : UInt16) : Bytes :=
  shardHeaderBytes blockId shardIdx dataShards parityShards originalLen ++ buf.drop shardHeaderSize

/-- `decode_shard_header`: block id, shard index, data shards, parity shards, original length. -/
def decodeShardHeader (buf : Bytes) : Option (UInt16 × UInt8 × UInt8 × UInt8 × UInt16) :=
  if buf.length < shardHeaderSize then none
  else
    some (UInt16.ofNat (ofBytes (buf.take 2)), buf.getD 2 0, buf.getD 3 0, buf.getD 4 0,
      UInt16.ofNat (ofBytes ((buf.drop 5).take 2)))

@[simp] theorem length_shardHeaderBytes (id : UInt16) (i d p : UInt8) (len : UInt16) :
    (shardHeaderBytes id i d p len).length = shardHeaderSize := by
  simp [shardHeaderBytes, shardHeaderSize]

/-- A shard header reads back as what was written, whatever follows it. -/
theorem decodeShardHeader_shardHeaderBytes (id : UInt16) (i d p : UInt8) (len : UInt16)
    (rest : Bytes) :
    decodeShardHeader (shardHeaderBytes id i d p len ++ rest) = some (id, i, d, p, len) := by
  have hlong : ¬ (shardHeaderBytes id i d p len ++ rest).length < shardHeaderSize := by
    rw [List.length_append, length_shardHeaderBytes]
    omega
  -- the two little-endian fields as two bytes each, so that every index computes
  obtain ⟨a, b, hid⟩ : ∃ a b, toBytes 2 id.toNat = [a, b] := ⟨_, _, rfl⟩
  obtain ⟨e, f, hlen⟩ : ∃ e f, toBytes 2 len.toNat = [e, f] := ⟨_, _, rfl⟩
  have hidBack := ofBytes_toBytes_uint16 id
  have hlenBack := ofBytes_toBytes_uint16 len
  rw [hid] at hidBack
  rw [hlen] at hlenBack
  rw [decodeShardHeader, if_neg hlong, shardHeaderBytes, hid, hlen]
  simp [hidBack, hlenBack]

/-! ## Sender -/

/-- Accumulates relay payloads into FEC blocks. -/
structure FecSender where
  config : FecConfig
  blockId : UInt16
  buffer : List Bytes
  payloadLens : List UInt16

def FecSender.new (config : FecConfig) : FecSender := ⟨config, 0, [], []⟩

/-- The payload behind its length as a `u16`. -/
def lengthPrefixed (payload : Bytes) : Bytes :=
  toBytes 2 (UInt16.ofNat payload.length).toNat ++ payload

/-- `Vec::resize` with zeros. -/
def resize (v : Bytes) (n : Nat) : Bytes := v.take n ++ List.replicate (n - v.length) 0

/-- The uniform shard size of a block: its longest prefixed payload. -/
def maxLen (shards : List Bytes) : Nat := ((shards.map List.length).max?).getD 2

/-- The data shards of a block: prefixed payloads, all padded to one length, and zero shards for the
slots a partial block leaves. -/
def dataShardsOf (config : FecConfig) (buffer : List Bytes) : List Bytes :=
  let shards := buffer.map lengthPrefixed
  let len := maxLen shards
  let shards := shards.map fun shard => resize shard len
  shards ++ List.replicate (config.dataShards - shards.length) (List.replicate len 0)

/-- Packet type and framed bytes of the `i`-th shard of a block. -/
def frameShard (config : FecConfig) (blockId : UInt16) (i : Nat) (shard : Bytes) : UInt8 × Bytes :=
  let packetType := if i < config.dataShards then packetData else packetParity
  let originalLen :=
    if i < config.dataShards ∧ 2 ≤ shard.length then UInt16.ofNat (ofBytes (shard.take 2)) else 0
  let framed := List.replicate (shardHeaderSize + shard.length) (0 : UInt8)
  let framed := encodeShardHeader framed blockId (UInt8.ofNat i) (UInt8.ofNat config.dataShards)
    (UInt8.ofNat config.parityShards) originalLen
  (packetType, framed.take shardHeaderSize ++ shard)

/-- `FecSender::flush`: encodes the buffered payloads as the block with the current id. -/
def FecSender.flush (rs : ReedSolomon) (sender : FecSender) :
    Except Panic (FecSender × List (UInt8 × Bytes)) := do
  let blockId := sender.blockId
  let encoder ← FecEncoder.new rs sender.config
  let shards ← encoder.encode rs (dataShardsOf sender.config sender.buffer)
  return ({ sender with blockId := blockId + 1, buffer := [], payloadLens := [] },
    shards.mapIdx (frameShard sender.config blockId))

/-- `FecSender::submit`: the framed shards of a block, if this payload fills it. -/
def FecSender.submit (rs : ReedSolomon) (sender : FecSender) (payload : Bytes) :
    Except Panic (FecSender × Option (List (UInt8 × Bytes))) :=
  let sender := { sender with
    payloadLens := sender.payloadLens ++ [UInt16.ofNat payload.length]
    buffer := sender.buffer ++ [payload] }
  if sender.config.dataShards ≤ sender.buffer.length then do
    let (sender, shards) ← sender.flush rs
    return (sender, some shards)
  else .ok (sender, none)

/-- `FecSender::flush_partial`. -/
def FecSender.flushPartial (rs : ReedSolomon) (sender : FecSender) :
    Except Panic (FecSender × Option (List (UInt8 × Bytes))) :=
  if sender.buffer.isEmpty then .ok (sender, none)
  else do
    let (sender, shards) ← sender.flush rs
    return (sender, some shards)

/-- A framed shard is its header followed by the shard. -/
theorem frameShard_bytes (config : FecConfig) (blockId : UInt16) (i : Nat) (shard : Bytes) :
    ∃ originalLen, (frameShard config blockId i shard).2 =
      shardHeaderBytes blockId (UInt8.ofNat i) (UInt8.ofNat config.dataShards)
        (UInt8.ofNat config.parityShards) originalLen ++ shard := by
  rw [frameShard, encodeShardHeader]
  exact ⟨_, congrArg (· ++ shard) (List.take_left' (length_shardHeaderBytes _ _ _ _ _))⟩

theorem length_frameShard (config : FecConfig) (blockId : UInt16) (i : Nat) (shard : Bytes) :
    (frameShard config blockId i shard).2.length = shardHeaderSize + shard.length := by
  obtain ⟨originalLen, h⟩ := frameShard_bytes config blockId i shard
  rw [h, List.length_append, length_shardHeaderBytes]

theorem length_lengthPrefixed (payload : Bytes) :
    (lengthPrefixed payload).length = 2 + payload.length := by
  simp [lengthPrefixed]

theorem length_resize (v : Bytes) (n : Nat) : (resize v n).length = n := by
  rw [resize, List.length_append, List.length_take, List.length_replicate]
  omega

theorem resize_of_le {v : Bytes} {n : Nat} (h : v.length ≤ n) :
    resize v n = v ++ List.replicate (n - v.length) 0 := by
  rw [resize, List.take_of_length_le h]

/-- Every shard is at most as long as the uniform size. -/
theorem length_le_maxLen {shards : List Bytes} {shard : Bytes} (h : shard ∈ shards) :
    shard.length ≤ maxLen shards := by
  have hmem : shard.length ∈ shards.map List.length := List.mem_map_of_mem h
  rw [maxLen, List.max?_eq_some_max (List.ne_nil_of_mem hmem), Option.getD_some]
  exact List.le_max_of_mem hmem

/-- The uniform size of a block is the length of its longest prefixed payload. -/
theorem exists_length_eq_maxLen {shards : List Bytes} (h : shards ≠ []) :
    ∃ shard ∈ shards, shard.length = maxLen shards := by
  have hne : shards.map List.length ≠ [] := by simpa using h
  have hmem := List.max_mem hne
  obtain ⟨shard, hshard, hlen⟩ := List.mem_map.mp hmem
  refine ⟨shard, hshard, ?_⟩
  rw [hlen, maxLen, List.max?_eq_some_max hne, Option.getD_some]

theorem maxLen_le_iff {shards : List Bytes} (h : shards ≠ []) {n : Nat} :
    maxLen shards ≤ n ↔ ∀ shard ∈ shards, shard.length ≤ n := by
  constructor
  · intro hle shard hshard
    exact Nat.le_trans (length_le_maxLen hshard) hle
  · intro hall
    obtain ⟨shard, hshard, hlen⟩ := exists_length_eq_maxLen h
    rw [← hlen]
    exact hall shard hshard

theorem length_dataShardsOf (config : FecConfig) {buffer : List Bytes}
    (h : buffer.length ≤ config.dataShards) :
    (dataShardsOf config buffer).length = config.dataShards := by
  simp only [dataShardsOf, List.length_append, List.length_map, List.length_replicate]
  omega

/-- All data shards of a block have the uniform size. -/
theorem length_of_mem_dataShardsOf {config : FecConfig} {buffer : List Bytes} {shard : Bytes}
    (h : shard ∈ dataShardsOf config buffer) :
    shard.length = maxLen (buffer.map lengthPrefixed) := by
  simp only [dataShardsOf, List.mem_append, List.mem_map, List.mem_replicate] at h
  rcases h with ⟨v, -, rfl⟩ | ⟨-, rfl⟩
  · exact length_resize _ _
  · exact List.length_replicate

/-! ## Receiver -/

/-- A partially received block. Times are nanoseconds. -/
structure PendingBlock where
  dataShards : Nat
  parityShards : Nat
  shards : List (Option Bytes)
  received : Nat
  createdAt : Nat

def PendingBlock.new (now : Nat) (dataShards parityShards : UInt8) : PendingBlock :=
  let total := dataShards.toNat + parityShards.toNat
  ⟨dataShards.toNat, parityShards.toNat, List.replicate total none, 0, now⟩

/-- `PendingBlock::insert`: an index out of range and a shard already present are ignored. Returns
whether the block can be reconstructed. -/
def PendingBlock.insert (block : PendingBlock) (shardIdx : UInt8) (shardData : Bytes) :
    Except Panic (PendingBlock × Bool) :=
  let idx := shardIdx.toNat
  let total := block.dataShards + block.parityShards
  if total ≤ idx then .ok (block, decide (block.dataShards ≤ block.received))
  else
    match block.shards[idx]? with
    | none => .error .indexOutOfBounds
    -- a duplicate keeps the shard that came first
    | some (some _) => .ok (block, decide (block.dataShards ≤ block.received))
    | some none =>
        let block := { block with
          shards := block.shards.set idx (some shardData)
          received := block.received + 1 }
        .ok (block, decide (block.dataShards ≤ block.received))

/-- The payload in a data shard: none in a padding shard or a corrupted one. -/
def shardPayload (shard : Bytes) : Option Bytes :=
  if shard.length < 2 then none
  else
    let len := (UInt16.ofNat (ofBytes (shard.take 2))).toNat
    -- a slot that a partial block leaves is all zeros
    if len = 0 then none
    else if 2 + len > shard.length then none
    else some ((shard.drop 2).take len)

/-- One round of the loop that collects payloads. -/
def collectPayload (shards : List (Option Bytes)) (payloads : List Bytes) (i : Nat) :
    Except Panic (List Bytes) :=
  match shards[i]? with
  | none => .error .indexOutOfBounds
  | some none => .ok payloads
  | some (some shard) => .ok (payloads ++ (shardPayload shard).toList)

/-- The payloads of the first `dataShards` shards, in order. -/
def collectPayloads (shards : List (Option Bytes)) (dataShards : Nat) :
    Except Panic (List Bytes) :=
  (List.range dataShards).foldlM (collectPayload shards) []

/-- `PendingBlock::reconstruct`. -/
def PendingBlock.reconstruct (rs : ReedSolomon) (block : PendingBlock) :
    Except Panic (Option (List Bytes)) :=
  if block.received < block.dataShards then .ok none
  else do
    let encoder ← FecEncoder.new rs ⟨block.dataShards, block.parityShards⟩
    match encoder.reconstruct rs block.shards with
    | .ok shards =>
        let payloads ← collectPayloads shards block.dataShards
        return some payloads
    | .error _ => return none

/-- The pending blocks by their id. -/
structure FecReceiver where
  blocks : UInt16 → Option PendingBlock

def FecReceiver.new : FecReceiver := ⟨fun _ => none⟩

/-- The map with the block of one id inserted or removed. -/
def FecReceiver.setBlock (receiver : FecReceiver) (blockId : UInt16) (block : Option PendingBlock) :
    FecReceiver :=
  ⟨Function.update receiver.blocks blockId block⟩

@[simp] theorem setBlock_self (receiver : FecReceiver) (blockId : UInt16)
    (block : Option PendingBlock) : (receiver.setBlock blockId block).blocks blockId = block := by
  simp [FecReceiver.setBlock]

theorem setBlock_of_ne (receiver : FecReceiver) {blockId id : UInt16} (h : id ≠ blockId)
    (block : Option PendingBlock) :
    (receiver.setBlock blockId block).blocks id = receiver.blocks id :=
  Function.update_of_ne h _ _

/-- A block in the map after the change is the new one, or was there before. -/
theorem setBlock_cases {receiver : FecReceiver} {blockId id : UInt16} {entry : Option PendingBlock}
    {block : PendingBlock} (h : (receiver.setBlock blockId entry).blocks id = some block) :
    id = blockId ∧ entry = some block ∨ receiver.blocks id = some block := by
  rcases eq_or_ne id blockId with rfl | hne
  · rw [setBlock_self] at h
    exact Or.inl ⟨rfl, h⟩
  · rw [setBlock_of_ne receiver hne] at h
    exact Or.inr h

/-- The block that `entry(..).or_insert_with(..)` finds or makes. -/
def FecReceiver.entry (receiver : FecReceiver) (now : Nat) (blockId : UInt16)
    (dataShards parityShards : UInt8) : PendingBlock :=
  (receiver.blocks blockId).getD (PendingBlock.new now dataShards parityShards)

/-- `FecReceiver::receive_shard`: the payloads of the block, if this shard completes it. -/
def FecReceiver.receiveShard (rs : ReedSolomon) (receiver : FecReceiver) (now : Nat)
    (payload : Bytes) : Except Panic (FecReceiver × Option (List Bytes)) :=
  match decodeShardHeader payload with
  | none => .ok (receiver, none)
  | some (blockId, shardIdx, dataShards, parityShards, _) => do
      let shardData := payload.drop shardHeaderSize
      let block := receiver.entry now blockId dataShards parityShards
      let (block, canReconstruct) ← block.insert shardIdx shardData
      if canReconstruct then
        -- the entry is gone, whether or not the reconstruction succeeds
        let payloads ← block.reconstruct rs
        return (receiver.setBlock blockId none, payloads)
      else return (receiver.setBlock blockId (some block), none)

/-- Age in milliseconds; `duration_since` saturates at zero. -/
def PendingBlock.ageMs (block : PendingBlock) (now : Nat) : Nat :=
  (now - block.createdAt) / 1000000

/-- `FecReceiver::expire_old`. -/
def FecReceiver.expireOld (receiver : FecReceiver) (now maxAgeMs : Nat) : FecReceiver :=
  ⟨fun blockId => (receiver.blocks blockId).filter fun block => block.ageMs now < maxAgeMs⟩

/-! ## Payloads of a block -/

/-- The shard of a payload gives the payload back, whatever padding follows. -/
theorem shardPayload_resize {payload : Bytes} {n : Nat} (hpos : 0 < payload.length)
    (hlt : payload.length < 2 ^ 16) (hn : (lengthPrefixed payload).length ≤ n) :
    shardPayload (resize (lengthPrefixed payload) n) = some payload := by
  have hlen : (UInt16.ofNat payload.length).toNat = payload.length := by
    rw [UInt16.toNat_ofNat', Nat.mod_eq_of_lt hlt]
  rw [length_lengthPrefixed] at hn
  have hshort : ¬ (resize (lengthPrefixed payload) n).length < 2 := by
    rw [length_resize]
    omega
  have hsplit : resize (lengthPrefixed payload) n = toBytes 2 payload.length ++
      (payload ++ List.replicate (n - (2 + payload.length)) 0) := by
    rw [resize_of_le (by rwa [length_lengthPrefixed]), length_lengthPrefixed, lengthPrefixed, hlen,
      List.append_assoc]
  have hpre : (UInt16.ofNat (ofBytes ((resize (lengthPrefixed payload) n).take 2))).toNat =
      payload.length := by
    rw [hsplit, List.take_left' (length_toBytes _ _), ofBytes_toBytes_of_lt hlt, hlen]
  rw [shardPayload, if_neg hshort]
  simp only [hpre, length_resize]
  rw [if_neg (by omega), if_neg (by omega), hsplit, List.drop_left' (length_toBytes _ _),
    List.take_left]

/-- A padding shard has no payload. -/
theorem shardPayload_replicate (n : Nat) : shardPayload (List.replicate n 0) = none := by
  rw [shardPayload]
  by_cases hshort : (List.replicate n (0 : UInt8)).length < 2
  · rw [if_pos hshort]
  · rw [if_neg hshort]
    rw [List.length_replicate] at hshort
    have htake : (List.replicate n (0 : UInt8)).take 2 = [0, 0] := by
      rw [List.take_replicate, Nat.min_eq_left (by omega)]
      rfl
    simp only [htake]
    exact if_pos rfl

/-- Every payload of a block comes back from its data shards, in order, and nothing else does. -/
theorem filterMap_shardPayload_dataShardsOf (config : FecConfig) {buffer : List Bytes}
    (hbuffer : ∀ payload ∈ buffer, 0 < payload.length ∧ payload.length < 2 ^ 16) :
    (dataShardsOf config buffer).filterMap shardPayload = buffer := by
  have hpad : ∀ m n, (List.replicate m (List.replicate n (0 : UInt8))).filterMap shardPayload =
      [] := by
    intro m n
    rw [List.filterMap_eq_nil_iff]
    intro shard hshard
    rw [(List.mem_replicate.mp hshard).2, shardPayload_replicate]
  -- each payload was padded to a length that its prefixed form does not exceed
  have hall : ∀ payload ∈ buffer, shardPayload (resize (lengthPrefixed payload)
      (maxLen (buffer.map lengthPrefixed))) = some payload := by
    intro payload hmem
    obtain ⟨hpos, hlt⟩ := hbuffer payload hmem
    exact shardPayload_resize hpos hlt (length_le_maxLen (List.mem_map_of_mem hmem))
  simp only [dataShardsOf, List.filterMap_append, hpad, List.append_nil, List.map_map,
    List.filterMap_map]
  calc buffer.filterMap _ = buffer.filterMap some := List.filterMap_congr hall
    _ = buffer := List.filterMap_some

/-- When every index is in range, the loop collects the payloads of the shards present. -/
theorem collectPayloads_eq {shards : List (Option Bytes)} {dataShards : Nat}
    (h : dataShards ≤ shards.length) :
    collectPayloads shards dataShards =
      .ok ((shards.take dataShards).filterMap fun shard => shard.bind shardPayload) := by
  induction dataShards with
  | zero => rfl
  | succ n ih =>
    have hn : n < shards.length := h
    have hpre := ih (Nat.le_of_lt hn)
    have hlast : ∀ payloads, collectPayload shards payloads n =
        .ok (payloads ++ ((shards[n]).bind shardPayload).toList) := by
      intro payloads
      rw [collectPayload, List.getElem?_eq_getElem hn]
      cases shards[n] with
      | none => simp
      | some shard => rfl
    have hone : [shards[n]].filterMap (fun shard => shard.bind shardPayload) =
        ((shards[n]).bind shardPayload).toList := by
      rw [List.filterMap_cons]
      cases (shards[n]).bind shardPayload <;> rfl
    rw [collectPayloads] at hpre
    rw [collectPayloads, List.range_succ, List.foldlM_append, hpre,
      List.take_succ_eq_append_getElem hn, List.filterMap_append, hone]
    simp only [bind, Except.bind, List.foldlM_cons, List.foldlM_nil, hlast]
    rfl

end EntrouterLine.Relay
