import EntrouterLine.Edge.EdgeRead
import EntrouterLine.Relay.FecAtMostOnce

/-!
# Frames of edge payloads and the receive buffer

The receive loop reads every datagram into a buffer of `maxPacket` bytes. A frame carries the wire
header, the FEC shard header, a shard and the tag, and all shards of a block are as long as its
longest length-prefixed payload. So a block's frames arrive whole exactly if each of its payloads
is at most `payloadBudget` bytes long (`arrives_whole_iff_payloads`).

Relay payloads also carry their header with the destination's name, which `MAX_RELAY_DATA` and the
unsplit QUIC reads leave no room for: `edge_payloads_fit_iff` says which reads fit, and a full TCP
chunk to a node with a name of six bytes does not (`fullRead_is_cut`).
-/

set_option autoImplicit false

namespace EntrouterLine.Edge

open EntrouterLine.Lib
open EntrouterLine.Relay

variable {aead : Aead} {rs : ReedSolomon} {config : FecConfig}

/-- The longest payload whose shard, with its headers and tag, fits the receive buffer. -/
def payloadBudget : Nat := maxPacket - (headerSize + shardHeaderSize + 2 + authTagSize)

/-- The frame that the tunnel sends for a shard fits the receive buffer, and the receive loop passes
the shard on, whatever its buffer held before. -/
def ArrivesWhole (aead : Aead) (t : Tunnel) (shard : UInt8 × Bytes) : Prop :=
  (t.send aead shard.1 shard.2).1.length ≤ maxPacket ∧
    ∀ peers source peerId buf, peers source = some (peerId, t.crypto) →
      (handleDatagram aead peers buf source (t.send aead shard.1 shard.2).1).2 =
        .ok (peerId, ⟨shard.1, t.txSeq, shard.2, source⟩)

/-- The receive loop skips the frame of a shard as truncated. -/
def IsCut (aead : Aead) (t : Tunnel) (shard : UInt8 × Bytes) : Prop :=
  maxPacket < (t.send aead shard.1 shard.2).1.length ∧
    ∀ peers source buf,
      (handleDatagram aead peers buf source (t.send aead shard.1 shard.2).1).2 = .error .truncated

theorem length_send (htag : aead.TagLength) (t : Tunnel) (packetType : UInt8) (payload : Bytes) :
    (t.send aead packetType payload).1.length = headerSize + (payload.length + authTagSize) := by
  show (frameOf packetType t.txSeq (t.crypto.encrypt aead t.txSeq payload)).length = _
  rw [length_frameOf, TunnelCrypto.encrypt, htag]

/-- A shard arrives whole exactly if its frame is no longer than the buffer. -/
theorem arrivesWhole_iff (htag : aead.TagLength) (hopens : aead.Opens) (t : Tunnel)
    (shard : UInt8 × Bytes) :
    ArrivesWhole aead t shard ↔ headerSize + (shard.2.length + authTagSize) ≤ maxPacket := by
  constructor
  · rintro ⟨hfits, -⟩
    rwa [length_send htag] at hfits
  · intro hfits
    rw [← length_send htag t shard.1] at hfits
    refine ⟨hfits, ?_⟩
    intro peers source peerId buf hpeer
    rw [handleDatagram_eq_judge]
    exact judge_frame hopens hpeer shard.1 t.txSeq shard.2 hfits

/-- A frame that is longer, but that UDP can carry, is cut. -/
theorem isCut_of_long (htag : aead.TagLength) (t : Tunnel) {shard : UInt8 × Bytes}
    (hlong : maxPacket < headerSize + (shard.2.length + authTagSize))
    (hudp : headerSize + (shard.2.length + authTagSize) ≤ maxDatagram) : IsCut aead t shard := by
  rw [← length_send htag t shard.1] at hlong hudp
  refine ⟨hlong, ?_⟩
  intro peers source buf
  rw [handleDatagram_eq_judge]
  exact judge_frame_long shard.1 t.txSeq _ hlong hudp

/-! ## Blocks -/

/-- The shards of an emitted block are as long as its longest payload, its prefix and its header. -/
theorem length_of_mem_emitted (hlaw : Lawful rs config) {l : FecLink} {ps : List Bytes}
    (hinv : SenderInv rs config ps l) {block : EmittedBlock} (hblock : block ∈ l.emitted)
    {shard : UInt8 × Bytes} (hshard : shard ∈ block.shards) :
    shard.2.length = shardHeaderSize + maxLen (block.payloads.map lengthPrefixed) := by
  obtain ⟨n, hn⟩ := List.mem_iff_getElem?.mp hblock
  obtain ⟨hflush, shards, hencodes, hshards⟩ := hinv.emittedAs n block hn
  rw [hshards] at hshard
  obtain ⟨i, hi, rfl⟩ := List.mem_mapIdx.mp hshard
  rw [length_frameShard, length_of_mem_encodes hlaw hflush hencodes (List.getElem_mem hi)]

theorem exists_mem_shards (hlaw : Lawful rs config) {l : FecLink} {ps : List Bytes}
    (hinv : SenderInv rs config ps l) {block : EmittedBlock} (hblock : block ∈ l.emitted) :
    ∃ shard, shard ∈ block.shards := by
  obtain ⟨n, hn⟩ := List.mem_iff_getElem?.mp hblock
  obtain ⟨hflush, shards, hencodes, hshards⟩ := hinv.emittedAs n block hn
  have hcount := (encodes_spec hlaw hflush hencodes).1
  have hpos : 0 < block.shards.length := by
    rw [hshards, List.length_mapIdx, hcount]
    exact Nat.lt_of_lt_of_le hlaw.accepted.1 (Nat.le_add_right _ _)
  exact ⟨block.shards[0], List.getElem_mem hpos⟩

/-- The frames of a block arrive whole exactly if no payload in it is over the budget. -/
theorem arrives_whole_iff_payloads (hlaw : Lawful rs config) (htag : aead.TagLength)
    (hopens : aead.Opens) {l : FecLink} {ps : List Bytes} (hinv : SenderInv rs config ps l)
    {block : EmittedBlock} (hblock : block ∈ l.emitted) (t : Tunnel) :
    (∀ shard ∈ block.shards, ArrivesWhole aead t shard) ↔
      ∀ payload ∈ block.payloads, payload.length ≤ payloadBudget := by
  obtain ⟨n, hn⟩ := List.mem_iff_getElem?.mp hblock
  have hne : block.payloads.map lengthPrefixed ≠ [] := by
    simpa using (hinv.emittedAs n block hn).1.nonempty
  have hbudget : (∀ payload ∈ block.payloads, payload.length ≤ payloadBudget) ↔
      maxLen (block.payloads.map lengthPrefixed) ≤ 2 + payloadBudget := by
    rw [maxLen_le_iff hne, List.forall_mem_map]
    simp only [length_lengthPrefixed, Nat.add_le_add_iff_left]
  -- one shard stands for all: they have one length
  have hone : ∀ shard ∈ block.shards, ArrivesWhole aead t shard ↔
      maxLen (block.payloads.map lengthPrefixed) ≤ 2 + payloadBudget := by
    intro shard hshard
    rw [arrivesWhole_iff htag hopens, length_of_mem_emitted hlaw hinv hblock hshard]
    simp only [payloadBudget, maxPacket, headerSize, maxPayload, authTagSize, shardHeaderSize]
    omega
  rw [hbudget]
  constructor
  · intro hall
    obtain ⟨shard, hshard⟩ := exists_mem_shards hlaw hinv hblock
    exact (hone shard hshard).mp (hall shard hshard)
  · intro hle shard hshard
    exact (hone shard hshard).mpr hle

/-- One payload over the budget has every frame of its block skipped. -/
theorem block_is_cut (hlaw : Lawful rs config) (htag : aead.TagLength) {l : FecLink}
    {ps : List Bytes} (hinv : SenderInv rs config ps l) {block : EmittedBlock}
    (hblock : block ∈ l.emitted) {payload : Bytes} (hin : payload ∈ block.payloads)
    (hlong : payloadBudget < payload.length)
    (hudp : ∀ payload ∈ block.payloads, payload.length ≤ 2 * readBufSize) (t : Tunnel) :
    ∀ shard ∈ block.shards, IsCut aead t shard := by
  intro shard hshard
  have hlen := length_of_mem_emitted hlaw hinv hblock hshard
  have hlow := length_le_maxLen (List.mem_map_of_mem (f := lengthPrefixed) hin)
  have hhigh : maxLen (block.payloads.map lengthPrefixed) ≤ 2 + 2 * readBufSize := by
    rw [maxLen_le_iff (List.ne_nil_of_mem (List.mem_map_of_mem hin)), List.forall_mem_map]
    intro p hp
    rw [length_lengthPrefixed]
    exact Nat.add_le_add_left (hudp p hp) 2
  rw [length_lengthPrefixed] at hlow
  simp only [payloadBudget, maxPacket, headerSize, maxPayload, authTagSize, shardHeaderSize,
    readBufSize] at hlen hlong hhigh
  apply isCut_of_long htag t
  · rw [hlen]
    simp only [maxPacket, headerSize, maxPayload, authTagSize]
    omega
  · rw [hlen]
    simp only [maxDatagram, headerSize, authTagSize]
    omega

/-! ## Reads -/

/-- The longest payload of the read, header included, is within the budget. -/
def EdgeRead.WithinBudget (r : EdgeRead) : Prop :=
  5 + (nodeBytes r.destNode).length + r.edge.pieceSize r.data ≤ payloadBudget

instance (r : EdgeRead) : Decidable r.WithinBudget := inferInstanceAs (Decidable (_ ≤ _))

/-- The payloads submitted by the events are payloads of the reads, in any mix and order. -/
def Carries (es : List LinkEvent) (reads : List EdgeRead) : Prop :=
  ∀ payload ∈ submitted es, ∃ r ∈ reads, payload ∈ r.payloads

/-- Every run of a link that carries the reads emits only frames that arrive whole. -/
def AlwaysArriveWhole (aead : Aead) (rs : ReedSolomon) (config : FecConfig)
    (reads : List EdgeRead) : Prop :=
  ∀ es l os, Machine.run (linkStep rs) (FecLink.start config) es = .ok (l, os) →
    Carries es reads → ∀ block ∈ l.emitted, ∀ shard ∈ block.shards, ∀ t, ArrivesWhole aead t shard

/-- One payload and a flush make a block that holds the payload. -/
theorem run_submit_flush (hlaw : Lawful rs config) (payload : Bytes) :
    ∃ l os, Machine.run (linkStep rs) (FecLink.start config) [.submit payload, .flushPartial] =
        .ok (l, os) ∧ ∃ block ∈ l.emitted, payload ∈ block.payloads := by
  obtain ⟨payloads, result, hsubmit, hinv, -⟩ :=
    (senderInv_start hlaw.accepted).send hlaw.encodable (Or.inl ⟨payload, rfl⟩)
  obtain ⟨l, hflush, hall⟩ := hinv.flushPartial hlaw.encodable
  refine ⟨l, _, Machine.run_cons_ok hsubmit (Machine.run_cons_ok hflush (Machine.run_nil l)), ?_⟩
  have hmem : payload ∈ (l.emitted.map EmittedBlock.payloads).flatten := by
    rw [hall]
    exact List.mem_singleton_self payload
  obtain ⟨payloads, hpayloads, hin⟩ := List.mem_flatten.mp hmem
  obtain ⟨block, hblock, rfl⟩ := List.mem_map.mp hpayloads
  exact ⟨block, hblock, hin⟩

/-- Whatever shares a block with what: the frames of all blocks arrive whole exactly if every read
leaves room for its header. -/
theorem edge_payloads_fit_iff (hlaw : Lawful rs config) (htag : aead.TagLength)
    (hopens : aead.Opens) {reads : List EdgeRead} (hreads : ∀ r ∈ reads, r.Legal) :
    AlwaysArriveWhole aead rs config reads ↔ ∀ r ∈ reads, r.WithinBudget := by
  constructor
  · intro halways r hr
    -- the read's longest payload, in a block of its own
    obtain ⟨payload, hpayload, hlen⟩ := EdgeRead.exists_longest_payload (hreads r hr)
    obtain ⟨l, os, hrun, block, hblock, hin⟩ := run_submit_flush hlaw payload
    have hcarries : Carries [.submit payload, .flushPartial] reads := by
      intro p hp
      rw [List.mem_singleton.mp hp]
      exact ⟨r, hr, hpayload⟩
    have hinv := senderInv_run hlaw.encodable hrun
    have hfits := (arrives_whole_iff_payloads hlaw htag hopens hinv hblock
      (Tunnel.new ⟨0, 0⟩ ⟨List.replicate keySize 0, List.length_replicate⟩)).mp fun shard hshard =>
        halways _ l os hrun hcarries block hblock shard hshard _
    rw [EdgeRead.WithinBudget, ← hlen]
    exact hfits payload hin
  · intro hbudget es l os hrun hcarries block hblock shard hshard t
    -- every payload of the block was submitted, so it is one of a read within the budget
    have hinv := senderInv_run hlaw.encodable hrun
    refine (arrives_whole_iff_payloads hlaw htag hopens hinv hblock t).mpr ?_ shard hshard
    intro payload hpayload
    obtain ⟨n, hn⟩ := List.mem_iff_getElem?.mp hblock
    obtain ⟨r, hr, hin⟩ := hcarries payload (hinv.mem_submitted hn payload hpayload)
    exact Nat.le_trans (EdgeRead.length_le_of_mem_payloads (hreads r hr) hin) (hbudget r hr)

/-- Three bytes that a TCP client sends to a node with a name of six. -/
def shortRead : EdgeRead := ⟨.tcp, 1, "sgp-01", [1, 2, 3]⟩

theorem edge_payloads_fit_iff_shortRead :
    AlwaysArriveWhole tagAead smallCodec replicaConfig [shortRead] ↔
      ∀ r ∈ [shortRead], r.WithinBudget := by
  apply edge_payloads_fit_iff lawful_replica tagAead_tagLength tagAead_opens
  intro r hr
  rw [List.mem_singleton.mp hr]
  exact ⟨by decide, by decide, by decide, by decide⟩

/-- A TCP client sends one full chunk to the same node. -/
def fullRead : EdgeRead := ⟨.tcp, 1, "sgp-01", List.replicate maxRelayData 0⟩

theorem legal_fullRead : fullRead.Legal where
  nonempty := by
    rw [fullRead, List.length_replicate]
    decide
  fits := by
    rw [fullRead, List.length_replicate]
    decide
  destNonempty := by decide
  destFits := by decide

/-- A legal read, on shard counts that the code accepts, fills a block whose every frame the
receive loop skips. -/
theorem fullRead_is_cut :
    fullRead.Legal ∧ Lawful smallCodec replicaConfig ∧ ∃ es l os,
      Machine.run (linkStep smallCodec) (FecLink.start replicaConfig) es = .ok (l, os) ∧
        Carries es [fullRead] ∧ ∃ block ∈ l.emitted, block.shards ≠ [] ∧
          ∀ shard ∈ block.shards, ∀ t, IsCut tagAead t shard := by
  refine ⟨legal_fullRead, lawful_replica, ?_⟩
  obtain ⟨payload, hpayload, hlen⟩ := EdgeRead.exists_longest_payload legal_fullRead
  have hpiece : fullRead.edge.pieceSize fullRead.data = maxRelayData := by
    show min (List.replicate maxRelayData (0 : UInt8)).length maxRelayData = maxRelayData
    rw [List.length_replicate, Nat.min_self]
  rw [hpiece] at hlen
  obtain ⟨l, os, hrun, block, hblock, hin⟩ := run_submit_flush lawful_replica payload
  have hinv := senderInv_run lawful_replica.encodable hrun
  obtain ⟨shard, hshard⟩ := exists_mem_shards lawful_replica hinv hblock
  refine ⟨_, l, os, hrun, ?_, block, hblock, List.ne_nil_of_mem hshard, ?_⟩
  · intro p hp
    rw [List.mem_singleton.mp hp]
    exact ⟨fullRead, List.mem_singleton_self _, hpayload⟩
  · intro shard hshard t
    apply block_is_cut lawful_replica tagAead_tagLength hinv hblock hin _ _ t shard hshard
    · rw [hlen]
      decide
    · -- the block holds nothing but this payload
      intro p hp
      obtain ⟨n, hn⟩ := List.mem_iff_getElem?.mp hblock
      rw [List.mem_singleton.mp (hinv.mem_submitted hn p hp), hlen]
      decide

end EntrouterLine.Edge
