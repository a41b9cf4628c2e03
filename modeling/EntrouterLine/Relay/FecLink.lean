import EntrouterLine.Lib.Machine
import EntrouterLine.Relay.FecBlock

/-!
# A FEC link

One `FecSender` and the `FecReceiver` of its peer. The emitted blocks are recorded in order, and an
event `deliver now n i` hands the `i`-th shard of the `n`-th emitted block to the receiver: the
network may lose, delay, reorder and repeat shards. `opened` records for every id the number of the
block whose shard made the receiver's entry.

`SenderInv` is what every run keeps at the sender: the blocks emitted so far are the encoded blocks
of consecutive payloads, under consecutive ids, and what is not in a block yet is in the buffer.
-/

set_option autoImplicit false

namespace EntrouterLine.Relay

open EntrouterLine.Lib

/-- The payloads of an emitted block, and its framed shards with their packet types. -/
structure EmittedBlock where
  payloads : List Bytes
  shards : List (UInt8 × Bytes)

structure FecLink where
  sender : FecSender
  emitted : List EmittedBlock
  receiver : FecReceiver
  opened : UInt16 → Nat

inductive LinkEvent where
  | submit (payload : Bytes)
  | flushPartial
  | deliver (now n i : Nat)
  | expire (now maxAgeMs : Nat)
  deriving DecidableEq

def FecLink.start (config : FecConfig) : FecLink :=
  ⟨FecSender.new config, [], FecReceiver.new, fun _ => 0⟩

/-- The sender has moved on; `out` are the shards it emitted for these payloads, if any. -/
def FecLink.sent (l : FecLink) (payloads : List Bytes)
    (result : FecSender × Option (List (UInt8 × Bytes))) : FecLink :=
  { l with
    sender := result.1
    emitted := l.emitted ++ result.2.toList.map (EmittedBlock.mk payloads) }

/-- The framed bytes of the `i`-th shard of the `n`-th emitted block. -/
def FecLink.shard? (l : FecLink) (n i : Nat) : Option Bytes :=
  l.emitted[n]?.bind fun block => block.shards[i]?.map Prod.snd

/-- The block whose shard made the entry of each id, once a shard of block `n` has arrived. -/
def FecLink.openedBy (l : FecLink) (n : Nat) : UInt16 → Nat :=
  if l.receiver.blocks (UInt16.ofNat n) = none then Function.update l.opened (UInt16.ofNat n) n
  else l.opened

/-- The entry of the shard's id belongs to its block, if it did before or is new. -/
theorem openedBy_self {l : FecLink} {n : Nat}
    (h : l.receiver.blocks (UInt16.ofNat n) ≠ none → l.opened (UInt16.ofNat n) = n) :
    l.openedBy n (UInt16.ofNat n) = n := by
  rw [FecLink.openedBy]
  split
  case isTrue => rw [Function.update_self]
  case isFalse hsome => exact h hsome

theorem openedBy_of_ne (l : FecLink) {n : Nat} {id : UInt16} (h : id ≠ UInt16.ofNat n) :
    l.openedBy n id = l.opened id := by
  rw [FecLink.openedBy]
  split
  case isTrue => rw [Function.update_of_ne h]
  case isFalse => rfl

/-- One step of the link. The output of a `deliver` event is what `receiveShard` returns. -/
def linkStep (rs : ReedSolomon) (l : FecLink) :
    LinkEvent → Except Panic (FecLink × Option (List Bytes))
  | .submit payload => do
      let result ← l.sender.submit rs payload
      return (l.sent (l.sender.buffer ++ [payload]) result, none)
  | .flushPartial => do
      let result ← l.sender.flushPartial rs
      return (l.sent l.sender.buffer result, none)
  | .deliver now n i =>
      match l.shard? n i with
      | none => .ok (l, none)
      | some bytes => do
          let (receiver, out) ← l.receiver.receiveShard rs now bytes
          return ({ l with receiver := receiver, opened := l.openedBy n }, out)
  | .expire now maxAgeMs => .ok ({ l with receiver := l.receiver.expireOld now maxAgeMs }, none)

/-- The payloads submitted by a list of events, in order. -/
def submitted (es : List LinkEvent) : List Bytes :=
  es.filterMap fun
    | .submit payload => some payload
    | _ => none

/-- The shard indices of block `n` that a list of events delivers, in order. -/
def arrivals (n : Nat) (es : List LinkEvent) : List Nat :=
  es.filterMap fun
    | .deliver _ n' i => if n' = n then some i else none
    | _ => none

theorem submitted_snoc (es : List LinkEvent) (e : LinkEvent) :
    submitted (es ++ [e]) = submitted es ++ submitted [e] :=
  List.filterMap_append ..

theorem arrivals_snoc (n : Nat) (es : List LinkEvent) (e : LinkEvent) :
    arrivals n (es ++ [e]) = arrivals n es ++ arrivals n [e] :=
  List.filterMap_append ..

/-! ## The sender -/

section Sender

variable {rs : ReedSolomon} {config : FecConfig}

/-- The event makes the sender emit a block. -/
def LinkEvent.Emits (l : FecLink) : LinkEvent → Prop
  | .submit _ => l.sender.config.dataShards ≤ l.sender.buffer.length + 1
  | .flushPartial => l.sender.buffer ≠ []
  | _ => False

instance (l : FecLink) (e : LinkEvent) : Decidable (e.Emits l) :=
  match e with
  | .submit _ => inferInstanceAs (Decidable (_ ≤ _))
  | .flushPartial => inferInstanceAs (Decidable (_ ≠ _))
  | .deliver _ _ _ => isFalse id
  | .expire _ _ => isFalse id

/-- Block `n` is the encoded block of its payloads, framed under id `n`. -/
def EmittedAs (rs : ReedSolomon) (config : FecConfig) (n : Nat) (block : EmittedBlock) : Prop :=
  Flushable config block.payloads ∧ ∃ shards, Encodes rs config block.payloads shards ∧
    block.shards = shards.mapIdx (frameShard config (UInt16.ofNat n))

/-- After the payloads `ps` have been submitted: the emitted blocks and the buffer divide them up in
order, and every block is encoded and numbered as it should be. -/
structure SenderInv (rs : ReedSolomon) (config : FecConfig) (ps : List Bytes) (l : FecLink) :
    Prop where
  config_eq : l.sender.config = config
  room : l.sender.buffer.length < config.dataShards
  blockId_eq : l.sender.blockId = UInt16.ofNat l.emitted.length
  emittedAs : ∀ n block, l.emitted[n]? = some block → EmittedAs rs config n block
  order : (l.emitted.map EmittedBlock.payloads).flatten ++ l.sender.buffer = ps

theorem senderInv_start (hconfig : config.Accepted) :
    SenderInv rs config [] (FecLink.start config) where
  config_eq := rfl
  room := hconfig.1
  blockId_eq := rfl
  emittedAs := by
    intro n block h
    cases h
  order := rfl

/-- Flushing a nonempty buffer appends the block of the buffered payloads. -/
theorem SenderInv.flush {l : FecLink} {ps qs : List Bytes} (hinv : SenderInv rs config ps l)
    (henc : Encodable rs config) {sender : FecSender}
    (hsender : sender.config = config) (hid : sender.blockId = l.sender.blockId)
    (hbuffer : sender.buffer = l.sender.buffer ++ qs) (hflush : Flushable config sender.buffer) :
    ∃ sender' shards, sender.flush rs = .ok (sender', shards) ∧
      SenderInv rs config (ps ++ qs) (l.sent sender.buffer (sender', some shards)) := by
  subst hsender
  rw [hinv.blockId_eq] at hid
  obtain ⟨block, hencodes, hok⟩ := flush_eq henc hflush
  refine ⟨_, _, hok, ⟨rfl, henc.accepted.1, ?_, ?_, ?_⟩⟩
  · show sender.blockId + 1 = UInt16.ofNat (l.emitted ++ [_]).length
    rw [hid, List.length_append, List.length_singleton, UInt16.ofNat_add]
    rfl
  · intro n b hb
    change (l.emitted ++ [_])[n]? = some b at hb
    rcases Nat.lt_trichotomy n l.emitted.length with hlt | heq | hgt
    · rw [List.getElem?_append_left hlt] at hb
      exact hinv.emittedAs n b hb
    · -- the new block, framed under the id that the sender has counted to
      subst heq
      rw [List.getElem?_concat_length, Option.some.injEq] at hb
      subst hb
      exact ⟨hflush, block, hencodes, by rw [hid]⟩
    · rw [List.getElem?_eq_none (by simpa using hgt)] at hb
      cases hb
  · show ((l.emitted ++ [_]).map EmittedBlock.payloads).flatten ++ [] = ps ++ qs
    rw [List.map_append, List.flatten_append, List.append_nil, ← hinv.order, List.append_assoc,
      ← hbuffer]
    simp

/-- The sender with one more payload in its buffer. -/
def FecSender.push (sender : FecSender) (payload : Bytes) : FecSender :=
  { sender with
    payloadLens := sender.payloadLens ++ [UInt16.ofNat payload.length]
    buffer := sender.buffer ++ [payload] }

theorem submit_eq (sender : FecSender) (payload : Bytes) :
    sender.submit rs payload =
      if sender.config.dataShards ≤ (sender.push payload).buffer.length then
        ((sender.push payload).flush rs).map fun result => (result.1, some result.2)
      else .ok (sender.push payload, none) := by
  unfold FecSender.submit
  show (if _ then _ else _) = _
  refine if_congr Iff.rfl ?_ rfl
  show (do let result ← (sender.push payload).flush rs; _) = _
  cases (sender.push payload).flush rs <;> rfl

theorem flushPartial_eq (sender : FecSender) :
    sender.flushPartial rs =
      if sender.buffer = [] then .ok (sender, none)
      else (sender.flush rs).map fun result => (result.1, some result.2) := by
  unfold FecSender.flushPartial
  apply if_congr List.isEmpty_iff rfl
  cases sender.flush rs <;> rfl

/-- Emitting nothing keeps the blocks. -/
theorem SenderInv.keep {l : FecLink} {ps qs : List Bytes} (hinv : SenderInv rs config ps l)
    {sender : FecSender} (hconfig : sender.config = config)
    (hid : sender.blockId = l.sender.blockId) (hbuffer : sender.buffer = l.sender.buffer ++ qs)
    (hroom : sender.buffer.length < config.dataShards)
    (payloads : List Bytes) : SenderInv rs config (ps ++ qs) (l.sent payloads (sender, none)) where
  config_eq := hconfig
  room := hroom
  blockId_eq := by
    show sender.blockId = UInt16.ofNat (l.emitted ++ []).length
    rw [hid, hinv.blockId_eq, List.append_nil]
  emittedAs := by
    show ∀ n block, (l.emitted ++ [])[n]? = some block → _
    rw [List.append_nil]
    exact hinv.emittedAs
  order := by
    show ((l.emitted ++ []).map EmittedBlock.payloads).flatten ++ sender.buffer = _
    rw [List.append_nil, hbuffer, ← List.append_assoc, hinv.order]

/-- A sender event succeeds, keeps the invariant, and touches neither the receiver nor the blocks
already emitted. -/
theorem SenderInv.send {l : FecLink} {ps : List Bytes} (hinv : SenderInv rs config ps l)
    (henc : Encodable rs config) {e : LinkEvent}
    (he : (∃ payload, e = .submit payload) ∨ e = .flushPartial) :
    ∃ payloads result, linkStep rs l e = .ok (l.sent payloads result, none) ∧
      SenderInv rs config (ps ++ submitted [e]) (l.sent payloads result) ∧
      (result.2.isSome → e.Emits l) := by
  rcases he with ⟨payload, rfl⟩ | rfl
  · have hpush : (l.sender.push payload).config = config := hinv.config_eq
    have hid : (l.sender.push payload).blockId = l.sender.blockId := rfl
    have hbuffer : (l.sender.push payload).buffer = l.sender.buffer ++ [payload] := rfl
    rcases Nat.lt_or_ge (l.sender.push payload).buffer.length config.dataShards with hlt | hfull
    · -- the payload stays in the buffer
      refine ⟨l.sender.buffer ++ [payload], (l.sender.push payload, none), ?_,
        hinv.keep hpush hid hbuffer hlt _, fun h => by cases h⟩
      rw [← hinv.config_eq] at hlt
      simp only [linkStep, submit_eq, if_neg (Nat.not_le_of_lt hlt)]
      rfl
    · -- the payload completes the block
      have hroom := hinv.room
      have hlen : (l.sender.push payload).buffer.length = l.sender.buffer.length + 1 :=
        List.length_append
      have hflush : Flushable config (l.sender.push payload).buffer := by
        refine ⟨List.append_ne_nil_of_right_ne_nil _ (List.cons_ne_nil _ _), ?_⟩
        rw [hlen]
        exact hroom
      obtain ⟨sender', shards, hok, hinv'⟩ := hinv.flush henc hpush hid hbuffer
        hflush
      refine ⟨_, (sender', some shards), ?_, hinv', fun _ => ?_⟩
      · rw [← hinv.config_eq] at hfull
        simp only [linkStep, submit_eq, if_pos hfull, hok]
        rfl
      · show l.sender.config.dataShards ≤ l.sender.buffer.length + 1
        rw [hinv.config_eq, ← hlen]
        exact hfull
  · by_cases hempty : l.sender.buffer = []
    · -- there is nothing to flush
      refine ⟨[], (l.sender, none), ?_, hinv.keep hinv.config_eq rfl (List.append_nil _).symm
        hinv.room _, fun h => by cases h⟩
      simp only [linkStep, flushPartial_eq, hempty]
      rfl
    · have hflush : Flushable config l.sender.buffer := ⟨hempty, Nat.le_of_lt hinv.room⟩
      obtain ⟨sender', shards, hok, hinv'⟩ := hinv.flush henc hinv.config_eq
        rfl (List.append_nil _).symm hflush
      refine ⟨l.sender.buffer, (sender', some shards), ?_, ?_, fun _ => hempty⟩
      · simp only [linkStep, flushPartial_eq, if_neg hempty, hok]
        rfl
      · exact hinv'

/-- What a sender event leaves as it was. -/
theorem emitted_sent (l : FecLink) (payloads : List Bytes)
    (result : FecSender × Option (List (UInt8 × Bytes))) :
    ∃ new, (l.sent payloads result).emitted = l.emitted ++ new ∧
      new.length = if result.2.isSome then 1 else 0 := by
  refine ⟨_, rfl, ?_⟩
  cases result.2 <;> rfl

/-- What a sender event does, if it succeeds. -/
theorem linkStep_send_inv {l l' : FecLink} {e : LinkEvent}
    (he : (∃ payload, e = .submit payload) ∨ e = .flushPartial) {out : Option (List Bytes)}
    (hstep : linkStep rs l e = .ok (l', out)) :
    ∃ result, l' = l.sent (l.sender.buffer ++ submitted [e]) result ∧ out = none := by
  rcases he with ⟨payload, rfl⟩ | rfl
  · cases hsubmit : l.sender.submit rs payload with
    | error p =>
      rw [linkStep, hsubmit] at hstep
      cases hstep
    | ok result =>
      rw [linkStep, hsubmit] at hstep
      cases hstep
      exact ⟨result, rfl, rfl⟩
  · cases hflush : l.sender.flushPartial rs with
    | error p =>
      rw [linkStep, hflush] at hstep
      cases hstep
    | ok result =>
      rw [linkStep, hflush] at hstep
      cases hstep
      refine ⟨result, ?_, rfl⟩
      rw [show submitted [LinkEvent.flushPartial] = [] from rfl, List.append_nil]

/-- What a delivery does, if it succeeds: nothing, or a call of the receiver. -/
theorem linkStep_deliver_inv {l l' : FecLink} {now n i : Nat} {out : Option (List Bytes)}
    (hstep : linkStep rs l (.deliver now n i) = .ok (l', out)) :
    (l' = l ∧ out = none) ∨ ∃ bytes receiver, l.shard? n i = some bytes ∧
      l.receiver.receiveShard rs now bytes = .ok (receiver, out) ∧
      l' = { l with receiver := receiver, opened := l.openedBy n } := by
  simp only [linkStep] at hstep
  cases hshard : l.shard? n i with
  | none =>
    rw [hshard] at hstep
    cases hstep
    exact Or.inl ⟨rfl, rfl⟩
  | some bytes =>
    simp only [hshard] at hstep
    cases hreceive : l.receiver.receiveShard rs now bytes with
    | error p =>
      rw [hreceive] at hstep
      cases hstep
    | ok result =>
      rw [hreceive] at hstep
      cases hstep
      exact Or.inr ⟨bytes, result.1, rfl, hreceive, rfl⟩

/-- A sender event emits nothing, or the block of all payloads that the sender then holds. -/
theorem emitted_of_send {l l' : FecLink} {e : LinkEvent}
    (he : (∃ payload, e = .submit payload) ∨ e = .flushPartial) {out : Option (List Bytes)}
    (hstep : linkStep rs l e = .ok (l', out)) :
    l'.emitted = l.emitted ∨ ∃ block, l'.emitted = l.emitted ++ [block] ∧
      block.payloads = l.sender.buffer ++ submitted [e] := by
  obtain ⟨⟨sender, shards⟩, rfl, -⟩ := linkStep_send_inv he hstep
  cases shards with
  | none => exact Or.inl (List.append_nil _)
  | some shards => exact Or.inr ⟨⟨_, shards⟩, rfl, rfl⟩

/-- A delivery emits nothing. -/
theorem emitted_deliver {l l' : FecLink} {now n i : Nat} {out : Option (List Bytes)}
    (hstep : linkStep rs l (.deliver now n i) = .ok (l', out)) : l'.emitted = l.emitted := by
  rcases linkStep_deliver_inv hstep with ⟨rfl, -⟩ | ⟨bytes, receiver, -, -, rfl⟩
  · rfl
  · rfl

/-- A step that succeeds keeps the invariant, whatever the network hands to the receiver. -/
theorem SenderInv.step {l l' : FecLink} {ps : List Bytes} (hinv : SenderInv rs config ps l)
    (henc : Encodable rs config) {e : LinkEvent} {out : Option (List Bytes)}
    (hstep : linkStep rs l e = .ok (l', out)) : SenderInv rs config (ps ++ submitted [e]) l' := by
  -- the receiver's side of a step is not in the invariant
  have hreceiver : ∀ receiver opened, SenderInv rs config (ps ++ [])
      { l with receiver := receiver, opened := opened } := by
    intro receiver opened
    rw [List.append_nil]
    exact ⟨hinv.config_eq, hinv.room, hinv.blockId_eq, hinv.emittedAs, hinv.order⟩
  cases e with
  | submit payload =>
    obtain ⟨payloads, result, hok, hinv', -⟩ := hinv.send henc (Or.inl ⟨payload, rfl⟩)
    rw [hok] at hstep
    cases hstep
    exact hinv'
  | flushPartial =>
    obtain ⟨payloads, result, hok, hinv', -⟩ := hinv.send henc (Or.inr rfl)
    rw [hok] at hstep
    cases hstep
    exact hinv'
  | deliver now n i =>
    rcases linkStep_deliver_inv hstep with ⟨rfl, -⟩ | ⟨bytes, receiver, -, -, rfl⟩
    · exact hreceiver _ _
    · exact hreceiver receiver (l.openedBy n)
  | expire now maxAgeMs =>
    cases hstep
    exact hreceiver (l.receiver.expireOld now maxAgeMs) l.opened

theorem senderInv_run (henc : Encodable rs config) {es : List LinkEvent} {l : FecLink}
    {os : List (Option (List Bytes))}
    (hrun : Machine.run (linkStep rs) (FecLink.start config) es = .ok (l, os)) :
    SenderInv rs config (submitted es) l := by
  refine Machine.run_induction (P := fun es l _ => SenderInv rs config (submitted es) l)
    (senderInv_start henc.accepted) ?_ es l os hrun
  intro es l os e l' out hinv hstep
  rw [submitted_snoc]
  exact hinv.step henc hstep

/-- After a partial flush every payload submitted so far is in a block. -/
theorem SenderInv.flushPartial {l : FecLink} {ps : List Bytes} (hinv : SenderInv rs config ps l)
    (henc : Encodable rs config) :
    ∃ l', linkStep rs l .flushPartial = .ok (l', none) ∧
      (l'.emitted.map EmittedBlock.payloads).flatten = ps := by
  have horder := hinv.order
  by_cases hempty : l.sender.buffer = []
  · refine ⟨l.sent [] (l.sender, none), ?_, ?_⟩
    · simp only [linkStep, flushPartial_eq, hempty]
      rfl
    · show ((l.emitted ++ []).map EmittedBlock.payloads).flatten = ps
      rw [hempty] at horder
      rw [List.append_nil, ← horder, List.append_nil]
  · have hflush : Flushable config l.sender.buffer := ⟨hempty, Nat.le_of_lt hinv.room⟩
    obtain ⟨sender', shards, hok, -⟩ := hinv.flush henc hinv.config_eq rfl
      (List.append_nil _).symm hflush
    refine ⟨l.sent l.sender.buffer (sender', some shards), ?_, ?_⟩
    · simp only [linkStep, flushPartial_eq, if_neg hempty, hok]
      rfl
    · show ((l.emitted ++ [EmittedBlock.mk l.sender.buffer shards]).map
        EmittedBlock.payloads).flatten = ps
      rw [← horder, List.map_append, List.flatten_append]
      simp

end Sender

end EntrouterLine.Relay
