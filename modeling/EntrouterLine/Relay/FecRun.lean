import EntrouterLine.Lib.Threshold
import EntrouterLine.Relay.FecLink

/-!
# Runs of a FEC link

As long as at most 65536 blocks have been emitted, their ids are distinct, and the receiver is a
threshold assembler of blocks from shards (`Lib.Threshold`): block `n` completes when
`dataShards` distinct shards of it are held. `LinkInv` relates the two, `LinkInv.step` is the
simulation of one step, and `link_run` carries it to whole runs, with the completions of the
assembler as the payload lists that the receiver returns.
-/

set_option autoImplicit false

namespace EntrouterLine.Relay

open EntrouterLine.Lib
open EntrouterLine.Lib.Threshold (Assembly)

variable {rs : ReedSolomon} {config : FecConfig}

/-- The number of block ids. -/
def idCount : Nat := 65536

/-- A step of a link that emits no more blocks than there are ids, and whose network delivers only
emitted shards. -/
def LinkCond (l : FecLink) : LinkEvent → Prop
  | .deliver _ n i => (l.shard? n i).isSome
  | e => e.Emits l → l.emitted.length < idCount

instance (l : FecLink) (e : LinkEvent) : Decidable (LinkCond l e) :=
  match e with
  | .submit _ => inferInstanceAs (Decidable (_ → _))
  | .flushPartial => inferInstanceAs (Decidable (_ → _))
  | .deliver _ _ _ => inferInstanceAs (Decidable (_ = true))
  | .expire _ _ => inferInstanceAs (Decidable (_ → _))

/-- The assembler's account of an event. -/
def Follows (config : FecConfig) (A : Assembly Nat Nat) : LinkEvent → Assembly Nat Nat → Prop
  | .deliver _ n i, A' => A' = Threshold.arrive config.dataShards A n i
  | .expire _ _, A' => ∃ dropped, A' = Threshold.clear dropped A
  | _, A' => A' = A

/-- What an event returns: the payloads of the block that a delivered shard completes. -/
def Returns (rs : ReedSolomon) (config : FecConfig) (l : FecLink) (A : Assembly Nat Nat) :
    LinkEvent → Option (List Bytes) → Prop
  | .deliver _ n i, out =>
      if Threshold.Completes config.dataShards A n i then
        ∃ block, l.emitted[n]? = some block ∧ ∃ shards, Encodes rs config block.payloads shards ∧
          out = some (recovered config shards)
      else out = none
  | _, out => out = none

theorem encodes_unique {payloads shards shards' : List Bytes}
    (h : Encodes rs config payloads shards)
    (h' : Encodes rs config payloads shards') : shards' = shards := by
  rw [Encodes] at h h'
  rw [h, Option.some.injEq] at h'
  exact h'.symm

theorem ofNat_ne {m n : Nat} (hm : m < idCount) (hn : n < idCount) (h : m ≠ n) :
    UInt16.ofNat m ≠ UInt16.ofNat n := by
  intro heq
  -- ids below 65536 read back as the numbers they are
  have hnat := congrArg UInt16.toNat heq
  have hm' : m < 2 ^ 16 := hm
  have hn' : n < 2 ^ 16 := hn
  rw [UInt16.toNat_ofNat', UInt16.toNat_ofNat', Nat.mod_eq_of_lt hm', Nat.mod_eq_of_lt hn'] at hnat
  exact h hnat

/-- The receiver holds of every emitted block what the assembler holds of it, and nothing under the
ids that no block has yet. -/
structure LinkInv (rs : ReedSolomon) (config : FecConfig) (ps : List Bytes) (A : Assembly Nat Nat)
    (l : FecLink) : Prop extends SenderInv rs config ps l where
  few : l.emitted.length ≤ idCount
  waiting : l.receiver.AllWaiting
  held : ∀ n block shards, l.emitted[n]? = some block → Encodes rs config block.payloads shards →
    Holds config shards (A.held n) (l.receiver.blocks (UInt16.ofNat n))
  absent : ∀ n, l.emitted.length ≤ n → n < idCount →
    l.receiver.blocks (UInt16.ofNat n) = none ∧ A.held n = ∅

theorem linkInv_start (hconfig : config.Accepted) :
    LinkInv rs config [] Threshold.empty (FecLink.start config) where
  toSenderInv := senderInv_start hconfig
  few := Nat.zero_le _
  waiting := allWaiting_new
  held := by
    intro n block shards h
    cases h
  absent := fun n _ _ => ⟨rfl, rfl⟩

/-- A delivered shard is the `i`-th shard of the block it comes from, framed under its id. -/
theorem SenderInv.shard?_eq_some {l : FecLink} {ps : List Bytes} (hinv : SenderInv rs config ps l)
    {n i : Nat} {bytes : Bytes} (h : l.shard? n i = some bytes) :
    ∃ block shards shard, l.emitted[n]? = some block ∧ Flushable config block.payloads ∧
      Encodes rs config block.payloads shards ∧ shards[i]? = some shard ∧
      bytes = (frameShard config (UInt16.ofNat n) i shard).2 := by
  obtain ⟨block, hblock, hbytes⟩ := Option.bind_eq_some_iff.mp h
  obtain ⟨frame, hframe, rfl⟩ := Option.map_eq_some_iff.mp hbytes
  obtain ⟨hflush, shards, hencodes, hshards⟩ := hinv.emittedAs n block hblock
  rw [hshards, List.getElem?_mapIdx] at hframe
  obtain ⟨shard, hshard, rfl⟩ := Option.map_eq_some_iff.mp hframe
  exact ⟨block, shards, shard, hblock, hflush, hencodes, hshard, rfl⟩

/-- A sender event leaves the receiver and the assembler alone; a new block has an id of its own. -/
theorem LinkInv.sent {l : FecLink} {ps qs : List Bytes} {A : Assembly Nat Nat}
    (h : LinkInv rs config ps A l) (hconfig : config.Accepted) {payloads : List Bytes}
    {result : FecSender × Option (List (UInt8 × Bytes))}
    (hsender : SenderInv rs config qs (l.sent payloads result))
    (hroom : result.2.isSome → l.emitted.length < idCount) :
    LinkInv rs config qs A (l.sent payloads result) := by
  obtain ⟨new, hnew, hlen⟩ := emitted_sent l payloads result
  have hgrow : (l.sent payloads result).emitted.length = l.emitted.length + new.length := by
    rw [hnew, List.length_append]
  refine ⟨hsender, ?_, h.waiting, ?_, ?_⟩
  · rw [hgrow, hlen]
    have hfew := h.few
    split
    case isTrue hsome => exact hroom hsome
    case isFalse => exact hfew
  · intro n block shards hblock hencodes
    rcases Nat.lt_or_ge n l.emitted.length with hold | hfresh
    · rw [hnew, List.getElem?_append_left hold] at hblock
      exact h.held n block shards hblock hencodes
    · -- a block just emitted: nothing of it has arrived
      have hlt : n < l.emitted.length + new.length := by
        rw [← hgrow]
        exact (List.getElem?_eq_some_iff.mp hblock).1
      have hid : n < idCount := by
        rw [hlen] at hlt
        split at hlt
        case isTrue hsome => exact Nat.lt_of_lt_of_le hlt (hroom hsome)
        case isFalse => omega
      obtain ⟨hnone, hheld⟩ := h.absent n hfresh hid
      show Holds config shards (A.held n) (l.receiver.blocks (UInt16.ofNat n))
      rw [hnone, hheld]
      exact holds_none hconfig shards
  · intro n hn hid
    apply h.absent n _ hid
    rw [hgrow] at hn
    omega

/-- A delivered shard arrives at the assembler, and the call returns the payloads of the block it
completes. -/
theorem LinkInv.deliver {l : FecLink} {ps : List Bytes} {A : Assembly Nat Nat}
    (h : LinkInv rs config ps A l) (hlaw : Lawful rs config) (now : Nat) {n i : Nat}
    (hshard : (l.shard? n i).isSome) :
    ∃ l' out, linkStep rs l (.deliver now n i) = .ok (l', out) ∧
      LinkInv rs config ps (Threshold.arrive config.dataShards A n i) l' ∧
      Returns rs config l A (.deliver now n i) out := by
  obtain ⟨bytes, hbytes⟩ := Option.isSome_iff_exists.mp hshard
  obtain ⟨block, shards, shard, hblock, hflush, hencodes, hi, rfl⟩ :=
    h.toSenderInv.shard?_eq_some hbytes
  have hn : n < l.emitted.length := (List.getElem?_eq_some_iff.mp hblock).1
  have hid : n < idCount := Nat.lt_of_lt_of_le hn h.few
  obtain ⟨entry, out, hreceive, hout⟩ := receiveShard_held hlaw hflush hencodes h.waiting
    (h.held n block shards hblock hencodes) hi now
  change if Threshold.Completes config.dataShards A n i then _ else _ at hout
  have hwaiting := h.waiting.receiveShard hreceive
  refine ⟨{ l with
    receiver := l.receiver.setBlock (UInt16.ofNat n) entry, opened := l.openedBy n }, out, ?_, ?_,
    ?_⟩
  · simp only [linkStep, hbytes, hreceive]
    rfl
  · refine ⟨⟨h.config_eq, h.room, h.blockId_eq, h.emittedAs, h.order⟩, h.few, hwaiting, ?_, ?_⟩
    · intro m block' shards' hblock' hencodes'
      rcases eq_or_ne m n with rfl | hne
      · -- the block the shard belongs to
        have hblockEq : block' = block := by
          rw [hblock] at hblock'
          exact (Option.some.inj hblock').symm
        subst hblockEq
        rw [encodes_unique hencodes hencodes', setBlock_self]
        by_cases hfull : Threshold.Completes config.dataShards A m i
        · rw [if_pos hfull] at hout
          rw [Threshold.held_arrive_of_completes hfull, hout.1]
          exact holds_none hlaw.accepted shards
        · rw [if_neg hfull] at hout
          rw [Threshold.held_arrive_of_not_completes hfull]
          exact hout.2
      · -- every other block has another id
        have hm : m < idCount :=
          Nat.lt_of_lt_of_le (List.getElem?_eq_some_iff.mp hblock').1 h.few
        rw [Threshold.held_arrive_of_ne hne, setBlock_of_ne _ (ofNat_ne hm hid hne)]
        exact h.held m block' shards' hblock' hencodes'
    · intro m hm hmid
      have hne : m ≠ n := (Nat.lt_of_lt_of_le hn hm).ne'
      rw [Threshold.held_arrive_of_ne hne, setBlock_of_ne _ (ofNat_ne hmid hid hne)]
      exact h.absent m hm hmid
  · show if Threshold.Completes config.dataShards A n i then _ else _
    by_cases hfull : Threshold.Completes config.dataShards A n i
    · rw [if_pos hfull] at hout ⊢
      exact ⟨block, hblock, shards, hencodes, hout.2⟩
    · rw [if_neg hfull] at hout ⊢
      exact hout.1

/-- Expiring entries drops what the assembler holds of their blocks. -/
theorem LinkInv.expire {l : FecLink} {ps : List Bytes} {A : Assembly Nat Nat}
    (h : LinkInv rs config ps A l) (hconfig : config.Accepted) (now maxAgeMs : Nat) :
    ∃ dropped, LinkInv rs config ps (Threshold.clear dropped A)
      { l with receiver := l.receiver.expireOld now maxAgeMs } := by
  refine ⟨fun n => ((l.receiver.expireOld now maxAgeMs).blocks (UInt16.ofNat n)).isNone,
    ⟨h.config_eq, h.room, h.blockId_eq, h.emittedAs, h.order⟩, h.few,
    h.waiting.expireOld now maxAgeMs, ?_, ?_⟩
  · intro n block shards hblock hencodes
    have hfilter := (h.held n block shards hblock hencodes).filter hconfig
      fun block => block.ageMs now < maxAgeMs
    change Holds config shards
      (if ((l.receiver.expireOld now maxAgeMs).blocks (UInt16.ofNat n)).isSome then A.held n else ∅)
      ((l.receiver.expireOld now maxAgeMs).blocks (UInt16.ofNat n)) at hfilter
    rw [Threshold.held_clear]
    -- an item is dropped exactly if its entry is
    cases hentry : (l.receiver.expireOld now maxAgeMs).blocks (UInt16.ofNat n) with
    | none =>
      rw [hentry] at hfilter
      exact hfilter
    | some entry =>
      rw [hentry] at hfilter
      exact hfilter
  · intro n hn hid
    obtain ⟨hnone, hheld⟩ := h.absent n hn hid
    constructor
    · show (l.receiver.blocks (UInt16.ofNat n)).filter _ = none
      rw [hnone]
      rfl
    · rw [Threshold.held_clear, hheld, ite_self]

/-- One step: it succeeds, keeps `LinkInv` with the assembler's account of the event, and returns
what the assembler completes. -/
theorem LinkInv.step {l : FecLink} {ps : List Bytes} {A : Assembly Nat Nat}
    (h : LinkInv rs config ps A l) (hlaw : Lawful rs config) {e : LinkEvent} (he : LinkCond l e) :
    ∃ l' out A', linkStep rs l e = .ok (l', out) ∧ Follows config A e A' ∧
      LinkInv rs config (ps ++ submitted [e]) A' l' ∧ Returns rs config l A e out := by
  cases e with
  | submit payload =>
    obtain ⟨payloads, result, hstep, hsender, hemits⟩ :=
      h.toSenderInv.send hlaw.encodable (Or.inl ⟨payload, rfl⟩)
    exact ⟨_, _, A, hstep, rfl, h.sent hlaw.accepted hsender fun hsome => he (hemits hsome), rfl⟩
  | flushPartial =>
    obtain ⟨payloads, result, hstep, hsender, hemits⟩ :=
      h.toSenderInv.send hlaw.encodable (Or.inr rfl)
    exact ⟨_, _, A, hstep, rfl, h.sent hlaw.accepted hsender fun hsome => he (hemits hsome), rfl⟩
  | deliver now n i =>
    obtain ⟨l', out, hstep, hinv, hreturns⟩ := h.deliver hlaw now he
    refine ⟨l', out, _, hstep, rfl, ?_, hreturns⟩
    rw [show submitted [LinkEvent.deliver now n i] = [] from rfl, List.append_nil]
    exact hinv
  | expire now maxAgeMs =>
    obtain ⟨dropped, hinv⟩ := h.expire hlaw.accepted now maxAgeMs
    refine ⟨_, none, _, rfl, ⟨dropped, rfl⟩, ?_, rfl⟩
    rw [show submitted [LinkEvent.expire now maxAgeMs] = [] from rfl, List.append_nil]
    exact hinv

/-! ## Whole runs -/

/-- The event delivers a shard of block `n`. -/
def LinkEvent.isDelivery (n : Nat) : LinkEvent → Bool
  | .deliver _ n' _ => n' = n
  | _ => false

def LinkEvent.isExpire : LinkEvent → Bool
  | .expire _ _ => true
  | _ => false

/-- How often the receiver returns a payload list on a shard of block `n`. -/
def returnCount (n : Nat) (es : List LinkEvent) (os : List (Option (List Bytes))) : Nat :=
  (es.zip os).countP fun eo => eo.1.isDelivery n && eo.2.isSome

theorem returnCount_snoc (n : Nat) {es : List LinkEvent} {os : List (Option (List Bytes))}
    (hlen : os.length = es.length) (e : LinkEvent) (o : Option (List Bytes)) :
    returnCount n (es ++ [e]) (os ++ [o]) =
      returnCount n es os + if e.isDelivery n && o.isSome then 1 else 0 := by
  rw [returnCount, List.zip_append hlen.symm, List.countP_append]
  simp [returnCount, List.countP_cons]

/-- What the assembler knows about the history: the arrivals and returns of every block, and the
accounts of the library. -/
structure History (config : FecConfig) (es : List LinkEvent) (os : List (Option (List Bytes)))
    (A : Assembly Nat Nat) : Prop where
  length_eq : os.length = es.length
  arrived : ∀ n, A.arrived n = arrivals n es
  inRange : ∀ n, ∀ i ∈ A.arrived n, i < config.totalShards
  done : ∀ n, A.done n = returnCount n es os
  counted : Threshold.Counted config.dataShards A
  exact_fresh : (∀ e ∈ es, e.isExpire = false) →
    Threshold.Exact config.dataShards A ∧ Threshold.Fresh config.dataShards A

theorem history_start (hconfig : config.Accepted) : History config [] [] Threshold.empty where
  length_eq := rfl
  arrived := fun _ => rfl
  inRange := by
    intro n i hi
    cases hi
  done := fun _ => rfl
  counted := Threshold.counted_empty hconfig.1
  exact_fresh := fun _ => ⟨Threshold.exact_empty _, Threshold.fresh_empty hconfig.1⟩

/-- An event that delivers nothing leaves arrivals and returns as they were. -/
theorem History.quiet {es : List LinkEvent} {os : List (Option (List Bytes))}
    {A A' : Assembly Nat Nat} (h : History config es os A) {e : LinkEvent}
    (he : ∀ now n i, e ≠ .deliver now n i) (harrived : A'.arrived = A.arrived)
    (hdone : A'.done = A.done) (hcounted : Threshold.Counted config.dataShards A')
    (hkeep : e.isExpire = false → A' = A) : History config (es ++ [e]) (os ++ [none]) A' where
  length_eq := by rw [List.length_append, List.length_append, h.length_eq]; rfl
  arrived := by
    intro n
    have hnone : arrivals n [e] = [] := by
      cases e with
      | deliver now n' i => exact absurd rfl (he now n' i)
      | submit payload => rfl
      | flushPartial => rfl
      | expire now maxAgeMs => rfl
    rw [harrived, h.arrived, arrivals_snoc, hnone, List.append_nil]
  inRange := by
    rw [harrived]
    exact h.inRange
  done := by
    intro n
    rw [hdone, h.done, returnCount_snoc n h.length_eq]
    simp
  counted := hcounted
  exact_fresh := by
    intro hexpire
    rw [hkeep (hexpire e (by simp))]
    exact h.exact_fresh fun e' he' => hexpire e' (List.mem_append_left _ he')

/-- A delivery is an arrival, and returns a payload list exactly if it completes the block. -/
theorem History.deliver {es : List LinkEvent} {os : List (Option (List Bytes))}
    {A : Assembly Nat Nat} (h : History config es os A) (now : Nat) {n i : Nat}
    (hi : i < config.totalShards) {out : Option (List Bytes)}
    (hout : out.isSome ↔ Threshold.Completes config.dataShards A n i) :
    History config (es ++ [.deliver now n i]) (os ++ [out])
      (Threshold.arrive config.dataShards A n i) where
  length_eq := by rw [List.length_append, List.length_append, h.length_eq]; rfl
  arrived := by
    intro m
    rw [arrivals_snoc]
    rcases eq_or_ne m n with rfl | hne
    · rw [Threshold.arrived_arrive_self, h.arrived]
      simp [arrivals]
    · rw [Threshold.arrived_arrive_of_ne hne, h.arrived]
      simp [arrivals, hne.symm]
  inRange := by
    intro m j hj
    rcases eq_or_ne m n with rfl | hne
    · rw [Threshold.arrived_arrive_self, List.mem_append, List.mem_singleton] at hj
      rcases hj with hj | rfl
      · exact h.inRange m j hj
      · exact hi
    · rw [Threshold.arrived_arrive_of_ne hne] at hj
      exact h.inRange m j hj
  done := by
    intro m
    rw [returnCount_snoc m h.length_eq, ← h.done]
    rcases eq_or_ne m n with rfl | hne
    · by_cases hfull : Threshold.Completes config.dataShards A m i
      · rw [Threshold.done_arrive_of_completes hfull]
        simp [LinkEvent.isDelivery, hout.mpr hfull]
      · rw [Threshold.done_arrive_of_not_completes hfull]
        simp [LinkEvent.isDelivery, mt hout.mp hfull]
    · rw [Threshold.done_arrive_of_ne hne]
      simp [LinkEvent.isDelivery, hne.symm]
  counted := h.counted.arrive n i
  exact_fresh := by
    intro hexpire
    obtain ⟨hexact, hfresh⟩ := h.exact_fresh fun e he => hexpire e (List.mem_append_left _ he)
    exact ⟨hexact.arrive h.counted n i, hfresh.arrive n i⟩

/-- A shard index of an emitted block is below the number of shards. -/
theorem SenderInv.index_lt {l : FecLink} {ps : List Bytes} (hinv : SenderInv rs config ps l)
    (hlaw : Lawful rs config) {n i : Nat} (h : (l.shard? n i).isSome) : i < config.totalShards := by
  obtain ⟨bytes, hbytes⟩ := Option.isSome_iff_exists.mp h
  obtain ⟨block, shards, shard, -, hflush, hencodes, hi, -⟩ := hinv.shard?_eq_some hbytes
  rw [← (encodes_spec hlaw hflush hencodes).1]
  exact (List.getElem?_eq_some_iff.mp hi).1

/-- Every run along `LinkCond` succeeds, and the assembler accounts for it. -/
theorem link_run (hlaw : Lawful rs config) {es : List LinkEvent}
    (hcond : Machine.Along (linkStep rs) LinkCond (FecLink.start config) es) :
    ∃ l os, Machine.run (linkStep rs) (FecLink.start config) es = .ok (l, os) ∧
      ∃ A, LinkInv rs config (submitted es) A l ∧ History config es os A := by
  refine Machine.run_safe
    (P := fun es l os => ∃ A, LinkInv rs config (submitted es) A l ∧ History config es os A)
    ⟨Threshold.empty, linkInv_start hlaw.accepted, history_start hlaw.accepted⟩ ?_ es hcond
  rintro es l os e ⟨A, hinv, hhistory⟩ he
  -- the link takes its step, the assembler follows, and the history grows by both
  obtain ⟨l', out, A', hstep, hfollows, hinv', hreturns⟩ := hinv.step hlaw he
  rw [← submitted_snoc] at hinv'
  refine ⟨l', out, hstep, A', hinv', ?_⟩
  cases e with
  | submit payload =>
    cases hfollows
    cases hreturns
    exact hhistory.quiet (fun _ _ _ h => by cases h) rfl rfl hhistory.counted fun _ => rfl
  | flushPartial =>
    cases hfollows
    cases hreturns
    exact hhistory.quiet (fun _ _ _ h => by cases h) rfl rfl hhistory.counted fun _ => rfl
  | deliver now n i =>
    cases hfollows
    apply hhistory.deliver now (hinv.toSenderInv.index_lt hlaw he)
    change if Threshold.Completes config.dataShards A n i then _ else _ at hreturns
    split at hreturns
    case isTrue hfull =>
      obtain ⟨-, -, -, -, rfl⟩ := hreturns
      exact iff_of_true rfl hfull
    case isFalse hmore =>
      rw [hreturns]
      exact iff_of_false Bool.false_ne_true hmore
  | expire now maxAgeMs =>
    obtain ⟨dropped, rfl⟩ := hfollows
    cases hreturns
    exact hhistory.quiet (fun _ _ _ h => by cases h) rfl rfl (hhistory.counted.clear dropped)
      fun h => by cases h

end EntrouterLine.Relay
