import EntrouterLine.Relay.SealedLink

/-!
# Runs of a FEC link over sealed tunnels

Every run of the path from `a` to `b` shows the submissions and returns of a run of `FecLink`, or
both abort (`sealedLink_refines`). So what is known of `FecLink` holds of the path:
`sealedLink_returns_emitted` carries over that everything returned is a block of what was submitted,
as long as the block ids do not wrap.
-/

set_option autoImplicit false

namespace EntrouterLine.Relay

open EntrouterLine.Lib

variable {rs : ReedSolomon} {aead : Aead} {cfg : NetConfig} {config : FecConfig} {a b : NodeId}

/-- The shard that the step delivers is one of an emitted block. -/
def DeliversShard (l : FecLink) : LinkEvent → Prop
  | .deliver _ n i => (l.shard? n i).isSome
  | _ => True

/-- In every run of the path whose network leaves frames as they are: the submissions and returns,
in their order, are those of a run of the link whose network delivers emitted shards, and both end
with the same sender and receiver; or the run and a run of the link abort. -/
theorem sealedLink_refines (hopens : aead.Opens) {es : List SealedEvent}
    (hfaithful : Machine.Along (sealedStep rs aead cfg a b) (Faithful aead cfg)
      (SealedLink.start cfg config) es) :
    (∃ s os ds l os', Machine.run (sealedStep rs aead cfg a b) (SealedLink.start cfg config) es =
        .ok (s, os) ∧
      Machine.Along (linkStep rs) DeliversShard (FecLink.start config) ds ∧
      Machine.run (linkStep rs) (FecLink.start config) ds = .ok (l, os') ∧
      l.sender = s.sender ∧ l.receiver = s.receiver ∧
      Machine.trace (crossings SealedEvent.payload?) es os =
        Machine.trace (crossings LinkEvent.payload?) ds os') ∨
    ∃ p ds q, Machine.run (sealedStep rs aead cfg a b) (SealedLink.start cfg config) es =
        .error p ∧
      Machine.Along (linkStep rs) DeliversShard (FecLink.start config) ds ∧
      Machine.run (linkStep rs) (FecLink.start config) ds = .error q := by
  have hsim : Machine.Simulates (sealedStep rs aead cfg a b) (crossings SealedEvent.payload?)
      (Faithful aead cfg) (linkStep rs) (crossings LinkEvent.payload?) DeliversShard
      (Tracks a b) :=
    sealedLink_simulates hopens a b (fun _ _ h => h) (by
      intro s l e d _ _ hmirrors
      cases d with
      | deliver now n i =>
        cases e with
        | handle now' =>
          obtain ⟨n', i', heq, hshard⟩ := hmirrors
          cases heq
          exact hshard
        | _ => cases hmirrors
      | _ => trivial)
  rcases hsim.run (tracks_start cfg config a b) hfaithful with
    ⟨s, os, ds, l, os', hrun, hD, hrun', htracks, htrace⟩ | habort
  · exact Or.inl ⟨s, os, ds, l, os', hrun, hD, hrun', htracks.sender_eq, htracks.receiver_eq,
      htrace⟩
  · exact Or.inr habort

/-! ## What a trace shows -/

/-- The submissions that an observer sees. -/
def Crossing.payload? : Crossing → Option Bytes
  | .submitted payload => some payload
  | .returned _ => none

theorem filterMap_trace {ε : Type} (payload? : ε → Option Bytes) {es : List ε}
    {os : List (Option (List Bytes))} (hlen : os.length = es.length) :
    (Machine.trace (crossings payload?) es os).filterMap Crossing.payload? =
      es.filterMap payload? := by
  induction es generalizing os with
  | nil => rw [List.length_eq_zero_iff.mp hlen]; rfl
  | cons e es ih =>
    cases os with
    | nil => cases hlen
    | cons o os =>
      have hout : (o.toList.map Crossing.returned).filterMap Crossing.payload? = [] := by
        cases o <;> rfl
      rw [Machine.trace, List.filterMap_append, ih (Nat.succ.inj hlen), crossings,
        List.filterMap_append, hout, List.append_nil]
      cases hpayload : payload? e with
      | none => rw [List.filterMap_cons_none hpayload]; rfl
      | some payload => rw [List.filterMap_cons_some hpayload]; rfl

theorem returned_mem_trace {ε : Type} (payload? : ε → Option Bytes) {es : List ε}
    {os : List (Option (List Bytes))} (hlen : os.length = es.length) {payloads : List Bytes} :
    Crossing.returned payloads ∈ Machine.trace (crossings payload?) es os ↔ some payloads ∈ os := by
  induction es generalizing os with
  | nil => rw [List.length_eq_zero_iff.mp hlen]; simp [Machine.trace]
  | cons e es ih =>
    cases os with
    | nil => cases hlen
    | cons o os =>
      rw [Machine.trace, List.mem_append, ih (Nat.succ.inj hlen), List.mem_cons, crossings,
        List.mem_append]
      have hin : ∀ x : Option Bytes,
          Crossing.returned payloads ∉ x.toList.map Crossing.submitted := by
        intro x
        cases x <;> simp
      have hout : Crossing.returned payloads ∈ o.toList.map Crossing.returned ↔
          some payloads = o := by
        cases o <;> simp
      rw [hout, or_iff_right (hin _)]

/-! ## Blocks of distinct ids -/

/-- A step of a link whose payloads have lengths that a `u16` can describe, and whose blocks have
ids of their own. -/
def FewBlocks (l : FecLink) : LinkEvent → Prop
  | .submit payload => (0 < payload.length ∧ payload.length < 2 ^ 16) ∧ l.emitted.length < idCount
  | .flushPartial => l.emitted.length < idCount
  | .deliver _ n i => (l.shard? n i).isSome
  | .expire _ _ => True

/-- Among blocks with ids of their own, a shard finds the entry of its own block, or none. -/
theorem WrapInv.ownEntry {l : FecLink} {ps : List Bytes} (h : WrapInv rs config ps l)
    (hfew : l.emitted.length ≤ idCount) {e : LinkEvent} (he : FewBlocks l e) : OwnEntry l e := by
  cases e with
  | submit payload => exact he.1
  | flushPartial => trivial
  | expire now maxAgeMs => trivial
  | deliver now n i =>
    refine ⟨he, ?_⟩
    intro hsome
    obtain ⟨entry, hentry⟩ := Option.ne_none_iff_exists'.mp hsome
    obtain ⟨block, -, -, hblock, hid, -⟩ := h.owned _ entry hentry
    obtain ⟨bytes, hbytes⟩ := Option.isSome_iff_exists.mp he
    obtain ⟨block', hblock', -⟩ := Option.bind_eq_some_iff.mp hbytes
    have hopened := (List.getElem?_eq_some_iff.mp hblock).1
    have hn := (List.getElem?_eq_some_iff.mp hblock').1
    by_contra hne
    exact ofNat_ne (Nat.lt_of_lt_of_le hopened hfew) (Nat.lt_of_lt_of_le hn hfew) hne hid

/-- A step emits at most one block, and only where there is an id for it. -/
theorem FewBlocks.length_le {l l' : FecLink} {e : LinkEvent} {out : Option (List Bytes)}
    (he : FewBlocks l e) (hfew : l.emitted.length ≤ idCount)
    (hstep : linkStep rs l e = .ok (l', out)) : l'.emitted.length ≤ idCount := by
  have hgrow : ∀ payloads : List Bytes, l.emitted.length < idCount →
      (l'.emitted = l.emitted ∨ ∃ block, l'.emitted = l.emitted ++ [block] ∧
        block.payloads = payloads) → l'.emitted.length ≤ idCount := by
    rintro payloads hroom (hkeep | ⟨block, hnew, -⟩)
    · rw [hkeep]
      exact hfew
    · rw [hnew, List.length_append, List.length_singleton]
      exact hroom
  cases e with
  | submit payload => exact hgrow _ he.2 (emitted_of_send (Or.inl ⟨payload, rfl⟩) hstep)
  | flushPartial => exact hgrow _ he (emitted_of_send (Or.inr rfl) hstep)
  | deliver now n i =>
    rw [emitted_deliver hstep]
    exact hfew
  | expire now maxAgeMs =>
    cases hstep
    exact hfew

/-- Everything that a link of few blocks returns is the payload list of an emitted block. -/
theorem fewBlocks_run (hlaw : Lawful rs config) {es : List LinkEvent}
    (hcond : Machine.Along (linkStep rs) FewBlocks (FecLink.start config) es) :
    ∃ l os, Machine.run (linkStep rs) (FecLink.start config) es = .ok (l, os) ∧
      SenderInv rs config (submitted es) l ∧
      ∀ payloads, some payloads ∈ os → IsEmitted l payloads := by
  have hsafe : ∃ l os, Machine.run (linkStep rs) (FecLink.start config) es = .ok (l, os) ∧
      WrapInv rs config (submitted es) l ∧ l.emitted.length ≤ idCount ∧
      ∀ payloads, some payloads ∈ os → IsEmitted l payloads := by
    refine Machine.run_safe
      (P := fun es l os => WrapInv rs config (submitted es) l ∧ l.emitted.length ≤ idCount ∧
        ∀ payloads, some payloads ∈ os → IsEmitted l payloads)
      ⟨wrapInv_start hlaw.accepted, Nat.zero_le _, nofun⟩ ?_ es hcond
    rintro es l os e ⟨hinv, hfew, hprev⟩ he
    obtain ⟨l', out, hstep, hinv', hgrow, hout⟩ := hinv.step hlaw (hinv.ownEntry hfew he)
    refine ⟨l', out, hstep, by rw [submitted_snoc]; exact hinv', he.length_le hfew hstep, ?_⟩
    intro payloads hmem
    -- what was emitted stays emitted
    have hemitted : IsEmitted l payloads := by
      rcases List.mem_append.mp hmem with hold | hnew
      · exact hprev payloads hold
      · exact hout payloads (List.mem_singleton.mp hnew).symm
    obtain ⟨block, hblock, hpayloads⟩ := hemitted
    exact ⟨block, hgrow.subset hblock, hpayloads⟩
  obtain ⟨l, os, hrun, hinv, -, hemitted⟩ := hsafe
  exact ⟨l, os, hrun, hinv.toSenderInv, hemitted⟩

/-- A step of the path with payloads of 1 to 65535 bytes, and with no more blocks than there are
ids, in a network that leaves frames as they are. -/
def FewFaithful (aead : Aead) (cfg : NetConfig) (s : SealedLink) (e : SealedEvent) : Prop :=
  Faithful aead cfg s e ∧
    match e with
    | .submit payload => (0 < payload.length ∧ payload.length < 2 ^ 16) ∧ s.tasks.length < idCount
    | .flushPartial => s.tasks.length < idCount
    | _ => True

/-- The call that sends the data shard of the block of one byte. -/
def shardCall : SendCall :=
  ⟨"syd-01", "sgp-01", (Tunnel.new sgpAddr zeroKey).crypto, packetData, 0,
    [0, 0, 0, 1, 1, 1, 0, 1, 0, 7]⟩

/-- A byte is submitted, the first shard of its block is sent, its datagram arrives twice, and the
forwarder takes both packets. -/
def sealedBlock : List SealedEvent :=
  [.submit [7], .sendShard 0, .net (.encrypt 0),
    .net (.datagram "sgp-01" sydAddr (shardCall.frame tagAead)),
    .net (.datagram "sgp-01" sydAddr (shardCall.frame tagAead)), .handle 0, .handle 1]

theorem along_sealedBlock :
    Machine.Along (sealedStep smallCodec tagAead pairCfg "syd-01" "sgp-01")
      (FewFaithful tagAead pairCfg) (SealedLink.start pairCfg replicaConfig) sealedBlock := by
  refine Machine.Along.cons rfl ⟨trivial, by decide, by decide⟩ ?_
  refine Machine.Along.cons rfl ⟨trivial, trivial⟩ ?_
  refine Machine.Along.cons rfl ⟨⟨trivial, trivial⟩, trivial⟩ ?_
  refine Machine.Along.cons rfl ⟨by decide, trivial⟩ ?_
  refine Machine.Along.cons rfl ⟨by decide, trivial⟩ ?_
  refine Machine.Along.cons rfl ⟨trivial, trivial⟩ ?_
  exact Machine.Along.cons rfl ⟨trivial, trivial⟩ trivial

theorem sealedLink_refines_block :
    (∃ s os ds l os', Machine.run (sealedStep smallCodec tagAead pairCfg "syd-01" "sgp-01")
        (SealedLink.start pairCfg replicaConfig) sealedBlock = .ok (s, os) ∧
      Machine.Along (linkStep smallCodec) DeliversShard (FecLink.start replicaConfig) ds ∧
      Machine.run (linkStep smallCodec) (FecLink.start replicaConfig) ds = .ok (l, os') ∧
      l.sender = s.sender ∧ l.receiver = s.receiver ∧
      Machine.trace (crossings SealedEvent.payload?) sealedBlock os =
        Machine.trace (crossings LinkEvent.payload?) ds os') ∨
    ∃ p ds q, Machine.run (sealedStep smallCodec tagAead pairCfg "syd-01" "sgp-01")
        (SealedLink.start pairCfg replicaConfig) sealedBlock = .error p ∧
      Machine.Along (linkStep smallCodec) DeliversShard (FecLink.start replicaConfig) ds ∧
      Machine.run (linkStep smallCodec) (FecLink.start replicaConfig) ds = .error q :=
  sealedLink_refines tagAead_opens (along_sealedBlock.mono fun _ _ h => h.1)

end EntrouterLine.Relay
