import EntrouterLine.Relay.FecWrap
import EntrouterLine.Mesh.MeshState

/-!
# Links of the mesh

`MeshLink.Inv` is what every run keeps at a link whose shards only meet entries of their own block:
the blocks and the buffer of the FEC link are those recorded with their sources. One lemma for each
operation says that it succeeds, keeps the invariant, and what it does to the record.
-/

set_option autoImplicit false

namespace EntrouterLine.Mesh

open EntrouterLine.Relay

variable {rs : ReedSolomon} {config : FecConfig}

/-- The record of a link agrees with its sender and its emitted blocks. -/
structure MeshLink.Inv (rs : ReedSolomon) (config : FecConfig) (l : MeshLink) : Prop where
  wrap : WrapInv rs config (l.log.map Tagged.payload) l.fec
  blocks_eq : l.blocks.map (List.map Tagged.payload) = l.fec.emitted.map EmittedBlock.payloads
  returned_lt : ∀ n ∈ l.returned, n < l.blocks.length

theorem meshLinkInv_new (hconfig : config.Accepted) : (MeshLink.new config).Inv rs config where
  wrap := wrapInv_start hconfig
  blocks_eq := rfl
  returned_lt := by
    intro n h
    cases h

/-- A relay payload that a `u16` length can describe. -/
def Tagged.Sized (t : Tagged) : Prop := 0 < t.payload.length ∧ t.payload.length < 2 ^ 16

/-- The record holds the payloads of every emitted block. -/
theorem MeshLink.Inv.getElem?_blocks {l : MeshLink} (h : l.Inv rs config) {n : Nat}
    {block : EmittedBlock} (hblock : l.fec.emitted[n]? = some block) :
    ∃ recorded, l.blocks[n]? = some recorded ∧
      recorded.map Tagged.payload = block.payloads := by
  have hmap := congrArg (fun blocks => blocks[n]?) h.blocks_eq
  simp only [List.getElem?_map, hblock, Option.map_some] at hmap
  exact Option.map_eq_some_iff.mp hmap

/-- The payloads that wait in the sender's buffer. -/
theorem MeshLink.Inv.waiting_eq {l : MeshLink} (h : l.Inv rs config) :
    l.waiting.map Tagged.payload = l.fec.sender.buffer := by
  have horder := h.wrap.order
  rw [MeshLink.log, List.map_append, List.map_flatten, h.blocks_eq] at horder
  exact (List.append_cancel_left horder).symm

/-! ## Senders -/

/-- The sender took the payloads `added`: the record grows by them at its end. -/
structure MeshLink.Took (rs : ReedSolomon) (config : FecConfig) (l : MeshLink)
    (added : List Tagged) (l' : MeshLink) : Prop where
  inv : l'.Inv rs config
  log_eq : l'.log = l.log ++ added
  blocks_prefix : l.blocks <+: l'.blocks
  returned_eq : l'.returned = l.returned

/-- A sender that emits at most the block of all payloads it holds takes what it is given. -/
theorem MeshLink.Inv.took {l : MeshLink} (h : l.Inv rs config) {added : List Tagged} {fec : FecLink}
    (hwrap : WrapInv rs config (l.log.map Tagged.payload ++ added.map Tagged.payload) fec)
    (hemitted : fec.emitted = l.fec.emitted ∨ ∃ block, fec.emitted = l.fec.emitted ++ [block] ∧
      block.payloads = l.fec.sender.buffer ++ added.map Tagged.payload) :
    l.Took rs config added (l.sent added fec) := by
  rcases hemitted with hkeep | ⟨block, hgrow, hpayloads⟩
  · -- the payloads wait in the buffer
    have hsent : l.sent added fec = { l with fec := fec, waiting := l.waiting ++ added } := by
      rw [MeshLink.sent, if_pos (by rw [hkeep])]
    have hlog : (l.sent added fec).log = l.log ++ added := by
      rw [hsent, MeshLink.log, MeshLink.log, List.append_assoc]
    refine ⟨⟨?_, ?_, ?_⟩, hlog, ?_, ?_⟩
    · rw [hlog, List.map_append, hsent]
      exact hwrap
    · rw [hsent, hkeep]
      exact h.blocks_eq
    · rw [hsent]
      exact h.returned_lt
    · rw [hsent]
    · rw [hsent]
  · -- the new block takes all that waited
    have hne : ¬ fec.emitted.length = l.fec.emitted.length := by
      rw [hgrow, List.length_append, List.length_singleton]
      exact Nat.succ_ne_self _
    have hsent : l.sent added fec =
        { l with fec := fec, blocks := l.blocks ++ [l.waiting ++ added], waiting := [] } := by
      rw [MeshLink.sent, if_neg hne]
    have hlog : (l.sent added fec).log = l.log ++ added := by
      rw [hsent, MeshLink.log, MeshLink.log, List.flatten_append]
      simp
    refine ⟨⟨?_, ?_, ?_⟩, hlog, ?_, ?_⟩
    · rw [hlog, List.map_append, hsent]
      exact hwrap
    · rw [hsent, hgrow, List.map_append, List.map_append, h.blocks_eq, List.map_singleton,
        List.map_singleton, hpayloads, List.map_append, h.waiting_eq]
    · rw [hsent]
      intro n hn
      show n < (l.blocks ++ [l.waiting ++ added]).length
      rw [List.length_append]
      exact Nat.lt_add_right _ (h.returned_lt n hn)
    · rw [hsent]
      exact List.prefix_append _ _
    · rw [hsent]

/-- `submit` takes the payload. -/
theorem MeshLink.Inv.submit {l : MeshLink} (h : l.Inv rs config) (hlaw : Lawful rs config)
    {t : Tagged} (ht : t.Sized) :
    ∃ l', l.submit rs t = .ok l' ∧ l.Took rs config [t] l' := by
  obtain ⟨fec, out, hstep, hwrap, -⟩ := h.wrap.step hlaw (e := .submit t.payload) ht
  have hemitted := emitted_of_send (Or.inl ⟨t.payload, rfl⟩) hstep
  refine ⟨l.sent [t] fec, ?_, h.took hwrap hemitted⟩
  rw [MeshLink.submit, hstep]
  rfl

/-- `flush_partial` takes nothing. -/
theorem MeshLink.Inv.flushPartial {l : MeshLink} (h : l.Inv rs config) (hlaw : Lawful rs config) :
    ∃ l', l.flushPartial rs = .ok l' ∧ l.Took rs config [] l' := by
  obtain ⟨fec, out, hstep, hwrap, -⟩ := h.wrap.step hlaw (e := .flushPartial) trivial
  have hemitted := emitted_of_send (Or.inr rfl) hstep
  refine ⟨l.sent [] fec, ?_, h.took hwrap hemitted⟩
  rw [MeshLink.flushPartial, hstep]
  rfl

/-! ## Receivers -/

/-- The shard finds no entry under its block's id, or one that a shard of its own block made. -/
def FindsOwnEntry (l : FecLink) (n : Nat) : Prop :=
  l.receiver.blocks (UInt16.ofNat n) ≠ none → l.opened (UInt16.ofNat n) = n

instance (l : FecLink) (n : Nat) : Decidable (FindsOwnEntry l n) :=
  inferInstanceAs (Decidable (_ → _))

/-- What a delivered shard does to the record: nothing, or it returns block `n`. -/
structure MeshLink.Gave (rs : ReedSolomon) (config : FecConfig) (l : MeshLink) (n i : Nat)
    (l' : MeshLink) (out : List Tagged) : Prop where
  inv : l'.Inv rs config
  blocks_eq : l'.blocks = l.blocks
  waiting_eq : l'.waiting = l.waiting
  returned : (out = [] ∧ l'.returned = l.returned) ∨
    Completing l.fec n i ∧ l.blocks[n]? = some out ∧ l'.returned = l.returned ++ [n]

/-- Payloads of a block get the sources that the record has for them. -/
theorem tagged_eq {block : List Tagged} {payloads : List Bytes}
    (h : block.map Tagged.payload = payloads) : tagged block payloads = block := by
  subst h
  apply List.ext_getElem?
  intro i
  rw [tagged, List.getElem?_mapIdx, List.getElem?_map]
  cases hi : block[i]? with
  | none => rfl
  | some t => rfl

theorem MeshLink.Inv.receive {l : MeshLink} (h : l.Inv rs config) (hlaw : Lawful rs config)
    (now : Nat) {n : Nat} (i : Nat) (hown : FindsOwnEntry l.fec n) :
    ∃ l' out, l.receive rs now n i = .ok (l', out) ∧ l.Gave rs config n i l' out := by
  cases hshard : l.fec.shard? n i with
  | none =>
    -- there is no such shard
    refine ⟨l, [], ?_, h, rfl, rfl, Or.inl ⟨rfl, rfl⟩⟩
    rw [MeshLink.receive, linkStep, hshard]
    rfl
  | some bytes =>
    obtain ⟨fec, out, hstep, hwrap, hemitted, hout⟩ := h.wrap.deliver hlaw now (n := n) (i := i)
      ⟨by rw [hshard]; rfl, hown⟩
    have hinv : ∀ returned : List Nat, (∀ m ∈ returned, m < l.blocks.length) →
        MeshLink.Inv rs config { l with fec := fec, returned := returned } := by
      intro returned hreturned
      refine ⟨hwrap, ?_, hreturned⟩
      rw [hemitted]
      exact h.blocks_eq
    cases out with
    | none =>
      refine ⟨{ l with fec := fec }, [], ?_, hinv l.returned h.returned_lt, rfl, rfl,
        Or.inl ⟨rfl, rfl⟩⟩
      rw [MeshLink.receive, hstep]
      rfl
    | some payloads =>
      -- the payloads of the block are those recorded for it, so they get the recorded sources
      obtain ⟨hcompletes, block, hblock, hpayloads⟩ := hout payloads rfl
      obtain ⟨recorded, hrecorded, hmap⟩ := h.getElem?_blocks hblock
      have htagged : tagged (l.blocks.getD n []) payloads = recorded := by
        rw [List.getD_eq_getElem?_getD, hrecorded, Option.getD_some]
        exact tagged_eq (hmap.trans hpayloads)
      have hreturned : ∀ m ∈ l.returned ++ [n], m < l.blocks.length := by
        intro m hm
        rcases List.mem_append.mp hm with hold | hnew
        · exact h.returned_lt m hold
        · rw [List.mem_singleton.mp hnew]
          exact (List.getElem?_eq_some_iff.mp hrecorded).1
      refine ⟨{ l with fec := fec, returned := l.returned ++ [n] }, recorded, ?_,
        hinv (l.returned ++ [n]) hreturned, rfl, rfl, Or.inr ⟨hcompletes, hrecorded, rfl⟩⟩
      rw [MeshLink.receive, hstep, ← htagged]
      rfl

theorem MeshLink.Inv.expire {l : MeshLink} (h : l.Inv rs config) (now : Nat) :
    (l.expire now).Inv rs config where
  wrap := h.wrap.expire now 500
  blocks_eq := h.blocks_eq
  returned_lt := h.returned_lt

end EntrouterLine.Mesh
