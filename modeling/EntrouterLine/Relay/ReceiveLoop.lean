import EntrouterLine.Lib.Machine
import EntrouterLine.Relay.LossTracker
import EntrouterLine.Relay.Tunnel

/-!
# The receive loop of one peer

`receiveRound` is one round of `receive_loop`, which measures loss by the gaps between sequence
numbers. The loop that closes a gap advances `expected_seq` until it equals the number that was
received, so that it records the wrapping difference of the two as lost (`trackGap_eq`), and it runs
before the datagram is authenticated.

A datagram that fails authentication leaves the sequence state alone exactly if it is too short or
truncated; one that `decrypt` rejects moves `expected_seq` wherever its header says
(`undisturbed_iff`, `forged_datagram_moves`).
-/

set_option autoImplicit false

namespace EntrouterLine.Relay

open EntrouterLine.Lib

/-! ## The loop -/

/-- A call of `record`, and what it is made for: a truncated datagram, a sequence number in a gap, a
datagram that was received, or one that could not be decrypted. -/
inductive LossRecord where
  | truncated
  | lost (seq : UInt64)
  | arrived (seq : UInt64)
  | undecryptable (seq : UInt64)
  deriving DecidableEq

/-- The argument of the call. -/
def LossRecord.received : LossRecord → Bool
  | .arrived _ => true
  | _ => false

/-- The variables of the loop, and the calls of `record` it has made. -/
structure ReceiveLoop where
  buf : RxBuf
  expectedSeq : UInt64
  lossTracker : LossTracker
  calls : List LossRecord

def ReceiveLoop.start (lossTracker : LossTracker) : ReceiveLoop := ⟨RxBuf.zero, 0, lossTracker, []⟩

def ReceiveLoop.record (l : ReceiveLoop) (call : LossRecord) : Except Panic ReceiveLoop :=
  match l.lossTracker.record call.received with
  | .error p => .error p
  | .ok lossTracker => .ok { l with lossTracker := lossTracker, calls := l.calls ++ [call] }

theorem toNat_sub_add_one_lt {expectedSeq seq : UInt64} (h : expectedSeq ≠ seq) :
    (seq - (expectedSeq + 1)).toNat < (seq - expectedSeq).toNat := by
  have hne : seq.toNat ≠ expectedSeq.toNat := fun heq => h (UInt64.toNat_inj.mp heq).symm
  have hlt := seq.toNat_lt
  have hlt' := expectedSeq.toNat_lt
  simp only [UInt64.toNat_sub, UInt64.toNat_add, UInt64.toNat_one]
  omega

/-- `while expected_seq != seq`: every number in the gap is recorded as lost. -/
def ReceiveLoop.trackGap (l : ReceiveLoop) (seq : UInt64) : Except Panic ReceiveLoop :=
  if l.expectedSeq = seq then .ok l
  else
    match l.lossTracker.record false with
    | .error p => .error p
    | .ok lossTracker =>
        ReceiveLoop.trackGap { l with
          lossTracker := lossTracker
          calls := l.calls ++ [.lost l.expectedSeq]
          expectedSeq := l.expectedSeq + 1 } seq
termination_by (seq - l.expectedSeq).toNat
decreasing_by exact toNat_sub_add_one_lt ‹¬l.expectedSeq = seq›

/-- One round of `receive_loop`, on a datagram from anywhere. The output is the packet that is sent
to the channel. -/
def receiveRound (aead : Aead) (crypto : TunnelCrypto) (l : ReceiveLoop) (source : SocketAddr)
    (datagram : Bytes) : Except Panic (ReceiveLoop × Option ReceivedPacket) :=
  let (len, buf) := l.buf.recvFrom datagram
  let l := { l with buf := buf }
  if len < headerSize then .ok (l, none)
  else
    let (packetType, seq, payloadLen) := decodeHeader buf.bytes
    let ctStart := headerSize
    let ctEnd := ctStart + payloadLen.toNat
    if ctEnd > len then do
      let l ← l.record .truncated
      return (l, none)
    else do
      let l ← l.trackGap seq
      let l ← l.record (.arrived seq)
      let l := { l with expectedSeq := l.expectedSeq + 1 }
      let ciphertext := (buf.bytes.take ctEnd).drop ctStart
      match crypto.decrypt aead seq ciphertext with
      | .ok plaintext => return (l, some ⟨packetType, seq, plaintext, source⟩)
      | .error _ => do
          let l ← l.record (.undecryptable seq)
          return (l, none)

/-- A datagram and the address it comes from. -/
abbrev Datagram := SocketAddr × Bytes

/-- The loop as a machine. -/
def receiveStep (aead : Aead) (crypto : TunnelCrypto) (l : ReceiveLoop) (d : Datagram) :
    Except Panic (ReceiveLoop × Option ReceivedPacket) :=
  receiveRound aead crypto l d.1 d.2

/-! ## Gaps -/

/-- The numbers from `expectedSeq` up to `seq`, around the end of the 64-bit numbers if need be. -/
def gap (expectedSeq seq : UInt64) : List UInt64 :=
  if expectedSeq = seq then [] else expectedSeq :: gap (expectedSeq + 1) seq
termination_by (seq - expectedSeq).toNat
decreasing_by exact toNat_sub_add_one_lt ‹¬expectedSeq = seq›

theorem gap_self (seq : UInt64) : gap seq seq = [] := by
  rw [gap, if_pos rfl]

theorem gap_of_ne {expectedSeq seq : UInt64} (h : expectedSeq ≠ seq) :
    gap expectedSeq seq = expectedSeq :: gap (expectedSeq + 1) seq := by
  rw [gap, if_neg h]

/-- A gap has as many numbers as the wrapping difference says. -/
theorem length_gap (expectedSeq seq : UInt64) :
    (gap expectedSeq seq).length = (seq - expectedSeq).toNat := by
  induction expectedSeq using gap.induct seq with
  | case1 => rw [gap_self, UInt64.sub_self]; rfl
  | case2 expectedSeq h ih =>
    rw [gap_of_ne h, List.length_cons, ih]
    have hne : seq.toNat ≠ expectedSeq.toNat := fun heq => h (UInt64.toNat_inj.mp heq).symm
    have hlt := seq.toNat_lt
    have hlt' := expectedSeq.toNat_lt
    simp only [UInt64.toNat_sub, UInt64.toNat_add, UInt64.toNat_one]
    omega

/-! ## What a round does -/

/-- A loop whose tracker is a ring buffer with an exact count: its calls of `record` do not
panic. -/
def ReceiveLoop.Tracking (l : ReceiveLoop) : Prop := ∃ r, l.lossTracker = LossTracker.ofRing r

variable (aead : Aead) (crypto : TunnelCrypto) {l : ReceiveLoop}

theorem tracking_start {windowSize : Nat} (h : 1 ≤ windowSize) :
    (ReceiveLoop.start (LossTracker.new windowSize)).Tracking :=
  ⟨_, new_eq_ofRing h⟩

/-- The state of the sequence numbers after some calls: they are appended, and the tracker has
recorded them. -/
structure ReceiveLoop.Recorded (l l' : ReceiveLoop) (expectedSeq : UInt64)
    (calls : List LossRecord) : Prop where
  tracking : l'.Tracking
  buf_eq : l'.buf = l.buf
  expectedSeq_eq : l'.expectedSeq = expectedSeq
  calls_eq : l'.calls = l.calls ++ calls

theorem record_ok (h : l.Tracking) (call : LossRecord) :
    ∃ l', l.record call = .ok l' ∧ l.Recorded l' l.expectedSeq [call] := by
  obtain ⟨r, hr⟩ := h
  refine ⟨{ l with
    lossTracker := LossTracker.ofRing (r.push call.received)
    calls := l.calls ++ [call] }, ?_, ⟨_, rfl⟩, rfl, rfl, rfl⟩
  rw [ReceiveLoop.record, hr, record_ofRing]

/-- The loop over a gap ends at the number that was received, and records every number before it. -/
theorem trackGap_eq (h : l.Tracking) (seq : UInt64) :
    ∃ l', l.trackGap seq = .ok l' ∧
      l.Recorded l' seq ((gap l.expectedSeq seq).map .lost) := by
  induction l using ReceiveLoop.trackGap.induct seq with
  | case1 l heq =>
    refine ⟨l, ?_, h, rfl, heq, ?_⟩
    · rw [ReceiveLoop.trackGap, if_pos heq]
    · rw [heq, gap_self, List.map_nil, List.append_nil]
  | case2 l hne p hpanic =>
    -- the tracker does not panic
    obtain ⟨r, hr⟩ := h
    rw [hr, record_ofRing] at hpanic
    cases hpanic
  | case3 l hne lossTracker hrecord ih =>
    obtain ⟨r, hr⟩ := h
    have htracker : lossTracker = LossTracker.ofRing (r.push false) := by
      rw [hr, record_ofRing] at hrecord
      exact (Except.ok.inj hrecord).symm
    obtain ⟨l', hgap, hrecorded⟩ := ih ⟨r.push false, htracker⟩
    refine ⟨l', ?_, hrecorded.tracking, hrecorded.buf_eq, hrecorded.expectedSeq_eq, ?_⟩
    · rw [ReceiveLoop.trackGap, if_neg hne, hrecord]
      exact hgap
    · rw [hrecorded.calls_eq, gap_of_ne hne, List.map_cons, List.append_assoc]
      rfl

/-- The calls for a complete datagram: the gap before it, and its arrival. -/
def arrivalCalls (expectedSeq seq : UInt64) : List LossRecord :=
  (gap expectedSeq seq).map .lost ++ [.arrived seq]

theorem receiveRound_short (source : SocketAddr) {datagram : Bytes}
    (hshort : (datagram.take maxPacket).length < headerSize) :
    receiveRound aead crypto l source datagram =
      .ok ({ l with buf := (l.buf.recvFrom datagram).2 }, none) := by
  unfold receiveRound
  simp only [recvFrom_len, hshort, if_true]

theorem receiveRound_truncated (h : l.Tracking) (source : SocketAddr) {datagram : Bytes}
    (hheader : headerSize ≤ (datagram.take maxPacket).length)
    (hcarried : carried (datagram.take maxPacket) = none) :
    ∃ l', receiveRound aead crypto l source datagram = .ok (l', none) ∧ l'.Tracking ∧
      l'.expectedSeq = l.expectedSeq ∧ l'.calls = l.calls ++ [.truncated] := by
  have hlong : headerSize + (decodeHeader (datagram.take maxPacket)).2.2.toNat >
      (datagram.take maxPacket).length := by
    by_contra hle
    have hsome := carried_eq_some_iff.mpr ⟨hheader, Nat.le_of_not_lt hle, rfl, rfl, rfl⟩
    rw [hcarried] at hsome
    cases hsome
  have htracking : ReceiveLoop.Tracking { l with buf := (l.buf.recvFrom datagram).2 } := h
  obtain ⟨l', hrecord, hrecorded⟩ := record_ok htracking .truncated
  refine ⟨l', ?_, hrecorded.tracking, hrecorded.expectedSeq_eq, hrecorded.calls_eq⟩
  unfold receiveRound
  simp only [recvFrom_len, Nat.not_lt_of_le hheader, if_false, decodeHeader_recvFrom _ hheader,
    hlong, if_true, hrecord]
  rfl

theorem receiveRound_carried (h : l.Tracking) (source : SocketAddr) {datagram : Bytes}
    {packetType : UInt8} {seq : UInt64} {ct : Bytes}
    (hcarried : carried (datagram.take maxPacket) = some (packetType, seq, ct)) :
    ∃ l', l'.Tracking ∧ l'.expectedSeq = seq + 1 ∧
      ((∃ plaintext, crypto.decrypt aead seq ct = .ok plaintext ∧
        receiveRound aead crypto l source datagram =
          .ok (l', some ⟨packetType, seq, plaintext, source⟩) ∧
        l'.calls = l.calls ++ arrivalCalls l.expectedSeq seq) ∨
      (∃ e, crypto.decrypt aead seq ct = .error e ∧
        receiveRound aead crypto l source datagram = .ok (l', none) ∧
        l'.calls = l.calls ++ arrivalCalls l.expectedSeq seq ++ [.undecryptable seq])) := by
  obtain ⟨hheader, hfits, rfl, rfl, rfl⟩ := carried_eq_some_iff.mp hcarried
  have htracking : ReceiveLoop.Tracking { l with buf := (l.buf.recvFrom datagram).2 } := h
  -- the loss records are made before the decryption, whatever that gives
  obtain ⟨l₁, hgap, h₁⟩ := trackGap_eq htracking (decodeHeader (datagram.take maxPacket)).2.1
  obtain ⟨l₂, harrived, h₂⟩ := record_ok h₁.tracking
    (.arrived (decodeHeader (datagram.take maxPacket)).2.1)
  have hexpected : l₂.expectedSeq + 1 = (decodeHeader (datagram.take maxPacket)).2.1 + 1 := by
    rw [h₂.expectedSeq_eq, h₁.expectedSeq_eq]
  have hcalls : l₂.calls = l.calls ++
      arrivalCalls l.expectedSeq (decodeHeader (datagram.take maxPacket)).2.1 := by
    rw [h₂.calls_eq, h₁.calls_eq, List.append_assoc]
    rfl
  have htracking₂ : ReceiveLoop.Tracking { l₂ with expectedSeq := l₂.expectedSeq + 1 } :=
    h₂.tracking
  cases hdecrypt : crypto.decrypt aead (decodeHeader (datagram.take maxPacket)).2.1
      (((datagram.take maxPacket).drop headerSize).take
        (decodeHeader (datagram.take maxPacket)).2.2.toNat) with
  | ok plaintext =>
    refine ⟨_, htracking₂, hexpected, Or.inl ⟨plaintext, rfl, ?_, hcalls⟩⟩
    unfold receiveRound
    simp only [recvFrom_len, Nat.not_lt_of_le hheader, if_false, decodeHeader_recvFrom _ hheader,
      gt_iff_lt, Nat.not_lt_of_le hfits, ciphertext_recvFrom _ hfits, hdecrypt, hgap]
    simp only [bind, Except.bind, harrived, pure, Except.pure]
  | error e =>
    obtain ⟨l₃, hrejected, h₃⟩ := record_ok htracking₂
      (.undecryptable (decodeHeader (datagram.take maxPacket)).2.1)
    refine ⟨l₃, h₃.tracking, h₃.expectedSeq_eq.trans hexpected, Or.inr ⟨e, rfl, ?_, ?_⟩⟩
    · unfold receiveRound
      simp only [recvFrom_len, Nat.not_lt_of_le hheader, if_false, decodeHeader_recvFrom _ hheader,
        gt_iff_lt, Nat.not_lt_of_le hfits, ciphertext_recvFrom _ hfits, hdecrypt, hgap]
      simp only [bind, Except.bind, harrived, hrejected, pure, Except.pure]
    · rw [h₃.calls_eq, ← hcalls]

/-! ## Runs -/

/-- No round panics. -/
theorem receiveStep_ok (h : l.Tracking) (d : Datagram) :
    ∃ l' o, receiveStep aead crypto l d = .ok (l', o) ∧ l'.Tracking := by
  by_cases hshort : (d.2.take maxPacket).length < headerSize
  · exact ⟨_, none, receiveRound_short aead crypto d.1 hshort, h⟩
  · cases hcarried : carried (d.2.take maxPacket) with
    | none =>
      obtain ⟨l', hround, htracking, -⟩ :=
        receiveRound_truncated aead crypto h d.1 (Nat.le_of_not_lt hshort) hcarried
      exact ⟨l', none, hround, htracking⟩
    | some fields =>
      obtain ⟨packetType, seq, ct⟩ := fields
      obtain ⟨l', htracking, -, ⟨plaintext, -, hround, -⟩ | ⟨e, -, hround, -⟩⟩ :=
        receiveRound_carried aead crypto h d.1 hcarried
      · exact ⟨l', _, hround, htracking⟩
      · exact ⟨l', _, hround, htracking⟩

theorem receive_run {windowSize : Nat} (hsize : 1 ≤ windowSize) (ds : List Datagram) :
    ∃ l os, Machine.run (receiveStep aead crypto)
        (ReceiveLoop.start (LossTracker.new windowSize)) ds = .ok (l, os) ∧ l.Tracking := by
  have halong : Machine.Along (receiveStep aead crypto) (fun _ _ => True)
      (ReceiveLoop.start (LossTracker.new windowSize)) ds :=
    Machine.along_of_invariant (I := fun _ => True) trivial (fun _ _ _ _ _ _ => trivial) ds
  exact Machine.run_safe (P := fun _ l _ => l.Tracking) (tracking_start hsize)
    (fun _ _ _ d htracking _ => receiveStep_ok aead crypto htracking d) ds halong

/-! ## Datagrams that fail -/

/-- The received part of the datagram is too short or truncated, or `decrypt` rejects what it
carries. -/
def FailsAuthentication (aead : Aead) (crypto : TunnelCrypto) (datagram : Bytes) : Prop :=
  ∀ packetType seq ct, carried (datagram.take maxPacket) = some (packetType, seq, ct) →
    crypto.decrypt aead seq ct = .error .decryptionFailed

/-- The round leaves the expected number alone and calls `record` once at most. -/
def ReceiveLoop.Undisturbed (l l' : ReceiveLoop) : Prop :=
  l'.expectedSeq = l.expectedSeq ∧ l'.calls.length ≤ l.calls.length + 1

/-- A datagram that fails authentication leaves every state that a run reaches undisturbed exactly
if it is too short or truncated. -/
theorem undisturbed_iff {windowSize : Nat} (hsize : 1 ≤ windowSize) (ds : List Datagram) :
    ∃ l os, Machine.run (receiveStep aead crypto)
        (ReceiveLoop.start (LossTracker.new windowSize)) ds = .ok (l, os) ∧
      ∀ source datagram, FailsAuthentication aead crypto datagram →
        ∃ l', receiveRound aead crypto l source datagram = .ok (l', none) ∧
          (l.Undisturbed l' ↔ carried (datagram.take maxPacket) = none) := by
  obtain ⟨l, os, hrun, htracking⟩ := receive_run aead crypto hsize ds
  refine ⟨l, os, hrun, ?_⟩
  intro source datagram hfails
  cases hcarried : carried (datagram.take maxPacket) with
  | none =>
    by_cases hshort : (datagram.take maxPacket).length < headerSize
    · refine ⟨_, receiveRound_short aead crypto source hshort, ?_⟩
      exact iff_of_true ⟨rfl, Nat.le_succ _⟩ rfl
    · obtain ⟨l', hround, -, hexpected, hcalls⟩ :=
        receiveRound_truncated aead crypto htracking source (Nat.le_of_not_lt hshort) hcarried
      refine ⟨l', hround, iff_of_true ⟨hexpected, ?_⟩ rfl⟩
      rw [hcalls, List.length_append, List.length_singleton]
  | some fields =>
    obtain ⟨packetType, seq, ct⟩ := fields
    have hrejected := hfails packetType seq ct hcarried
    obtain ⟨l', -, -, ⟨plaintext, hopened, -⟩ | ⟨e, -, hround, hcalls⟩⟩ :=
      receiveRound_carried aead crypto htracking source hcarried
    · rw [hrejected] at hopened
      cases hopened
    · refine ⟨l', hround, iff_of_false ?_ (Option.some_ne_none _)⟩
      -- the arrival and the rejection are recorded both
      rintro ⟨-, hlength⟩
      rw [hcalls, arrivalCalls] at hlength
      simp only [List.length_append, List.length_singleton] at hlength
      omega

def loopCrypto : TunnelCrypto := ⟨⟨List.replicate keySize 1, List.length_replicate⟩⟩

def localPeer : SocketAddr := ⟨0x7f000001, 4433⟩

/-- A frame with sequence number 5 and sixteen bytes that do not open under the key. -/
def forgedFrame : Bytes := frameOf packetData 5 (List.replicate authTagSize 1)

theorem carried_forgedFrame :
    carried (forgedFrame.take maxPacket) = some (packetData, 5, List.replicate authTagSize 1) := by
  have hfits : forgedFrame.length ≤ maxPacket := by decide
  rw [List.take_of_length_le hfits]
  exact carried_of_frame_prefix (hfits.trans (by decide)) List.prefix_rfl

/-- Nothing opens the forged frame. -/
theorem forgedFrame_fails : FailsAuthentication tagAead loopCrypto forgedFrame := by
  intro packetType seq ct hcarried
  rw [carried_forgedFrame] at hcarried
  cases hcarried
  decide

/-- A frame that the key opens. -/
def openedFrame (seq : UInt64) : Bytes :=
  frameOf packetData seq (loopCrypto.encrypt tagAead seq [7])

theorem carried_openedFrame (seq : UInt64) : carried ((openedFrame seq).take maxPacket) =
    some (packetData, seq, loopCrypto.encrypt tagAead seq [7]) := by
  have hfits : (openedFrame seq).length ≤ maxPacket := by
    have hct : (loopCrypto.encrypt tagAead seq [7]).length = 1 + authTagSize :=
      tagAead_tagLength _ _ _
    rw [openedFrame, length_frameOf, hct]
    decide
  rw [List.take_of_length_le hfits]
  exact carried_of_frame_prefix (hfits.trans (by decide)) List.prefix_rfl

theorem receiveRound_openedFrame {l : ReceiveLoop} (h : l.Tracking) (seq : UInt64) :
    ∃ l', l'.Tracking ∧ receiveRound tagAead loopCrypto l localPeer (openedFrame seq) =
      .ok (l', some ⟨packetData, seq, [7], localPeer⟩) := by
  have hopens : loopCrypto.decrypt tagAead seq (loopCrypto.encrypt tagAead seq [7]) = .ok [7] :=
    decrypt_eq_ok_iff.mpr (tagAead_opens _ _ _)
  obtain ⟨l', htracking, -, ⟨plaintext, hplain, hround, -⟩ | ⟨e, hrejected, -⟩⟩ :=
    receiveRound_carried tagAead loopCrypto h localPeer (carried_openedFrame seq)
  · rw [hopens] at hplain
    cases hplain
    exact ⟨l', htracking, hround⟩
  · rw [hopens] at hrejected
    cases hrejected

/-- Two frames that open, with a short datagram and a forged frame between them. -/
def mixedDatagrams : List Datagram :=
  [openedFrame 0, [1, 2, 3], forgedFrame, openedFrame 6].map fun datagram => (localPeer, datagram)

/-- After these, the forged frame once more disturbs the loop, and the short datagram does not. -/
theorem undisturbed_iff_mixed :
    ∃ l, Machine.run (receiveStep tagAead loopCrypto) (ReceiveLoop.start (LossTracker.new 1000))
        mixedDatagrams = .ok (l, [some ⟨packetData, 0, [7], localPeer⟩, none, none,
          some ⟨packetData, 6, [7], localPeer⟩]) ∧
      (∃ l', receiveRound tagAead loopCrypto l localPeer forgedFrame = .ok (l', none) ∧
        ¬ l.Undisturbed l') ∧
      ∃ l', receiveRound tagAead loopCrypto l localPeer [1, 2, 3] = .ok (l', none) ∧
        l.Undisturbed l' := by
  obtain ⟨l₁, h₁, hopened⟩ := receiveRound_openedFrame
    (tracking_start (by decide : 1 ≤ 1000)) 0
  -- the short datagram only leaves its bytes in the buffer
  have hshort := receiveRound_short (l := l₁) tagAead loopCrypto localPeer
    (by decide : (([1, 2, 3] : Bytes).take maxPacket).length < headerSize)
  have h₂ : ReceiveLoop.Tracking { l₁ with buf := (l₁.buf.recvFrom [1, 2, 3]).2 } := h₁
  -- the forged one moves the loop on to the number after its own
  obtain ⟨l₃, h₃, -, ⟨plaintext, hplain, -⟩ | ⟨e, -, hforged, -⟩⟩ :=
    receiveRound_carried tagAead loopCrypto h₂ localPeer carried_forgedFrame
  · rw [forgedFrame_fails _ _ _ carried_forgedFrame] at hplain
    cases hplain
  obtain ⟨l₄, -, hlast⟩ := receiveRound_openedFrame h₃ 6
  have hrun : Machine.run (receiveStep tagAead loopCrypto)
      (ReceiveLoop.start (LossTracker.new 1000)) mixedDatagrams = .ok (l₄, _) :=
    Machine.run_cons_ok hopened <| Machine.run_cons_ok hshort <|
      Machine.run_cons_ok hforged <| Machine.run_cons_ok hlast (Machine.run_nil _)
  obtain ⟨l, os, hrun', hfails⟩ :=
    undisturbed_iff tagAead loopCrypto (by decide : 1 ≤ 1000) mixedDatagrams
  rw [hrun, Except.ok.injEq, Prod.mk.injEq] at hrun'
  obtain ⟨rfl, rfl⟩ := hrun'
  refine ⟨_, hrun, ?_, ?_⟩
  · obtain ⟨l', hround, hiff⟩ := hfails localPeer forgedFrame forgedFrame_fails
    refine ⟨l', hround, fun hsame => ?_⟩
    have hnone := hiff.mp hsame
    rw [carried_forgedFrame] at hnone
    cases hnone
  · obtain ⟨l', hround, hiff⟩ := hfails localPeer [1, 2, 3] (by intro _ _ _ h; cases h)
    exact ⟨l', hround, hiff.mpr rfl⟩

/-- One forged frame makes the loop expect its number plus one, and costs seven calls. -/
theorem forged_datagram_moves :
    FailsAuthentication tagAead loopCrypto forgedFrame ∧
      ∃ l, receiveRound tagAead loopCrypto (ReceiveLoop.start (LossTracker.new 1000)) localPeer
          forgedFrame = .ok (l, none) ∧
        l.expectedSeq = 6 ∧ l.calls.length = 7 := by
  refine ⟨forgedFrame_fails, ?_⟩
  have hrejected := forgedFrame_fails _ _ _ carried_forgedFrame
  obtain ⟨l, -, hexpected, ⟨plaintext, hopened, -⟩ | ⟨e, -, hround, hcalls⟩⟩ :=
    receiveRound_carried tagAead loopCrypto
      (tracking_start (by decide : 1 ≤ 1000)) localPeer carried_forgedFrame
  · rw [hrejected] at hopened
    cases hopened
  · refine ⟨l, hround, hexpected, ?_⟩
    rw [hcalls, arrivalCalls]
    simp only [List.length_append, List.length_map, List.length_singleton, length_gap]
    rfl

end EntrouterLine.Relay
