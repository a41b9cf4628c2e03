import EntrouterLine.Harness.Collect

/-!
# The verdict of the test

The receiver recovers a block exactly if as many different frames of it have arrived as it has data
shards, it counts the others as lost, and what it recovers is the block that was sent. So the test
announces that nothing is lost exactly if no block has lost more frames than it has parity shards;
on a link that neither drops nor reorders anything itself, this is a statement about the random
numbers of the proxy alone (`verdict_exact`).
-/

set_option autoImplicit false

namespace EntrouterLine.Harness

open EntrouterLine.Lib
open EntrouterLine.Lib.Chunks
open EntrouterLine.Relay

/-- Reconstruction is an error if fewer shards are present than there are data shards. -/
def RefusesFew (rs : ReedSolomon) (d p : Nat) : Prop :=
  ∀ held : List (Option Bytes), held.length = d + p → held.countP Option.isSome < d →
    rs.reconstruct d p held = none

theorem smallCodec_refusesFew_one (p : Nat) : RefusesFew smallCodec 1 p := by
  intro held hlength hfew
  have hnone : held.find? Option.isSome = none := by
    rw [List.find?_eq_none]
    intro slot hslot hsome
    have hpos := List.countP_pos_iff.mpr ⟨slot, hslot, hsome⟩
    omega
  show (held.find? Option.isSome).map _ = none
  rw [hnone]
  rfl

/-! ## The data of a block -/

/-- A byte string is padded piece by piece. -/
theorem resize_add (data : Bytes) (a n : Nat) :
    resize data (a + n) = resize data a ++ resize ((data.drop a).take n) n := by
  rw [resize, resize, resize, List.take_take, Nat.min_self, List.length_take, List.length_drop]
  by_cases ha : a ≤ data.length
  · have hzero : a - data.length = 0 := by omega
    have hrest : n - min n (data.length - a) = a + n - data.length := by omega
    rw [hzero, hrest, List.replicate_zero, List.append_nil, List.take_add, List.append_assoc]
  · -- the data ends before the second piece
    have hdrop : data.drop a = [] := List.drop_eq_nil_of_le (by omega)
    have hrest : a + n - data.length = a - data.length + (n - min n (data.length - a)) := by omega
    rw [hdrop, hrest, ← List.replicate_append_replicate, List.take_of_length_le (by omega),
      List.take_of_length_le (by omega), List.take_nil, List.nil_append, List.append_assoc]

/-- The chunks of a byte string, each padded to its size, are the byte string padded. -/
theorem flatten_resize_chunks (data : Bytes) (n k : Nat) :
    ((List.range k).map fun j => resize ((data.drop (j * n)).take n) n).flatten =
      resize data (k * n) := by
  induction k with
  | zero => simp [resize]
  | succ k ih =>
    rw [List.range_succ, List.map_append, List.flatten_append, ih, List.map_singleton,
      List.flatten_singleton, Nat.succ_mul, resize_add]

/-- The data shards start with the data. -/
theorem take_flatten_chunkShards (config : FecConfig) {n : Nat} (hn : 0 < n) (data : Bytes) :
    (chunkShards config n data).flatten.take data.length = data := by
  have hround : data.length ≤ (data.length + n - 1) / n * n := by
    have hdiv := Nat.lt_div_mul_add (a := data.length + n - 1) hn
    omega
  have hchunks : ((chunks n data).map fun c => resize c n).flatten =
      resize data ((data.length + n - 1) / n * n) := by
    rw [chunks, List.map_map]
    exact flatten_resize_chunks data n _
  rw [chunkShards, List.flatten_append, hchunks, resize_of_le hround, List.append_assoc,
    List.take_left']
  rfl

/-! ## Blocks -/

variable {rs : ReedSolomon} {aead : Aead} {crypto : TunnelCrypto} {config : FecConfig}
  {datas : List Bytes} {frames shards : List (List Bytes)}

theorem countP_isSome_heldShards {fs ss : List Bytes} (h : fs.length = ss.length)
    (heard : List Bytes) :
    (heldShards fs ss heard).countP Option.isSome = fs.countP (· ∈ heard) := by
  induction fs generalizing ss with
  | nil => rfl
  | cons f fs ih =>
    cases ss with
    | nil => cases h
    | cons s ss =>
      have hrest := ih (Nat.succ.inj h)
      show ((if f ∈ heard then some s else none) :: heldShards fs ss heard).countP _ = _
      rw [List.countP_cons, List.countP_cons, hrest]
      by_cases hf : f ∈ heard
      · rw [if_pos hf, decide_eq_true hf]
        rfl
      · rw [if_neg hf, decide_eq_false hf]
        rfl

theorem length_heldShards {fs ss : List Bytes} (h : fs.length = ss.length) (heard : List Bytes) :
    (heldShards fs ss heard).length = ss.length := by
  rw [heldShards, List.length_zipWith, h, Nat.min_self]

theorem agreesWith_heldShards {fs ss heard : List Bytes} :
    AgreesWith (heldShards fs ss heard) ss := by
  intro i s hs
  rw [heldShards, List.getElem?_zipWith] at hs
  split at hs
  case h_1 frame shard hframe hshard =>
    rw [Option.some.injEq] at hs
    split at hs
    case isTrue =>
      cases hs
      exact hshard
    case isFalse => cases hs
  case h_2 => cases hs

theorem countP_isNone (block : List (Option Bytes)) :
    block.countP Option.isNone + block.countP Option.isSome = block.length := by
  rw [Nat.add_comm, List.length_eq_countP_add_countP Option.isSome]
  congr 1
  apply List.countP_congr
  intro slot _
  cases slot <;> simp

/-- The result for a block, after the receiver has heard some of its frames: it is recovered exactly
if there are enough of them, the others count as lost, and it is the block that was sent. -/
structure ExactResult (config : FecConfig) (data : Bytes) (frames heard : List Bytes)
    (result : BlockResult × List (Option Bytes)) : Prop where
  success_iff : result.1.success = true ↔ config.dataShards ≤ frames.countP (· ∈ heard)
  shardsLost : result.1.shardsLost + frames.countP (· ∈ heard) = config.totalShards
  data_eq : result.1.success = true →
    ((result.2.take config.dataShards).filterMap id).flatten.take data.length = data

theorem blockResult_eq (hlaw : Lawful rs config)
    (hfew : RefusesFew rs config.dataShards config.parityShards) {b : Nat} {data : Bytes}
    {fs ss : List Bytes} (h : SentBlock rs aead crypto config b data fs ss) (heard : List Bytes) :
    ∃ result, blockResult rs config (heldShards fs ss heard) = .ok result ∧
      ExactResult config data fs heard result := by
  have hlen := length_heldShards h.length_eq heard
  have htotal : ss.length = config.totalShards := h.encoded.block.count
  have hsome := countP_isSome_heldShards h.length_eq heard
  have hlost := countP_isNone (heldShards fs ss heard)
  rw [hsome, hlen, htotal] at hlost
  by_cases henough : config.dataShards ≤ fs.countP (· ∈ heard)
  · have hrec := hlaw.recovers.reconstruct_ok h.encoded.input h.encoded.encode
      (hlen.trans htotal) agreesWith_heldShards (by rw [hsome]; exact henough)
    refine ⟨(⟨true, (heldShards fs ss heard).countP Option.isNone⟩, ss.map some), ?_,
      iff_of_true rfl henough, hlost, ?_⟩
    · simp only [blockResult, fecEncoder_new_of_accepted hlaw.accepts hlaw.accepted, bind,
        Except.bind, FecEncoder.reconstruct, hrec]
      rfl
    · intro _
      rw [← List.map_take, h.encoded.take, List.filterMap_map]
      have hid : (id ∘ some : Bytes → Option Bytes) = some := rfl
      rw [hid, List.filterMap_some]
      exact take_flatten_chunkShards config h.encoded.input.pos data
  · have hrec := hfew (heldShards fs ss heard) (hlen.trans htotal)
      (by rw [hsome]; exact Nat.lt_of_not_le henough)
    refine ⟨(⟨false, (heldShards fs ss heard).countP Option.isNone⟩, heldShards fs ss heard), ?_,
      iff_of_false Bool.false_ne_true henough, hlost, fun h => absurd h Bool.false_ne_true⟩
    simp only [blockResult, fecEncoder_new_of_accepted hlaw.accepts hlaw.accepted, bind,
      Except.bind, FecEncoder.reconstruct, hrec]
    rfl

/-! ## All blocks -/

/-- A loop whose every round succeeds gives a result for every round. -/
theorem mapM_range_ok {α ε : Type} {f : Nat → Except ε α} {P : Nat → α → Prop} {n : Nat}
    (h : ∀ k < n, ∃ a, f k = .ok a ∧ P k a) :
    ∃ as, (List.range n).mapM f = .ok as ∧ as.length = n ∧ ∀ k a, as[k]? = some a → P k a := by
  have hlist : ∀ l : List Nat, (∀ k ∈ l, k < n) → ∃ as, l.mapM f = .ok as ∧
      List.Forall₂ P l as := by
    intro l hl
    induction l with
    | nil => exact ⟨[], rfl, List.Forall₂.nil⟩
    | cons k l ih =>
      obtain ⟨a, ha, hP⟩ := h k (hl k List.mem_cons_self)
      obtain ⟨as, has, hall⟩ := ih fun x hx => hl x (List.mem_cons_of_mem _ hx)
      refine ⟨a :: as, ?_, List.Forall₂.cons hP hall⟩
      rw [List.mapM_cons, ha]
      simp only [bind, Except.bind, has, pure, Except.pure]
  obtain ⟨as, has, hall⟩ := hlist (List.range n) fun k hk => List.mem_range.mp hk
  have hlength : as.length = n := by
    rw [← hall.length_eq, List.length_range]
  refine ⟨as, has, hlength, ?_⟩
  intro k a hk
  have hka : k < as.length := (List.getElem?_eq_some_iff.mp hk).1
  have hget := hall.get (i := k) (by rw [List.length_range]; omega) hka
  rw [List.getElem?_eq_getElem hka, Option.some.injEq] at hk
  rw [← hk]
  simpa using hget

/-- The results of the receiver, for any arrivals of frames that were sent. -/
theorem runReceiver_eq (hlaw : Lawful rs config)
    (hfew : RefusesFew rs config.dataShards config.parityShards) (hopens : aead.Opens)
    (hlength : aead.TagLength) (hsent : Sent rs aead crypto config 0 datas frames shards)
    (hdistinct : Distinct config datas frames) {done : Bytes} {doneSeq : UInt64}
    (hdone : done = frameOf packetControl doneSeq (crypto.encrypt aead doneSeq termPayload))
    {arrivals : List Bytes} (harrivals : ∀ a ∈ arrivals, a ∈ frames.flatten ∨ a = done) :
    ∃ results : List (BlockResult × List (Option Bytes)),
      runReceiver rs aead crypto config datas.length arrivals = .ok results ∧
      results.length = datas.length ∧
      ∀ (b : Nat) result data fs, results[b]? = some result → datas[b]? = some data →
        frames[b]? = some fs →
        ExactResult config data fs (arrivals.takeWhile (· ≠ done)) result := by
  have hstart : Collected config frames shards [] Receiver.start.blocks := by
    intro b fs ss hfs hss
    have hb : b < datas.length := by
      rw [← hsent.length_frames]
      exact (List.getElem?_eq_some_iff.mp hfs).1
    have hblock := hsent.blocks b datas[b] fs ss (List.getElem?_eq_getElem hb) hfs hss
    have htotal : ss.length = config.totalShards := hblock.encoded.block.count
    rw [heldShards_nil hblock.length_eq, htotal]
    rfl
  obtain ⟨r, hloop, hcollected⟩ := receiverLoop_collected hopens hlength hsent hdistinct hdone
    harrivals (tracking_start (by decide : 1 ≤ 1000)) hstart
  rw [List.nil_append] at hcollected
  have hblocks : ∀ b < datas.length, ∃ result,
      blockResult rs config (r.blocks.entry config (UInt32.ofNat b)) = .ok result ∧
        ∀ data fs, datas[b]? = some data → frames[b]? = some fs →
          ExactResult config data fs (arrivals.takeWhile (· ≠ done)) result := by
    intro b hb
    have hdata := List.getElem?_eq_getElem hb
    have hfs := List.getElem?_eq_getElem (l := frames) (i := b) (by rwa [hsent.length_frames])
    have hss := List.getElem?_eq_getElem (l := shards) (i := b) (by rwa [hsent.length_shards])
    obtain ⟨result, hresult, hexact⟩ := blockResult_eq hlaw hfew
      (hsent.blocks b _ _ _ hdata hfs hss) (arrivals.takeWhile (· ≠ done))
    refine ⟨result, ?_, ?_⟩
    · rw [hcollected b _ _ hfs hss]
      exact hresult
    · intro data fs hdata' hfs'
      rw [hdata, Option.some.injEq] at hdata'
      rw [hfs, Option.some.injEq] at hfs'
      rw [← hdata', ← hfs']
      exact hexact
  have hcount : (UInt32.ofNat datas.length).toNat = datas.length := by
    rw [UInt32.toNat_ofNat', Nat.mod_eq_of_lt hdistinct.count]
  obtain ⟨results, hresults, hlen, hall⟩ := mapM_range_ok hblocks
  refine ⟨results, ?_, hlen, ?_⟩
  · rw [runReceiver, hloop]
    simp only [bind, Except.bind, hcount]
    exact hresults
  · intro b result data fs hresult hdata hfs
    exact hall b result hresult data fs hdata hfs

/-! ## The summary -/

theorem foldl_add (s : Summary) (results : List BlockResult) :
    results.foldl Summary.add s =
      ⟨s.recovered + results.countP BlockResult.success,
        s.failed + results.countP (fun result => !result.success),
        s.totalShardsLost + (results.map BlockResult.shardsLost).sum⟩ := by
  induction results generalizing s with
  | nil => rfl
  | cons result results ih =>
    rw [List.foldl_cons, ih, List.countP_cons, List.countP_cons, List.map_cons, List.sum_cons]
    cases hsuccess : result.success <;>
      simp [Summary.add, hsuccess, Nat.add_assoc, Nat.add_comm, Nat.add_left_comm]

/-- Every block is counted once. -/
theorem summarize_eq (results : List BlockResult) :
    (summarize results).recovered + (summarize results).failed = results.length ∧
      ((summarize results).zeroLoss = true ↔ ∀ result ∈ results, result.success = true) ∧
      (summarize results).totalShardsLost = (results.map BlockResult.shardsLost).sum := by
  rw [summarize, foldl_add, Nat.zero_add, Nat.zero_add, Nat.zero_add]
  refine ⟨?_, ?_, rfl⟩
  · have hfailed : (fun result : BlockResult => decide ¬result.success = true) =
        fun result => !result.success := by
      funext result
      cases result.success <;> rfl
    rw [List.length_eq_countP_add_countP BlockResult.success, hfailed]
  · rw [Summary.zeroLoss, decide_eq_true_iff, List.countP_eq_zero]
    simp

/-! ## The proxy -/

/-- The datagrams whose random numbers are not below the loss rate. -/
def kept : List Bytes → List Bool → List Bytes
  | x :: xs, lost :: losts => if lost then kept xs losts else x :: kept xs losts
  | _, _ => []

theorem kept_append {xs ys : List Bytes} {ls ms : List Bool} (h : xs.length = ls.length) :
    kept (xs ++ ys) (ls ++ ms) = kept xs ls ++ kept ys ms := by
  induction xs generalizing ls with
  | nil =>
    rw [List.length_nil] at h
    rw [List.length_eq_zero_iff.mp h.symm]
    rfl
  | cons x xs ih =>
    cases ls with
    | nil => cases h
    | cons l ls =>
      have hrest := ih (Nat.succ.inj h)
      show (if l then kept (xs ++ ys) (ls ++ ms) else x :: kept (xs ++ ys) (ls ++ ms)) =
        (if l then kept xs ls else x :: kept xs ls) ++ kept ys ms
      rw [hrest]
      split <;> rfl

theorem mem_of_mem_kept {xs : List Bytes} {ls : List Bool} {x : Bytes} (h : x ∈ kept xs ls) :
    x ∈ xs := by
  induction xs generalizing ls with
  | nil => cases h
  | cons y xs ih =>
    cases ls with
    | nil => cases h
    | cons l ls =>
      cases l with
      | true => exact List.mem_cons_of_mem _ (ih h)
      | false =>
        rcases List.mem_cons.mp h with rfl | hrest
        · exact List.mem_cons_self
        · exact List.mem_cons_of_mem _ (ih hrest)

/-- Of different datagrams, as many are kept as there are random numbers that keep one. -/
theorem countP_mem_kept {xs : List Bytes} {ls : List Bool} (hnodup : xs.Nodup)
    (h : xs.length = ls.length) : xs.countP (· ∈ kept xs ls) = ls.count false := by
  induction xs generalizing ls with
  | nil =>
    rw [List.length_nil] at h
    rw [List.length_eq_zero_iff.mp h.symm]
    rfl
  | cons x xs ih =>
    cases ls with
    | nil => cases h
    | cons l ls =>
      obtain ⟨hnew, hrest⟩ := List.nodup_cons.mp hnodup
      have hcount := ih hrest (Nat.succ.inj h)
      have hx : x ∉ kept xs ls := fun hmem => hnew (mem_of_mem_kept hmem)
      rw [List.countP_cons, List.count_cons, ← hcount]
      cases l with
      | true =>
        show xs.countP (· ∈ kept xs ls) + (if decide (x ∈ kept xs ls) = true then 1 else 0) = _
        rw [decide_eq_false hx]
        rfl
      | false =>
        have hcongr : xs.countP (· ∈ x :: kept xs ls) = xs.countP (· ∈ kept xs ls) := by
          apply List.countP_congr
          intro y hy
          have hne : y ≠ x := fun heq => hnew (heq ▸ hy)
          simp [hne]
        show xs.countP (· ∈ x :: kept xs ls) +
          (if decide (x ∈ x :: kept xs ls) = true then 1 else 0) = _
        rw [hcongr, decide_eq_true List.mem_cons_self]
        rfl

/-- Of the datagrams of one block, those are kept that the block's own random numbers keep. -/
theorem mem_kept_flatten {xss : List (List Bytes)} {lss : List (List Bool)}
    (hnodup : xss.flatten.Nodup) (h : List.Forall₂ (fun xs ls => xs.length = ls.length) xss lss)
    {b : Nat} {xs : List Bytes} {ls : List Bool} (hxs : xss[b]? = some xs) (hls : lss[b]? = some ls)
    {x : Bytes} (hx : x ∈ xs) : x ∈ kept xss.flatten lss.flatten ↔ x ∈ kept xs ls := by
  induction h generalizing b with
  | nil => cases hxs
  | @cons ys ks yss kss hlen hrest ih =>
    rw [List.flatten_cons] at hnodup
    obtain ⟨-, hnodup', hdisjoint⟩ := List.nodup_append.mp hnodup
    rw [List.flatten_cons, List.flatten_cons, kept_append hlen, List.mem_append]
    cases b with
    | zero =>
      cases hxs
      cases hls
      exact or_iff_left fun hmem => hdisjoint x hx x (mem_of_mem_kept hmem) rfl
    | succ b =>
      rw [← ih hnodup' hxs hls]
      apply or_iff_right
      intro hmem
      have hflat : x ∈ yss.flatten := List.mem_flatten.mpr ⟨xs, List.mem_of_getElem? hxs, hx⟩
      exact hdisjoint x (mem_of_mem_kept hmem) x hflat rfl

/-- The proxy passes on what it does not drop, unchanged and in order. -/
theorem runLossyProxyAll_eq {sender target : SocketAddr} (hne : sender ≠ target)
    {xs : List Bytes} (hfits : ∀ x ∈ xs, x.length ≤ bufSize) (ls : List Bool) (p : Proxy) :
    runLossyProxyAll target p (List.zipWith (ProxyArrival.mk sender) xs ls) =
      (kept xs ls).map fun x => (target, x) := by
  induction xs generalizing ls p with
  | nil => rfl
  | cons x xs ih =>
    cases ls with
    | nil => rfl
    | cons l ls =>
      have hx := hfits x List.mem_cons_self
      have hrest := ih fun y hy => hfits y (List.mem_cons_of_mem _ hy)
      have hsource : (sender == target) = false := beq_eq_false_iff_ne.mpr hne
      simp only [List.zipWith_cons_cons, runLossyProxyAll, hrest]
      cases l with
      | true => simp [runLossyProxy, lossyProxyRound, hsource, kept]
      | false =>
        simp [runLossyProxy, lossyProxyRound, hsource, kept, Buf.recvFrom,
          List.take_of_length_le hx]

/-! ## The verdict -/

theorem Carries.length_eq (hlength : aead.TagLength) {frame : Bytes} {b i : Nat} {shard : Bytes}
    (h : Carries aead crypto frame b i shard) : frame.length = shard.length + 33 := by
  obtain ⟨packetType, seq, -, rfl⟩ := h
  rw [length_frameOf, TunnelCrypto.encrypt, hlength, length_prefixShard]
  simp only [headerSize, authTagSize]
  omega

/-- Fewer than `2 ^ 32` blocks whose frames fit the buffers are told apart. -/
theorem Sent.distinct (hlaw : Lawful rs config) (hlength : aead.TagLength)
    (hsent : Sent rs aead crypto config 0 datas frames shards) (hcount : datas.length < 2 ^ 32)
    (hfits : ∀ data ∈ datas, divCeil data.length config.dataShards + 33 ≤ bufSize) :
    Distinct config datas frames := by
  refine ⟨hcount, hlaw.accepted.2.2, ?_⟩
  intro fs hmem frame hframe
  obtain ⟨b, hfs⟩ := List.mem_iff_getElem?.mp hmem
  obtain ⟨i, hi⟩ := List.mem_iff_getElem?.mp hframe
  obtain ⟨hb, -, ss, shard, hss, hshard, hcarries⟩ := hsent.carries hfs hi
  have hblock := hsent.blocks b datas[b] fs ss (List.getElem?_eq_getElem hb) hfs hss
  rw [hcarries.length_eq hlength,
    hblock.encoded.block.uniform shard (List.mem_of_getElem? hshard)]
  exact hfits _ (List.getElem_mem hb)

/-- No two frames are the same. -/
theorem Sent.nodup (hopens : aead.Opens)
    (hsent : Sent rs aead crypto config 0 datas frames shards)
    (hdistinct : Distinct config datas frames) : frames.flatten.Nodup := by
  rw [List.nodup_flatten]
  constructor
  · intro fs hmem
    obtain ⟨b, hfs⟩ := List.mem_iff_getElem?.mp hmem
    rw [List.nodup_iff_pairwise_ne, List.pairwise_iff_getElem]
    intro i j hi hj hij heq
    have hframe := List.getElem?_eq_getElem hi
    have hframe' := List.getElem?_eq_getElem hj
    rw [← heq] at hframe'
    have hsame := (hsent.own hopens hdistinct hfs hfs hframe hframe').2
    omega
  · rw [List.pairwise_iff_getElem]
    intro b b' hb hb' hbb x hx hx'
    obtain ⟨i, hi⟩ := List.mem_iff_getElem?.mp hx
    obtain ⟨i', hi'⟩ := List.mem_iff_getElem?.mp hx'
    have hsame := (hsent.own hopens hdistinct (List.getElem?_eq_getElem hb)
      (List.getElem?_eq_getElem hb') hi hi').1
    omega

theorem Sent.length_eq_total (hsent : Sent rs aead crypto config 0 datas frames shards)
    {fs : List Bytes} (h : fs ∈ frames) : fs.length = config.totalShards := by
  obtain ⟨b, hfs⟩ := List.mem_iff_getElem?.mp h
  have hb : b < frames.length := (List.getElem?_eq_some_iff.mp hfs).1
  have hbd : b < datas.length := by rw [← hsent.length_frames]; exact hb
  have hbs : b < shards.length := by rw [hsent.length_shards]; exact hbd
  have hblock := hsent.blocks b datas[b] fs shards[b] (List.getElem?_eq_getElem hbd) hfs
    (List.getElem?_eq_getElem hbs)
  rw [hblock.length_eq, hblock.encoded.block.count]
  rfl

/-- A frame of a shard is not the termination signal. -/
theorem Sent.ne_done (hopens : aead.Opens)
    (hsent : Sent rs aead crypto config 0 datas frames shards)
    (hdistinct : Distinct config datas frames) {frame : Bytes} (h : frame ∈ frames.flatten)
    (seq : UInt64) : frame ≠ frameOf packetControl seq (crypto.encrypt aead seq termPayload) := by
  obtain ⟨fs, hmem, hframe⟩ := List.mem_flatten.mp h
  obtain ⟨b, hfs⟩ := List.mem_iff_getElem?.mp hmem
  obtain ⟨i, hi⟩ := List.mem_iff_getElem?.mp hframe
  obtain ⟨-, -, -, shard, -, -, hcarries⟩ := hsent.carries hfs hi
  exact hcarries.ne_done hopens
    (Nat.le_trans (hdistinct.fits fs hmem frame hframe) (by decide)) seq

/-- What the receiver reports, and what the test counts, after the frames in `heard` have been
heard. -/
structure ExactReport (config : FecConfig) (datas : List Bytes) (frames : List (List Bytes))
    (heard : List Bytes) (results : List (BlockResult × List (Option Bytes))) : Prop where
  length_eq : results.length = datas.length
  exact : ∀ (b : Nat) result data fs, results[b]? = some result → datas[b]? = some data →
    frames[b]? = some fs → ExactResult config data fs heard result
  counted : (summarize (results.map Prod.fst)).recovered +
    (summarize (results.map Prod.fst)).failed = datas.length
  zeroLoss_iff : (summarize (results.map Prod.fst)).zeroLoss = true ↔
    ∀ fs ∈ frames, config.dataShards ≤ fs.countP (· ∈ heard)
  lost : (summarize (results.map Prod.fst)).totalShardsLost +
    (frames.map fun fs => fs.countP (· ∈ heard)).sum = datas.length * config.totalShards

/-- Two columns of numbers that add up to the same in every row. -/
theorem sum_add_sum {α β : Type} {f : α → Nat} {g : β → Nat} {c : Nat} {as : List α} {bs : List β}
    (h : List.Forall₂ (fun a b => f a + g b = c) as bs) :
    (as.map f).sum + (bs.map g).sum = as.length * c := by
  induction h with
  | nil => simp
  | cons hrow _ ih =>
    rw [List.map_cons, List.map_cons, List.sum_cons, List.sum_cons, List.length_cons, Nat.succ_mul]
    omega

theorem exactReport {heard : List Bytes} {results : List (BlockResult × List (Option Bytes))}
    (hframes : frames.length = datas.length) (hlength : results.length = datas.length)
    (hexact : ∀ (b : Nat) result data fs, results[b]? = some result → datas[b]? = some data →
      frames[b]? = some fs → ExactResult config data fs heard result) :
    ExactReport config datas frames heard results := by
  have hrows : List.Forall₂ (fun result fs => ∃ data, ExactResult config data fs heard result)
      results frames := by
    rw [List.forall₂_iff_get]
    refine ⟨hlength.trans hframes.symm, ?_⟩
    intro b hb hb'
    have hbd : b < datas.length := by rw [← hlength]; exact hb
    exact ⟨_, hexact b _ _ _ (List.getElem?_eq_getElem hb) (List.getElem?_eq_getElem hbd)
      (List.getElem?_eq_getElem hb')⟩
  obtain ⟨hcounted, hzero, htotal⟩ := summarize_eq (results.map Prod.fst)
  refine ⟨hlength, hexact, ?_, ?_, ?_⟩
  · rw [hcounted, List.length_map, hlength]
  · rw [hzero, List.forall_mem_map]
    clear hcounted hzero htotal hexact hlength hframes
    induction hrows with
    | nil => simp
    | cons hrow _ ih =>
      obtain ⟨data, hrow⟩ := hrow
      rw [List.forall_mem_cons, List.forall_mem_cons, ih, hrow.success_iff]
  · have hsum : List.Forall₂ (fun result fs => result.1.shardsLost + fs.countP (· ∈ heard) =
        config.totalShards) results frames := by
      refine hrows.imp ?_
      rintro result fs ⟨data, hrow⟩
      exact hrow.shardsLost
    rw [htotal, List.map_map, ← hlength]
    exact sum_add_sum hsum

theorem length_flatten_eq {xss : List (List Bytes)} {lss : List (List Bool)}
    (h : List.Forall₂ (fun xs ls => xs.length = ls.length) xss lss) :
    xss.flatten.length = lss.flatten.length := by
  induction h with
  | nil => rfl
  | cons hlen _ ih =>
    rw [List.flatten_cons, List.flatten_cons, List.length_append, List.length_append, hlen, ih]

/-- What the receiver hears on a link that passes on what the proxy sends. -/
theorem heard_of_proxy {sender target : SocketAddr} (hne : sender ≠ target) {done : Bytes}
    {lost : List (List Bool)} (doneLost : Bool)
    (hrows : List.Forall₂ (fun fs ls => fs.length = ls.length) frames lost)
    (hfits : ∀ x ∈ frames.flatten ++ [done], x.length ≤ bufSize)
    (hdone : ∀ x ∈ frames.flatten, x ≠ done) :
    let arrivals := (runLossyProxyAll target Proxy.start (List.zipWith (ProxyArrival.mk sender)
      (frames.flatten ++ [done]) (lost.flatten ++ [doneLost]))).map Prod.snd
    (∀ a ∈ arrivals, a ∈ frames.flatten ∨ a = done) ∧
      arrivals.takeWhile (· ≠ done) = kept frames.flatten lost.flatten := by
  intro arrivals
  have harrivals : arrivals = kept frames.flatten lost.flatten ++ kept [done] [doneLost] := by
    show (runLossyProxyAll _ _ _).map Prod.snd = _
    rw [runLossyProxyAll_eq hne hfits, kept_append (length_flatten_eq hrows), List.map_map]
    exact List.map_id _
  constructor
  · intro a ha
    rw [harrivals, List.mem_append] at ha
    rcases ha with ha | ha
    · exact Or.inl (mem_of_mem_kept ha)
    · exact Or.inr (List.mem_singleton.mp (mem_of_mem_kept ha))
  · rw [harrivals, List.takeWhile_append_of_pos]
    · -- only the termination signal is left
      cases doneLost <;> simp [kept]
    · intro a ha
      exact decide_eq_true (hdone a (mem_of_mem_kept ha))

/-- The frames of each block that have been heard are those that the proxy has kept. -/
theorem countP_heard {lost : List (List Bool)} (hnodup : frames.flatten.Nodup)
    (hrows : List.Forall₂ (fun fs ls => fs.length = ls.length) frames lost) :
    List.Forall₂ (fun fs ls => fs.countP (· ∈ kept frames.flatten lost.flatten) = ls.count false)
      frames lost := by
  rw [List.forall₂_iff_get]
  refine ⟨hrows.length_eq, ?_⟩
  intro b hb hb'
  have hlen : frames[b].length = lost[b].length := hrows.get hb hb'
  have hmem : frames[b] ∈ frames := List.getElem_mem hb
  show frames[b].countP _ = lost[b].count false
  rw [← countP_mem_kept ((List.nodup_flatten.mp hnodup).1 _ hmem) hlen]
  apply List.countP_congr
  intro x hx
  rw [decide_eq_true_iff, decide_eq_true_iff]
  exact mem_kept_flatten hnodup hrows (List.getElem?_eq_getElem hb)
    (List.getElem?_eq_getElem hb') hx

theorem count_true_add_count_false (ls : List Bool) :
    ls.count true + ls.count false = ls.length := by
  induction ls with
  | nil => rfl
  | cons l ls ih =>
    rw [List.count_cons, List.count_cons, List.length_cons, ← ih]
    cases l <;> simp <;> omega

/-- The report where every frame has either been heard or been dropped by the proxy. -/
theorem ExactReport.of_lost {heard : List Bytes}
    {results : List (BlockResult × List (Option Bytes))} {lost : List (List Bool)}
    (h : ExactReport config datas frames heard results) (hlost : lost.length = datas.length)
    (hrows : List.Forall₂
      (fun ls fs => ls.count true + fs.countP (· ∈ heard) = config.totalShards) lost frames) :
    ((summarize (results.map Prod.fst)).zeroLoss = true ↔
        ∀ ls ∈ lost, ls.count true ≤ config.parityShards) ∧
      (summarize (results.map Prod.fst)).totalShardsLost = (lost.map (List.count true)).sum := by
  constructor
  · rw [h.zeroLoss_iff]
    clear h hlost
    induction hrows with
    | nil => simp
    | @cons ls fs _ _ hrow _ ih =>
      have hiff : config.dataShards ≤ fs.countP (· ∈ heard) ↔
          ls.count true ≤ config.parityShards := by
        rw [FecConfig.totalShards] at hrow
        omega
      rw [List.forall_mem_cons, List.forall_mem_cons, ih, hiff]
  · have hsum := sum_add_sum hrows
    rw [hlost, ← h.lost] at hsum
    exact (Nat.add_right_cancel hsum).symm

/-- The test is exact. For any arrivals of frames that were sent, lost, doubled and reordered as the
network likes, its report is exact for the frames that come before the termination signal. On a link
that passes on what the proxy sends, it announces no loss exactly if the proxy drops no more frames
of any block than it has parity shards, and counts as lost what the proxy drops. -/
theorem verdict_exact (hlaw : Lawful rs config)
    (hfew : RefusesFew rs config.dataShards config.parityShards) (hopens : aead.Opens)
    (hlength : aead.TagLength) (hcount : datas.length < 2 ^ 32)
    (hdatas : ∀ data ∈ datas, data ≠ [] ∧
      divCeil data.length config.dataShards + 33 ≤ bufSize)
    (key : Key) {sender target : SocketAddr} (hne : sender ≠ target) (proxy : SocketAddr) :
    ∃ frames done, sendAll rs aead config (Tunnel.new proxy key) datas = .ok (frames, done) ∧
      (∀ arrivals : List Bytes, (∀ a ∈ arrivals, a ∈ frames.flatten ∨ a = done) →
        ∃ results, runReceiver rs aead ⟨key⟩ config datas.length arrivals = .ok results ∧
          ExactReport config datas frames (arrivals.takeWhile (· ≠ done)) results) ∧
      ∀ (lost : List (List Bool)) (doneLost : Bool), lost.length = datas.length →
        (∀ ls ∈ lost, ls.length = config.totalShards) →
        ∃ results, runReceiver rs aead ⟨key⟩ config datas.length
            ((runLossyProxyAll target Proxy.start (List.zipWith (ProxyArrival.mk sender)
              (frames.flatten ++ [done]) (lost.flatten ++ [doneLost]))).map Prod.snd) =
            .ok results ∧
          ((summarize (results.map Prod.fst)).zeroLoss = true ↔
            ∀ ls ∈ lost, ls.count true ≤ config.parityShards) ∧
          (summarize (results.map Prod.fst)).totalShardsLost =
            (lost.map (List.count true)).sum := by
  obtain ⟨frames, shards, t', hsend, hcrypto, hsent⟩ :=
    sendBlocks_eq hlaw (fun data hd => (hdatas data hd).1) (Tunnel.new proxy key) 0
  have hdistinct := hsent.distinct hlaw hlength hcount fun data hd => (hdatas data hd).2
  have hdone : (t'.send aead packetControl termPayload).1 = frameOf packetControl t'.txSeq
      ((⟨key⟩ : TunnelCrypto).encrypt aead t'.txSeq termPayload) := by
    show frameOf packetControl t'.txSeq (t'.crypto.encrypt aead t'.txSeq termPayload) = _
    rw [hcrypto]
    rfl
  have hreport : ∀ arrivals : List Bytes,
      (∀ a ∈ arrivals, a ∈ frames.flatten ∨ a = (t'.send aead packetControl termPayload).1) →
        ∃ results, runReceiver rs aead ⟨key⟩ config datas.length arrivals = .ok results ∧
          ExactReport config datas frames
            (arrivals.takeWhile (· ≠ (t'.send aead packetControl termPayload).1)) results := by
    intro arrivals harrivals
    obtain ⟨results, hresults, hlen, hexact⟩ := runReceiver_eq hlaw hfew hopens hlength hsent
      hdistinct hdone harrivals
    exact ⟨results, hresults, exactReport hsent.length_frames hlen hexact⟩
  refine ⟨frames, (t'.send aead packetControl termPayload).1, ?_, hreport, ?_⟩
  · simp only [sendAll, hsend, bind, Except.bind]
    rfl
  · intro lost doneLost hlost htotal
    have hrows : List.Forall₂ (fun fs ls => fs.length = ls.length) frames lost := by
      rw [List.forall₂_iff_get]
      refine ⟨hsent.length_frames.trans hlost.symm, ?_⟩
      intro b hb hb'
      rw [hsent.length_eq_total (List.get_mem frames ⟨b, hb⟩),
        htotal _ (List.get_mem lost ⟨b, hb'⟩)]
    have hfits : ∀ x ∈ frames.flatten ++ [(t'.send aead packetControl termPayload).1],
        x.length ≤ bufSize := by
      intro x hx
      rcases List.mem_append.mp hx with hframe | hlast
      · obtain ⟨fs, hfs, hmem⟩ := List.mem_flatten.mp hframe
        exact hdistinct.fits fs hfs x hmem
      · rw [List.mem_singleton.mp hlast, hdone, length_frameOf, TunnelCrypto.encrypt, hlength]
        decide
    have hne_done : ∀ x ∈ frames.flatten, x ≠ (t'.send aead packetControl termPayload).1 := by
      intro x hx
      rw [hdone]
      exact hsent.ne_done hopens hdistinct hx _
    obtain ⟨harrivals, hheard⟩ := heard_of_proxy hne doneLost hrows hfits hne_done
    obtain ⟨results, hresults, hexact⟩ := hreport _ harrivals
    rw [hheard] at hexact
    have hcounts := countP_heard (hsent.nodup hopens hdistinct) hrows
    have hcombined : List.Forall₂ (fun ls fs => ls.count true +
        fs.countP (· ∈ kept frames.flatten lost.flatten) = config.totalShards) lost frames := by
      rw [List.forall₂_iff_get]
      refine ⟨hcounts.length_eq.symm, ?_⟩
      intro b hb hb'
      rw [hcounts.get hb' hb, count_true_add_count_false]
      exact htotal _ (List.get_mem lost ⟨b, hb⟩)
    exact ⟨results, hresults, hexact.of_lost hlost hcombined⟩

def sharedKey : Key := ⟨List.replicate keySize 0x2A, List.length_replicate⟩

def senderAddr : SocketAddr := ⟨0x7F000001, 40001⟩
def proxyAddr : SocketAddr := ⟨0x7F000001, 40002⟩
def receiverAddr : SocketAddr := ⟨0x7F000001, 40003⟩

/-- The proxy drops one frame of the first block and the termination signal: nothing is lost. -/
theorem verdict_exact_oneDropped :
    ∃ frames done results,
      sendAll smallCodec tagAead replicaConfig (Tunnel.new proxyAddr sharedKey) [[5], [6, 7]] =
        .ok (frames, done) ∧
      runReceiver smallCodec tagAead ⟨sharedKey⟩ replicaConfig 2
          ((runLossyProxyAll receiverAddr Proxy.start
            (List.zipWith (ProxyArrival.mk senderAddr) (frames.flatten ++ [done])
              ([[true, false], [false, false]].flatten ++ [true]))).map Prod.snd) = .ok results ∧
      (summarize (results.map Prod.fst)).zeroLoss = true ∧
      (summarize (results.map Prod.fst)).totalShardsLost = 1 := by
  obtain ⟨frames, done, hsend, -, hproxy⟩ :=
    @verdict_exact _ _ _ [[5], [6, 7]] lawful_replica (smallCodec_refusesFew_one 1)
      tagAead_opens tagAead_tagLength (by decide) (by decide) sharedKey
      senderAddr receiverAddr (by decide) proxyAddr
  obtain ⟨results, hresults, hzero, htotal⟩ :=
    hproxy [[true, false], [false, false]] true rfl (by decide)
  exact ⟨frames, done, results, hsend, hresults, hzero.mpr (by decide), htotal⟩

end EntrouterLine.Harness
