/-
CustomData/Encoder.lean

The embedded encoder (`customdata-embedded-encode.c`), and what its success
says about the embedded decoder.

`mp_pb_encode` runs `pb_encode` of nanopb on a stream whose callback passes
every write on to the sending stream, and finalizes if anything was written.
The callback always reports success.  On the way the size of a write is cut to
16 bits, the offset of a slice to 16 bits and its number to 8 bits, so what is
sent need not be what was written.

Three things go wrong with a message that is too long: from 65536 bytes on the
receiver cannot announce it, from 257 slices on the slice that completes the
bitmap makes the receiver scan for ever, and so does a last slice whose end the
scan steps over (`Gathered.feed_wrapped`, `Gathered.feed_last_iff`).  Below
these limits `pb_decode` is started once, on the bytes written
(`noSilentLoss_iff`).
-/
import CustomData.Embedded
import CustomData.Scan
import CustomData.TxSinks

namespace CustomData

variable {σ : Type}

/-! ### The encoder -/

/-- What `pb_encode` does on a stream: the writes it makes, and its own result
when none of them is refused. -/
structure PbWrites where
  writes : List (List UInt8)
  succeeds : Bool

namespace PbWrites

/-- Write after write; one that is refused is the last one.  The results are
the success so far and `bytes_written`. -/
def writeAll {ω : Type} (callback : ω → List UInt8 → ℕ → Except TxFault (ω × Bool)) :
    ω → ℕ → List (List UInt8) → Except TxFault (ω × Bool × ℕ)
  | w, written, [] => .ok (w, true, written)
  | w, written, buf :: bufs => do
      let (w, ok) ← callback w buf buf.length
      if ok then writeAll callback w (written + buf.length) bufs else .ok (w, false, written)

/-- `pb_encode` -/
def encode {ω : Type} (m : PbWrites) (callback : ω → List UInt8 → ℕ → Except TxFault (ω × Bool))
    (w : ω) : Except TxFault (ω × Bool × ℕ) := do
  let (w, ok, written) ← writeAll callback w 0 m.writes
  .ok (w, ok && m.succeeds, written)

/-- The bytes written. -/
def bytes (m : PbWrites) : List UInt8 := m.writes.flatten

end PbWrites

/-- `pb_ostream_pipeline`: `mp_tx_stream_feed` takes 16 bits of the size. -/
def pbOstreamPipeline (stream : TxStream (PbEncoderInst σ)) (buf : List UInt8) (count : ℕ) :
    Except TxFault (TxStream (PbEncoderInst σ) × Bool) := do
  let stream ← txStreamFeed stream buf (UInt16.ofNat count)
  .ok (stream, true)

/-- `mp_pb_encode`, with `pb_encode` of the message for `m`. -/
def pbEncode (cb : PbEncoderCallbacks σ) (config : Config) (senderId : UInt8) (user : σ)
    (m : PbWrites) (packageSerial : UInt8) : Except TxFault (σ × Bool) := do
  let stream : TxStream (PbEncoderInst σ) :=
    ⟨config, ⟨senderId, packageSerial, 0⟩, 0, txPushPipeline cb, ⟨user, 0⟩⟩
  let (stream, ok, bytesWritten) ← m.encode pbOstreamPipeline stream
  let empty := bytesWritten == 0
  let stream ← if ok && !empty then txStreamFinalize stream else .ok stream
  .ok (stream.downstream.user.user, ok)

/-! ### What is sent -/

theorem writeAll_pbOstreamPipeline {stream stream' : TxStream (PbEncoderInst σ)}
    {bufs : List (List UInt8)} (h : txStreamFeeds stream bufs = .ok stream') (written : ℕ) :
    PbWrites.writeAll pbOstreamPipeline stream written bufs =
      .ok (stream', true, written + bufs.flatten.length) := by
  induction bufs generalizing stream written with
  | nil => rw [← Except.ok.inj h]; rfl
  | cons buf bufs ih =>
      rw [txStreamFeeds, List.foldlM_cons] at h
      obtain ⟨stream₁, hfeed, hrest⟩ := Machine.bind_eq_ok.mp h
      simp only [PbWrites.writeAll, pbOstreamPipeline, hfeed, Machine.ok_bind, if_true]
      rw [ih hrest, List.flatten_cons, List.length_append, Nat.add_assoc]

/-- The encoder is the sending stream behind its sink, finalized if something
was written. -/
theorem pbEncode_of_feeds {P : ℕ} {txBlock : List UInt8} {senderId packageSerial : UInt8}
    {m : PbWrites} {s s' : TxStream (PbEncoderInst SliceBlock)} (hne : m.bytes ≠ [])
    (hfeeds : txStreamFeeds (embeddedStream P ⟨senderId, packageSerial, 0⟩ txBlock) m.writes =
      .ok s)
    (hfinal : txStreamFinalize s = .ok s') :
    pbEncode (blockCallbacks (P + headerSize)) (Config.ofPayload P) senderId (.untouched txBlock) m
        packageSerial =
      .ok (if m.succeeds then s'.downstream.user.user else s.downstream.user.user,
        m.succeeds) := by
  have hpos : (0 + m.writes.flatten.length == 0) = false := by
    rw [Nat.zero_add, beq_eq_false_iff_ne, ne_eq, List.length_eq_zero_iff]
    exact hne
  have hwrite := writeAll_pbOstreamPipeline hfeeds 0
  rw [embeddedStream] at hwrite
  simp only [pbEncode, PbWrites.encode, hwrite, Machine.ok_bind, hpos]
  cases m.succeeds with
  | true => simp [hfinal]
  | false => rfl

section Send

variable {P : ℕ} {txBlock : List UInt8} (senderId packageSerial : UInt8) {m : PbWrites}

/-- The encoder returns what nanopb returns, whatever the size of the message. -/
theorem pbEncode_returns (hP : 0 < P) (hcap : P ≤ 4095) (htx : txBlock.length = P + headerSize)
    (hne : m.bytes ≠ []) :
    ∃ b, pbEncode (blockCallbacks (P + headerSize)) (Config.ofPayload P) senderId
      (.untouched txBlock) m packageSerial = .ok (b, m.succeeds) := by
  have hsink := @txPushPipelineView_assembles P txBlock hcap
  have h₀ := @embeddedStream_holding P ⟨senderId, packageSerial, 0⟩ txBlock rfl htx.ge
  obtain ⟨s, hfeeds, h⟩ := h₀.feeds hsink hP hcap m.writes
  obtain ⟨s', hfinal, -⟩ := h.finalize hsink hP hcap
  exact ⟨_, pbEncode_of_feeds hne hfeeds hfinal⟩

/-- As long as the last offset fits 16 bits, the slices of the message are
sent, though their numbers may wrap. -/
theorem pbEncode_sent (hP : 0 < P) (hcap : P ≤ 4095) (htx : txBlock.length = P + headerSize)
    (hne : m.bytes ≠ []) (hlen : m.bytes.length ≤ 65535) (hok : m.succeeds = true) :
    ∃ b, pbEncode (blockCallbacks (P + headerSize)) (Config.ofPayload P) senderId
        (.untouched txBlock) m packageSerial = .ok (b, true) ∧
      SentSlices P ⟨senderId, packageSerial, 0⟩ m.bytes b := by
  have hwrites : ∀ buf ∈ m.writes, buf.length ≤ 65535 := fun buf hbuf =>
    (List.sublist_flatten_of_mem hbuf).length_le.trans hlen
  have hframed := @embeddedStream_framed P ⟨senderId, packageSerial, 0⟩ m.writes txBlock hP hcap
    hwrites ((Nat.div_mul_le_self _ _).trans hlen) rfl htx.ge
  obtain ⟨s, s', hfeeds, -, hfinal, -, hsent⟩ := hframed.session
  have henc := pbEncode_of_feeds hne hfeeds hfinal
  rw [hok, if_pos rfl] at henc
  exact ⟨_, henc, hsent⟩

end Send

/-! ### The slice state behind full slices -/

/-- The state after the full slices `0, …, n - 1` in order: no end is known. -/
structure FullSlices (P n : ℕ) (s : RxSliceState) : Prop where
  bits : ∀ i : UInt8, s.has i = true ↔ i.toNat < n
  count : s.receivedCount.toNat = n
  termination : s.termination = 0
  watermark : s.watermark.toNat = n * P

section State

variable {P n r : ℕ} {s : RxSliceState} {size : UInt16} {eop : Bool}

theorem fullSlices_zero : FullSlices P 0 .zero := by
  refine ⟨fun i => ?_, rfl, rfl, by simp [RxSliceState.zero]⟩
  simp

/-- The next slice is new. -/
theorem FullSlices.has_next (h : FullSlices P n s) (hn : n < 256) :
    s.has (UInt8.ofNat n) = false := by
  rw [Bool.eq_false_iff, ne_eq, h.bits, UInt8.toNat_ofNat', Nat.mod_eq_of_lt hn]
  exact lt_irrefl n

theorem FullSlices.has_accept (h : FullSlices P n s) (hn : n < 256) (size : UInt16) (eop : Bool)
    (i : UInt8) :
    (s.accept (UInt8.ofNat n) size (maxPayload (Config.ofPayload P)) eop).has i = true ↔
      i.toNat < n + 1 := by
  rw [RxSliceState.has_accept, Bool.or_eq_true, decide_eq_true_eq, h.bits, ← UInt8.toNat_inj,
    UInt8.toNat_ofNat', Nat.mod_eq_of_lt hn]
  omega

/-- The next slice is in order. -/
theorem FullSlices.step_eq (h : FullSlices P n s) (hn : n < 256) (hcap : P ≤ 4095) :
    rxCalcSliceStep s (UInt8.ofNat n) size (maxPayload (Config.ofPayload P)) eop =
      rxAdvanceWatermark (s.accept (UInt8.ofNat n) size (maxPayload (Config.ofPayload P)) eop)
          (maxPayload (Config.ofPayload P)) >>= fun wm =>
        .ok ⟨if rxIsComplete { s.accept (UInt8.ofNat n) size (maxPayload (Config.ofPayload P)) eop
            with watermark := wm } (maxPayload (Config.ofPayload P)) then .complete
          else .newSliceInOrder,
          { s.accept (UInt8.ofNat n) size (maxPayload (Config.ofPayload P)) eop with
            watermark := wm }⟩ := by
  rw [rxCalcSliceStep_of_not_has (h.has_next hn), if_neg]
  rw [gt_iff_lt, UInt16.lt_iff_toNat_lt, h.watermark, sliceIdxToOffset_toNat,
    maxPayload_ofPayload hcap, UInt8.toNat_ofNat', Nat.mod_eq_of_lt hn]
  exact not_lt.mpr (Nat.mod_le _ _)

/-- A full slice sets no end and is counted. -/
theorem FullSlices.accept_full (h : FullSlices P n s) (hn : n < 256) (hP : 0 < P)
    (hcap : P ≤ 4095) :
    (s.accept (UInt8.ofNat n) (UInt16.ofNat P) (maxPayload (Config.ofPayload P)) false).termination
        = 0 ∧
      (s.accept (UInt8.ofNat n) (UInt16.ofNat P) (maxPayload (Config.ofPayload P))
        false).receivedCount.toNat = n + 1 := by
  have hmax : maxPayload (Config.ofPayload P) = UInt16.ofNat P := by
    apply UInt16.toNat_inj.mp
    rw [maxPayload_ofPayload hcap, UInt16.toNat_ofNat']
    omega
  have hcount := h.count
  simp only [RxSliceState.accept, hmax, UInt16.lt_irrefl, decide_false, Bool.or_self,
    Bool.and_false, Bool.false_eq_true, if_false, h.termination, UInt16.toNat_add, hcount]
  refine ⟨trivial, ?_⟩
  show (n + 1) % 2 ^ 16 = n + 1
  omega

/-- **A full slice** before the last number. -/
theorem FullSlices.step (h : FullSlices P n s) (hn : n < 255) (hP : 0 < P) (hcap : P ≤ 4095)
    (hend : (n + 1) * P ≤ 65535) :
    ∃ s', rxCalcSliceStep s (UInt8.ofNat n) (UInt16.ofNat P) (maxPayload (Config.ofPayload P))
        false = .ok ⟨.newSliceInOrder, s'⟩ ∧ FullSlices P (n + 1) s' := by
  have hmax := maxPayload_ofPayload hcap
  obtain ⟨hterm, hcount⟩ := h.accept_full (by omega) hP hcap
  have hbits := h.has_accept (show n < 256 by omega) (UInt16.ofNat P) false
  have hwm : (s.accept (UInt8.ofNat n) (UInt16.ofNat P) (maxPayload (Config.ofPayload P))
      false).watermark.toNat = n * P := h.watermark
  rw [h.step_eq (by omega) hcap]
  generalize s.accept (UInt8.ofNat n) (UInt16.ofNat P) (maxPayload (Config.ofPayload P))
    false = t at *
  have hsucc := Nat.add_one_mul n P
  obtain ⟨wm, hadv, hval⟩ := @rxAdvanceWatermark_of_first t (maxPayload (Config.ofPayload P)) 1
    (fun h0 => by simp [h0] at hmax; omega) (by decide) (by rw [hwm, hmax]; omega)
    (fun k hk => by
      -- the slice at the watermark is the one that came
      obtain rfl : k = 0 := by omega
      refine watermarkStops_eq_false_iff.mpr ⟨Or.inl hterm, (hbits _).mpr ?_⟩
      rw [offsetToSliceIdx_toNat, Function.iterate_zero, id, hwm, hmax, Nat.mul_div_cancel _ hP]
      omega)
    (by
      -- the next one is missing
      rw [Function.iterate_one, watermarkStops, Bool.or_eq_true, Bool.not_eq_true']
      refine Or.inr (Bool.eq_false_iff.mpr fun hhas => ?_)
      have hlt := (hbits _).mp hhas
      rw [offsetToSliceIdx_toNat, UInt16.toNat_add, hwm, hmax,
        Nat.mod_eq_of_lt (show n * P + P < 2 ^ 16 by omega), ← hsucc,
        Nat.mul_div_cancel _ hP] at hlt
      omega)
  have hopen : rxIsComplete { t with watermark := wm } (maxPayload (Config.ofPayload P)) =
      false := by
    simp [rxIsComplete, hterm]
  rw [hadv, Machine.ok_bind, hopen]
  refine ⟨{ t with watermark := wm }, rfl, ⟨hbits, hcount, hterm, ?_⟩⟩
  rw [if_pos hterm, hwm, hmax] at hval
  show wm.toNat = _
  omega

/-- **The full slice with the last number** completes the bitmap while no end
is known, and the scan goes on for ever. -/
theorem FullSlices.step_wrapped (h : FullSlices P 255 s) (hP : 0 < P) (hcap : P ≤ 4095) :
    rxCalcSliceStep s (UInt8.ofNat 255) (UInt16.ofNat P) (maxPayload (Config.ofPayload P)) false =
      .error .scan := by
  have hbits := h.has_accept (by decide) (UInt16.ofNat P) false
  obtain ⟨hterm, -⟩ := h.accept_full (by decide) hP hcap
  have hreturns := @rxAdvanceWatermark_returns_iff
    (s.accept (UInt8.ofNat 255) (UInt16.ofNat P) (maxPayload (Config.ofPayload P)) false)
    (maxPayload (Config.ofPayload P)) (by rw [maxPayload_ofPayload hcap]; exact hP)
  rw [h.step_eq (by decide) hcap]
  rcases hadv : rxAdvanceWatermark (s.accept (UInt8.ofNat 255) (UInt16.ofNat P)
      (maxPayload (Config.ofPayload P)) false) (maxPayload (Config.ofPayload P)) with e | wm
  · rw [rxAdvanceWatermark_error hadv, Machine.error_bind]
  · rcases hreturns.mp ⟨wm, hadv⟩ with ⟨i, -, hmiss⟩ | ⟨hne, -⟩
    · rw [(hbits i).mpr i.toNat_lt] at hmiss
      cases hmiss
    · exact absurd hterm hne

/-- The last slice sets the end; an empty one is not counted. -/
theorem FullSlices.accept_last (h : FullSlices P n s) (hn : n < 256) (hcap : P ≤ 4095)
    (hr : r < P) (hlen : n * P + r ≤ 65535) :
    (s.accept (UInt8.ofNat n) (UInt16.ofNat r) (maxPayload (Config.ofPayload P))
        true).termination.toNat = n * P + r ∧
      (s.accept (UInt8.ofNat n) (UInt16.ofNat r) (maxPayload (Config.ofPayload P))
        true).receivedCount.toNat = n + if r = 0 then 0 else 1 := by
  have hsize : (UInt16.ofNat r).toNat = r := by
    rw [UInt16.toNat_ofNat']
    omega
  have hzero : UInt16.ofNat r = 0 ↔ r = 0 := by rw [← UInt16.toNat_inj, hsize]; rfl
  have hcount := h.count
  simp only [RxSliceState.accept, Bool.or_true, if_true, Bool.and_true, beq_iff_eq, hzero]
  constructor
  · rw [rxCalcTermination, UInt16.toNat_add, sliceIdxToOffset_toNat, maxPayload_ofPayload hcap,
      UInt8.toNat_ofNat', Nat.mod_eq_of_lt hn, hsize]
    omega
  · split
    · rw [hcount, Nat.add_zero]
    · rw [UInt16.toNat_add, hcount]
      show (n + 1) % 2 ^ 16 = n + 1
      omega

/-- **The last slice**: the scan meets the end if it lies below `65536` by a
stride, and passes by no gap before it. -/
theorem FullSlices.last_returns_iff (h : FullSlices P n s) (hn : n < 256) (hcap : P ≤ 4095)
    (hr : r < P) (hlen : n * P + r ≤ 65535) (hpos : 0 < n * P + r) :
    (∃ inst, rxCalcSliceStep s (UInt8.ofNat n) (UInt16.ofNat r) (maxPayload (Config.ofPayload P))
      true = .ok inst) ↔ n * P + r + scanStride P ≤ 2 ^ 16 := by
  have hP : 0 < P := by omega
  have hg : scanStride P ≤ 2 ^ 16 := Nat.gcd_le_right _ (by decide)
  have hmax := maxPayload_ofPayload hcap
  obtain ⟨hterm, -⟩ := h.accept_last hn hcap hr hlen
  have hbits := h.has_accept hn (UInt16.ofNat r) true
  have hwm : (s.accept (UInt8.ofNat n) (UInt16.ofNat r) (maxPayload (Config.ofPayload P))
      true).watermark.toNat = n * P := h.watermark
  rw [h.step_eq hn hcap]
  generalize s.accept (UInt8.ofNat n) (UInt16.ofNat r) (maxPayload (Config.ofPayload P)) true = t
    at *
  rw [Machine.exists_bind_ok, rxAdvanceWatermark_returns_iff (by rw [hmax]; exact hP), hmax]
  -- multiples of the capacity are multiples of the stride
  have hmul : ∀ m, m * P % scanStride P = 0 := fun m =>
    Nat.mod_eq_zero_of_dvd (Dvd.dvd.mul_left (Nat.gcd_dvd_left _ _) m)
  have htop : scanTop P (n * P) = 2 ^ 16 - scanStride P := by rw [scanTop, hmul, Nat.add_zero]
  rw [ScanReturns, hwm, hterm, htop]
  constructor
  · rintro (⟨i, hi, hmiss⟩ | ⟨-, hle⟩)
    · have hni : n + 1 ≤ i.toNat := by
        rw [Bool.eq_false_iff, ne_eq, hbits] at hmiss
        omega
      have hoff : (n + 1) * P ≤ 2 ^ 16 - 1 :=
        (Nat.le_div_iff_mul_le hP).mp (hni.trans (hi.trans (Nat.min_le_right _ _)))
      have htop' := @le_scanTop P (n * P) ((n + 1) * P) hP (by omega) (by rw [hmul, hmul])
      rw [htop, Nat.add_one_mul] at htop'
      omega
    · omega
  · intro hle
    refine Or.inr ⟨fun h0 => ?_, by omega⟩
    rw [h0] at hterm
    simp at hterm
    omega

/-- The last slice completes the package. -/
theorem FullSlices.last_complete (h : FullSlices P n s) (hn : n < 256) (hcap : P ≤ 4095)
    (hr : r < P) (hlen : n * P + r ≤ 65535) (hpos : 0 < n * P + r) {inst : RxSliceInst}
    (hstep : rxCalcSliceStep s (UInt8.ofNat n) (UInt16.ofNat r) (maxPayload (Config.ofPayload P))
      true = .ok inst) :
    inst.e = .complete ∧ inst.nextState.termination.toNat = n * P + r := by
  have hP : 0 < P := by omega
  have hmax := maxPayload_ofPayload hcap
  obtain ⟨hterm, hcount⟩ := h.accept_last hn hcap hr hlen
  rw [h.step_eq hn hcap] at hstep
  generalize s.accept (UInt8.ofNat n) (UInt16.ofNat r) (maxPayload (Config.ofPayload P)) true = t
    at *
  obtain ⟨wm, -, hinst⟩ := Machine.bind_eq_ok.mp hstep
  have hcomplete : rxIsComplete { t with watermark := wm } (maxPayload (Config.ofPayload P)) =
      true := by
    rw [rxIsComplete_iff (by rw [hmax]; exact hP), hmax]
    refine ⟨by rw [hterm]; omega, ?_⟩
    rw [hterm, hcount]
    refine Nat.lt_succ_iff.mp (Nat.div_lt_of_lt_mul ?_)
    split
    · rw [Nat.mul_comm P, Nat.add_zero, Nat.succ_mul]
      omega
    · rw [Nat.mul_comm P, Nat.succ_mul, Nat.add_one_mul]
      omega
  rw [hcomplete, if_pos rfl] at hinst
  rw [← Except.ok.inj hinst]
  exact ⟨rfl, hterm⟩

end State

/-! ### The decoder on the frames of a message -/

/-- A frame of slice `i` of `data`, as it is sent. -/
def StreamFrame (P : ℕ) (start : Coordinate) (data : List UInt8) (i : ℕ) (f : List UInt8) :
    Prop :=
  f.length = P + headerSize ∧
    packedHeaderToArray (headerPack (streamHeader P data.length start i)) ++
      slicePayload P data i <+: f

section Frames

variable {P n : ℕ} {start : Coordinate} {data f : List UInt8}
variable (output : PbOutputConfig σ) (store : PayloadStore σ) {inst : PbDecoderInst σ}

theorem StreamFrame.length_le (hf : StreamFrame P start data n f) (hcap : P ≤ 4095) :
    headerSize ≤ (UInt16.ofNat f.length).toNat := by
  rw [hf.1, UInt16.toNat_ofNat']
  unfold headerSize
  omega

theorem streamHeader_size_toNat (start : Coordinate) (hP : 0 < P) (hcap : P ≤ 4095)
    (hn : n ≤ data.length / P) :
    (streamHeader P data.length start n).slicePayloadSize.toNat =
      (slicePayload P data n).length := by
  have hlt := Nat.mod_lt data.length hP
  rw [length_slicePayload hP hn, streamHeader, UInt16.toNat_ofNat']
  split <;> omega

theorem StreamFrame.headerUnpack_eq (hf : StreamFrame P start data n f) (hP : 0 < P)
    (hcap : P ≤ 4095) :
    headerUnpack (arrayToPackedHeader f) = streamHeader P data.length start n := by
  have hlt := Nat.mod_lt data.length hP
  obtain ⟨rest, rfl⟩ := hf.2
  rw [List.append_assoc, headerUnpack_wire ⟨senderId_and_lt _, ?_, ?_⟩]
  · simp only [streamHeader]
    split <;> decide
  · simp only [streamHeader, UInt16.toNat_ofNat']
    split <;> omega

/-- The payload lies behind the header. -/
theorem StreamFrame.getElem?_drop (hf : StreamFrame P start data n f) {k : ℕ}
    (hk : k < (slicePayload P data n).length) :
    (f.drop headerSize)[k]? = data[n * P + k]? := by
  have hk' : k < P := hk.trans_le (List.length_take_le _ _)
  obtain ⟨rest, rfl⟩ := hf.2
  rw [List.append_assoc, List.drop_left' (packedHeaderToArray_length _),
    List.getElem?_append_left hk, slicePayload, List.getElem?_take, if_pos hk',
    List.getElem?_drop]

/-- The coordinate the receiver rebuilds. -/
theorem streamHeader_offset (start : Coordinate) (data : List UInt8) (hcap : P ≤ 4095)
    (hn : n < 256) (hlen : n * P ≤ 65535) :
    (rxHeaderToCoordinate (Config.ofPayload P)
      (streamHeader P data.length start n)).offset.toNat = n * P := by
  simp only [rxHeaderToCoordinate, streamHeader, sliceIdxToOffset_toNat, maxPayload_ofPayload hcap,
    UInt8.toNat_ofNat', Nat.mod_eq_of_lt hn]
  omega

/-- Storing the next slice. -/
theorem PayloadStore.Holds.keepFrame {w : σ} (h : store.Holds P data (n * P) w)
    (hf : StreamFrame P start data n f) (hP : 0 < P) (hcap : P ≤ 4095) (hn : n < 256)
    (hlen : n * P ≤ 65535) (hslice : n ≤ data.length / P) :
    store.Holds P data (n * P + (slicePayload P data n).length)
      (store.keepFrame w (Config.ofPayload P) (streamHeader P data.length start n) f) := by
  have hle : (slicePayload P data n).length ≤ P := List.length_take_le _ _
  have hsize := streamHeader_size_toNat start hP hcap hslice
  have hoff := streamHeader_offset start data hcap hn hlen
  have hpos : (streamHeader P data.length start n).slicePayloadSize > 0 ↔
      0 < (slicePayload P data n).length := by
    rw [gt_iff_lt, UInt16.lt_iff_toNat_lt, hsize, UInt16.toNat_zero]
  intro c j hj hc
  have hmod := Nat.div_add_mod' j P
  rw [PayloadStore.keepFrame, PayloadStore.keep]
  simp only [hpos]
  by_cases hjn : j < n * P
  · -- a byte of a slice before
    rw [h c j hjn hc]
    split
    · rw [store.get_put_of_disjoint]
      · intro he
        rw [← he, hoff] at hc
        have := Nat.div_mul_le_self j P
        omega
      · rw [hoff, hc]
        exact Or.inl (by omega)
    · rfl
  · have hdiv : j / P = n := Nat.div_eq_of_lt_le (by omega) (by rw [Nat.add_one_mul]; omega)
    rw [hdiv] at hmod hc
    have hbyte := hf.getElem?_drop (show j % P < (slicePayload P data n).length by omega)
    rw [if_pos (by omega)]
    have hin : n * P + j % P < data.length := by
      have hlen' : (slicePayload P data n).length ≤ data.length - n * P := by
        rw [slicePayload, List.length_take, List.length_drop]
        exact Nat.min_le_right _ _
      omega
    rw [List.getElem?_eq_getElem hin] at hbyte
    rw [store.get_put _ _ c _ _ _ _ (UInt16.toNat_inj.mp (hoff.trans hc.symm))
      (by rw [hsize]; omega) hbyte, ← List.getElem?_eq_getElem hin, hmod]

/-- The decoder after the full slices `0, …, n - 1` of `data`. -/
structure Gathered (store : PayloadStore σ) (P : ℕ) (data : List UInt8) (n : ℕ)
    (inst : PbDecoderInst σ) : Prop where
  state : FullSlices P n inst.state
  bytes : store.Holds P data (n * P) inst.user

theorem gathered_init (user : σ) : Gathered store P data 0 (pbDecodeInit user) where
  state := fullSlices_zero
  bytes := by
    intro c j hj
    rw [Nat.zero_mul] at hj
    exact absurd hj (Nat.not_lt_zero j)

/-- **A full slice** before the last number. -/
theorem Gathered.feed (h : Gathered store P data n inst) (hf : StreamFrame P start data n f)
    (hP : 0 < P) (hcap : P ≤ 4095) (hn : n < 255) (hslice : n < data.length / P)
    (hlen : data.length ≤ 65535) :
    ∃ inst', pbDecodeFeed (Config.ofPayload P) output store inst f = .ok (inst', none) ∧
      Gathered store P data (n + 1) inst' := by
  have hend : (n + 1) * P ≤ data.length :=
    (Nat.mul_le_mul_right P hslice).trans (Nat.div_mul_le_self _ _)
  have hsucc := Nat.add_one_mul n P
  obtain ⟨next, hstep, hnext⟩ := h.state.step hn hP hcap (hend.trans hlen)
  have hne : n ≠ data.length / P := hslice.ne
  have hstep' : rxCalcSliceStep inst.state (streamHeader P data.length start n).sliceSerial
      (streamHeader P data.length start n).slicePayloadSize (maxPayload (Config.ofPayload P))
      ((streamHeader P data.length start n).eop != 0) = .ok ⟨.newSliceInOrder, next⟩ := by
    simpa [streamHeader, hne] using hstep
  obtain ⟨inst', hfeed, hstate, huser, hstarted⟩ := pbDecodeFeed_of_header output store
    (hf.length_le hcap) (hf.headerUnpack_eq hP hcap) hstep'
  have hbytes := PayloadStore.Holds.keepFrame store h.bytes hf hP hcap (by omega) (by omega)
    hslice.le
  rw [length_slicePayload hP hslice.le, if_neg hne, ← hsucc] at hbytes
  rw [if_neg (by simp)] at hstarted
  refine ⟨inst', by rw [hfeed, hstarted], ?_, by rw [huser (by simp) (by simp)]; exact hbytes⟩
  rw [hstate, if_neg (by simp), if_neg (by simp)]
  exact hnext

/-- **The full slice with the last number** is a call that does not return. -/
theorem Gathered.feed_wrapped (h : Gathered store P data 255 inst)
    (hf : StreamFrame P start data 255 f) (hP : 0 < P) (hcap : P ≤ 4095)
    (hslice : 255 < data.length / P) :
    pbDecodeFeed (Config.ofPayload P) output store inst f = .error .scan := by
  apply pbDecodeFeed_of_error output store (hf.length_le hcap) (hf.headerUnpack_eq hP hcap)
  have hne : 255 ≠ data.length / P := hslice.ne
  simpa [streamHeader, hne] using h.state.step_wrapped hP hcap

/-- **The last slice** starts `pb_decode` on the data, or is a call that does
not return. -/
theorem Gathered.feed_last_iff (h : Gathered store P data (data.length / P) inst)
    (hf : StreamFrame P start data (data.length / P) f) (hP : 0 < P) (hcap : P ≤ 4095)
    (hn : data.length / P < 256) (hlen : data.length ≤ 65535) (hpos : 0 < data.length) :
    (∃ inst' pull, pbDecodeFeed (Config.ofPayload P) output store inst f =
      .ok (inst', some pull) ∧ pull.Offers data) ↔ data.length + scanStride P ≤ 2 ^ 16 := by
  have hdiv := Nat.div_add_mod' data.length P
  have hr := Nat.mod_lt data.length hP
  have hreturns := h.state.last_returns_iff hn hcap hr (by omega) (by omega)
  rw [hdiv] at hreturns
  rw [← hreturns]
  have hcoord : ∀ step, rxCalcSliceStep inst.state (UInt8.ofNat (data.length / P))
      (UInt16.ofNat (data.length % P)) (maxPayload (Config.ofPayload P)) true = step →
      rxCalcSliceStep inst.state (streamHeader P data.length start (data.length / P)).sliceSerial
        (streamHeader P data.length start (data.length / P)).slicePayloadSize
        (maxPayload (Config.ofPayload P))
        ((streamHeader P data.length start (data.length / P)).eop != 0) = step := by
    simp [streamHeader]
  rcases hstep : rxCalcSliceStep inst.state (UInt8.ofNat (data.length / P))
    (UInt16.ofNat (data.length % P)) (maxPayload (Config.ofPayload P)) true with e | ⟨e, next⟩
  · rw [pbDecodeFeed_of_error output store (hf.length_le hcap) (hf.headerUnpack_eq hP hcap)
      (hcoord _ hstep)]
    simp
  · obtain ⟨rfl, hterm⟩ := h.state.last_complete hn hcap hr (by omega) (by omega) hstep
    obtain ⟨inst', hfeed, -, -, hstarted⟩ := pbDecodeFeed_of_header output store
      (hf.length_le hcap) (hf.headerUnpack_eq hP hcap) (hcoord _ hstep)
    rw [if_pos rfl] at hstarted
    have hbytes := h.bytes.keepFrame store hf hP hcap hn (by omega) le_rfl
    rw [length_slicePayload hP le_rfl, if_pos rfl, hdiv] at hbytes
    have hupper : data.length ≤ 256 * P := by
      have := Nat.mul_le_mul_right P (Nat.succ_le_of_lt hn)
      rw [Nat.succ_mul] at this
      omega
    refine iff_of_true ⟨inst', _, by rw [hfeed, hstarted], ?_⟩ ⟨_, rfl⟩
    exact hbytes.offers store _ (hterm.trans hdiv) hP hcap hlen hupper

/-- The full slices in a row start nothing. -/
theorem Gathered.run (user : σ) (hP : 0 < P) (hcap : P ≤ 4095) (hlen : data.length ≤ 65535)
    {frames : List (List UInt8)}
    (hframes : List.Forall₂ (StreamFrame P start data) (List.range n) frames) (hn : n ≤ 255)
    (hslice : n ≤ data.length / P) :
    ∃ inst os, Machine.run (pbDecodeFeed (Config.ofPayload P) output store) (pbDecodeInit user)
        frames = .ok (inst, os) ∧
      Gathered store P data n inst ∧ ∀ o ∈ os, o = none := by
  induction n generalizing frames with
  | zero =>
      obtain rfl : frames = [] := List.forall₂_nil_left_iff.mp hframes
      exact ⟨_, [], rfl, gathered_init store user, by simp⟩
  | succ n ih =>
      rw [List.range_succ] at hframes
      obtain ⟨front, last, rfl, hfront, hlast⟩ := forall₂_concat_left hframes
      obtain ⟨inst, os, hrun, h, hnone⟩ := ih hfront (by omega) (by omega)
      obtain ⟨inst', hfeed, h'⟩ := h.feed output store hlast hP hcap (by omega) (by omega) hlen
      refine ⟨inst', os ++ [none], Machine.run_concat_of_ok hrun hfeed, h', fun o ho => ?_⟩
      rcases List.mem_append.mp ho with ho | ho
      · exact hnone o ho
      · exact List.mem_singleton.mp ho

/-- Feeding `frames` to a decoder just initialised starts `pb_decode` once, on
`data`. -/
def Arrives (P : ℕ) (output : PbOutputConfig σ) (store : PayloadStore σ) (user : σ)
    (frames : List (List UInt8)) (data : List UInt8) : Prop :=
  ∃ inst os pull, Machine.run (pbDecodeFeed (Config.ofPayload P) output store) (pbDecodeInit user)
      frames = .ok (inst, os) ∧ os.filterMap id = [pull] ∧ pull.Offers data

variable {output store} {user : σ} {frames : List (List UInt8)}

/-- Where nothing was started before, everything depends on the last frame. -/
theorem arrives_concat_iff {front : List (List UInt8)} {last : List UInt8}
    {os : List (Option SlicePull)}
    (hrun : Machine.run (pbDecodeFeed (Config.ofPayload P) output store) (pbDecodeInit user) front =
      .ok (inst, os)) (hnone : ∀ o ∈ os, o = none) :
    Arrives P output store user (front ++ [last]) data ↔
      ∃ inst' pull, pbDecodeFeed (Config.ofPayload P) output store inst last =
        .ok (inst', some pull) ∧ pull.Offers data := by
  have hfilter : os.filterMap id = [] := by
    rw [List.filterMap_eq_nil_iff]
    exact hnone
  constructor
  · rintro ⟨inst', os', pull, hrun', hpull, hoffers⟩
    obtain ⟨inst₁, os₁, os₂, h₁, h₂, rfl⟩ := Machine.run_append_eq_ok.mp hrun'
    rw [hrun, Except.ok.injEq, Prod.mk.injEq] at h₁
    obtain ⟨rfl, rfl⟩ := h₁
    obtain ⟨inst₂, o, os₃, hfeed, hnil, rfl⟩ := Machine.run_cons_eq_ok.mp h₂
    rw [Machine.run_nil, Except.ok.injEq, Prod.mk.injEq] at hnil
    rw [List.filterMap_append, hfilter, ← hnil.2, List.nil_append] at hpull
    cases o with
    | none => cases hpull
    | some pull' =>
        obtain rfl : pull' = pull := by simpa using hpull
        exact ⟨inst₂, pull', hfeed, hoffers⟩
  · rintro ⟨inst', pull, hfeed, hoffers⟩
    refine ⟨inst', os ++ [some pull], pull, Machine.run_concat_of_ok hrun hfeed, ?_, hoffers⟩
    rw [List.filterMap_append, hfilter]
    rfl

/-- What arrives is counted by 16 bits. -/
theorem Arrives.length_lt (h : Arrives P output store user frames data) :
    data.length < 2 ^ 16 := by
  obtain ⟨inst, os, pull, hrun, hpull, hoffers⟩ := h
  have hmem : some pull ∈ os := by
    have : pull ∈ os.filterMap id := by rw [hpull]; exact List.mem_singleton_self _
    simpa using this
  obtain ⟨inst₁, f, inst₂, hfeed⟩ := Machine.exists_step_of_mem hrun hmem
  rw [← hoffers.length]
  exact pbDecodeFeed_started output store hfeed

/-- **The frames of a message**, in order: they arrive if and only if there are
at most 256 of them and the end of the message is within the reach of the
scan. -/
theorem arrives_iff (hP : 0 < P) (hcap : P ≤ 4095) (hlen : data.length ≤ 65535)
    (hpos : 0 < data.length)
    (hframes : List.Forall₂ (StreamFrame P start data) (List.range (data.length / P + 1)) frames) :
    Arrives P output store user frames data ↔
      data.length / P ≤ 255 ∧ data.length + scanStride P ≤ 2 ^ 16 := by
  by_cases hn : data.length / P ≤ 255
  · rw [List.range_succ] at hframes
    obtain ⟨front, last, rfl, hfront, hlast⟩ := forall₂_concat_left hframes
    obtain ⟨inst, os, hrun, h, hnone⟩ :=
      Gathered.run output store user hP hcap hlen hfront hn le_rfl
    rw [arrives_concat_iff hrun hnone, and_iff_right hn]
    exact h.feed_last_iff output store hlast hP hcap (by omega) hlen hpos
  · -- slice 255 is a full one
    have htake := List.forall₂_take 256 hframes
    rw [List.take_range, Nat.min_eq_left (by omega), List.range_succ] at htake
    obtain ⟨front, last, hsplit, hfront, hlast⟩ := forall₂_concat_left htake
    obtain ⟨inst, os, hrun, h, -⟩ := Gathered.run output store user hP hcap hlen hfront le_rfl
      (by omega)
    refine iff_of_false ?_ (fun hc => hn hc.1)
    rintro ⟨inst', os', pull, hrun', -⟩
    rw [← List.take_append_drop 256 frames, hsplit] at hrun'
    obtain ⟨inst₁, os₁, os₂, h₁, -⟩ := Machine.run_append_eq_ok.mp hrun'
    have hfault := Machine.run_error_iff.mpr ⟨front, last, [], inst, os, rfl, hrun,
      h.feed_wrapped output store hlast hP hcap (by omega)⟩
    rw [hfault] at h₁
    cases h₁

end Frames

/-! ### No silent loss -/

/-- The number of the last slice is beyond 8 bits, or its offset is beyond 16
bits. -/
def TooLarge (P len : ℕ) : Prop := 255 < len / P ∨ 65535 < len / P * P

/-- The encoder returns, and if it reports success, what it has sent through
the user's block arrives; for a message that is too large it reports none. -/
def NoSilentLoss (P : ℕ) (output : PbOutputConfig σ) (store : PayloadStore σ) (user : σ)
    (senderId packageSerial : UInt8) (txBlock : List UInt8) (m : PbWrites) : Prop :=
  ∃ b ok, pbEncode (blockCallbacks (P + headerSize)) (Config.ofPayload P) senderId
      (.untouched txBlock) m packageSerial = .ok (b, ok) ∧
    (ok = true → Arrives P output store user b.sent m.bytes) ∧
    (TooLarge P m.bytes.length → ok = false)

/-- **No silent loss**, exactly: unless nanopb fails itself, the message has at
most 256 slices and ends a stride below `65536`. -/
theorem noSilentLoss_iff {P : ℕ} (hP : 1 ≤ P) (hcap : P ≤ 4095) (output : PbOutputConfig σ)
    (store : PayloadStore σ) (user : σ) (senderId packageSerial : UInt8) {txBlock : List UInt8}
    (htx : txBlock.length = P + headerSize) {m : PbWrites} (hne : m.bytes ≠ []) :
    NoSilentLoss P output store user senderId packageSerial txBlock m ↔
      m.succeeds = false ∨
        m.bytes.length / P ≤ 255 ∧ m.bytes.length + Nat.gcd P 65536 ≤ 65536 := by
  have hpos : 0 < m.bytes.length := List.length_pos_iff.mpr hne
  have hg : 0 < scanStride P := scanStride_pos hP
  obtain ⟨b, henc⟩ := pbEncode_returns senderId packageSerial hP hcap htx hne
  have hloss : NoSilentLoss P output store user senderId packageSerial txBlock m ↔
      (m.succeeds = true → Arrives P output store user b.sent m.bytes) ∧
        (TooLarge P m.bytes.length → m.succeeds = false) := by
    constructor
    · rintro ⟨b', ok, henc', h⟩
      rw [henc, Except.ok.injEq, Prod.mk.injEq] at henc'
      obtain ⟨rfl, rfl⟩ := henc'
      exact h
    · exact fun h => ⟨b, _, henc, h⟩
  rw [hloss]
  cases hok : m.succeeds with
  | false => simp
  | true =>
      simp only [forall_const, Bool.true_eq_false, imp_false, false_or]
      by_cases hlen : m.bytes.length ≤ 65535
      · obtain ⟨b', henc', hsent⟩ := pbEncode_sent senderId packageSerial hP hcap htx hne hlen hok
        rw [henc, Except.ok.injEq, Prod.mk.injEq] at henc'
        rw [henc'.1, arrives_iff hP hcap hlen hpos hsent.frames]
        apply and_iff_left_of_imp
        intro h
        have := Nat.div_mul_le_self m.bytes.length P
        unfold TooLarge
        omega
      · -- so many bytes cannot be announced
        refine iff_of_false (fun h => ?_) (fun h => ?_)
        · have := h.1.length_lt
          omega
        · have : m.bytes.length + scanStride P ≤ 65536 := h.2
          omega

/-- Three bytes in two writes. -/
theorem noSilentLoss_writes :
    NoSilentLoss 2 plainOutput flatStore (fun _ => 0) 1 7 (List.replicate 6 0)
        ⟨[[1], [2, 3]], true⟩ ↔
      true = false ∨ [1, 2, 3].length / 2 ≤ 255 ∧ [1, 2, 3].length + Nat.gcd 2 65536 ≤ 65536 :=
  noSilentLoss_iff (by decide) (by decide) plainOutput flatStore (fun _ => 0) 1 7
    List.length_replicate (by decide)

/-- One write of 65536 bytes: none of them is sent, and the encoder reports
success. -/
theorem pbEncode_loses :
    ¬ ∀ (P : ℕ) (output : PbOutputConfig (ℕ → UInt8)) (store : PayloadStore (ℕ → UInt8))
      (user : ℕ → UInt8) (senderId packageSerial : UInt8) (txBlock : List UInt8) (m : PbWrites),
      1 ≤ P → P ≤ 4095 → txBlock.length = P + headerSize → m.bytes ≠ [] →
      NoSilentLoss P output store user senderId packageSerial txBlock m := by
  intro h
  have hbytes : (PbWrites.mk [List.replicate 65536 7] true).bytes = List.replicate 65536 7 :=
    List.flatten_singleton
  have hne : (PbWrites.mk [List.replicate 65536 7] true).bytes ≠ [] := by
    rw [hbytes, ne_eq, List.replicate_eq_nil_iff]
    decide
  have htx : (List.replicate 6 (0 : UInt8)).length = 2 + headerSize := List.length_replicate
  obtain ⟨b, ok, henc, harrives, -⟩ := h 2 plainOutput flatStore (fun _ => 0) 1 7
    (List.replicate 6 0) ⟨[List.replicate 65536 7], true⟩ (by decide) (by decide) htx hne
  obtain ⟨b', henc'⟩ := pbEncode_returns 1 7 (by decide) (by decide) htx hne
  rw [henc, Except.ok.injEq, Prod.mk.injEq] at henc'
  have hlt := (harrives henc'.2).length_lt
  rw [hbytes, List.length_replicate] at hlt
  exact lt_irrefl _ hlt

end CustomData
