/-
CustomData/TxWriter.lean

The C# sender (`TxEncoder.cs`): a buffer writer that cuts slices as it is
filled.

A client asks for a span, writes into it and advances, any number of times,
and disposes the writer.  A full slice is emitted as soon as it is full
(`Advance`); a slice that is not full is emitted early when a size hint does
not fit the room left in it (`GetSpan`, `GetMemory`).

`Pending data q r w` describes a writer that has cut `data` into full slices
only: `q` of them are out and `r` bytes wait in the buffer.  A call whose hint
fits the room keeps it that way (`Pending.use`); a call whose hint does not
fit leaves the writer with a short slice that is not marked as the last one
(`Pending.cut`).  `Pending.run` follows a whole session.
-/
import CustomData.Tx
import CustomData.Coordinator
import CustomData.Lib.Machine

namespace CustomData

/-! ### The writer -/

/-- `TxWriter`: the rented buffer, the cursor, the fill of the current slice,
and the blocks that went to `_next` so far.  The configuration is passed as an
argument. -/
structure TxWriter where
  buffer : List UInt8
  cursor : Coordinate
  fill : UInt16
  emitted : List (List UInt8)
  deriving DecidableEq, Repr

/-- A window of the buffer handed to the client. -/
structure Span where
  start : ℕ
  length : ℕ
  deriving DecidableEq, Repr

/-- `TxEncoder` -/
structure TxEncoder where
  transmissionUnit : UInt16
  senderId : UInt8
  currentPackageId : UInt32
  deriving DecidableEq, Repr

/-- The `mp_config_t` the encoder gives its writers. -/
def TxEncoder.config (encoder : TxEncoder) : Config := ⟨encoder.transmissionUnit⟩

/-- `TxEncoder.CreateWriter`, given the buffer the pool rents out. -/
def TxEncoder.createWriter (encoder : TxEncoder) (rented : List UInt8) : TxEncoder × TxWriter :=
  let packageId := encoder.currentPackageId + 1
  ({ encoder with currentPackageId := packageId },
    ⟨rented, ⟨encoder.senderId, packageId.toUInt8, 0⟩, 0, []⟩)

namespace TxWriter

/-- `EmitSlice` -/
def emitSlice (config : Config) (w : TxWriter) (eop : Bool) : TxWriter :=
  if w.fill = 0 ∧ (!eop || w.cursor.offset = 0) then w else
    let slice := txPrepare config w.cursor w.fill eop
    let buffer := packedHeaderToArray (headerPack slice.header) ++ w.buffer.drop headerSize
    ⟨buffer, slice.next, 0, w.emitted ++ [buffer.take config.transmissionUnit.toNat]⟩

/-- `CheckSizeAndTryEmitSlice` -/
def checkSizeAndTryEmitSlice (config : Config) (w : TxWriter) (size : ℕ) : TxWriter :=
  if ((maxPayload config).toNat : ℤ) - w.fill.toNat < size then w.emitSlice config false else w

/-- `Dispose` -/
def dispose (config : Config) (w : TxWriter) : TxWriter := w.emitSlice config true

/-- `Advance` -/
def advance (config : Config) (w : TxWriter) (count : ℕ) : TxWriter :=
  let w := { w with fill := w.fill + UInt16.ofNat count }
  if w.fill = maxPayload config then w.emitSlice config false else w

/-- `GetSpan`; a window that is not inside the buffer throws. -/
def getSpan (config : Config) (w : TxWriter) (sizeHint : ℕ) : Except Fault (TxWriter × Span) :=
  let w := w.checkSizeAndTryEmitSlice config sizeHint
  if maxPayload config < w.fill ∨
      w.buffer.length < headerSize + w.fill.toNat + ((maxPayload config).toNat - w.fill.toNat) then
    .error .range
  else .ok (w, ⟨headerSize + w.fill.toNat, (maxPayload config).toNat - w.fill.toNat⟩)

/-- `GetMemory` has the body of `GetSpan`. -/
def getMemory (config : Config) (w : TxWriter) (sizeHint : ℕ) : Except Fault (TxWriter × Span) :=
  w.getSpan config sizeHint

/-- The client writes to the front of a span. -/
def write (w : TxWriter) (span : Span) (content : List UInt8) : TxWriter :=
  { w with buffer := copyAt w.buffer span.start content }

end TxWriter

/-! ### Sessions -/

/-- How a client asks for room. -/
inductive RequestMethod
  | getSpan | getMemory
  deriving DecidableEq, Repr

/-- One request of a client, with what it does to the span: `data` is what it
advances over, `scratch` what it writes behind that. -/
structure WriterCall where
  method : RequestMethod
  sizeHint : ℕ
  data : List UInt8
  scratch : List UInt8
  deriving DecidableEq, Repr

/-- The span holds at least what was asked for, and never nothing. -/
def LargeEnough (call : WriterCall) (span : Span) : Prop := max call.sizeHint 1 ≤ span.length

/-- All that a session writes. -/
def written (calls : List WriterCall) : List UInt8 := calls.flatMap WriterCall.data

@[simp] theorem written_cons (call : WriterCall) (calls : List WriterCall) :
    written (call :: calls) = call.data ++ written calls := rfl

namespace TxWriter

/-- The request of a call. -/
def request (config : Config) (w : TxWriter) (call : WriterCall) :
    Except Fault (TxWriter × Span) :=
  match call.method with
  | .getSpan => w.getSpan config call.sizeHint
  | .getMemory => w.getMemory config call.sizeHint

/-- The client's part of a call. -/
def use (config : Config) (w : TxWriter) (span : Span) (call : WriterCall) : TxWriter :=
  (w.write span (call.data ++ call.scratch)).advance config call.data.length

/-- One call. -/
def call (config : Config) (w : TxWriter) (call : WriterCall) :
    Except Fault (TxWriter × Span) := do
  let (w, span) ← w.request config call
  .ok (w.use config span call, span)

/-- Hints up to a full slice, and no writing past a span. -/
def Legal (config : Config) : TxWriter → List WriterCall → Prop
  | _, [] => True
  | w, call :: calls => call.sizeHint ≤ (maxPayload config).toNat ∧
      match w.request config call with
      | .error _ => True
      | .ok (w', span) => (call.data ++ call.scratch).length ≤ span.length ∧
          Legal config (w'.use config span call) calls

instance decidableLegal (config : Config) :
    ∀ (w : TxWriter) (calls : List WriterCall), Decidable (Legal config w calls)
  | _, [] => .isTrue trivial
  | w, call :: calls =>
      match h : w.request config call with
      | .error _ => decidable_of_iff (call.sizeHint ≤ (maxPayload config).toNat)
          (by simp [Legal, h])
      | .ok (w', span) =>
          have := decidableLegal config (w'.use config span call) calls
          decidable_of_iff (call.sizeHint ≤ (maxPayload config).toNat ∧
            (call.data ++ call.scratch).length ≤ span.length ∧
            Legal config (w'.use config span call) calls) (by simp [Legal, h])

/-- No call whose hint exceeds the room left in the current slice is followed
by more data; `n` bytes have been written so far. -/
def NoEarlyCut (P : ℕ) : ℕ → List WriterCall → Prop
  | _, [] => True
  | n, call :: calls => (call.sizeHint ≤ P - n % P ∨ written (call :: calls) = []) ∧
      NoEarlyCut P (n + call.data.length) calls

instance decidableNoEarlyCut (P : ℕ) :
    ∀ (n : ℕ) (calls : List WriterCall), Decidable (NoEarlyCut P n calls)
  | _, [] => .isTrue trivial
  | n, call :: calls =>
      have := decidableNoEarlyCut P (n + call.data.length) calls
      inferInstanceAs (Decidable ((call.sizeHint ≤ P - n % P ∨ written (call :: calls) = []) ∧
        NoEarlyCut P (n + call.data.length) calls))

/-! ### Requests -/

variable {P : ℕ} {w : TxWriter} {hint : ℕ}

/-- A slice is being filled. -/
structure Room (P : ℕ) (w : TxWriter) : Prop where
  fill : w.fill.toNat < P
  buffer : P + headerSize ≤ w.buffer.length

theorem emitSlice_fill (config : Config) (w : TxWriter) (eop : Bool) :
    (w.emitSlice config eop).fill = 0 := by
  unfold emitSlice
  split
  · rename_i h
    exact h.1
  · rfl

theorem emitSlice_emitted (config : Config) (w : TxWriter) (eop : Bool) :
    w.emitted <+: (w.emitSlice config eop).emitted := by
  unfold emitSlice
  split
  · exact List.prefix_rfl
  · exact List.prefix_append _ _

theorem emitSlice_buffer (config : Config) {w : TxWriter} (eop : Bool)
    (h : headerSize ≤ w.buffer.length) :
    (w.emitSlice config eop).buffer.length = w.buffer.length := by
  unfold emitSlice
  split
  · rfl
  · simp only [List.length_append, packedHeaderToArray_length, List.length_drop]
    omega

theorem Room.emitSlice (h : Room P w) (eop : Bool) :
    Room P (w.emitSlice (Config.ofPayload P) eop) where
  fill := by
    rw [emitSlice_fill]
    exact (Nat.zero_le _).trans_lt h.fill
  buffer := by
    rw [emitSlice_buffer _ _ (by have := h.buffer; omega)]
    exact h.buffer

/-- A hint that exceeds the room cuts the slice. -/
theorem Room.checkSizeAndTryEmitSlice_eq (h : Room P w) (hP : P ≤ 4095) (size : ℕ) :
    w.checkSizeAndTryEmitSlice (Config.ofPayload P) size =
      if P - w.fill.toNat < size then w.emitSlice (Config.ofPayload P) false else w := by
  have hfill := h.fill
  unfold checkSizeAndTryEmitSlice
  rw [maxPayload_ofPayload hP]
  by_cases hlt : P - w.fill.toNat < size
  · rw [if_pos hlt, if_pos (by omega)]
  · rw [if_neg hlt, if_neg (by omega)]

/-- **A request** with a hint up to a full slice gets a span that is large
enough, behind the bytes that wait in the buffer. -/
theorem Room.request (h : Room P w) (hP : P ≤ 4095) {c : WriterCall} (hhint : c.sizeHint ≤ P) :
    ∃ w', w' = (if P - w.fill.toNat < c.sizeHint then w.emitSlice (Config.ofPayload P) false
        else w) ∧
      w.request (Config.ofPayload P) c =
        .ok (w', ⟨headerSize + w'.fill.toNat, P - w'.fill.toNat⟩) ∧
      Room P w' ∧ max c.sizeHint 1 ≤ P - w'.fill.toNat ∧ w.emitted <+: w'.emitted := by
  have hmax := maxPayload_ofPayload hP
  obtain ⟨w', hw'⟩ : ∃ w', w' = (if P - w.fill.toNat < c.sizeHint then
      w.emitSlice (Config.ofPayload P) false else w) := ⟨_, rfl⟩
  have hroom : Room P w' := by
    rw [hw']
    split
    · exact h.emitSlice false
    · exact h
  have hlarge : max c.sizeHint 1 ≤ P - w'.fill.toNat := by
    have := hroom.fill
    have hfit : c.sizeHint ≤ P - w'.fill.toNat := by
      rw [hw']
      split
      · rw [emitSlice_fill]
        simpa using hhint
      · omega
    omega
  refine ⟨w', hw', ?_, hroom, hlarge, ?_⟩
  · have hget : w.getSpan (Config.ofPayload P) c.sizeHint =
        .ok (w', ⟨headerSize + w'.fill.toNat, P - w'.fill.toNat⟩) := by
      have := hroom.fill
      have := hroom.buffer
      unfold getSpan
      rw [h.checkSizeAndTryEmitSlice_eq hP, ← hw', hmax, if_neg]
      rw [UInt16.lt_iff_toNat_lt, hmax]
      omega
    unfold TxWriter.request getMemory
    cases c.method <;> exact hget
  · rw [hw']
    split
    · exact emitSlice_emitted _ _ _
    · exact List.prefix_rfl

/-- The writer once the client has written and the fill has been moved on, before
a full slice goes out. -/
def filled (w : TxWriter) (span : Span) (c : WriterCall) : TxWriter :=
  { w.write span (c.data ++ c.scratch) with fill := w.fill + UInt16.ofNat c.data.length }

theorem use_eq (config : Config) (w : TxWriter) (span : Span) (c : WriterCall) :
    w.use config span c = if (w.filled span c).fill = maxPayload config then
      (w.filled span c).emitSlice config false else w.filled span c := rfl

/-- Writing within the span moves the fill and keeps the buffer's length. -/
theorem Room.filled (h : Room P w) (hP : P ≤ 4095) {c : WriterCall}
    (hfit : (c.data ++ c.scratch).length ≤ P - w.fill.toNat) :
    (w.filled ⟨headerSize + w.fill.toNat, P - w.fill.toNat⟩ c).fill.toNat =
        w.fill.toNat + c.data.length ∧
      (w.filled ⟨headerSize + w.fill.toNat, P - w.fill.toNat⟩ c).buffer.length =
        w.buffer.length := by
  have hfill := h.fill
  have hbuf := h.buffer
  rw [List.length_append] at hfit
  constructor
  · simp only [TxWriter.filled, UInt16.toNat_add, UInt16.toNat_ofNat']
    omega
  · simp only [TxWriter.filled, write, copyAt, List.length_append, List.length_take,
      List.length_drop]
    omega

/-- The client's part keeps a slice being filled, and takes nothing back. -/
theorem Room.use (h : Room P w) (hP : P ≤ 4095) {c : WriterCall}
    (hfit : (c.data ++ c.scratch).length ≤ P - w.fill.toNat) :
    Room P (w.use (Config.ofPayload P) ⟨headerSize + w.fill.toNat, P - w.fill.toNat⟩ c) ∧
      w.emitted <+: (w.use (Config.ofPayload P)
        ⟨headerSize + w.fill.toNat, P - w.fill.toNat⟩ c).emitted := by
  have hfill := h.fill
  have hbuf := h.buffer
  obtain ⟨hsum, hlen⟩ := h.filled hP hfit
  rw [use_eq]
  split
  · -- the slice is full and goes out
    refine ⟨⟨?_, ?_⟩, ?_⟩
    · rw [emitSlice_fill]
      exact (Nat.zero_le _).trans_lt hfill
    · rw [emitSlice_buffer _ _ (by omega), hlen]
      exact hbuf
    · exact emitSlice_emitted _ (w.filled _ c) false
  · rename_i hne
    rw [List.length_append] at hfit
    rw [← UInt16.toNat_inj, hsum, maxPayload_ofPayload hP] at hne
    exact ⟨⟨by omega, by omega⟩, List.prefix_rfl⟩

/-- Without data and with an empty slice, the client's part does nothing. -/
theorem use_idle (hP : 0 < P) (hP' : P ≤ 4095) (hfill : w.fill = 0) {c : WriterCall}
    (hdata : c.data = []) (span : Span) :
    (w.use (Config.ofPayload P) span c).emitted = w.emitted ∧
      (w.use (Config.ofPayload P) span c).cursor = w.cursor ∧
      (w.use (Config.ofPayload P) span c).fill = 0 := by
  have hmax := maxPayload_ofPayload hP'
  have hne : ¬ (0 + UInt16.ofNat 0 : UInt16) = maxPayload (Config.ofPayload P) := by
    intro he
    have := congrArg UInt16.toNat he
    rw [hmax] at this
    simp at this
    omega
  unfold TxWriter.use advance write
  simp only [hfill, hdata, List.length_nil, if_neg hne, true_and]
  rfl

/-- A call is its request and the client's part. -/
theorem call_of_request {config : Config} {w₁ : TxWriter} {span : Span} {c : WriterCall}
    (h : w.request config c = .ok (w₁, span)) :
    w.call config c = .ok (w₁.use config span c, span) := by
  rw [TxWriter.call, h]
  rfl

/-- **Any session** goes through, with spans that are large enough.  Without
data, and with an empty slice to begin with, nothing happens. -/
theorem Room.run {calls : List WriterCall} (h : Room P w) (hP : P ≤ 4095)
    (hlegal : Legal (Config.ofPayload P) w calls) :
    ∃ w' spans, Machine.run (TxWriter.call (Config.ofPayload P)) w calls = .ok (w', spans) ∧
      List.Forall₂ LargeEnough calls spans ∧
      Room P w' ∧ w.emitted <+: w'.emitted ∧ (w.fill = 0 → written calls = [] →
        w'.emitted = w.emitted ∧ w'.cursor = w.cursor ∧ w'.fill = 0) := by
  have hmax := maxPayload_ofPayload hP
  induction calls generalizing w with
  | nil => exact ⟨w, [], rfl, .nil, h, List.prefix_rfl, fun hfill _ => ⟨rfl, rfl, hfill⟩⟩
  | cons c calls ih =>
      obtain ⟨hhint, hrest⟩ := hlegal
      rw [hmax] at hhint
      obtain ⟨w₁, hw₁, hreq, hroom₁, hlarge, hpre₁⟩ := h.request hP hhint
      rw [hreq] at hrest
      obtain ⟨hfit, hlegal'⟩ := hrest
      obtain ⟨hroom₂, hpre₂⟩ := hroom₁.use hP hfit
      obtain ⟨w', spans, hrun, hspans, hroom', hpre₃, hidle⟩ := ih hroom₂ hlegal'
      have hspan : LargeEnough c ⟨headerSize + w₁.fill.toNat, P - w₁.fill.toNat⟩ := hlarge
      refine ⟨w', _, Machine.run_cons_of_ok (call_of_request hreq) hrun, .cons hspan hspans,
        hroom', hpre₁.trans (hpre₂.trans hpre₃), fun hfill hnone => ?_⟩
      rw [written_cons, List.append_eq_nil_iff] at hnone
      rw [hfill, UInt16.toNat_zero, if_neg (by omega)] at hw₁
      subst hw₁
      obtain ⟨hemitted, hcursor, hzero⟩ := use_idle (lt_of_le_of_lt (Nat.zero_le _) h.fill) hP
        hfill hnone.1 ⟨headerSize + w₁.fill.toNat, P - w₁.fill.toNat⟩
      obtain ⟨hemitted', hcursor', hzero'⟩ := hidle hzero hnone.2
      exact ⟨hemitted'.trans hemitted, hcursor'.trans hcursor, hzero'⟩

end TxWriter

/-! ### Slices on the wire -/

variable {P : ℕ}

/-- The bytes of slice `i`, as far as `data` goes. -/
def slicePayload (P : ℕ) (data : List UInt8) (i : ℕ) : List UInt8 := (data.drop (i * P)).take P

/-- `f` is the block of slice `i` of the package that starts at `start`. -/
structure SliceFrame (P : ℕ) (start : Coordinate) (data : List UInt8) (eop : Bool) (i : ℕ)
    (f : List UInt8) : Prop where
  length : f.length = P + headerSize
  starts : packedHeaderToArray (headerPack (txMakeHeader (Config.ofPayload P) (start.slice P i)
    (UInt16.ofNat (slicePayload P data i).length) eop)) ++ slicePayload P data i <+: f

/-- More data behind a full slice does not change it. -/
theorem slicePayload_append {data : List UInt8} {i : ℕ} (hi : i * P + P ≤ data.length)
    (more : List UInt8) : slicePayload P (data ++ more) i = slicePayload P data i := by
  rw [slicePayload, List.drop_append_of_le_length (by omega),
    List.take_append_of_le_length (by rw [List.length_drop]; omega), slicePayload]

/-- More data behind a full slice does not change its block. -/
theorem SliceFrame.append {start : Coordinate} {data : List UInt8} {eop : Bool} {i : ℕ}
    {f : List UInt8} (h : SliceFrame P start data eop i f) (hi : i * P + P ≤ data.length)
    (more : List UInt8) : SliceFrame P start (data ++ more) eop i f :=
  ⟨h.length, slicePayload_append hi more ▸ h.starts⟩

namespace TxWriter

/-! ### The state of a writer -/

variable {w : TxWriter}

/-- The writer has moved on to slice `q`, and the `r` bytes of `data` from there
on wait in the buffer. -/
structure Waiting (P : ℕ) (start : Coordinate) (data : List UInt8) (q r : ℕ) (w : TxWriter) :
    Prop where
  length : data.length = q * P + r
  le : r ≤ P
  fill : w.fill.toNat = r
  cursor : w.cursor = start.slice P q
  buffer : P + headerSize ≤ w.buffer.length
  bytes : ∀ k < r, w.buffer[headerSize + k]? = data[q * P + k]?

/-- The writer has cut `data` into full slices: `q` are out, `r` bytes wait in
the buffer. -/
structure Pending (P : ℕ) (start : Coordinate) (data : List UInt8) (q r : ℕ) (w : TxWriter) :
    Prop extends Waiting P start data q r w where
  frames : List.Forall₂ (SliceFrame P start data false) (List.range q) w.emitted

variable {start : Coordinate} {data : List UInt8} {q r : ℕ}

theorem Pending.room (h : Pending P start data q r w) (hr : r < P) : Room P w :=
  ⟨h.fill ▸ hr, h.buffer⟩

/-- Emitting what waits in the buffer. -/
theorem Waiting.emitSlice (h : Waiting P start data q r w) (hP : P ≤ 4095) (eop : Bool)
    (hgo : ¬ (w.fill = 0 ∧ (!eop || w.cursor.offset = 0))) :
    ∃ f, SliceFrame P start data eop q f ∧
      (w.emitSlice (Config.ofPayload P) eop).emitted = w.emitted ++ [f] ∧
      (w.emitSlice (Config.ofPayload P) eop).cursor = start.slice P (q + 1) := by
  have hbuf := h.buffer
  have hle := h.le
  have hlen := h.length
  have htu : (Config.ofPayload P).transmissionUnit.toNat = P + headerSize := by
    simp only [Config.ofPayload, UInt16.toNat_ofNat']
    unfold headerSize
    omega
  -- the payload is what waits behind the header
  have hpayload : slicePayload P data q = (w.buffer.drop headerSize).take r := by
    apply List.ext_getElem?
    intro k
    rw [slicePayload, List.getElem?_take, List.getElem?_take, List.getElem?_drop,
      List.getElem?_drop]
    by_cases hk : k < r
    · rw [if_pos (by omega), if_pos hk, h.bytes k hk]
    · rw [if_neg hk, List.getElem?_eq_none (by omega)]
      split <;> rfl
  have hsize : (slicePayload P data q).length = r := by
    rw [hpayload, List.length_take, List.length_drop]
    omega
  have hfill : w.fill = UInt16.ofNat r := by
    rw [← h.fill, UInt16.ofNat_toNat]
  unfold TxWriter.emitSlice
  rw [if_neg hgo]
  refine ⟨_, ⟨?_, ?_⟩, rfl, ?_⟩
  · rw [htu, List.length_take, List.length_append, packedHeaderToArray_length, List.length_drop]
    omega
  · have htake : ∀ packed, (packedHeaderToArray packed ++ w.buffer.drop headerSize).take
        (P + headerSize) = packedHeaderToArray packed ++ (w.buffer.drop headerSize).take P := by
      intro packed
      rw [Nat.add_comm, List.take_append, packedHeaderToArray_length, Nat.add_sub_cancel_left,
        List.take_of_length_le (by rw [packedHeaderToArray_length]; omega)]
    rw [hsize, hpayload, txPrepare, h.cursor, hfill, htu, htake, List.prefix_append_right_inj]
    exact List.take_prefix_take_left hle
  · simp only [txPrepare, h.cursor]
    exact txAdvance_slice hP

/-- A slice with bytes in it is not held back. -/
theorem Waiting.emits (h : Waiting P start data q r w) (hpos : 0 < r) (eop : Bool) :
    ¬ (w.fill = 0 ∧ (!eop || w.cursor.offset = 0)) := by
  rintro ⟨hzero, -⟩
  have hfill := h.fill
  rw [hzero, UInt16.toNat_zero] at hfill
  omega

/-- A full slice goes out, and the next one is begun. -/
theorem Pending.emitFull (h : Pending P start data q P w) (hP : P ≤ 4095) (hpos : 0 < P) :
    Pending P start data (q + 1) 0 (w.emitSlice (Config.ofPayload P) false) := by
  have hbuf := h.buffer
  obtain ⟨f, hf, hemitted, hcursor⟩ := h.emitSlice hP false (h.emits hpos false)
  refine ⟨⟨?_, Nat.zero_le _, ?_, hcursor, ?_, by simp⟩, ?_⟩
  · rw [h.length, Nat.add_one_mul]
    omega
  · rw [emitSlice_fill, UInt16.toNat_zero]
  · rw [emitSlice_buffer _ _ (by omega)]
    exact hbuf
  · rw [hemitted, List.range_succ]
    exact List.rel_append h.frames (.cons hf .nil)

/-- The data of a call waits behind the bytes that wait already. -/
theorem Pending.filled (h : Pending P start data q r w) (hP : P ≤ 4095) (hr : r < P)
    {c : WriterCall} (hfit : (c.data ++ c.scratch).length ≤ P - r) :
    Pending P start (data ++ c.data) q (r + c.data.length)
      (w.filled ⟨headerSize + r, P - r⟩ c) := by
  obtain ⟨hsum, hkeep⟩ := (h.room hr).filled hP (c := c) (by rw [h.fill]; exact hfit)
  have hbuf := h.buffer
  have hlen := h.length
  rw [h.fill] at hsum hkeep
  rw [List.length_append] at hfit
  have hcopy : copyAt w.buffer (headerSize + r) (c.data ++ c.scratch) =
      overwrite w.buffer (headerSize + r) (c.data ++ c.scratch) := by
    rw [overwrite, growTo, List.length_append, Nat.sub_eq_zero_of_le (by omega),
      List.replicate_zero, List.append_nil]
  refine ⟨⟨?_, by omega, hsum, h.cursor, by omega, fun k hk => ?_⟩, ?_⟩
  · rw [List.length_append, hlen]
    omega
  · simp only [TxWriter.filled, write, hcopy]
    by_cases hkr : k < r
    · rw [overwrite_getElem?_of_notMem (Or.inl (by omega)) (by omega), h.bytes k hkr,
        List.getElem?_append_left (by omega)]
    · rw [overwrite_getElem?_of_mem (by omega) (by rw [List.length_append]; omega),
        List.getElem?_append_left (by omega), List.getElem?_append_right (by omega), hlen]
      congr 1
      omega
  · -- the slices that are out were full
    refine (List.forall₂_iff_zip.mpr ⟨h.frames.length_eq, fun {i f} hmem => ?_⟩)
    have hi := List.mem_range.mp (List.of_mem_zip hmem).1
    have hmul := Nat.mul_le_mul_right P (Nat.succ_le_of_lt hi)
    rw [Nat.succ_mul] at hmul
    exact (List.forall₂_zip h.frames hmem).append (by omega) _

/-- **The client's part** of a call adds its data; a slice that becomes full
goes out. -/
theorem Pending.use (h : Pending P start data q r w) (hP : P ≤ 4095) (hr : r < P)
    {c : WriterCall} (hfit : (c.data ++ c.scratch).length ≤ P - r) :
    ∃ q' r', r' < P ∧ Pending P start (data ++ c.data) q' r'
      (w.use (Config.ofPayload P) ⟨headerSize + r, P - r⟩ c) := by
  have hpend := h.filled hP hr hfit
  rw [List.length_append] at hfit
  have hcheck : (w.filled ⟨headerSize + r, P - r⟩ c).fill = maxPayload (Config.ofPayload P) ↔
      r + c.data.length = P := by
    rw [← UInt16.toNat_inj, hpend.fill, maxPayload_ofPayload hP]
  by_cases hfull : r + c.data.length = P
  · rw [use_eq, if_pos (hcheck.mpr hfull)]
    rw [hfull] at hpend
    exact ⟨q + 1, 0, by omega, hpend.emitFull hP (by omega)⟩
  · rw [use_eq, if_neg (mt hcheck.mp hfull)]
    exact ⟨q, r + c.data.length, by omega, hpend⟩

/-! ### Sessions, as far as they cut -/

/-- The blocks of `data`, the last of them short and not marked as the last. -/
structure CutShort (P : ℕ) (start : Coordinate) (data : List UInt8) (q r : ℕ)
    (blocks : List (List UInt8)) : Prop where
  length : data.length = q * P + r
  pos : 0 < r
  lt : r < P
  frames : ∃ front last, blocks = front ++ [last] ∧
    List.Forall₂ (SliceFrame P start data false) (List.range q) front ∧
    SliceFrame P start data false q last

/-- A hint that does not fit the room cuts the slice. -/
theorem Pending.cut (h : Pending P start data q r w) (hP : P ≤ 4095) (hr : r < P) (hpos : 0 < r) :
    CutShort P start data q r (w.emitSlice (Config.ofPayload P) false).emitted ∧
      (w.emitSlice (Config.ofPayload P) false).cursor = start.slice P (q + 1) := by
  obtain ⟨f, hf, hemitted, hcursor⟩ := h.emitSlice hP false (h.emits hpos false)
  exact ⟨⟨h.length, hpos, hr, w.emitted, f, hemitted, h.frames, hf⟩, hcursor⟩

theorem noEarlyCut_of_written_eq_nil {n : ℕ} {calls : List WriterCall} (h : written calls = []) :
    NoEarlyCut P n calls := by
  induction calls generalizing n with
  | nil => trivial
  | cons c calls ih =>
      have hsplit := h
      rw [written_cons, List.append_eq_nil_iff] at hsplit
      exact ⟨Or.inr h, ih hsplit.2⟩

/-- What a session leaves when no slice was cut short before more data: the
data is pending, or the last slice was cut short after all of it. -/
def Finished (P : ℕ) (start : Coordinate) (data : List UInt8) (w : TxWriter) : Prop :=
  ∃ q r, r < P ∧ (Pending P start data q r w ∨
    CutShort P start data q r w.emitted ∧ w.fill = 0 ∧ w.cursor = start.slice P (q + 1) ∧
      Room P w)

/-- What a session leaves otherwise: the blocks begin with those of a proper
prefix of the data, the last of them short. -/
def Broken (P : ℕ) (start : Coordinate) (data : List UInt8) (w : TxWriter) : Prop :=
  ∃ pre blocks q r, pre <+: data ∧ pre.length < data.length ∧ blocks <+: w.emitted ∧
    CutShort P start pre q r blocks

/-- A session that begins with a hint that does not fit: the short slice goes
out, and nothing more if nothing more is written. -/
theorem Pending.run_cut (h : Pending P start data q r w) (hP : P ≤ 4095) (hr : r < P)
    {c : WriterCall} {calls : List WriterCall} (hroom : P - r < c.sizeHint)
    (hlegal : Legal (Config.ofPayload P) w (c :: calls)) :
    ∃ w' spans, Machine.run (TxWriter.call (Config.ofPayload P)) w (c :: calls) =
        .ok (w', spans) ∧
      (∃ blocks, blocks <+: w'.emitted ∧ CutShort P start data q r blocks) ∧
      (written (c :: calls) = [] → CutShort P start data q r w'.emitted ∧ w'.fill = 0 ∧
        w'.cursor = start.slice P (q + 1) ∧ Room P w') := by
  obtain ⟨hhint, hrest⟩ := hlegal
  rw [maxPayload_ofPayload hP] at hhint
  obtain ⟨w₁, hw₁, hreq, hroom₁, -, -⟩ := (h.room hr).request hP hhint
  rw [hreq] at hrest
  obtain ⟨hfit, hlegal'⟩ := hrest
  rw [h.fill, if_pos hroom] at hw₁
  obtain ⟨hcut, hcursor⟩ := h.cut hP hr (by omega)
  have hzero : w₁.fill = 0 := hw₁ ▸ emitSlice_fill _ _ _
  rw [← hw₁] at hcut hcursor
  obtain ⟨hroom₂, hpre⟩ := hroom₁.use hP hfit
  obtain ⟨w', spans, hrun, -, hroom', hpre', hidle⟩ := hroom₂.run hP hlegal'
  refine ⟨w', _, Machine.run_cons_of_ok (call_of_request hreq) hrun,
    ⟨w₁.emitted, hpre.trans hpre', hcut⟩, fun hnone => ?_⟩
  rw [written_cons, List.append_eq_nil_iff] at hnone
  obtain ⟨hemitted, hcursor', hzero'⟩ := use_idle (by omega) hP hzero hnone.1
    ⟨headerSize + w₁.fill.toNat, P - w₁.fill.toNat⟩
  obtain ⟨hemitted₂, hcursor₂, hzero₂⟩ := hidle hzero' hnone.2
  refine ⟨?_, hzero₂, ?_, hroom'⟩
  · rw [hemitted₂, hemitted]
    exact hcut
  · rw [hcursor₂, hcursor', hcursor]

/-- **A session**, from any state in which nothing was cut short. -/
theorem Pending.run {calls : List WriterCall} (h : Pending P start data q r w) (hP : P ≤ 4095)
    (hr : r < P) (hlegal : Legal (Config.ofPayload P) w calls) :
    ∃ w' spans, Machine.run (TxWriter.call (Config.ofPayload P)) w calls = .ok (w', spans) ∧
      (NoEarlyCut P data.length calls → Finished P start (data ++ written calls) w') ∧
      (¬ NoEarlyCut P data.length calls → Broken P start (data ++ written calls) w') := by
  induction calls generalizing w data q r with
  | nil =>
      refine ⟨w, [], rfl, fun _ => ⟨q, r, hr, Or.inl ?_⟩, fun hnot => absurd trivial hnot⟩
      simpa [written] using h
  | cons c calls ih =>
      have hmod : data.length % P = r := by
        rw [h.length, Nat.mul_add_mod', Nat.mod_eq_of_lt hr]
      by_cases hroom : c.sizeHint ≤ P - r
      · -- the hint fits, nothing is emitted by the request
        have hhint : c.sizeHint ≤ P := hroom.trans (Nat.sub_le _ _)
        obtain ⟨w₁, hw₁, hreq, -, -, -⟩ := (h.room hr).request hP hhint
        have hrest := hlegal.2
        rw [hreq] at hrest
        obtain ⟨hfit, hlegal'⟩ := hrest
        rw [h.fill, if_neg (by omega)] at hw₁
        subst hw₁
        rw [h.fill] at hfit hlegal'
        obtain ⟨q', r', hr', hpend⟩ := h.use hP hr hfit
        obtain ⟨w', spans, hrun, hfin, hbroken⟩ := ih hpend hr' hlegal'
        rw [List.append_assoc, List.length_append] at hfin hbroken
        rw [← h.fill] at hrun
        exact ⟨w', _, Machine.run_cons_of_ok (call_of_request hreq) hrun,
          fun hno => hfin hno.2,
          fun hnot => hbroken fun hno => hnot ⟨Or.inl (by rw [hmod]; exact hroom), hno⟩⟩
      · -- the hint does not fit, the slice goes out short
        obtain ⟨w', spans, hrun, ⟨blocks, hblocks, hcut⟩, hidle⟩ :=
          h.run_cut hP hr (not_le.mp hroom) hlegal
        refine ⟨w', spans, hrun, fun hno => ?_, fun hnot => ?_⟩
        · have hnone : written (c :: calls) = [] :=
            hno.1.resolve_left (by rw [hmod]; exact hroom)
          rw [hnone, List.append_nil]
          exact ⟨q, r, hr, Or.inr (hidle hnone)⟩
        · have hsome : written (c :: calls) ≠ [] := fun hnone =>
            hnot (noEarlyCut_of_written_eq_nil hnone)
          refine ⟨data, blocks, q, r, List.prefix_append _ _, ?_, hblocks, hcut⟩
          have hpos := List.length_pos_iff.mpr hsome
          rw [List.length_append]
          omega

end TxWriter

end CustomData
