/-
CustomData/Spans.lean

The span operations of the C# decoder on arbitrary frames.

`decode` renders the spans of its source by list operations that cannot fail,
but for the two places where the length of a buffer is an invariant.
`decodeChecked` is the same method with every range, copy and `AsSpan` checked
as the runtime checks it, and with the two table indices checked as well.

No check fails (`decode_in_bounds`): the payload is clamped to the frame before
it is cut, the buffer is grown before the payload is copied, and no termination
lies behind the buffer of its slot, whatever was fed before.
-/
import CustomData.Isolation

namespace CustomData

open Decoder

/-! ### Spans and arrays as the runtime checks them -/

/-- `BinaryPrimitives.ReadUInt32LittleEndian`, behind `PackedHeaderFromSpan`. -/
def packedHeaderFromSpan (span : List UInt8) : Except Fault UInt32 :=
  if headerSize ≤ span.length then .ok (arrayToPackedHeader span) else .error .range

/-- `span[start..]`, and `AsSpan(start)` on an array or null. -/
def spanFrom (data : List UInt8) (start : ℕ) : Except Fault (List UInt8) :=
  if start ≤ data.length then .ok (data.drop start) else .error .range

/-- `span[..length]`, and `AsSpan(0, length)` on an array or null. -/
def spanTo (data : List UInt8) (length : ℕ) : Except Fault (List UInt8) :=
  if length ≤ data.length then .ok (data.take length) else .error .range

/-- `source.CopyTo(array.AsSpan(start))`; the array after it. -/
def copyTo (source data : List UInt8) (start : ℕ) : Except Fault (List UInt8) := do
  let target ← spanFrom data start
  if source.length ≤ target.length then .ok (copyAt data start source) else .error .range

/-- An index into an array of `length` elements. -/
def checkIndex (length index : ℕ) : Except Fault Unit :=
  if index < length then .ok () else .error .range

/-- The number of slots, `SlotCount`. -/
def slotCount : ℕ := 1 <<< (3 + 8)

/-- The number of elements of `_senderMetas`. -/
def senderCount : ℕ := 1 <<< 3

theorem packedHeaderFromSpan_of_le {span : List UInt8} (h : headerSize ≤ span.length) :
    packedHeaderFromSpan span = .ok (arrayToPackedHeader span) := if_pos h

theorem spanFrom_of_le {data : List UInt8} {start : ℕ} (h : start ≤ data.length) :
    spanFrom data start = .ok (data.drop start) := if_pos h

theorem spanTo_of_le {data : List UInt8} {length : ℕ} (h : length ≤ data.length) :
    spanTo data length = .ok (data.take length) := if_pos h

theorem copyTo_of_le {source data : List UInt8} {start : ℕ}
    (h : start + source.length ≤ data.length) :
    copyTo source data start = .ok (copyAt data start source) := by
  rw [copyTo, spanFrom_of_le (by omega), Machine.ok_bind, List.length_drop]
  exact if_pos (by omega)

theorem checkIndex_of_lt {length index : ℕ} (h : index < length) :
    checkIndex length index = .ok () := if_pos h

/-! ### The checked method -/

/-- `RxDecoder.Decode`, every access checked. -/
def decodeChecked (config : Config) (c : Coordinator) (frame : List UInt8) :
    Except Fault (Coordinator × Option Verdict) := do
  let packed ← packedHeaderFromSpan frame
  let header := headerUnpack packed
  let maxPayload := maxPayload config
  let payload ← spanFrom frame headerSize
  let payloadSize := min header.slicePayloadSize (UInt16.ofNat payload.length)
  let coord := rxHeaderToCoordinate config header
  let _ ← checkIndex senderCount coord.senderId.toNat
  let c := c.gcHook coord.senderId coord.packageId
  let _ ← checkIndex slotCount (Coordinator.slotIndex coord.senderId coord.packageId)
  let c := c.access coord
  let slot := c.slot coord
  let step ← rxCalcSliceStep slot.state header.sliceSerial payloadSize maxPayload (header.eop != 0)
  if step.e = .duplicate then
    .ok (c, some ⟨coord.senderId, coord.packageId, step.e, none⟩)
  else do
    let source ← spanTo payload payloadSize.toNat
    let data ← copyTo source (growTo slot.data (coord.offset.toNat + payloadSize.toNat))
      coord.offset.toNat
    let slot := { slot with data := data, state := step.nextState }
    if step.e = .complete then do
      let span ← spanTo slot.data step.nextState.termination.toNat
      .ok (c.setSlot coord { slot with state := .zero },
        some ⟨coord.senderId, coord.packageId, step.e, some span⟩)
    else .ok (c.setSlot coord slot, some ⟨coord.senderId, coord.packageId, step.e, none⟩)

/-! ### No check but the last one can fail -/

theorem length_growTo (data : List UInt8) (needed : ℕ) :
    (growTo data needed).length = max data.length needed := by
  simp only [growTo, List.length_append, List.length_replicate]
  omega

/-- The ids of a header stay inside the two tables. -/
theorem slotIndex_lt_slotCount (header : HeaderMeta) (h : header.Fits) :
    Coordinator.slotIndex header.senderId header.packageSerial < slotCount := by
  have hid := h.senderId
  have hserial := header.packageSerial.toNat_lt
  have hcount : slotCount = 2048 := rfl
  rw [Coordinator.slotIndex_eq]
  omega

/-- On a span that holds the termination, the last check is the one `decode`
makes. -/
theorem spanTo_bind (data : List UInt8) (length : ℕ) {β : Type}
    (f : List UInt8 → Except Fault β) :
    (spanTo data length >>= f) =
      if data.length < length then .error .range else f (data.take length) := by
  by_cases h : length ≤ data.length
  · rw [spanTo_of_le h, if_neg (not_lt.mpr h), Machine.ok_bind]
  · rw [spanTo, if_neg h, if_pos (not_le.mp h), Machine.error_bind]

/-- **The checks change nothing**: the clamped payload can always be cut and
copied, and the ids are always in range. -/
theorem decodeChecked_eq (config : Config) (c : Coordinator) (frame : List UInt8) :
    decodeChecked config c frame = decode config c frame := by
  by_cases hlen : headerSize ≤ frame.length
  · have hsize := cs.clamp_le (headerUnpack (arrayToPackedHeader frame)).slicePayloadSize
      (frame.length - headerSize)
    have hclamp : cs.clamp (headerUnpack (arrayToPackedHeader frame)).slicePayloadSize
        (frame.length - headerSize) =
      min (headerUnpack (arrayToPackedHeader frame)).slicePayloadSize
        (UInt16.ofNat (frame.drop headerSize).length) := by
      rw [List.length_drop]
      rfl
    have hfits := headerUnpack_fits (arrayToPackedHeader frame)
    simp only [decodeChecked, decode, decodeWith, packedHeaderFromSpan_of_le hlen,
      spanFrom_of_le hlen, Machine.ok_bind, not_lt.mpr hlen, Bool.false_eq_true, if_false]
    rw [← hclamp]
    generalize cs.clamp (headerUnpack (arrayToPackedHeader frame)).slicePayloadSize
      (frame.length - headerSize) = size at hsize
    generalize headerUnpack (arrayToPackedHeader frame) = header at hfits
    have hsender : checkIndex senderCount
        (rxHeaderToCoordinate config header).senderId.toNat = .ok () :=
      checkIndex_of_lt hfits.senderId
    have hslot : checkIndex slotCount (Coordinator.slotIndex
        (rxHeaderToCoordinate config header).senderId
        (rxHeaderToCoordinate config header).packageId) = .ok () :=
      checkIndex_of_lt (slotIndex_lt_slotCount header hfits)
    have hsource : spanTo (frame.drop headerSize) size.toNat =
        .ok ((frame.drop headerSize).take size.toNat) :=
      spanTo_of_le (by rwa [List.length_drop])
    have hcopy : ∀ (data : List UInt8) (offset : ℕ),
        copyTo ((frame.drop headerSize).take size.toNat) (growTo data (offset + size.toNat))
          offset = .ok (copyAt (growTo data (offset + size.toNat)) offset
            ((frame.drop headerSize).take size.toNat)) := by
      intro data offset
      apply copyTo_of_le
      rw [length_growTo, List.length_take, List.length_drop]
      omega
    simp only [hsender, hslot, hsource, hcopy, spanTo_bind, Machine.ok_bind]
  · simp only [decodeChecked, decode_of_short (not_le.mp hlen), packedHeaderFromSpan, if_neg hlen,
      Machine.error_bind]

/-! ### Runs -/

section InBounds

variable (config : Config) (c : Coordinator) (frame : List UInt8)

/-- `payloadSize` -/
def decodedSize : UInt16 :=
  cs.clamp (headerUnpack (arrayToPackedHeader frame)).slicePayloadSize (frame.length - headerSize)

/-- The slot that the indexer returns. -/
def decodedSlot : Slot := refreshed c (headerUnpack (arrayToPackedHeader frame))

/-- `coord.offset` -/
def decodedOffset : ℕ :=
  (sliceIdxToOffset (headerUnpack (arrayToPackedHeader frame)).sliceSerial
    (maxPayload config)).toNat

/-- `slot.Payload`, grown and with the payload in it. -/
def decodedPayload : List UInt8 :=
  copyAt
    (growTo (decodedSlot c frame).data (decodedOffset config frame + (decodedSize frame).toNat))
    (decodedOffset config frame) ((frame.drop headerSize).take (decodedSize frame).toNat)

/-- What the accesses of `Decode` need: the header and the payload slice lie in
the frame, the copy target in the payload array of the slot, and the span that
COMPLETE hands on ends before the array does. -/
structure InBounds : Prop where
  header : headerSize ≤ frame.length
  source : headerSize + (decodedSize frame).toNat ≤ frame.length
  target : decodedOffset config frame + (decodedSize frame).toNat ≤
    (growTo (decodedSlot c frame).data
      (decodedOffset config frame + (decodedSize frame).toNat)).length
  termination : ∀ next,
    rxCalcSliceStep (decodedSlot c frame).state
      (headerUnpack (arrayToPackedHeader frame)).sliceSerial (decodedSize frame)
      (maxPayload config) ((headerUnpack (arrayToPackedHeader frame)).eop != 0) =
        .ok ⟨.complete, next⟩ →
    next.termination.toNat ≤ (decodedPayload config c frame).length

end InBounds

/-- Where no termination lies behind its buffer, every access is in bounds. -/
theorem Decoder.WithinBuffers.inBounds {config : Config} {c : Coordinator} (h : WithinBuffers c)
    {frame : List UInt8} (hlen : headerSize ≤ frame.length) : InBounds config c frame := by
  have hsize : (decodedSize frame).toNat ≤ frame.length - headerSize := cs.clamp_le _ _
  have hpayload : ((frame.drop headerSize).take (decodedSize frame).toNat).length =
      (decodedSize frame).toNat := by
    rw [List.length_take, List.length_drop]
    omega
  refine ⟨hlen, by omega, ?_, fun next hstep => ?_⟩
  · rw [length_growTo]
    omega
  · have hslot : (decodedSlot c frame).state.termination.toNat ≤
        (decodedSlot c frame).data.length := gcClockHook_within (h _) _
    have hle := termination_le_of_step hslot hpayload hstep
    rw [store, overwrite, hpayload] at hle
    exact hle

/-- **C# decoding does not throw.**  Over any sequence of frames of at least
four bytes whose scans return, every checked access of `Decode` succeeds: each
call is in bounds in the state it finds, and the run comes to its end. -/
theorem decode_in_bounds {tu : ℕ} {frames : List (List UInt8)}
    (hlen : ∀ f ∈ frames, headerSize ≤ f.length)
    (hscan : Machine.run (decodeChecked ⟨UInt16.ofNat tu⟩) (.fresh fun _ => ⟨0, 0⟩) frames ≠
      .error .scan) :
    (∃ c os, Machine.run (decodeChecked ⟨UInt16.ofNat tu⟩) (.fresh fun _ => ⟨0, 0⟩) frames =
      .ok (c, os)) ∧
    ∀ before f after c os, frames = before ++ f :: after →
      Machine.run (decodeChecked ⟨UInt16.ofNat tu⟩) (.fresh fun _ => ⟨0, 0⟩) before =
        .ok (c, os) →
      InBounds ⟨UInt16.ofNat tu⟩ c f := by
  have hchecked : decodeChecked ⟨UInt16.ofNat tu⟩ = decode ⟨UInt16.ofNat tu⟩ :=
    funext fun c => funext fun f => decodeChecked_eq _ c f
  rw [hchecked] at hscan ⊢
  refine ⟨decode_run_ok hlen hscan, ?_⟩
  rintro before f after c os rfl hrun
  have hwithin : WithinBuffers c :=
    Machine.run_invariant (I := WithinBuffers) (P := fun f : List UInt8 => headerSize ≤ f.length)
      (fun c f c' o h hf => (h.decode hf).1 c' o) (fun _ => Nat.zero_le _)
      (fun f hf => hlen f (List.mem_append_left _ hf)) hrun
  exact hwithin.inBounds (hlen f (by simp))

/-- An empty slice far behind everything, then the bytes it left out. -/
theorem decode_in_bounds_hostile :
    (∃ c os, Machine.run (decodeChecked ⟨UInt16.ofNat 6⟩) (.fresh fun _ => ⟨0, 0⟩)
      [[0, 9, 0, 0], [0, 0, 0xf8, 0xff, 1]] = .ok (c, os)) ∧
    ∀ before f after c os, [[0, 9, 0, 0], [0, 0, 0xf8, 0xff, 1]] = before ++ f :: after →
      Machine.run (decodeChecked ⟨UInt16.ofNat 6⟩) (.fresh fun _ => ⟨0, 0⟩) before =
        .ok (c, os) →
      InBounds ⟨UInt16.ofNat 6⟩ c f := by
  apply decode_in_bounds (by decide)
  intro h
  have := congrArg (Except.map Prod.snd) h
  revert this
  decide +kernel

end CustomData
