/-
CustomData/Decoder.lean

The two decoders that collect packages in a slot table: `RxDecoder::Impl::Push`
(C++) and `RxDecoder.Decode` (C#).

Both are written as their sources are, each with its own order of accesses and
its own checks.  `Decoder.feed_eq` brings them together: on any frame with a
header, a decoder hands the header and the clamped payload to `slotStep`, which
acts on the meta element of the sender and on one slot only.  The two
decoders differ in what an empty payload does to the buffer and in the fault
they raise when the buffer is too short.

The consumer runs in the middle of a call, and it may throw.  `pushWith` and
`decodeWith` are the two sources with a consumer that does or does not; `push`
and `decode` are their cases of a consumer that returns.
-/
import CustomData.Coordinator
import CustomData.Lib.Machine

namespace CustomData

/-- What a decoder makes of a frame: the class of its slice, and for COMPLETE
the bytes handed to the consumer. -/
structure Verdict where
  senderId : UInt8
  packageId : UInt8
  e : RxStreamEvent
  buffer : Option (List UInt8)
  deriving DecidableEq, Repr

/-- The buffers handed to the consumer, in order. -/
def handed (os : List (Option Verdict)) : List (List UInt8) :=
  os.filterMap fun o => o.bind Verdict.buffer

theorem handed_append (os os' : List (Option Verdict)) :
    handed (os ++ os') = handed os ++ handed os' := List.filterMap_append

/-! ### The C++ decoder -/

/-- `RxDecoder::Impl::Push` with an observer that throws if `throws` is set.  A
frame without a whole header is ignored.  The exception leaves the call where
the observer is called; the verdict says what it was called with. -/
def pushWith (throws : Bool) (config : Config) (c : Coordinator) (block : List UInt8) :
    Except Fault (Coordinator × Option Verdict) :=
  if block.length < headerSize then .ok (c, none) else
    let hdr := headerUnpack (arrayToPackedHeader block)
    let maxPayload := maxPayload config
    let payloadSize := UInt16.ofNat (min hdr.slicePayloadSize.toNat (block.length - headerSize))
    let payload := (block.drop headerSize).take payloadSize.toNat
    let coord := rxHeaderToCoordinate config hdr
    let c := c.gcHook coord.senderId coord.packageId
    let (c, state) := c.getState coord
    do
      let inst ← rxCalcSliceStep state hdr.sliceSerial payloadSize maxPayload (hdr.eop != 0)
      match inst.e with
      | .duplicate => .ok (c, some ⟨coord.senderId, coord.packageId, inst.e, none⟩)
      | .newSliceOutOfOrder | .newSliceInOrder =>
          let c := if payloadSize > 0 then c.putPayload coord payload else c
          let c := c.setState coord inst.nextState
          .ok (c, some ⟨coord.senderId, coord.packageId, inst.e, none⟩)
      | .complete =>
          let c := if payloadSize > 0 then c.putPayload coord payload else c
          let c := c.setState coord inst.nextState
          let normalizedCoord := { coord with offset := 0 }
          let (c, payloadView) := c.getPayload normalizedCoord
          if payloadView.length < inst.nextState.termination.toNat then .error .assertion else
            let c := if throws then c else c.setState normalizedCoord .zero
            .ok (c, some ⟨coord.senderId, coord.packageId, inst.e,
              some (payloadView.take inst.nextState.termination.toNat)⟩)

/-- `RxDecoder::Impl::Push` with an observer that returns. -/
def push : Config → Coordinator → List UInt8 → Except Fault (Coordinator × Option Verdict) :=
  pushWith false

theorem pushWith_of_short (throws : Bool) {config : Config} {c : Coordinator} {f : List UInt8}
    (hf : f.length < headerSize) : pushWith throws config c f = .ok (c, none) := if_pos hf

theorem push_of_short {config : Config} {c : Coordinator} {f : List UInt8}
    (hf : f.length < headerSize) : push config c f = .ok (c, none) := pushWith_of_short false hf

/-! ### The C# decoder -/

/-- `RxDecoder.Decode` with a `next` that throws if `throws` is set.  Slicing a
frame without a whole header throws, and so does a span that reaches past the
buffer. -/
def decodeWith (throws : Bool) (config : Config) (c : Coordinator) (frame : List UInt8) :
    Except Fault (Coordinator × Option Verdict) :=
  if frame.length < headerSize then .error .range else
    let header := headerUnpack (arrayToPackedHeader frame)
    let maxPayload := maxPayload config
    let payload := frame.drop headerSize
    let payloadSize := min header.slicePayloadSize (UInt16.ofNat payload.length)
    let coord := rxHeaderToCoordinate config header
    let c := c.gcHook coord.senderId coord.packageId
    let c := c.access coord
    let slot := c.slot coord
    do
      let step ← rxCalcSliceStep slot.state header.sliceSerial payloadSize maxPayload
        (header.eop != 0)
      if step.e = .duplicate then
        .ok (c, some ⟨coord.senderId, coord.packageId, step.e, none⟩)
      else
        let slot := { slot with
          data := copyAt (growTo slot.data (coord.offset.toNat + payloadSize.toNat))
            coord.offset.toNat (payload.take payloadSize.toNat)
          state := step.nextState }
        if step.e = .complete then
          if slot.data.length < step.nextState.termination.toNat then .error .range else
            let cleared := if throws then slot else { slot with state := .zero }
            .ok (c.setSlot coord cleared, some ⟨coord.senderId, coord.packageId, step.e,
              some (slot.data.take step.nextState.termination.toNat)⟩)
        else
          .ok (c.setSlot coord slot, some ⟨coord.senderId, coord.packageId, step.e, none⟩)

/-- `RxDecoder.Decode` with a `next` that returns. -/
def decode : Config → Coordinator → List UInt8 → Except Fault (Coordinator × Option Verdict) :=
  decodeWith false

theorem decodeWith_of_short (throws : Bool) {config : Config} {c : Coordinator} {f : List UInt8}
    (hf : f.length < headerSize) : decodeWith throws config c f = .error .range := if_pos hf

theorem decode_of_short {config : Config} {c : Coordinator} {f : List UInt8}
    (hf : f.length < headerSize) : decode config c f = .error .range :=
  decodeWith_of_short false hf

/-! ### One step for both -/

/-- The two decoders. -/
inductive Decoder
  | cpp | cs
  deriving DecidableEq, Repr

namespace Decoder

/-- Feed one frame. -/
def feed : Decoder → Config → Coordinator → List UInt8 →
    Except Fault (Coordinator × Option Verdict)
  | .cpp => push
  | .cs => decode

/-- Feed one frame, with a consumer that may throw. -/
def feedWith : Decoder → Bool → Config → Coordinator → List UInt8 →
    Except Fault (Coordinator × Option Verdict)
  | .cpp => pushWith
  | .cs => decodeWith

theorem feedWith_false (d : Decoder) : d.feedWith false = d.feed := by
  cases d with
  | cpp => rfl
  | cs => rfl

/-- A decoder nothing was fed to: the C# one starts with a zeroed meta array,
the C++ one with whatever is in memory. -/
def Initial : Decoder → Coordinator → Prop
  | .cpp, c => ∃ senderMeta, c = .fresh senderMeta
  | .cs, c => c = .fresh fun _ => ⟨0, 0⟩

theorem Initial.exists_fresh {d : Decoder} {c : Coordinator} (h : d.Initial c) :
    ∃ senderMeta, c = .fresh senderMeta := by
  cases d with
  | cpp => exact h
  | cs => exact ⟨_, h⟩

/-- How a payload enters the buffer: C++ skips an empty one, C# still grows the
buffer up to its offset. -/
def store : Decoder → List UInt8 → ℕ → List UInt8 → List UInt8
  | .cpp, data, offset, payload =>
      if payload.isEmpty then data else overwrite data offset payload
  | .cs, data, offset, payload => overwrite data offset payload

/-- The fault of a buffer that ends before the termination. -/
def short : Decoder → Fault
  | .cpp => .assertion
  | .cs => .range

/-- The payload size a decoder goes on with: both clamp the header's field to
the frame, C# after casting the length to 16 bits. -/
def clamp : Decoder → UInt16 → ℕ → UInt16
  | .cpp, size, room => UInt16.ofNat (min size.toNat room)
  | .cs, size, room => min size (UInt16.ofNat room)

/-- What a decoder does to the meta element of a sender and to the slot of a
package, with a consumer that may throw. -/
def slotStepWith (d : Decoder) (throws : Bool) (maxPayload : UInt16) (m : SenderMeta)
    (slot : Slot) (header : HeaderMeta) (size : UInt16) (payload : List UInt8) :
    Except Fault ((SenderMeta × Slot) × Verdict) :=
  let m := m.gcHook header.packageSerial
  let slot := slot.gcClockHook m
  do
    let step ← rxCalcSliceStep slot.state header.sliceSerial size maxPayload (header.eop != 0)
    let verdict := Verdict.mk header.senderId header.packageSerial step.e
    if step.e = .duplicate then .ok ((m, slot), verdict none)
    else
      let data := d.store slot.data (sliceIdxToOffset header.sliceSerial maxPayload).toNat payload
      if step.e = .complete then
        if data.length < step.nextState.termination.toNat then .error d.short
        else .ok ((m, { slot with
            state := if throws then step.nextState else .zero, data := data }),
          verdict (some (data.take step.nextState.termination.toNat)))
      else .ok ((m, { slot with state := step.nextState, data := data }), verdict none)

/-- What a decoder does with a consumer that returns. -/
def slotStep (d : Decoder) : UInt16 → SenderMeta → Slot → HeaderMeta → UInt16 → List UInt8 →
    Except Fault ((SenderMeta × Slot) × Verdict) :=
  d.slotStepWith false

/-- The reset may as well be made beforehand. -/
theorem slotStep_gcClockHook (d : Decoder) (P : UInt16) (m : SenderMeta) (slot : Slot)
    (header : HeaderMeta) (size : UInt16) (payload : List UInt8) :
    d.slotStep P m (slot.gcClockHook (m.gcHook header.packageSerial)) header size payload =
      d.slotStep P m slot header size payload := by
  simp only [slotStep, slotStepWith, Slot.gcClockHook_of_gen (Slot.gcClockHook_gen _ _)]

/-- A short payload ends the package, whatever the header says. -/
theorem slotStep_of_short (d : Decoder) {P size : UInt16} (hpos : size ≠ 0) (hlt : size < P)
    (m : SenderMeta) (slot : Slot) (header : HeaderMeta) (eop : UInt8) (payload : List UInt8) :
    d.slotStep P m slot { header with eop := eop } size payload =
      d.slotStep P m slot header size payload := by
  simp only [slotStep, slotStepWith,
    rxCalcSliceStep_of_short _ header.sliceSerial hpos hlt (eop != 0) (header.eop != 0)]

/-- Put a meta element and a slot back into the table. -/
def putBack (c : Coordinator) (senderId packageId : UInt8) (v : SenderMeta × Slot) :
    Coordinator where
  slots := Function.update c.slots (Coordinator.slotIndex senderId packageId) v.2
  senderMeta := Function.update c.senderMeta senderId v.1

/-- `slotStepWith` inside the table. -/
def receiveWith (d : Decoder) (throws : Bool) (config : Config) (c : Coordinator)
    (header : HeaderMeta) (size : UInt16) (payload : List UInt8) :
    Except Fault (Coordinator × Option Verdict) :=
  d.slotStepWith throws (maxPayload config) (c.senderMeta header.senderId)
      (c.slots (Coordinator.slotIndex header.senderId header.packageSerial)) header size payload >>=
    fun r => .ok (putBack c header.senderId header.packageSerial r.1, some r.2)

/-- `slotStep` inside the table. -/
def receive (d : Decoder) : Config → Coordinator → HeaderMeta → UInt16 → List UInt8 →
    Except Fault (Coordinator × Option Verdict) :=
  d.receiveWith false

theorem receive_eq (d : Decoder) (config : Config) (c : Coordinator) (header : HeaderMeta)
    (size : UInt16) (payload : List UInt8) :
    d.receive config c header size payload =
      d.slotStep (maxPayload config) (c.senderMeta header.senderId)
          (c.slots (Coordinator.slotIndex header.senderId header.packageSerial)) header size
          payload >>=
        fun r => .ok (putBack c header.senderId header.packageSerial r.1, some r.2) := rfl

theorem receive_of_short (d : Decoder) {config : Config} {size : UInt16} (hpos : size ≠ 0)
    (hlt : size < maxPayload config) (c : Coordinator) (header : HeaderMeta) (eop : UInt8)
    (payload : List UInt8) :
    d.receive config c { header with eop := eop } size payload =
      d.receive config c header size payload := by
  simp only [receive_eq, d.slotStep_of_short hpos hlt _ _ header eop]

theorem clamp_le (d : Decoder) (size : UInt16) (room : ℕ) : (d.clamp size room).toNat ≤ room := by
  cases d with
  | cpp =>
      simp only [clamp, UInt16.toNat_ofNat']
      exact (Nat.mod_le _ _).trans (Nat.min_le_right _ _)
  | cs =>
      simp only [clamp, UInt16.toNat_min, UInt16.toNat_ofNat']
      exact (Nat.min_le_right _ _).trans (Nat.mod_le _ _)

section Bridge

variable (c : Coordinator) (config : Config) (header : HeaderMeta)

/-- The slot a frame finds, after both hooks. -/
def refreshed : Slot :=
  (c.slots (Coordinator.slotIndex header.senderId header.packageSerial)).gcClockHook
    ((c.senderMeta header.senderId).gcHook header.packageSerial)

/-- The table after the hooks, with `sl` in the slot of the frame. -/
def hooked (sl : Slot) : Coordinator :=
  (c.gcHook header.senderId header.packageSerial).setSlot (rxHeaderToCoordinate config header) sl

theorem gcHook_access :
    (c.gcHook header.senderId header.packageSerial).access
        (rxHeaderToCoordinate config header) = hooked c config header (refreshed c header) := by
  simp [Coordinator.access, Coordinator.slot, Coordinator.gcHook, rxHeaderToCoordinate, hooked,
    refreshed]

variable {c config header}

/-- A slot with this generation is up to date. -/
theorem gen_hooked {sl : Slot} (h : sl.gen = (refreshed c header).gen) :
    sl.gen = ((c.gcHook header.senderId header.packageSerial).senderMeta header.senderId).gen := by
  rw [h]
  simp [refreshed, Coordinator.gcHook]

/-- Storing the payload, as C++ does. -/
theorem hooked_putPayload {sl : Slot} (h : sl.gen = (refreshed c header).gen) {size : UInt16}
    {payload : List UInt8} (hsize : ¬ size > 0 → payload = []) :
    (if size > 0 then (hooked c config header sl).putPayload (rxHeaderToCoordinate config header)
        payload else hooked c config header sl) =
      hooked c config header
        { sl with
          data := cpp.store sl.data
            (sliceIdxToOffset header.sliceSerial (maxPayload config)).toNat payload } := by
  split
  · exact Coordinator.putPayload_setSlot (gen_hooked h) payload
  · rename_i hz
    simp [store, hsize hz]

theorem hooked_setState {sl : Slot} (h : sl.gen = (refreshed c header).gen) (o : UInt16)
    (next : RxSliceState) :
    (hooked c config header sl).setState
        { rxHeaderToCoordinate config header with offset := o } next =
      hooked c config header { sl with state := next } :=
  @Coordinator.setState_setSlot _ { rxHeaderToCoordinate config header with offset := o } _
    (gen_hooked h) next

theorem hooked_getPayload {sl : Slot} (h : sl.gen = (refreshed c header).gen) :
    (hooked c config header sl).getPayload
        { rxHeaderToCoordinate config header with offset := 0 } =
      (hooked c config header sl, sl.data) :=
  @Coordinator.getPayload_setSlot _ { rxHeaderToCoordinate config header with offset := 0 } _
    (gen_hooked h)

/-- `Push` behind the parsing of the frame. -/
theorem pushWith_eq (throws : Bool) {f : List UInt8} (hf : headerSize ≤ f.length)
    (hheader : headerUnpack (arrayToPackedHeader f) = header) :
    pushWith throws config c f = cpp.receiveWith throws config c header
      (cpp.clamp header.slicePayloadSize (f.length - headerSize))
      ((f.drop headerSize).take
        (cpp.clamp header.slicePayloadSize (f.length - headerSize)).toNat) := by
  have hclamp : UInt16.ofNat (min header.slicePayloadSize.toNat (f.length - headerSize)) =
      cpp.clamp header.slicePayloadSize (f.length - headerSize) := rfl
  simp only [pushWith, not_lt.mpr hf, if_false, hheader, hclamp]
  generalize cpp.clamp header.slicePayloadSize (f.length - headerSize) = size
  obtain ⟨payload, hpayload⟩ : ∃ payload, payload = (f.drop headerSize).take size.toNat := ⟨_, rfl⟩
  -- `Push` skips an empty payload, `put_payload` would skip it too
  have hempty : ¬ size > 0 → payload = [] := by
    intro hz
    have : size.toNat = 0 := by
      rw [gt_iff_lt, UInt16.lt_iff_toNat_lt, UInt16.toNat_zero] at hz
      omega
    simp [hpayload, this]
  have hids : c.gcHook (rxHeaderToCoordinate config header).senderId
      (rxHeaderToCoordinate config header).packageId =
      c.gcHook header.senderId header.packageSerial := rfl
  have hslot : (hooked c config header (refreshed c header)).slot
      (rxHeaderToCoordinate config header) = refreshed c header := Coordinator.slot_setSlot _ _ _
  have hrefreshed : (c.slots (Coordinator.slotIndex header.senderId
      header.packageSerial)).gcClockHook ((c.senderMeta header.senderId).gcHook
      header.packageSerial) = refreshed c header := rfl
  rw [← hpayload]
  simp only [hids, Coordinator.getState, gcHook_access, hslot, receiveWith, slotStepWith,
    hrefreshed, hooked_putPayload rfl hempty]
  have hset : ∀ (sl : Slot) (next : RxSliceState), sl.gen = (refreshed c header).gen →
      (hooked c config header sl).setState (rxHeaderToCoordinate config header) next =
        hooked c config header { sl with state := next } :=
    fun sl next h => hooked_setState h _ next
  rcases rxCalcSliceStep (refreshed c header).state header.sliceSerial size
      (maxPayload config) (header.eop != 0) with e | ⟨e, next⟩
  · rfl
  · cases e with
    | duplicate => rfl
    | newSliceOutOfOrder =>
        simp only [Machine.ok_bind, hset]
        rfl
    | newSliceInOrder =>
        simp only [Machine.ok_bind, hset]
        rfl
    | complete =>
        simp only [Machine.ok_bind, hset, hooked_getPayload, hooked_setState, if_true,
          reduceCtorEq, if_false]
        cases throws <;> split <;> rfl

/-- `Decode` behind the parsing of the frame. -/
theorem decodeWith_eq (throws : Bool) {f : List UInt8} (hf : headerSize ≤ f.length)
    (hheader : headerUnpack (arrayToPackedHeader f) = header) :
    decodeWith throws config c f = cs.receiveWith throws config c header
      (cs.clamp header.slicePayloadSize (f.length - headerSize))
      ((f.drop headerSize).take
        (cs.clamp header.slicePayloadSize (f.length - headerSize)).toNat) := by
  simp only [decodeWith, not_lt.mpr hf, if_false, hheader, List.length_drop]
  have hclamp : min header.slicePayloadSize (UInt16.ofNat (f.length - headerSize)) =
      cs.clamp header.slicePayloadSize (f.length - headerSize) := rfl
  have hle := cs.clamp_le header.slicePayloadSize (f.length - headerSize)
  rw [hclamp]
  generalize cs.clamp header.slicePayloadSize (f.length - headerSize) = size at hle
  obtain ⟨payload, hpayload⟩ : ∃ payload, payload = (f.drop headerSize).take size.toNat :=
    ⟨_, rfl⟩
  have hlen : size.toNat = payload.length := by
    rw [hpayload, List.length_take, List.length_drop]
    omega
  have hids : c.gcHook (rxHeaderToCoordinate config header).senderId
      (rxHeaderToCoordinate config header).packageId =
      c.gcHook header.senderId header.packageSerial := rfl
  have hslot : (hooked c config header (refreshed c header)).slot
      (rxHeaderToCoordinate config header) = refreshed c header :=
    Coordinator.slot_setSlot _ _ _
  have hrefreshed : (c.slots (Coordinator.slotIndex header.senderId
      header.packageSerial)).gcClockHook ((c.senderMeta header.senderId).gcHook
      header.packageSerial) = refreshed c header := rfl
  rw [← hpayload]
  have hstore : ∀ data, copyAt
      (growTo data ((rxHeaderToCoordinate config header).offset.toNat + payload.length))
      (rxHeaderToCoordinate config header).offset.toNat payload =
      cs.store data (sliceIdxToOffset header.sliceSerial (maxPayload config)).toNat payload :=
    fun _ => rfl
  have hset : ∀ sl : Slot, (hooked c config header (refreshed c header)).setSlot
      (rxHeaderToCoordinate config header) sl = hooked c config header sl :=
    fun _ => Coordinator.setSlot_setSlot _ _ _ _
  simp only [hids, gcHook_access, hslot, receiveWith, slotStepWith, hrefreshed, hlen, hstore,
    hset]
  rcases rxCalcSliceStep (refreshed c header).state header.sliceSerial size
      (maxPayload config) (header.eop != 0) with e | ⟨e, next⟩
  · rfl
  · cases e with
    | duplicate => rfl
    | newSliceOutOfOrder => rfl
    | newSliceInOrder => rfl
    | complete =>
        simp only [Machine.ok_bind, if_true, reduceCtorEq, if_false]
        cases throws <;> split <;> rfl

/-- **Both decoders are the one step**, whatever their consumers do. -/
theorem feedWith_eq (d : Decoder) (throws : Bool) {f : List UInt8} (hf : headerSize ≤ f.length)
    (hheader : headerUnpack (arrayToPackedHeader f) = header) :
    d.feedWith throws config c f = d.receiveWith throws config c header
      (d.clamp header.slicePayloadSize (f.length - headerSize))
      ((f.drop headerSize).take
        (d.clamp header.slicePayloadSize (f.length - headerSize)).toNat) := by
  cases d with
  | cpp => exact pushWith_eq throws hf hheader
  | cs => exact decodeWith_eq throws hf hheader

/-- On a frame with a whole header, each decoder is `receive` on the header and
the clamped payload. -/
theorem feed_eq (d : Decoder) {f : List UInt8} (hf : headerSize ≤ f.length)
    (hheader : headerUnpack (arrayToPackedHeader f) = header) :
    d.feed config c f = d.receive config c header
      (d.clamp header.slicePayloadSize (f.length - headerSize))
      ((f.drop headerSize).take
        (d.clamp header.slicePayloadSize (f.length - headerSize)).toNat) := by
  rw [← feedWith_false]
  exact d.feedWith_eq false hf hheader

theorem push_eq {f : List UInt8} (hf : headerSize ≤ f.length)
    (hheader : headerUnpack (arrayToPackedHeader f) = header) :
    push config c f = cpp.receive config c header
      (cpp.clamp header.slicePayloadSize (f.length - headerSize))
      ((f.drop headerSize).take
        (cpp.clamp header.slicePayloadSize (f.length - headerSize)).toNat) :=
  cpp.feed_eq hf hheader

theorem decode_eq {f : List UInt8} (hf : headerSize ≤ f.length)
    (hheader : headerUnpack (arrayToPackedHeader f) = header) :
    decode config c f = cs.receive config c header
      (cs.clamp header.slicePayloadSize (f.length - headerSize))
      ((f.drop headerSize).take
        (cs.clamp header.slicePayloadSize (f.length - headerSize)).toNat) :=
  cs.feed_eq hf hheader

/-- A decoder reads a frame as the header and the payload written into it. -/
theorem feed_of_starts (d : Decoder) (hfits : header.Fits) {room : ℕ} (hroom : room ≤ 4095)
    {payload f : List UInt8} (hsize : header.slicePayloadSize.toNat = payload.length)
    (hle : payload.length ≤ room) (hlength : f.length = room + headerSize)
    (hstarts : packedHeaderToArray (headerPack header) ++ payload <+: f) :
    d.feed config c f = d.receive config c header header.slicePayloadSize payload := by
  obtain ⟨rest, rfl⟩ := hstarts
  have hheader : headerUnpack (arrayToPackedHeader
      (packedHeaderToArray (headerPack header) ++ payload ++ rest)) = header := by
    rw [List.append_assoc]
    exact headerUnpack_wire hfits _
  have hclamp : d.clamp header.slicePayloadSize room = header.slicePayloadSize := by
    apply UInt16.toNat_inj.mp
    cases d with
    | cpp =>
        simp only [clamp, UInt16.toNat_ofNat']
        omega
    | cs =>
        simp only [clamp, UInt16.toNat_min, UInt16.toNat_ofNat']
        omega
  have hpayload : ((packedHeaderToArray (headerPack header) ++ payload ++ rest).drop
      headerSize).take header.slicePayloadSize.toNat = payload := by
    rw [List.append_assoc, List.drop_left' (packedHeaderToArray_length _), hsize,
      List.take_left' rfl]
  rw [feed_eq d (by rw [hlength]; exact Nat.le_add_left _ _) hheader, hlength,
    Nat.add_sub_cancel, hclamp, hpayload]

end Bridge

end Decoder

end CustomData
