/-
CustomData/ToolArea.lean

When the receiver of the tool stays in its buffers.

`payload_put` copies as many bytes as the header names, from a block of `tu`
bytes into the assembly area, and a flush reads the area up to the watermark.
The header names up to 4095 bytes, whatever the unit; and the area has 256
slices of `tu - 6` bytes, while slice `i` starts at `i * (tu - 4)`.  So neither
is safe for every input.

Whether a block is safe can be read off its header and the slice state before
it (`BlockFits`), and the receiver stays in its buffers if and only if every
block on the way fits (`cmdRx_inside_iff`).  What carries the proof is that
everything below the watermark is received (`Placed`): a new slice in order
starts at the watermark, and the scan from there meets the slices that are
missing in the order of their places.
-/
import CustomData.ToolMain
import CustomData.Scan

namespace CustomData

/-! ### What a block asks for -/

section Fits

variable (tu : UInt16) (s : RxSliceState) (header : HeaderMeta)

/-- The state that a new slice leaves before the watermark is looked at. -/
abbrev RxSliceState.acceptHeader : RxSliceState :=
  s.accept header.sliceSerial header.slicePayloadSize (maxPayload ⟨tu⟩) (header.eop != 0)

/-- The block holds the payload, and the area its place. -/
def PayloadFits : Prop :=
  header.slicePayloadSize = 0 ∨
    header.slicePayloadSize.toNat ≤ tu.toNat - headerSize ∧
      (sliceIdxToOffset header.sliceSerial (maxPayload ⟨tu⟩)).toNat +
        header.slicePayloadSize.toNat ≤ rxBufSize tu

/-- The area reaches as far as the watermark may get: as far as 16 bits count,
or to the end of the package as known with this slice, or to the start of
another slice that is missing. -/
def FlushFits : Prop :=
  2 ^ 16 ≤ rxBufSize tu ∨
    ((s.acceptHeader tu header).termination ≠ 0 ∧
      (s.acceptHeader tu header).termination.toNat ≤ rxBufSize tu) ∨
    ∃ j : UInt8, j ≠ header.sliceSerial ∧ s.has j = false ∧
      j.toNat * (maxPayload ⟨tu⟩).toNat ≤ rxBufSize tu

/-- The slice is received already; or its payload fits, and it is out of order
or what may be flushed fits. -/
def BlockFits (block : List UInt8) : Prop :=
  let header := headerUnpack (arrayToPackedHeader block)
  s.has header.sliceSerial = true ∨
    PayloadFits tu header ∧
      (s.watermark < sliceIdxToOffset header.sliceSerial (maxPayload ⟨tu⟩) ∨
        FlushFits tu s header)

end Fits

/-! ### Where the scan ends -/

/-- Everything below the watermark is received, and the watermark lies in the
area. -/
structure Placed (tu : UInt16) (s : RxSliceState) : Prop where
  below : rxBufSize tu < 2 ^ 16 → ∀ i : UInt8,
    i.toNat * (maxPayload ⟨tu⟩).toNat < s.watermark.toNat → s.has i = true
  watermark_le : s.watermark.toNat ≤ rxBufSize tu

theorem placed_zero (tu : UInt16) : Placed tu .zero where
  below := fun _ _ h => absurd h (Nat.not_lt_zero _)
  watermark_le := Nat.zero_le _

section Scan

variable {tu : UInt16} {s : RxSliceState} {header : HeaderMeta} {wm : UInt16}

theorem maxPayload_add_headerSize (htu : 7 ≤ tu.toNat) :
    (maxPayload ⟨tu⟩).toNat + headerSize = tu.toNat := by
  have hlt := tu.toNat_lt
  simp only [maxPayload, headerSize, UInt16.toNat_sub, UInt16.reduceToNat]
  omega

theorem maxPayload_pos (htu : 7 ≤ tu.toNat) : 0 < (maxPayload ⟨tu⟩).toNat := by
  have hmax := maxPayload_add_headerSize htu
  unfold headerSize at hmax
  omega

/-- The area is two bytes a slice too small. -/
theorem rxBufSize_add (htu : 7 ≤ tu.toNat) :
    rxBufSize tu + 512 = 256 * (maxPayload ⟨tu⟩).toNat := by
  have hlt := tu.toNat_lt
  have hmax := maxPayload_add_headerSize htu
  have hsub : (tu - headerMetaSize).toNat = tu.toNat - 6 := by
    rw [UInt16.toNat_sub_of_le _ _ (by rw [UInt16.le_iff_toNat_le]; exact le_trans (by decide) htu)]
    rfl
  rw [rxBufSize, hsub]
  unfold headerSize at hmax
  omega

/-- In an area that 16 bits can leave no offset wraps. -/
theorem sliceIdxToOffset_toNat_of_area (htu : 7 ≤ tu.toNat) (hsmall : rxBufSize tu < 2 ^ 16)
    (i : UInt8) : (sliceIdxToOffset i (maxPayload ⟨tu⟩)).toNat =
      i.toNat * (maxPayload ⟨tu⟩).toNat := by
  have hsize := rxBufSize_add htu
  have hi := i.toNat_lt
  have hmul : i.toNat * (maxPayload ⟨tu⟩).toNat ≤ 255 * 257 := Nat.mul_le_mul (by omega) (by omega)
  rw [sliceIdxToOffset_toNat, Nat.mod_eq_of_lt (by omega)]

/-- A new slice in order starts at the watermark. -/
theorem Placed.watermark_eq (h : Placed tu s) (htu : 7 ≤ tu.toNat)
    (hsmall : rxBufSize tu < 2 ^ 16) {i : UInt8} (hnew : s.has i = false)
    (hin : ¬ s.watermark < sliceIdxToOffset i (maxPayload ⟨tu⟩)) :
    s.watermark.toNat = i.toNat * (maxPayload ⟨tu⟩).toNat := by
  rw [UInt16.lt_iff_toNat_lt, sliceIdxToOffset_toNat_of_area htu hsmall, not_lt] at hin
  refine le_antisymm (not_lt.mp fun hlt => ?_) hin
  rw [h.below hsmall i hlt] at hnew
  cases hnew

/-- The scan does not get past a slice that is missing. -/
theorem rxAdvanceWatermark_le_of_missing {P : UInt16} (hP : 0 < P.toNat) {i j : UInt8}
    (hok : rxAdvanceWatermark s P = .ok wm) (hstart : s.watermark.toNat = i.toNat * P.toNat)
    (hmiss : s.has j = false) (hij : i.toNat ≤ j.toNat) (hrange : j.toNat * P.toNat < 2 ^ 16) :
    wm.toNat ≤ j.toNat * P.toNat := by
  have hj := j.toNat_lt
  have hsum : s.watermark.toNat + (j.toNat - i.toNat) * P.toNat = j.toNat * P.toNat := by
    rw [hstart, ← Nat.add_mul, Nat.add_sub_cancel' hij]
  rw [← hsum]
  refine rxAdvanceWatermark_le_of_stop hok ?_ (by rwa [hsum])
  by_contra hgo
  have hbit := (watermarkStops_eq_false_iff.mp (Bool.eq_false_iff.mpr hgo)).2
  have hidx : offsetToSliceIdx ((· + P)^[j.toNat - i.toNat] s.watermark) P = j := by
    apply UInt8.toNat_inj.mp
    rw [offsetToSliceIdx_toNat, iterate_add_toNat, hsum, Nat.mod_eq_of_lt hrange,
      Nat.mul_div_cancel _ hP, Nat.mod_eq_of_lt hj]
  rw [hidx, hmiss] at hbit
  cases hbit

/-- What the scan has passed is received. -/
theorem Placed.below_advance (h : Placed tu s) (htu : 7 ≤ tu.toNat)
    (hsmall : rxBufSize tu < 2 ^ 16) (hnew : s.has header.sliceSerial = false)
    (hin : ¬ s.watermark < sliceIdxToOffset header.sliceSerial (maxPayload ⟨tu⟩))
    (hok : rxAdvanceWatermark (s.acceptHeader tu header) (maxPayload ⟨tu⟩) = .ok wm) (j : UInt8)
    (hj : j.toNat * (maxPayload ⟨tu⟩).toNat < wm.toNat) :
    (s.acceptHeader tu header).has j = true := by
  have hlt := wm.toNat_lt
  have hP := maxPayload_pos htu
  have hstart := h.watermark_eq htu hsmall hnew hin
  rcases Nat.lt_or_ge j.toNat header.sliceSerial.toNat with hji | hij
  · -- below the old watermark
    rw [RxSliceState.has_accept, h.below hsmall j
      (by rw [hstart]; exact Nat.mul_lt_mul_of_pos_right hji hP), Bool.or_true]
  · by_contra hmiss
    have hle := rxAdvanceWatermark_le_of_missing hP hok hstart (Bool.eq_false_iff.mpr hmiss) hij
      (by omega)
    omega

/-- If what may be flushed fits, the scan stays in the area. -/
theorem Placed.advance_le_of_flushFits (h : Placed tu s) (htu : 7 ≤ tu.toNat)
    (hnew : s.has header.sliceSerial = false)
    (hin : ¬ s.watermark < sliceIdxToOffset header.sliceSerial (maxPayload ⟨tu⟩))
    (hok : rxAdvanceWatermark (s.acceptHeader tu header) (maxPayload ⟨tu⟩) = .ok wm)
    (hfits : FlushFits tu s header) : wm.toNat ≤ rxBufSize tu := by
  have hlt := wm.toNat_lt
  have hP := maxPayload_pos htu
  rcases hfits with hbig | ⟨hne, hle⟩ | ⟨j, hne, hmiss, hle⟩
  · exact (Nat.lt_of_lt_of_le hlt hbig).le
  · obtain ⟨n, -, -, hwm⟩ := rxAdvanceWatermark_first hok
    rw [if_neg hne] at hwm
    exact hwm ▸ (Nat.min_le_right _ _).trans hle
  · by_contra hbig
    have hsmall : rxBufSize tu < 2 ^ 16 := by omega
    have hstart := h.watermark_eq htu hsmall hnew hin
    have hmiss' : (s.acceptHeader tu header).has j = false := by
      rw [RxSliceState.has_accept, hmiss, Bool.or_false, decide_eq_false_iff_not]
      exact hne.symm
    -- what is missing does not start below the new slice
    have hij : header.sliceSerial.toNat ≤ j.toNat := by
      by_contra hji
      have hbelow : j.toNat * (maxPayload ⟨tu⟩).toNat < s.watermark.toNat := by
        rw [hstart]
        exact Nat.mul_lt_mul_of_pos_right (not_le.mp hji) hP
      rw [h.below hsmall j hbelow] at hmiss
      cases hmiss
    have := rxAdvanceWatermark_le_of_missing hP hok hstart hmiss' hij (by omega)
    omega

/-- A scan that stays in the area has met the end, or a slice that is missing,
there. -/
theorem flushFits_of_advance_le
    (hok : rxAdvanceWatermark (s.acceptHeader tu header) (maxPayload ⟨tu⟩) = .ok wm)
    (hle : wm.toNat ≤ rxBufSize tu) : FlushFits tu s header := by
  obtain ⟨n, -, hstop, hwm⟩ := rxAdvanceWatermark_first hok
  generalize (· + maxPayload ⟨tu⟩)^[n] (s.acceptHeader tu header).watermark = v at hstop hwm
  by_cases hend : (s.acceptHeader tu header).termination ≠ 0 ∧
      (s.acceptHeader tu header).termination.toNat ≤ rxBufSize tu
  · exact Or.inr (Or.inl hend)
  · -- the end did not stop the scan, so a missing slice did
    have hv : v.toNat ≤ rxBufSize tu ∧ ((s.acceptHeader tu header).termination = 0 ∨
        v.toNat < (s.acceptHeader tu header).termination.toNat) := by
      rw [not_and_or, not_not, not_le] at hend
      split at hwm
      · rename_i hzero
        exact ⟨hwm ▸ hle, Or.inl hzero⟩
      · rename_i hne
        have hbeyond := hend.resolve_left hne
        exact ⟨by omega, Or.inr (by omega)⟩
    have hmiss : (s.acceptHeader tu header).has (offsetToSliceIdx v (maxPayload ⟨tu⟩)) = false := by
      by_contra hhas
      rw [watermarkStops_eq_false_iff.mpr ⟨hv.2, Bool.not_eq_false _ ▸ hhas⟩] at hstop
      cases hstop
    rw [RxSliceState.has_accept, Bool.or_eq_false_iff, decide_eq_false_iff_not] at hmiss
    refine Or.inr (Or.inr ⟨_, Ne.symm hmiss.1, hmiss.2, le_trans ?_ hv.1⟩)
    rw [offsetToSliceIdx_toNat]
    exact (Nat.mul_le_mul_right _ (Nat.mod_le _ _)).trans (Nat.div_mul_le_self _ _)

/-- **A scan stays in the area** exactly if what may be flushed fits. -/
theorem Placed.flushFits_iff (h : Placed tu s) (htu : 7 ≤ tu.toNat)
    (hnew : s.has header.sliceSerial = false)
    (hin : ¬ s.watermark < sliceIdxToOffset header.sliceSerial (maxPayload ⟨tu⟩))
    (hok : rxAdvanceWatermark (s.acceptHeader tu header) (maxPayload ⟨tu⟩) = .ok wm) :
    FlushFits tu s header ↔ wm.toNat ≤ rxBufSize tu :=
  ⟨h.advance_le_of_flushFits htu hnew hin hok, flushFits_of_advance_le hok⟩

end Scan

/-! ### What a callback does to the area -/

section Callback

variable {write : Write} {c : RxCtx}

/-- **A flush** changes nothing but the output, and adds a fault at most.  It
leaves the area only if the watermark does, and then always if every call of
`write` succeeds. -/
theorem flush_spec (write : Write) (coord : Coordinate) {wm curOff : UInt32} {P : UInt16}
    {fuel : ℕ} (c : RxCtx) (hwm : wm.toNat < 2 ^ 16) :
    ∃ out x, flush write coord RxCtx.coordinator wm P fuel curOff c =
        { c with stdout := out, fault := c.fault.or x } ∧
      (wm.toNat ≤ c.assembly.length → x ≠ some .range) ∧
      (write.Succeeds → 0 < P.toNat → wm.toNat - curOff.toNat < fuel →
        x = if curOff < wm ∧ c.assembly.length < wm.toNat then some .range else none) := by
  induction fuel generalizing curOff c with
  | zero => exact ⟨c.stdout, some .loop, rfl, by simp, fun _ _ h => absurd h (Nat.not_lt_zero _)⟩
  | succ fuel ih =>
      have hP' := P.toNat_lt
      rw [flush]
      by_cases hlt : curOff < wm
      · have hlt' := UInt32.lt_iff_toNat_lt.mp hlt
        have hsz := @rxDeliverSize_toNat _ _ P hlt hwm
        have hoff : curOff.toUInt16.toNat = curOff.toNat := by
          rw [UInt32.toNat_toUInt16]
          omega
        have hnext : (curOff + P.toUInt32).toNat = curOff.toNat + P.toNat := by
          rw [UInt32.toNat_add, UInt16.toNat_toUInt32]
          omega
        generalize rxDeliverSize curOff wm P = sz at hsz
        simp only [hlt, if_true, hoff, true_and]
        split
        · -- this slice is not in the area
          rename_i hout
          refine ⟨c.stdout, some .range, rfl, fun hle => ?_, fun _ _ _ => ?_⟩
          · omega
          · rw [if_pos (by omega)]
        · rename_i hroom
          generalize hdata : (List.range sz.toNat).map (RxCtx.coordinator.payloadGet c
            ⟨coord.senderId, coord.packageId, curOff.toUInt16⟩) = data
          split
          · rename_i hloop
            refine ⟨c.stdout, some .loop, rfl, by simp, fun hw _ _ => ?_⟩
            rw [writeAll_of_succeeds hw le_rfl] at hloop
            cases hloop
          · rename_i out hstop
            refine ⟨out, none, by rw [Option.or_none], by simp, fun hw _ _ => ?_⟩
            rw [writeAll_of_succeeds hw le_rfl] at hstop
            cases hstop
          · rename_i out hwrite
            obtain ⟨out', x, hflush, hsafe, hsucc⟩ := @ih (curOff + P.toUInt32)
              { c with stdout := out }
            refine ⟨out', x, hflush, hsafe, fun hw hP hfuel => ?_⟩
            rw [hsucc hw hP (by omega)]
            -- if the watermark is outside, this slice was not the last one
            by_cases hbig : c.assembly.length < wm.toNat
            · rw [if_pos ⟨by rw [UInt32.lt_iff_toNat_lt, hnext]; omega, hbig⟩, if_pos hbig]
            · rw [if_neg (fun h => hbig h.2), if_neg hbig]
      · refine ⟨c.stdout, none, by rw [if_neg hlt, Option.or_none], by simp, fun _ _ _ => ?_⟩
        rw [if_neg (fun h => hlt h.1)]

/-- What `on_event` accesses lies in the payload and in an area of `n` bytes. -/
structure InBuffers (n : ℕ) (coord : Coordinate) (state : RxSliceState) (oldWatermark : UInt16)
    (payload : List UInt8) (size : UInt16) : Prop where
  put : size = 0 ∨ size.toNat ≤ payload.length ∧ coord.offset.toNat + size.toNat ≤ n
  flushed : oldWatermark.toNat < state.watermark.toNat → state.watermark.toNat ≤ n

/-- `payload_put`, if there is something to put. -/
theorem payloadPut_spec (c : RxCtx) (coord : Coordinate) (payload : List UInt8) (size : UInt16) :
    ∃ assembly x, (if size > 0 then RxCtx.coordinator.payloadPut c coord payload size else c) =
        { c with assembly := assembly, fault := c.fault.or x } ∧
      assembly.length = c.assembly.length ∧
      x = if size = 0 ∨ size.toNat ≤ payload.length ∧
        coord.offset.toNat + size.toNat ≤ c.assembly.length then none else some .range := by
  by_cases hpos : size > 0
  · have hne : size ≠ 0 := by
      rintro rfl
      exact absurd hpos (by decide)
    simp only [hpos, if_true, hne, false_or, RxCtx.coordinator, RxCtx.payloadPut]
    split
    · rename_i hout
      exact ⟨c.assembly, some .range, rfl, rfl, by rw [if_neg (by omega)]⟩
    · rename_i hin
      refine ⟨_, none, by rw [Option.or_none], ?_, by rw [if_pos (by omega)]⟩
      rw [length_copyAt]
      rw [List.length_take]
      omega
  · have hzero : size = 0 := by
      rw [gt_iff_lt, UInt16.lt_iff_toNat_lt, UInt16.toNat_zero] at hpos
      exact UInt16.toNat_inj.mp (by rw [UInt16.toNat_zero]; omega)
    exact ⟨c.assembly, none, by rw [if_neg hpos, Option.or_none], rfl,
      by rw [if_pos (Or.inl hzero)]⟩

/-- The fault `x` that a step adds: no access is outside the buffers if
`inside` holds, and one is if it does not hold and every call of `write`
succeeds. -/
structure FaultOf (write : Write) (inside : Prop) (x : Option ToolFault) : Prop where
  safe : inside → x ≠ some .range
  none_of : write.Succeeds → inside → x = none
  range_of : write.Succeeds → ¬ inside → x = some .range

/-- **The callback** stays in its buffers if what it accesses does, and only
then if every call of `write` succeeds. -/
theorem onEvent_spec (write : Write) (c : RxCtx) (e : RxStreamEvent) (coord : Coordinate)
    (state : RxSliceState) (oldWatermark : UInt16) (payload : List UInt8) (size : UInt16)
    (hP : 0 < (maxPayload ⟨c.session.transmissionUnit⟩).toNat) :
    ∃ assembly out x, onEvent write c e coord RxCtx.coordinator state oldWatermark.toUInt32
        payload size = ⟨c.session, assembly, out, c.fault.or x⟩ ∧
      assembly.length = c.assembly.length ∧
      FaultOf write (InBuffers c.assembly.length coord state oldWatermark payload size) x := by
  obtain ⟨assembly, y, hput, hlen, hy⟩ := payloadPut_spec c coord payload size
  have hold : oldWatermark.toUInt32 < state.watermark.toUInt32 ↔
      oldWatermark.toNat < state.watermark.toNat := by
    rw [UInt32.lt_iff_toNat_lt, UInt16.toNat_toUInt32, UInt16.toNat_toUInt32]
  have hnew : state.watermark.toUInt32.toNat = state.watermark.toNat := UInt16.toNat_toUInt32 _
  have hlt := state.watermark.toNat_lt
  simp only [onEvent, hput, hold]
  split
  · rename_i hgrow
    obtain ⟨out, x, hflush, hsafe, hsucc⟩ := @flush_spec write coord state.watermark.toUInt32
      oldWatermark.toUInt32 (maxPayload ⟨c.session.transmissionUnit⟩) (2 ^ 16)
      { c with assembly := assembly, fault := c.fault.or y } (hnew ▸ hlt)
    simp only [hlen, hnew, hold, hgrow, true_and] at hsafe hsucc
    refine ⟨assembly, out, y.or x, by rw [hflush, Option.or_assoc], hlen, ?_, ?_, ?_⟩
    · intro hin
      rw [hy, if_pos hin.put, Option.none_or]
      exact hsafe (hin.flushed hgrow)
    · intro hw hin
      rw [hy, hsucc hw hP (by omega), if_pos hin.put, if_neg (not_lt.mpr (hin.flushed hgrow)),
        Option.none_or]
    · intro hw hout
      rw [hy, hsucc hw hP (by omega)]
      split
      · rename_i hfits
        rw [if_pos (not_le.mp fun hle => hout ⟨hfits, fun _ => hle⟩), Option.none_or]
      · rfl
  · rename_i hsame
    refine ⟨assembly, c.stdout, y, rfl, hlen, ?_, ?_, ?_⟩
    · intro hin
      rw [hy, if_pos hin.put]
      simp
    · intro _ hin
      rw [hy, if_pos hin.put]
    · intro _ hout
      rw [hy, if_neg fun hfits => hout ⟨hfits, fun h => absurd h hsame⟩]

end Callback

/-! ### One block -/

section Block

variable {tu : UInt16} {s : RxSliceState} {header : HeaderMeta} {step : RxSliceInst}

/-- What the callback accesses, read off the header and the state before. -/
theorem Placed.inBuffers_iff (h : Placed tu s) (htu : 7 ≤ tu.toNat)
    (hnew : s.has header.sliceSerial = false)
    (hstep : rxCalcSliceStep s header.sliceSerial header.slicePayloadSize (maxPayload ⟨tu⟩)
      (header.eop != 0) = .ok step) {payload : List UInt8}
    (hpayload : payload.length = tu.toNat - headerSize) :
    InBuffers (rxBufSize tu) (rxHeaderToCoordinate ⟨tu⟩ header) step.nextState s.watermark payload
        header.slicePayloadSize ↔
      PayloadFits tu header ∧
        (s.watermark < sliceIdxToOffset header.sliceSerial (maxPayload ⟨tu⟩) ∨
          FlushFits tu s header) := by
  have hput : PayloadFits tu header ↔ (header.slicePayloadSize = 0 ∨
      header.slicePayloadSize.toNat ≤ payload.length ∧
        (rxHeaderToCoordinate ⟨tu⟩ header).offset.toNat + header.slicePayloadSize.toNat ≤
          rxBufSize tu) := by
    rw [hpayload]
    rfl
  have hflush : (s.watermark.toNat < step.nextState.watermark.toNat →
      step.nextState.watermark.toNat ≤ rxBufSize tu) ↔
      s.watermark < sliceIdxToOffset header.sliceSerial (maxPayload ⟨tu⟩) ∨
        FlushFits tu s header := by
    rcases rxCalcSliceStep_new_cases hnew hstep with ⟨hout, rfl⟩ | ⟨hin, wm, hok, rfl⟩
    · exact ⟨fun _ => Or.inl hout, fun _ hgrow => absurd hgrow (lt_irrefl _)⟩
    · rw [or_iff_right hin, h.flushFits_iff htu hnew hin hok]
      -- a watermark that does not move stays in the area
      exact ⟨fun hle => (Nat.lt_or_ge _ _).elim hle fun hge => hge.trans h.watermark_le,
        fun hle _ => hle⟩
  rw [hput, ← hflush]
  exact ⟨fun hin => ⟨hin.put, hin.flushed⟩, fun hin => ⟨hin.1, hin.2⟩⟩

/-- The state that is stored after a new slice. -/
theorem Placed.next (h : Placed tu s) (htu : 7 ≤ tu.toNat)
    (hnew : s.has header.sliceSerial = false)
    (hstep : rxCalcSliceStep s header.sliceSerial header.slicePayloadSize (maxPayload ⟨tu⟩)
      (header.eop != 0) = .ok step)
    (hfits : s.watermark < sliceIdxToOffset header.sliceSerial (maxPayload ⟨tu⟩) ∨
      FlushFits tu s header) :
    Placed tu (if step.e = .complete then .zero else step.nextState) := by
  split
  · exact placed_zero tu
  · rcases rxCalcSliceStep_new_cases hnew hstep with ⟨hout, rfl⟩ | ⟨hin, wm, hok, rfl⟩
    · refine ⟨fun hsmall i hi => ?_, h.watermark_le⟩
      rw [RxSliceState.has_accept, h.below hsmall i hi, Bool.or_true]
    · exact ⟨fun hsmall i hi => h.below_advance htu hsmall hnew hin hok i hi,
        (h.flushFits_iff htu hnew hin hok).mp (hfits.resolve_left hin)⟩

/-- A session of units of `tu` bytes, with the area that was allocated for
them. -/
structure RxCtx.Held (tu : UInt16) (c : RxCtx) : Prop where
  transmissionUnit : c.session.transmissionUnit = tu
  length : c.assembly.length = rxBufSize tu

theorem held_sessionRxCreate (tu : UInt16) : (sessionRxCreate tu).Held tu :=
  ⟨rfl, List.length_replicate⟩

variable {write : Write} {c c' : RxCtx} {block : List UInt8}

theorem cmdRx_feed_eq (htu : 7 ≤ tu.toNat) (hblock : block.length = tu.toNat)
    (hread : headerUnpack (arrayToPackedHeader block) = header) :
    rxStreamFeed (cmdRxStream write tu) c block tu =
      rxCalcSliceStep c.session.state header.sliceSerial header.slicePayloadSize
        (maxPayload ⟨tu⟩) (header.eop != 0) >>= fun step =>
      if step.e = .duplicate then .ok c else
        .ok (onEvent write (c.statePut (rxHeaderToCoordinate ⟨tu⟩ header)
            (if step.e = .complete then .zero else step.nextState)) step.e
          (rxHeaderToCoordinate ⟨tu⟩ header) RxCtx.coordinator step.nextState
          c.session.state.watermark.toUInt32 (block.drop headerSize) header.slicePayloadSize) := by
  have hsize : UInt16.ofNat block.length = tu := by rw [hblock, UInt16.ofNat_toNat]
  have hlen : headerSize ≤ (UInt16.ofNat block.length).toNat := by
    rw [hsize]
    exact le_trans (by decide) htu
  have hfeed := rxStreamFeed_of_header (s := cmdRxStream write tu) hlen hread c
  rw [hsize] at hfeed
  rw [hfeed]
  refine bind_congr fun step => if_congr Iff.rfl rfl ?_
  split <;> rfl

/-- What the stream does with a block of the tool. -/
theorem cmdRx_feed_cases (htu : 7 ≤ tu.toNat) (hblock : block.length = tu.toNat)
    (hread : headerUnpack (arrayToPackedHeader block) = header)
    (hfeed : rxStreamFeed (cmdRxStream write tu) c block tu = .ok c') :
    ∃ step, rxCalcSliceStep c.session.state header.sliceSerial header.slicePayloadSize
        (maxPayload ⟨tu⟩) (header.eop != 0) = .ok step ∧
      (c.session.state.has header.sliceSerial = true ∧ step = ⟨.duplicate, c.session.state⟩ ∧
          c' = c ∨
        c.session.state.has header.sliceSerial = false ∧
          c' = onEvent write (c.statePut (rxHeaderToCoordinate ⟨tu⟩ header)
              (if step.e = .complete then .zero else step.nextState)) step.e
            (rxHeaderToCoordinate ⟨tu⟩ header) RxCtx.coordinator step.nextState
            c.session.state.watermark.toUInt32 (block.drop headerSize)
            header.slicePayloadSize) := by
  rw [cmdRx_feed_eq htu hblock hread] at hfeed
  obtain ⟨step, hstep, hrest⟩ := Machine.bind_eq_ok.mp hfeed
  refine ⟨step, hstep, ?_⟩
  rcases rxCalcSliceStep_cases hstep with ⟨hhas, rfl⟩ | ⟨hnew, -, rfl⟩ | ⟨hnew, -, wm, -, rfl⟩
  · exact Or.inl ⟨hhas, rfl, (Except.ok.inj hrest).symm⟩
  · exact Or.inr ⟨hnew, (Except.ok.inj hrest).symm⟩
  · rw [if_neg (by dsimp only; split <;> simp)] at hrest
    exact Or.inr ⟨hnew, (Except.ok.inj hrest).symm⟩

/-- **What one block does**: the session after it depends on the session before
it alone, and the fault it adds on what the callback accesses. -/
theorem RxCtx.Held.feed_spec (hc : c.Held tu) (htu : 7 ≤ tu.toNat)
    (hblock : block.length = tu.toNat) (hread : headerUnpack (arrayToPackedHeader block) = header)
    (hfeed : rxStreamFeed (cmdRxStream write tu) c block tu = .ok c') :
    ∃ step x, rxCalcSliceStep c.session.state header.sliceSerial header.slicePayloadSize
        (maxPayload ⟨tu⟩) (header.eop != 0) = .ok step ∧
      c'.session = { c.session with
        state := if step.e = .complete then .zero else step.nextState } ∧
      c'.Held tu ∧ c'.fault = c.fault.or x ∧
      (c.session.state.has header.sliceSerial = true → x = none) ∧
      (c.session.state.has header.sliceSerial = false →
        FaultOf write (InBuffers (rxBufSize tu) (rxHeaderToCoordinate ⟨tu⟩ header) step.nextState
          c.session.state.watermark (block.drop headerSize) header.slicePayloadSize) x) := by
  obtain ⟨step, hstep, ⟨hhas, rfl, rfl⟩ | ⟨hnew, rfl⟩⟩ := cmdRx_feed_cases htu hblock hread hfeed
  · exact ⟨_, none, hstep, rfl, hc, by rw [Option.or_none], fun _ => rfl, by simp [hhas]⟩
  · have hsession : (c.statePut (rxHeaderToCoordinate ⟨tu⟩ header)
        (if step.e = .complete then .zero else step.nextState)).session.transmissionUnit = tu :=
      hc.transmissionUnit
    have hroom : (c.statePut (rxHeaderToCoordinate ⟨tu⟩ header)
        (if step.e = .complete then .zero else step.nextState)).assembly.length = rxBufSize tu :=
      hc.length
    obtain ⟨assembly, out, x, hevent, hlen, hx⟩ := onEvent_spec write
      (c.statePut (rxHeaderToCoordinate ⟨tu⟩ header)
        (if step.e = .complete then .zero else step.nextState)) step.e
      (rxHeaderToCoordinate ⟨tu⟩ header) step.nextState c.session.state.watermark
      (block.drop headerSize) header.slicePayloadSize (hsession.symm ▸ maxPayload_pos htu)
    rw [hroom] at hx
    rw [hevent]
    exact ⟨step, x, hstep, rfl, ⟨hsession, hlen.trans hroom⟩, rfl, by simp [hnew], fun _ => hx⟩

/-- **One block** adds an access outside the buffers only if it does not fit,
and then always if every call of `write` succeeds. -/
theorem Placed.feed (h : Placed tu c.session.state) (hc : c.Held tu) (htu : 7 ≤ tu.toNat)
    (hblock : block.length = tu.toNat)
    (hfeed : rxStreamFeed (cmdRxStream write tu) c block tu = .ok c') :
    c'.Held tu ∧ (BlockFits tu c.session.state block → Placed tu c'.session.state) ∧
      ∃ x, c'.fault = c.fault.or x ∧ FaultOf write (BlockFits tu c.session.state block) x := by
  generalize hread : headerUnpack (arrayToPackedHeader block) = header
  have hpayload : (block.drop headerSize).length = tu.toNat - headerSize := by
    rw [List.length_drop, hblock]
  obtain ⟨step, x, hstep, hsession, h₁, hx, hdup, hnew⟩ := hc.feed_spec htu hblock hread hfeed
  refine ⟨h₁, ?_, x, hx, ?_⟩
  all_goals simp only [BlockFits, hread, hsession]
  · rcases hhas : c.session.state.has header.sliceSerial with - | -
    · rw [or_iff_right Bool.false_ne_true]
      exact fun hfits => h.next htu hhas hstep hfits.2
    · rw [rxCalcSliceStep_of_has hhas] at hstep
      obtain rfl := Except.ok.inj hstep
      exact fun _ => h
  · rcases hhas : c.session.state.has header.sliceSerial with - | -
    · rw [or_iff_right Bool.false_ne_true, ← h.inBuffers_iff htu hhas hstep hpayload]
      exact hnew hhas
    · obtain rfl := hdup hhas
      exact ⟨fun _ => by simp, fun _ _ => rfl, fun _ hout => absurd (Or.inl rfl) hout⟩

end Block

/-! ### Block after block -/

section Blocks

variable {tu : UInt16} {write : Write} {c c' : RxCtx} {blocks : List (List UInt8)}

/-- `cmdRx` with the unit of the session. -/
theorem RxCtx.Held.cmdRx_cons (hc : c.Held tu) {block : List UInt8}
    (h : cmdRx write c (block :: blocks) = .ok c') :
    ∃ c₁, rxStreamFeed (cmdRxStream write tu) c block tu = .ok c₁ ∧
      (c₁.Held tu → cmdRx write c₁ blocks = .ok c') := by
  rw [cmdRx, hc.transmissionUnit, List.foldlM_cons] at h
  obtain ⟨c₁, hfeed, hrest⟩ := Machine.bind_eq_ok.mp h
  refine ⟨c₁, hfeed, fun h₁ => ?_⟩
  rw [cmdRx, h₁.transmissionUnit]
  exact hrest

theorem RxCtx.Held.cmdRx_cons_eq (hc : c.Held tu) {block : List UInt8} {c₁ : RxCtx}
    (hfeed : rxStreamFeed (cmdRxStream write tu) c block tu = .ok c₁) (h₁ : c₁.Held tu) :
    cmdRx write c (block :: blocks) = cmdRx write c₁ blocks := by
  rw [cmdRx, hc.transmissionUnit, List.foldlM_cons, hfeed, Machine.ok_bind, cmdRx,
    h₁.transmissionUnit]

/-- Every block fits the buffers in the state before it. -/
def BlocksFit (tu : UInt16) (write : Write) (c : RxCtx) (blocks : List (List UInt8)) : Prop :=
  ∀ before block after, blocks = before ++ block :: after →
    ∀ c₁, cmdRx write c before = .ok c₁ → BlockFits tu c₁.session.state block

theorem BlocksFit.head {block : List UInt8} (h : BlocksFit tu write c (block :: blocks)) :
    BlockFits tu c.session.state block := h [] block blocks rfl c rfl

theorem BlocksFit.tail {block : List UInt8} {c₁ : RxCtx} (hc : c.Held tu)
    (hfeed : rxStreamFeed (cmdRxStream write tu) c block tu = .ok c₁) (h₁ : c₁.Held tu)
    (h : BlocksFit tu write c (block :: blocks)) : BlocksFit tu write c₁ blocks := by
  rintro before block' after rfl c₂ hrun
  exact h (block :: before) block' after rfl c₂ (by rw [hc.cmdRx_cons_eq hfeed h₁, hrun])

theorem BlocksFit.cons {block : List UInt8} {c₁ : RxCtx} (hc : c.Held tu)
    (hfeed : rxStreamFeed (cmdRxStream write tu) c block tu = .ok c₁) (h₁ : c₁.Held tu)
    (hhead : BlockFits tu c.session.state block) (htail : BlocksFit tu write c₁ blocks) :
    BlocksFit tu write c (block :: blocks) := by
  intro before block' after hsplit c₂ hrun
  cases before with
  | nil =>
      obtain ⟨rfl, rfl⟩ := List.cons.inj hsplit
      obtain rfl := Except.ok.inj hrun
      exact hhead
  | cons b before =>
      obtain ⟨rfl, rfl⟩ := List.cons.inj hsplit
      exact htail before block' after rfl c₂ (by rw [← hc.cmdRx_cons_eq hfeed h₁, hrun])

/-- **Blocks that fit** add no access outside the buffers. -/
theorem Placed.run_inside (htu : 7 ≤ tu.toNat) (h : Placed tu c.session.state) (hc : c.Held tu)
    (hblocks : ∀ block ∈ blocks, block.length = tu.toNat)
    (hrun : cmdRx write c blocks = .ok c') (hfits : BlocksFit tu write c blocks)
    (hfault : c.fault ≠ some .range) : c'.fault ≠ some .range := by
  induction blocks generalizing c with
  | nil => exact Except.ok.inj hrun ▸ hfault
  | cons block blocks ih =>
      obtain ⟨hblock, hblocks⟩ := List.forall_mem_cons.mp hblocks
      obtain ⟨c₁, hfeed, hrest⟩ := hc.cmdRx_cons hrun
      obtain ⟨h₁, hplaced, x, hx, hof⟩ := h.feed hc htu hblock hfeed
      apply ih (hplaced hfits.head) h₁ hblocks (hrest h₁) (hfits.tail hc hfeed h₁)
      rw [hx, ne_eq, Option.or_eq_some_iff]
      rintro (hfirst | ⟨-, hnew⟩)
      · exact hfault hfirst
      · exact hof.safe hfits.head hnew

/-- The first fault stays. -/
theorem run_fault (htu : 7 ≤ tu.toNat) (hc : c.Held tu)
    (hblocks : ∀ block ∈ blocks, block.length = tu.toNat) (hrun : cmdRx write c blocks = .ok c')
    {fault : ToolFault} (hfault : c.fault = some fault) : c'.fault = some fault := by
  induction blocks generalizing c with
  | nil => exact Except.ok.inj hrun ▸ hfault
  | cons block blocks ih =>
      obtain ⟨hblock, hblocks⟩ := List.forall_mem_cons.mp hblocks
      obtain ⟨c₁, hfeed, hrest⟩ := hc.cmdRx_cons hrun
      obtain ⟨-, x, -, -, h₁, hx, -⟩ := hc.feed_spec htu hblock rfl hfeed
      apply ih h₁ hblocks (hrest h₁)
      rw [hx, hfault, Option.some_or]

/-- **A run that stays in its buffers**, with every call of `write` succeeding,
has met blocks that fit only. -/
theorem Placed.run_fits (htu : 7 ≤ tu.toNat) (hw : write.Succeeds)
    (h : Placed tu c.session.state) (hc : c.Held tu)
    (hblocks : ∀ block ∈ blocks, block.length = tu.toNat)
    (hrun : cmdRx write c blocks = .ok c') (hfault : c.fault = none)
    (hinside : c'.fault ≠ some .range) : BlocksFit tu write c blocks := by
  induction blocks generalizing c with
  | nil =>
      intro before block after hsplit
      simp at hsplit
  | cons block blocks ih =>
      obtain ⟨hblock, hblocks⟩ := List.forall_mem_cons.mp hblocks
      obtain ⟨c₁, hfeed, hrest⟩ := hc.cmdRx_cons hrun
      obtain ⟨h₁, hplaced, x, hx, hof⟩ := h.feed hc htu hblock hfeed
      rw [hfault, Option.none_or] at hx
      by_cases hfits : BlockFits tu c.session.state block
      · have hnone := hx.trans (hof.none_of hw hfits)
        exact .cons hc hfeed h₁ hfits (ih (hplaced hfits) h₁ hblocks (hrest h₁) hnone)
      · have hrange := hx.trans (hof.range_of hw hfits)
        exact absurd (run_fault htu h₁ hblocks (hrest h₁) hrange) hinside

/-- A block whose scan returns. -/
theorem RxCtx.Held.cmdRx_returns (hc : c.Held tu) (htu : 7 ≤ tu.toNat) {block : List UInt8}
    (hblock : block.length = tu.toNat) {header : HeaderMeta} {step : RxSliceInst}
    (hread : headerUnpack (arrayToPackedHeader block) = header)
    (hstep : rxCalcSliceStep c.session.state header.sliceSerial header.slicePayloadSize
      (maxPayload ⟨tu⟩) (header.eop != 0) = .ok step) (write : Write) :
    ∃ c', cmdRx write c [block] = .ok c' := by
  have hfeed : rxStreamFeed (cmdRxStream write tu) c block tu = _ :=
    cmdRx_feed_eq htu hblock hread
  rw [hstep, Machine.ok_bind] at hfeed
  rw [cmdRx, hc.transmissionUnit, List.foldlM_cons, hfeed]
  split <;> exact ⟨_, rfl⟩

/-- Two runs over the same blocks differ in what they write at most. -/
theorem run_session_eq (htu : 7 ≤ tu.toNat) {write₁ write₂ : Write} {c₁ c₁' c₂ c₂' : RxCtx}
    (hc₁ : c₁.Held tu) (hc₂ : c₂.Held tu)
    (hblocks : ∀ block ∈ blocks, block.length = tu.toNat) (heq : c₁.session = c₂.session)
    (hrun₁ : cmdRx write₁ c₁ blocks = .ok c₁') (hrun₂ : cmdRx write₂ c₂ blocks = .ok c₂') :
    c₁'.session = c₂'.session := by
  induction blocks generalizing c₁ c₂ with
  | nil => rw [← Except.ok.inj hrun₁, ← Except.ok.inj hrun₂, heq]
  | cons block blocks ih =>
      obtain ⟨hblock, hblocks⟩ := List.forall_mem_cons.mp hblocks
      obtain ⟨d₁, hfeed₁, hrest₁⟩ := hc₁.cmdRx_cons hrun₁
      obtain ⟨d₂, hfeed₂, hrest₂⟩ := hc₂.cmdRx_cons hrun₂
      obtain ⟨step₁, -, hstep₁, hs₁, hd₁, -⟩ := hc₁.feed_spec htu hblock rfl hfeed₁
      obtain ⟨step₂, -, hstep₂, hs₂, hd₂, -⟩ := hc₂.feed_spec htu hblock rfl hfeed₂
      refine ih hd₁ hd₂ hblocks ?_ (hrest₁ hd₁) (hrest₂ hd₂)
      rw [heq, hstep₂] at hstep₁
      obtain rfl := Except.ok.inj hstep₁
      rw [hs₁, hs₂, heq]

end Blocks

/-- **The receiver of the tool stays in its buffers**, however its calls of
`write` turn out, if and only if every block on the way fits: the slice is
received already, or the block holds its payload and the area its place, and
what may be flushed with it lies in the area. -/
theorem cmdRx_inside_iff {opts : List ConfigOption} {tu : UInt16}
    (hconfig : cmdConfig opts = .ok (.rx, tu)) {blocks : List (List UInt8)}
    (hblocks : ∀ block ∈ blocks, block.length = tu.toNat)
    (hreturns : ∀ write, ∃ c, cmdRx write (sessionRxCreate tu) blocks = .ok c) :
    (∀ write c, cmdRx write (sessionRxCreate tu) blocks = .ok c → c.fault ≠ some .range) ↔
      ∀ before block after, blocks = before ++ block :: after →
        ∀ write c, cmdRx write (sessionRxCreate tu) before = .ok c →
          BlockFits tu c.session.state block := by
  have htu := cmdConfig_le hconfig
  have hc := held_sessionRxCreate tu
  have hplaced : Placed tu (sessionRxCreate tu).session.state := placed_zero tu
  constructor
  · rintro hinside before block after rfl write c hrun
    -- the state is that of a run whose calls of `write` all succeed
    have hw : Write.Succeeds fun _ n => some n := fun _ n hn => ⟨n, rfl, hn, le_rfl⟩
    obtain ⟨c', hrun'⟩ := hreturns fun _ n => some n
    have hfits := hplaced.run_fits htu hw hc hblocks hrun' rfl (hinside _ c' hrun')
    rw [cmdRx, List.foldlM_append] at hrun'
    obtain ⟨c₁, hrun₁, -⟩ := Machine.bind_eq_ok.mp hrun'
    have heq := run_session_eq htu hc hc (fun b hb => hblocks b (List.mem_append_left _ hb)) rfl
      hrun hrun₁
    rw [heq]
    exact hfits before block after rfl c₁ hrun₁
  · intro hfits write c hrun
    exact hplaced.run_inside htu hc hblocks hrun
      (fun before block after hsplit c₁ hrun₁ => hfits before block after hsplit write c₁ hrun₁)
      (by simp [sessionRxCreate])

/-- A package of one slice in the smallest unit. -/
theorem cmdRx_inside_single :
    (∀ write c, cmdRx write (sessionRxCreate 7) [[0, 0, 0x38, 0, 1, 2, 3]] = .ok c →
        c.fault ≠ some .range) ↔
      ∀ before block after, [[0, 0, 0x38, 0, 1, 2, 3]] = before ++ block :: after →
        ∀ write c, cmdRx write (sessionRxCreate 7) before = .ok c →
          BlockFits 7 c.session.state block :=
  @cmdRx_inside_iff [.mtu 7, .type "rx"] 7 rfl [[0, 0, 0x38, 0, 1, 2, 3]] (by decide)
    ((held_sessionRxCreate 7).cmdRx_returns (by decide) rfl rfl rfl)

/-- A block of 7 bytes whose header names 4095 bytes of payload: they are read
from behind the block, and 3839 of them written behind the area. -/
theorem cmdRx_leaves_buffers :
    ¬ ∀ (opts : List ConfigOption) (tu : UInt16) (blocks : List (List UInt8)),
      cmdConfig opts = .ok (.rx, tu) → (∀ block ∈ blocks, block.length = tu.toNat) →
      (∀ write, ∃ c, cmdRx write (sessionRxCreate tu) blocks = .ok c) →
      ∀ write c, cmdRx write (sessionRxCreate tu) blocks = .ok c → c.fault ≠ some .range := by
  intro h
  have hreturns : ∀ write, ∃ c,
      cmdRx write (sessionRxCreate 7) [[0, 0, 0xf0, 0xff, 1, 2, 3]] = .ok c :=
    (held_sessionRxCreate 7).cmdRx_returns (by decide) rfl rfl rfl
  have hinside := h [.mtu 7, .type "rx"] 7 [[0, 0, 0xf0, 0xff, 1, 2, 3]] rfl (by decide) hreturns
  obtain ⟨c, hrun⟩ := hreturns fun _ n => some n
  have hw : Write.Succeeds fun _ n => some n := fun _ n hn => ⟨n, rfl, hn, le_rfl⟩
  have hfits := ((placed_zero 7).run_fits (c := sessionRxCreate 7) (by decide) hw
    (held_sessionRxCreate 7) (by decide) hrun rfl (hinside _ c hrun)).head
  rcases hfits with hhas | ⟨hzero | ⟨hsize, -⟩, -⟩
  · exact absurd hhas (by decide)
  · exact absurd hzero (by decide)
  · exact absurd hsize (by decide)

end CustomData
