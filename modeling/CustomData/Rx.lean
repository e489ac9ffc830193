/-
CustomData/Rx.lean

The pure operators of the receiver (`customdata-rx.h`): the slice state of one
package, the watermark scan and the step that consumes one slice.

The scan of `mp_rx_advance_watermark` is a `while (true)` over a 16-bit
counter.  It is modelled as what it is, a loop that may not end: a scan that
does not leave its loop is the fault `Fault.scan`.  Fuel `2 ^ 16` is exact,
because that many additions bring the counter back to where it started
(`watermarkScan_eq_none_iff`).  A zero `max_payload` divides by zero in the
same place and is the same fault.

`RxSliceState.has` hides the bit twiddling: afterwards the bitmap is a set of
slice numbers, determined by its members (`RxSliceState.ext_has`).
-/
import CustomData.Common
import CustomData.Lib.Loop
import CustomData.Lib.Machine
import Mathlib.Data.Nat.Bitwise

namespace CustomData

/-- What ends a call of the receivers without a result: a watermark scan that
never returns, the failed `assert` of the C++ decoder, and an out-of-range
access of the C# decoder (an exception there). -/
inductive Fault
  | scan | assertion | range
  deriving DecidableEq, Repr

/-! ### The slice state -/

/-- `mp_rx_slice_state_t` -/
structure RxSliceState where
  bitmap : Vector UInt32 8
  receivedCount : UInt16
  termination : UInt16
  watermark : UInt16
  deriving DecidableEq, Repr

/-- `(mp_rx_slice_state_t){0}` -/
def RxSliceState.zero : RxSliceState := ⟨Vector.replicate 8 0, 0, 0, 0⟩

/-- `slice_id >> 5` -/
def arrIdx (sliceId : UInt8) : Fin 8 := Fin.ofNat 8 (sliceId >>> 5).toNat

/-- `1u << (slice_id & 31)` -/
def bitMask (sliceId : UInt8) : UInt32 := 1 <<< (sliceId &&& 31).toUInt32

/-- `bitmap[arr_idx] & bit_mask` -/
def RxSliceState.has (s : RxSliceState) (sliceId : UInt8) : Bool :=
  s.bitmap[arrIdx sliceId] &&& bitMask sliceId != 0

/-- `bitmap[arr_idx] |= bit_mask` -/
def RxSliceState.mark (s : RxSliceState) (sliceId : UInt8) : RxSliceState :=
  { s with
    bitmap := s.bitmap.set (arrIdx sliceId).val (s.bitmap[arrIdx sliceId] ||| bitMask sliceId) }

/-! ### The bitmap as a set -/

theorem arrIdx_val (i : UInt8) : (arrIdx i).val = i.toNat / 32 := by
  have hi := i.toNat_lt
  simp only [arrIdx, Fin.ofNat, UInt8.toNat_shiftRight, UInt8.reduceToNat, Nat.reduceMod,
    Nat.shiftRight_eq_div_pow]
  omega

theorem bitMask_toNat (i : UInt8) : (bitMask i).toNat = 2 ^ (i.toNat % 32) := by
  have hand : i.toNat &&& 31 = i.toNat % 32 := Nat.and_two_pow_sub_one_eq_mod _ 5
  have hlt : i.toNat % 32 < 32 := Nat.mod_lt _ (by decide)
  have hpow : 2 ^ (i.toNat % 32) < 2 ^ 32 := Nat.pow_lt_pow_right (by decide) hlt
  simp only [bitMask, UInt32.toNat_shiftLeft, UInt8.toNat_toUInt32, UInt8.toNat_and,
    UInt8.reduceToNat, UInt32.reduceToNat, hand, Nat.mod_mod, Nat.shiftLeft_eq, Nat.one_mul]
  exact Nat.mod_eq_of_lt hpow

/-- Membership is one bit of one word. -/
theorem RxSliceState.has_eq_testBit (s : RxSliceState) (i : UInt8) :
    s.has i = (s.bitmap[arrIdx i]).toNat.testBit (i.toNat % 32) := by
  rw [has, Bool.eq_iff_iff, bne_iff_ne, ne_eq, ← UInt32.toNat_inj, UInt32.toNat_and,
    bitMask_toNat, Nat.and_two_pow]
  rcases (s.bitmap[arrIdx i]).toNat.testBit (i.toNat % 32) with - | - <;> simp

/-- A slice number is the word it lives in and its bit there. -/
theorem eq_of_arrIdx_eq {i j : UInt8} (hw : arrIdx i = arrIdx j)
    (hb : i.toNat % 32 = j.toNat % 32) : i = j := by
  have hv := congrArg Fin.val hw
  rw [arrIdx_val, arrIdx_val] at hv
  exact UInt8.toNat_inj.mp (by omega)

/-- `mark` inserts. -/
@[simp] theorem RxSliceState.has_mark (s : RxSliceState) (i j : UInt8) :
    (s.mark i).has j = (decide (i = j) || s.has j) := by
  rw [has_eq_testBit, has_eq_testBit]
  simp only [mark, Fin.getElem_fin, Vector.getElem_set]
  by_cases hw : arrIdx i = arrIdx j
  · rw [if_pos (congrArg Fin.val hw), UInt32.toNat_or, Nat.testBit_or, bitMask_toNat,
      Nat.testBit_two_pow, Bool.or_comm]
    simp only [hw]
    congr 1
    rw [decide_eq_decide]
    exact ⟨fun hb => eq_of_arrIdx_eq hw hb, fun h => h ▸ rfl⟩
  · have hij : i ≠ j := fun h => hw (h ▸ rfl)
    rw [if_neg (fun h => hw (Fin.ext h))]
    simp [hij]

@[simp] theorem RxSliceState.has_zero (i : UInt8) : RxSliceState.zero.has i = false := by
  simp [has_eq_testBit, zero]

/-- A bitmap is determined by its members. -/
theorem RxSliceState.bitmap_eq_of_has {s t : RxSliceState} (h : ∀ i, s.has i = t.has i) :
    s.bitmap = t.bitmap := by
  apply Vector.ext
  intro k hk
  apply UInt32.toNat_inj.mp
  apply Nat.eq_of_testBit_eq
  intro b
  rcases Nat.lt_or_ge b 32 with hb | hb
  · -- bit `b` of word `k` is slice `32 * k + b`
    have hlt : 32 * k + b < 2 ^ 8 := by omega
    have hi : (UInt8.ofNat (32 * k + b)).toNat = 32 * k + b := by
      simpa using Nat.mod_eq_of_lt hlt
    have hidx : (arrIdx (UInt8.ofNat (32 * k + b))).val = k := by
      rw [arrIdx_val, hi]; omega
    have := h (UInt8.ofNat (32 * k + b))
    simp only [has_eq_testBit, Fin.getElem_fin, hidx, hi] at this
    rwa [show (32 * k + b) % 32 = b by omega] at this
  · have hbig : ∀ w : UInt32, w.toNat.testBit b = false := fun w =>
      Nat.testBit_lt_two_pow (w.toNat_lt.trans_le (Nat.pow_le_pow_right (by decide) hb))
    rw [hbig, hbig]

theorem RxSliceState.ext_has {s t : RxSliceState} (hbits : ∀ i, s.has i = t.has i)
    (hcount : s.receivedCount = t.receivedCount) (hterm : s.termination = t.termination)
    (hwm : s.watermark = t.watermark) : s = t := by
  have hb := bitmap_eq_of_has hbits
  cases s
  cases t
  simp_all

/-! ### Pure operators -/

/-- `mp_rx_stream_event_t` -/
inductive RxStreamEvent
  | duplicate | newSliceOutOfOrder | newSliceInOrder | complete
  deriving DecidableEq, Repr

/-- `mp_rx_slice_inst_t` -/
structure RxSliceInst where
  e : RxStreamEvent
  nextState : RxSliceState
  deriving DecidableEq, Repr

/-- `mp_rx_calc_termination` -/
def rxCalcTermination (sliceIdx : UInt8) (payloadSize maxPayload : UInt16) : UInt16 :=
  sliceIdxToOffset sliceIdx maxPayload + payloadSize

/-- `mp_rx_termination_to_slice_count` -/
def rxTerminationToSliceCount (termination : UInt32) (maxPayload : UInt16) : UInt16 :=
  ((termination + maxPayload.toUInt32 - 1) / maxPayload.toUInt32).toUInt16

/-- `mp_rx_is_complete` -/
def rxIsComplete (state : RxSliceState) (maxPayload : UInt16) : Bool :=
  state.termination > 0 &&
    state.receivedCount ≥ rxTerminationToSliceCount state.termination.toUInt32 maxPayload

/-- `mp_rx_header_to_coordinate` -/
def rxHeaderToCoordinate (config : Config) (header : HeaderMeta) : Coordinate where
  senderId := header.senderId
  packageId := header.packageSerial
  offset := sliceIdxToOffset header.sliceSerial (maxPayload config)

/-- The two `break`s of `mp_rx_advance_watermark`: the termination is reached,
or the slice at `wm` is missing. -/
def watermarkStops (state : RxSliceState) (maxPayload wm : UInt16) : Bool :=
  (state.termination > 0 && wm ≥ state.termination) ||
    !state.has (offsetToSliceIdx wm maxPayload)

/-- The `while (true)` of `mp_rx_advance_watermark`. -/
def watermarkScan (state : RxSliceState) (maxPayload : UInt16) : Option UInt16 :=
  Loop.runUntil (watermarkStops state maxPayload) (· + maxPayload) (2 ^ 16) state.watermark

/-- `mp_rx_advance_watermark` -/
def rxAdvanceWatermark (state : RxSliceState) (maxPayload : UInt16) : Except Fault UInt16 :=
  if maxPayload = 0 then
    .error .scan    -- `wm / max_payload` traps
  else
    match watermarkScan state maxPayload with
    | none => .error .scan
    | some wm =>
        if state.termination > 0 && wm > state.termination then .ok state.termination else .ok wm

/-- `mp_rx_calc_slice_step` -/
def rxCalcSliceStep (state : RxSliceState) (sliceId : UInt8) (payloadSize maxPayload : UInt16)
    (isEop : Bool) : Except Fault RxSliceInst :=
  if state.has sliceId then
    .ok ⟨.duplicate, state⟩
  else
    let next := state.mark sliceId
    let next := if payloadSize < maxPayload || isEop then
        { next with termination := rxCalcTermination sliceId payloadSize maxPayload }
      else next
    let next := if !(payloadSize == 0 && isEop) then
        { next with receivedCount := state.receivedCount + 1 }
      else next
    let offset := sliceIdxToOffset sliceId maxPayload
    if offset > state.watermark then
      .ok ⟨.newSliceOutOfOrder, next⟩
    else do
      let wm ← rxAdvanceWatermark next maxPayload
      let next := { next with watermark := wm }
      .ok ⟨if rxIsComplete next maxPayload then .complete else .newSliceInOrder, next⟩

/-- The state a new slice leaves before the watermark is looked at. -/
def RxSliceState.accept (state : RxSliceState) (sliceId : UInt8)
    (payloadSize maxPayload : UInt16) (isEop : Bool) : RxSliceState :=
  { state.mark sliceId with
    termination := if payloadSize < maxPayload || isEop then
        rxCalcTermination sliceId payloadSize maxPayload else state.termination
    receivedCount := if payloadSize == 0 && isEop then state.receivedCount
      else state.receivedCount + 1 }

@[simp] theorem RxSliceState.has_accept (s : RxSliceState) (i j : UInt8) (size P : UInt16)
    (eop : Bool) : (s.accept i size P eop).has j = (decide (i = j) || s.has j) :=
  has_mark s i j

@[simp] theorem RxSliceState.accept_watermark (s : RxSliceState) (i : UInt8) (size P : UInt16)
    (eop : Bool) : (s.accept i size P eop).watermark = s.watermark := rfl

/-! ### The step, case by case -/

theorem rxCalcSliceStep_of_has {s : RxSliceState} {i : UInt8} (h : s.has i = true)
    (size P : UInt16) (eop : Bool) : rxCalcSliceStep s i size P eop = .ok ⟨.duplicate, s⟩ := by
  simp [rxCalcSliceStep, h]

/-- A new slice is accepted, and only then is the watermark looked at. -/
theorem rxCalcSliceStep_of_not_has {s : RxSliceState} {i : UInt8} (h : s.has i = false)
    (size P : UInt16) (eop : Bool) :
    rxCalcSliceStep s i size P eop =
      if sliceIdxToOffset i P > s.watermark then
        .ok ⟨.newSliceOutOfOrder, s.accept i size P eop⟩
      else
        rxAdvanceWatermark (s.accept i size P eop) P >>= fun wm =>
          .ok ⟨if rxIsComplete { s.accept i size P eop with watermark := wm } P
            then .complete else .newSliceInOrder,
            { s.accept i size P eop with watermark := wm }⟩ := by
  have hacc : (let next := s.mark i
      let next := if size < P || eop then
          { next with termination := rxCalcTermination i size P } else next
      if !(size == 0 && eop) then { next with receivedCount := s.receivedCount + 1 } else next) =
      s.accept i size P eop := by
    simp only [RxSliceState.accept]
    rcases (size < P || eop) with - | - <;> rcases (size == 0 && eop) with - | - <;> rfl
  simp only [rxCalcSliceStep, h, Bool.false_eq_true, if_false]
  rw [← hacc]

/-- What a step can do with a new slice. -/
theorem rxCalcSliceStep_new_cases {s : RxSliceState} {i : UInt8} {size P : UInt16} {eop : Bool}
    {step : RxSliceInst} (hnew : s.has i = false) (h : rxCalcSliceStep s i size P eop = .ok step) :
    (s.watermark < sliceIdxToOffset i P ∧
      step = ⟨.newSliceOutOfOrder, s.accept i size P eop⟩) ∨
    (¬ s.watermark < sliceIdxToOffset i P ∧
      ∃ wm, rxAdvanceWatermark (s.accept i size P eop) P = .ok wm ∧
        step = ⟨if rxIsComplete { s.accept i size P eop with watermark := wm } P
          then .complete else .newSliceInOrder,
          { s.accept i size P eop with watermark := wm }⟩) := by
  rw [rxCalcSliceStep_of_not_has hnew] at h
  split at h
  · rename_i hout
    exact Or.inl ⟨hout, (Except.ok.inj h).symm⟩
  · rename_i hin
    obtain ⟨wm, hok, hstep⟩ := Machine.bind_eq_ok.mp h
    exact Or.inr ⟨hin, wm, hok, (Except.ok.inj hstep).symm⟩

/-- **What a step can do.** -/
theorem rxCalcSliceStep_cases {s : RxSliceState} {i : UInt8} {size P : UInt16} {eop : Bool}
    {step : RxSliceInst} (h : rxCalcSliceStep s i size P eop = .ok step) :
    (s.has i = true ∧ step = ⟨.duplicate, s⟩) ∨
    (s.has i = false ∧ s.watermark < sliceIdxToOffset i P ∧
      step = ⟨.newSliceOutOfOrder, s.accept i size P eop⟩) ∨
    (s.has i = false ∧ ¬ s.watermark < sliceIdxToOffset i P ∧
      ∃ wm, rxAdvanceWatermark (s.accept i size P eop) P = .ok wm ∧
        step = ⟨if rxIsComplete { s.accept i size P eop with watermark := wm } P
          then .complete else .newSliceInOrder,
          { s.accept i size P eop with watermark := wm }⟩) := by
  rcases hhas : s.has i with - | -
  · exact Or.inr ((rxCalcSliceStep_new_cases hhas h).imp (⟨rfl, ·⟩) (⟨rfl, ·⟩))
  · rw [rxCalcSliceStep_of_has hhas] at h
    exact Or.inl ⟨rfl, (Except.ok.inj h).symm⟩

/-- A short slice that is not empty ends the package, with eop or without. -/
theorem rxCalcSliceStep_of_short (s : RxSliceState) (i : UInt8) {size P : UInt16}
    (hpos : size ≠ 0) (hlt : size < P) (eop eop' : Bool) :
    rxCalcSliceStep s i size P eop = rxCalcSliceStep s i size P eop' := by
  have hz : (size == 0) = false := by simpa using hpos
  simp only [rxCalcSliceStep, hlt, hz, decide_true, Bool.true_or, Bool.false_and]

theorem rxTerminationToSliceCount_toNat (t P : UInt16) (hP : 0 < P.toNat) :
    (rxTerminationToSliceCount t.toUInt32 P).toNat = (t.toNat + P.toNat - 1) / P.toNat := by
  have ht := t.toNat_lt
  have hP' := P.toNat_lt
  have hle : (t.toNat + P.toNat - 1) / P.toNat ≤ t.toNat := by
    rw [Nat.div_le_iff_le_mul_add_pred hP]
    have : t.toNat ≤ P.toNat * t.toNat := Nat.le_mul_of_pos_left _ hP
    omega
  simp only [rxTerminationToSliceCount, UInt32.toNat_toUInt16, UInt32.toNat_div,
    UInt32.toNat_sub, UInt32.toNat_add, UInt16.toNat_toUInt32, UInt32.reduceToNat]
  rw [show (2 ^ 32 - 1 + (t.toNat + P.toNat) % 2 ^ 32) % 2 ^ 32 = t.toNat + P.toNat - 1 by omega]
  exact Nat.mod_eq_of_lt (hle.trans_lt ht)

/-- The completeness test: a known termination, and enough slices counted. -/
theorem rxIsComplete_iff {s : RxSliceState} {P : UInt16} (hP : 0 < P.toNat) :
    rxIsComplete s P = true ↔ s.termination.toNat ≠ 0 ∧
      (s.termination.toNat + P.toNat - 1) / P.toNat ≤ s.receivedCount.toNat := by
  simp only [rxIsComplete, Bool.and_eq_true, decide_eq_true_eq, gt_iff_lt, ge_iff_le,
    UInt16.lt_iff_toNat_lt, UInt16.le_iff_toNat_le, rxTerminationToSliceCount_toNat _ _ hP,
    UInt16.toNat_zero, Nat.pos_iff_ne_zero]

/-! ### The watermark scan -/

/-- The scan's counter after `n` additions, as a number. -/
theorem iterate_add_toNat (P wm : UInt16) (n : ℕ) :
    ((· + P)^[n] wm).toNat = (wm.toNat + n * P.toNat) % 2 ^ 16 := by
  induction n generalizing wm with
  | zero => simp
  | succ n ih =>
      rw [Function.iterate_succ_apply, ih, UInt16.toNat_add, Nat.mod_add_mod]
      congr 1
      ring

/-- `2 ^ 16` additions bring a 16-bit counter back. -/
theorem isPeriodicPt_add (P wm : UInt16) :
    Function.IsPeriodicPt (· + P) (2 ^ 16) wm := by
  apply UInt16.toNat_inj.mp
  rw [iterate_add_toNat, Nat.add_mul_mod_self_left, Nat.mod_eq_of_lt wm.toNat_lt]

/-- **The fuel of the scan is exact**: it runs out only when no number of
iterations would leave the loop. -/
theorem watermarkScan_eq_none_iff (s : RxSliceState) (P : UInt16) :
    watermarkScan s P = none ↔
      ∀ n, watermarkStops s P ((· + P)^[n] s.watermark) = false :=
  Loop.runUntil_eq_none_iff_of_isPeriodicPt (by decide) (isPeriodicPt_add P s.watermark)

theorem watermarkStops_eq_false_iff {s : RxSliceState} {P wm : UInt16} :
    watermarkStops s P wm = false ↔
      (s.termination = 0 ∨ wm.toNat < s.termination.toNat) ∧
        s.has (offsetToSliceIdx wm P) = true := by
  simp only [watermarkStops, Bool.or_eq_false_iff, Bool.and_eq_false_iff, decide_eq_false_iff_not,
    Bool.not_eq_false', gt_iff_lt, ge_iff_le, UInt16.le_iff_toNat_le, UInt16.lt_iff_toNat_lt,
    not_le, not_lt, ← UInt16.toNat_inj]
  simp

/-! ### The fault of the step -/

/-- The only fault is a scan that does not return. -/
theorem rxAdvanceWatermark_error {s : RxSliceState} {P : UInt16} {e : Fault}
    (h : rxAdvanceWatermark s P = .error e) : e = .scan := by
  simp only [rxAdvanceWatermark] at h
  split at h
  · simpa using h.symm
  · split at h
    · simpa using h.symm
    · split at h <;> cases h

theorem rxCalcSliceStep_error {s : RxSliceState} {i : UInt8} {size P : UInt16} {eop : Bool}
    {e : Fault} (h : rxCalcSliceStep s i size P eop = .error e) : e = .scan := by
  rcases hhas : s.has i with - | -
  · rw [rxCalcSliceStep_of_not_has hhas] at h
    split at h
    · cases h
    · rcases Machine.bind_eq_error.mp h with h | ⟨wm, -, h⟩
      · exact rxAdvanceWatermark_error h
      · cases h
  · rw [rxCalcSliceStep_of_has hhas] at h
    cases h

theorem rxAdvanceWatermark_zero (s : RxSliceState) : rxAdvanceWatermark s 0 = .error .scan := by
  simp [rxAdvanceWatermark]

/-- A scan that returns has slices to walk over. -/
theorem rxAdvanceWatermark_ne_zero {s : RxSliceState} {P wm : UInt16}
    (h : rxAdvanceWatermark s P = .ok wm) : P ≠ 0 := by
  rintro rfl
  rw [rxAdvanceWatermark_zero] at h
  cases h

/-! ### The first stop of the scan -/

/-- The scan leaves its loop after `n` rounds, and the cap is applied. -/
theorem rxAdvanceWatermark_of_first {s : RxSliceState} {P : UInt16} {n : ℕ} (hP : P ≠ 0)
    (hn : n < 2 ^ 16) (hrange : s.watermark.toNat + n * P.toNat < 2 ^ 16)
    (hbefore : ∀ k < n, watermarkStops s P ((· + P)^[k] s.watermark) = false)
    (hstop : watermarkStops s P ((· + P)^[n] s.watermark) = true) :
    ∃ wm, rxAdvanceWatermark s P = .ok wm ∧
      wm.toNat = if s.termination = 0 then s.watermark.toNat + n * P.toNat
        else min (s.watermark.toNat + n * P.toNat) s.termination.toNat := by
  have hscan : watermarkScan s P = some ((· + P)^[n] s.watermark) :=
    Loop.runUntil_eq_of_first hn hbefore hstop
  have hval := iterate_add_toNat P s.watermark n
  rw [Nat.mod_eq_of_lt hrange] at hval
  simp only [rxAdvanceWatermark, hP, if_false, hscan]
  generalize (· + P)^[n] s.watermark = wm at hval
  have hpos : s.termination > 0 ↔ s.termination.toNat ≠ 0 := by
    rw [gt_iff_lt, UInt16.lt_iff_toNat_lt, UInt16.toNat_zero, Nat.pos_iff_ne_zero]
  have hgt : wm > s.termination ↔ s.termination.toNat < wm.toNat := UInt16.lt_iff_toNat_lt
  simp only [Bool.and_eq_true, decide_eq_true_eq, hpos, hgt, ← UInt16.toNat_inj (b := 0),
    UInt16.toNat_zero]
  split
  · exact ⟨_, rfl, by rw [if_neg (by omega)]; omega⟩
  · refine ⟨_, rfl, ?_⟩
    split <;> omega

/-- Where a scan that returns has left its loop. -/
theorem rxAdvanceWatermark_first {s : RxSliceState} {P wm : UInt16}
    (h : rxAdvanceWatermark s P = .ok wm) :
    ∃ n, (∀ k < n, watermarkStops s P ((· + P)^[k] s.watermark) = false) ∧
      watermarkStops s P ((· + P)^[n] s.watermark) = true ∧
      wm.toNat = if s.termination = 0 then ((· + P)^[n] s.watermark).toNat
        else min ((· + P)^[n] s.watermark).toNat s.termination.toNat := by
  simp only [rxAdvanceWatermark] at h
  split at h
  · cases h
  · split at h
    · cases h
    · rename_i v hscan
      obtain ⟨n, -, hbefore, hstop, rfl⟩ := Loop.runUntil_eq_some_iff.mp hscan
      refine ⟨n, hbefore, hstop, ?_⟩
      generalize (· + P)^[n] s.watermark = v at h
      have hpos : s.termination > 0 ↔ s.termination ≠ 0 := by
        rw [gt_iff_lt, UInt16.lt_iff_toNat_lt, UInt16.toNat_zero, Nat.pos_iff_ne_zero, ne_eq, ne_eq,
          ← UInt16.toNat_inj, UInt16.toNat_zero]
      have hgt : v > s.termination ↔ s.termination.toNat < v.toNat := UInt16.lt_iff_toNat_lt
      simp only [Bool.and_eq_true, decide_eq_true_eq, hpos, hgt] at h
      split at h <;> obtain rfl := Except.ok.inj h
      · rename_i hcap
        rw [if_neg hcap.1]
        omega
      · rename_i hcap
        split
        · rfl
        · rename_i hne
          have hle : ¬ s.termination.toNat < v.toNat := fun hlt => hcap ⟨hne, hlt⟩
          omega

/-- A scan does not get past a value that stops it before the counter wraps. -/
theorem rxAdvanceWatermark_le_of_stop {s : RxSliceState} {P wm : UInt16} {n : ℕ}
    (h : rxAdvanceWatermark s P = .ok wm)
    (hstop : watermarkStops s P ((· + P)^[n] s.watermark) = true)
    (hrange : s.watermark.toNat + n * P.toNat < 2 ^ 16) :
    wm.toNat ≤ s.watermark.toNat + n * P.toNat := by
  obtain ⟨m, hbefore, -, hwm⟩ := rxAdvanceWatermark_first h
  have hle : m ≤ n := by
    by_contra hlt
    rw [hbefore n (not_le.mp hlt)] at hstop
    cases hstop
  have hmul : m * P.toNat ≤ n * P.toNat := Nat.mul_le_mul_right _ hle
  rw [iterate_add_toNat, Nat.mod_eq_of_lt (by omega)] at hwm
  split at hwm <;> omega

end CustomData
