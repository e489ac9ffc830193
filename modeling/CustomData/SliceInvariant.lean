/-
CustomData/SliceInvariant.lean

What every slice state satisfies, whatever frames made it.

The frames of one coordinate may be malformed: several short or eop slices,
ends that contradict each other, empty slices.  While 256 slices fit a 16-bit
offset, the state still has an invariant (`SliceInv`).  It rests on one
observation: a slice that is new starts at or behind the watermark, because
everything below is marked.  So a new slice in order starts exactly at the
watermark, an end it declares is not below it, and the scan starts at a
multiple of `P` and cannot wrap.

The test for completeness counts slices instead of looking at the bitmap.
`countingTest_iff` says when the two agree over a run: what was received at or
behind the end must make up for what is missing below it, and for marked
slices that were not counted, exactly when nothing is missing.  The test is
made in order only, so a state that goes on after COMPLETE without a reset must
not meet a slice out of order either.
-/
import CustomData.Arrivals
import CustomData.Leftover

namespace CustomData

variable {P : ℕ} {s : RxSliceState}

/-! ### The invariant -/

/-- The representation invariant of `mp_rx_slice_state_t`. -/
structure SliceInv (P : ℕ) (s : RxSliceState) : Prop where
  below : ∀ i : UInt8, i.toNat * P < s.watermark.toNat → s.has i = true
  capped : s.termination.toNat = 0 ∨ s.watermark.toNat ≤ s.termination.toNat
  termination_le : s.termination.toNat ≤ 256 * P
  count_le : s.receivedCount.toNat ≤ s.marked.card

theorem sliceInv_zero (P : ℕ) : SliceInv P .zero where
  below := fun _ h => absurd h (Nat.not_lt_zero _)
  capped := Or.inl rfl
  termination_le := Nat.zero_le _
  count_le := Nat.zero_le _

/-- The payload fits a slice. -/
def SliceArrival.Fits (P : ℕ) (a : SliceArrival) : Prop := a.payloadSize.toNat ≤ P

instance (P : ℕ) (a : SliceArrival) : Decidable (a.Fits P) := by
  unfold SliceArrival.Fits; infer_instance

theorem slice_end_le_256 (P : ℕ) (i : UInt8) : (i.toNat + 1) * P ≤ 256 * P := by
  have := i.toNat_lt
  exact Nat.mul_le_mul_right P (by omega)

/-- A new slice starts at the watermark or behind it. -/
theorem SliceInv.le_offset (h : SliceInv P s) {i : UInt8} (hnew : s.has i = false) :
    s.watermark.toNat ≤ i.toNat * P := by
  by_contra hlt
  have := h.below i (by omega)
  rw [hnew] at this
  exact Bool.false_ne_true this

/-- The state an arrival that is new leaves before the watermark is looked at. -/
abbrev RxSliceState.acceptArrival (P : ℕ) (s : RxSliceState) (a : SliceArrival) : RxSliceState :=
  s.accept a.sliceSerial a.payloadSize (maxPayload (Config.ofPayload P)) a.eop

theorem RxSliceState.has_acceptArrival (a : SliceArrival) {i : UInt8} (h : s.has i = true) :
    (s.acceptArrival P a).has i = true := by
  rw [RxSliceState.has_accept, h, Bool.or_true]

section Steps

variable (h256 : 256 * P ≤ 65535)
include h256

theorem maxPayload_toNat_of_256 : (maxPayload (Config.ofPayload P)).toNat = P :=
  maxPayload_ofPayload (by omega)

/-- No offset wraps. -/
theorem sliceIdxToOffset_toNat_of_256 (i : UInt8) :
    (sliceIdxToOffset i (maxPayload (Config.ofPayload P))).toNat = i.toNat * P := by
  have := slice_end_le_256 P i
  have := Nat.add_one_mul i.toNat P
  rw [sliceIdxToOffset_toNat, maxPayload_toNat_of_256 h256, Nat.mod_eq_of_lt (by omega)]

/-- The end known after a slice: what it declares, or the old one. -/
theorem endAfter_toNat {a : SliceArrival} (ha : a.Fits P) (s : RxSliceState) :
    (endAfter P s a).toNat = if a.payloadSize.toNat < P ∨ a.eop = true then
      a.sliceSerial.toNat * P + a.payloadSize.toNat else s.termination.toNat := by
  have hend := slice_end_le_256 P a.sliceSerial
  have := Nat.add_one_mul a.sliceSerial.toNat P
  unfold SliceArrival.Fits at ha
  simp only [endAfter, Bool.or_eq_true, decide_eq_true_eq, UInt16.lt_iff_toNat_lt,
    maxPayload_toNat_of_256 h256]
  split
  · rw [rxCalcTermination, UInt16.toNat_add, sliceIdxToOffset_toNat_of_256 h256]
    omega
  · rfl

/-- **Accepting any new slice** keeps the invariant. -/
theorem SliceInv.accept (h : SliceInv P s) {a : SliceArrival} (ha : a.Fits P)
    (hnew : s.has a.sliceSerial = false) :
    SliceInv P (s.acceptArrival P a) where
  below := by
    exact fun i hi => RxSliceState.has_acceptArrival a (h.below i hi)
  capped := by
    have hle := h.le_offset hnew
    have hend : (s.acceptArrival P a).termination.toNat = _ := endAfter_toNat h256 ha s
    rw [hend]
    split
    · exact Or.inr (hle.trans (Nat.le_add_right _ _))
    · exact h.capped
  termination_le := by
    have hle := slice_end_le_256 P a.sliceSerial
    have := Nat.add_one_mul a.sliceSerial.toNat P
    have hend : (s.acceptArrival P a).termination.toNat = _ := endAfter_toNat h256 ha s
    unfold SliceArrival.Fits at ha
    rw [hend]
    split
    · omega
    · exact h.termination_le
  count_le := by
    have hcard := Leftover.card_marked_le s
    have hcount := h.count_le
    have hlt := a.sliceSerial.toNat_lt
    have hmem : a.sliceSerial.toNat ∉ s.marked := by
      simp [RxSliceState.marked, hnew]
    rw [Leftover.marked_accept, Finset.card_insert_of_notMem hmem]
    simp only [RxSliceState.accept]
    split
    · omega
    · rw [UInt16.toNat_add, UInt16.toNat_one]
      omega

/-- The counter of the scan, as long as it does not wrap. -/
theorem scan_toNat {i : UInt8} (hstart : s.watermark.toNat = i.toNat * P) {k : ℕ}
    (hk : i.toNat + k ≤ 256) :
    ((· + maxPayload (Config.ofPayload P))^[k] s.watermark).toNat = (i.toNat + k) * P := by
  have hle : (i.toNat + k) * P ≤ 256 * P := Nat.mul_le_mul_right P hk
  rw [iterate_add_toNat, hstart, maxPayload_toNat_of_256 h256, ← Nat.add_mul,
    Nat.mod_eq_of_lt (by omega)]

/-- The slice it names. -/
theorem scan_sliceIdx (hP : 1 ≤ P) {i j : UInt8} (hstart : s.watermark.toNat = i.toNat * P) {k : ℕ}
    (hj : j.toNat = i.toNat + k) :
    offsetToSliceIdx ((· + maxPayload (Config.ofPayload P))^[k] s.watermark)
      (maxPayload (Config.ofPayload P)) = j := by
  have hlt := j.toNat_lt
  apply UInt8.toNat_inj.mp
  rw [offsetToSliceIdx_toNat, scan_toNat h256 hstart (by omega), maxPayload_toNat_of_256 h256,
    Nat.mul_div_cancel _ hP, hj]
  omega

omit h256 in
/-- Slice `n` stops a scan: it starts at or behind the end, or is missing. -/
def ScanStop (P : ℕ) (s : RxSliceState) (n : ℕ) : Prop :=
  s.termination.toNat ≠ 0 ∧ s.termination.toNat ≤ n * P ∨ ∃ j : UInt8, j.toNat = n ∧ s.has j = false

theorem ScanStop.watermarkStops (hP : 1 ≤ P) {i : UInt8} (hstart : s.watermark.toNat = i.toNat * P)
    {k : ℕ} (hk : i.toNat + k ≤ 256) (h : ScanStop P s (i.toNat + k)) :
    CustomData.watermarkStops s (maxPayload (Config.ofPayload P))
      ((· + maxPayload (Config.ofPayload P))^[k] s.watermark) = true := by
  by_contra hgo
  obtain ⟨hterm, hbit⟩ := watermarkStops_eq_false_iff.mp (Bool.eq_false_iff.mpr hgo)
  rw [← UInt16.toNat_inj, UInt16.toNat_zero, scan_toNat h256 hstart hk] at hterm
  rcases h with ⟨hne, hle⟩ | ⟨j, hj, hmiss⟩
  · omega
  · rw [scan_sliceIdx h256 hP hstart hj, hmiss] at hbit
    cases hbit

theorem watermarkStops_of_not_scanStop (hP : 1 ≤ P) {i : UInt8}
    (hstart : s.watermark.toNat = i.toNat * P) {k : ℕ} (hk : i.toNat + k < 256)
    (h : ¬ ScanStop P s (i.toNat + k)) :
    watermarkStops s (maxPayload (Config.ofPayload P))
      ((· + maxPayload (Config.ofPayload P))^[k] s.watermark) = false := by
  simp only [ScanStop, not_or, not_and, not_exists, Bool.not_eq_false, not_le] at h
  have hj : (UInt8.ofNat (i.toNat + k)).toNat = i.toNat + k := by
    rw [UInt8.toNat_ofNat']
    omega
  rw [watermarkStops_eq_false_iff, ← UInt16.toNat_inj, UInt16.toNat_zero,
    scan_toNat h256 hstart hk.le, scan_sliceIdx h256 hP hstart hj]
  exact ⟨or_iff_not_imp_left.mpr h.1, h.2 _ hj⟩

/-- A scan that returns has something to stop at before its counter wraps. -/
theorem SliceInv.exists_scanStop (hP : 1 ≤ P) (h : SliceInv P s) {i : UInt8}
    (hstart : s.watermark.toNat = i.toNat * P) {wm : UInt16}
    (hok : rxAdvanceWatermark s (maxPayload (Config.ofPayload P)) = .ok wm) :
    ∃ k, i.toNat + k ≤ 256 ∧ ScanStop P s (i.toNat + k) := by
  have hi := i.toNat_lt
  have hPm := maxPayload_toNat_of_256 h256
  rcases (rxAdvanceWatermark_returns_iff (by omega)).mp ⟨wm, hok⟩ with ⟨m, -, hmiss⟩ | ⟨hne, -⟩
  · have hm := m.toNat_lt
    have hle : i.toNat ≤ m.toNat := by
      have hoff := h.le_offset hmiss
      rw [hstart] at hoff
      exact Nat.le_of_mul_le_mul_right hoff hP
    exact ⟨m.toNat - i.toNat, by omega, Or.inr ⟨m, by omega, hmiss⟩⟩
  · refine ⟨256 - i.toNat, by omega, Or.inl ⟨fun hz => hne (UInt16.toNat_inj.mp hz), ?_⟩⟩
    rw [Nat.add_sub_cancel' (by omega)]
    exact h.termination_le

/-- **The scan** from a multiple of `P` does not wrap: it stops at the first
slice that is missing or starts at or behind the end. -/
theorem SliceInv.advance (hP : 1 ≤ P) (h : SliceInv P s) {i : UInt8}
    (hstart : s.watermark.toNat = i.toNat * P) {wm : UInt16}
    (hok : rxAdvanceWatermark s (maxPayload (Config.ofPayload P)) = .ok wm) :
    ∃ n, i.toNat ≤ n ∧ (∀ j : UInt8, j.toNat < n → s.has j = true) ∧ ScanStop P s n ∧
      wm.toNat = if s.termination.toNat = 0 then n * P else min (n * P) s.termination.toNat := by
  have hPm := maxPayload_toNat_of_256 h256
  obtain ⟨k, hk, hstop⟩ := h.exists_scanStop h256 hP hstart hok
  obtain ⟨n, hle, hspec, hmin⟩ : ∃ n ≤ k, ScanStop P s (i.toNat + n) ∧
      ∀ m < n, ¬ ScanStop P s (i.toNat + m) := by
    classical
    have hex : ∃ k, ScanStop P s (i.toNat + k) := ⟨k, hstop⟩
    exact ⟨Nat.find hex, Nat.find_min' hex hstop, Nat.find_spec hex,
      fun m hm => Nat.find_min hex hm⟩
  have hrange : (i.toNat + n) * P ≤ 256 * P := Nat.mul_le_mul_right P (by omega)
  have hadd := Nat.add_mul i.toNat n P
  have hne : maxPayload (Config.ofPayload P) ≠ 0 := by
    intro hz
    rw [hz, UInt16.toNat_zero] at hPm
    omega
  obtain ⟨wm', hok', hwm⟩ := rxAdvanceWatermark_of_first (s := s) hne (by omega)
    (by rw [hstart, hPm]; omega)
    (fun m hm => watermarkStops_of_not_scanStop h256 hP hstart (by omega) (hmin m hm))
    (hspec.watermarkStops h256 hP hstart (by omega))
  obtain rfl := Except.ok.inj (hok'.symm.trans hok)
  refine ⟨i.toNat + n, Nat.le_add_right _ _, fun j hj => ?_, hspec, ?_⟩
  · rcases Nat.lt_or_ge j.toNat i.toNat with hlt | hge
    · -- below the watermark all is marked
      apply h.below j
      rw [hstart]
      exact Nat.mul_lt_mul_of_pos_right hlt hP
    · by_contra hmiss
      refine hmin (j.toNat - i.toNat) (by omega) (Or.inr ⟨j, by omega, ?_⟩)
      simpa using hmiss
  · simp only [hwm, hstart, hPm, ← Nat.add_mul, ← UInt16.toNat_inj (b := 0), UInt16.toNat_zero]

/-- The state after a new slice in order, given where the scan ends. -/
structure InOrder (P : ℕ) (s : RxSliceState) (a : SliceArrival) (wm : UInt16) : Prop where
  new : s.has a.sliceSerial = false
  start : s.watermark.toNat = a.sliceSerial.toNat * P
  scan : rxAdvanceWatermark (s.acceptArrival P a) (maxPayload (Config.ofPayload P)) = .ok wm

theorem InOrder.arrivalStep_eq {a : SliceArrival} {wm : UInt16} (hin : InOrder P s a wm) :
    arrivalStep P s a = .ok
      ⟨if rxIsComplete { s.acceptArrival P a with watermark := wm }
          (maxPayload (Config.ofPayload P)) then .complete else .newSliceInOrder,
        { s.acceptArrival P a with watermark := wm }⟩ := by
  have hgt : ¬ sliceIdxToOffset a.sliceSerial (maxPayload (Config.ofPayload P)) > s.watermark := by
    rw [gt_iff_lt, UInt16.lt_iff_toNat_lt, sliceIdxToOffset_toNat_of_256 h256, hin.start]
    exact lt_irrefl _
  rw [arrivalStep, rxCalcSliceStep_of_not_has hin.new, if_neg hgt, hin.scan, Machine.ok_bind]

/-- **What one step can do.** -/
theorem SliceInv.step_cases (h : SliceInv P s) {a : SliceArrival} {e : RxStreamEvent}
    {t : RxSliceState} (hok : arrivalStep P s a = .ok ⟨e, t⟩) :
    (s.has a.sliceSerial = true ∧ e = .duplicate ∧ t = s) ∨
    (s.has a.sliceSerial = false ∧ s.watermark.toNat < a.sliceSerial.toNat * P ∧
      e = .newSliceOutOfOrder ∧ t = s.acceptArrival P a) ∨
    ∃ wm, InOrder P s a wm ∧
      t = { s.acceptArrival P a with watermark := wm } ∧
      e = if rxIsComplete t (maxPayload (Config.ofPayload P)) then .complete
        else .newSliceInOrder := by
  have hlt : s.watermark < sliceIdxToOffset a.sliceSerial (maxPayload (Config.ofPayload P)) ↔
      s.watermark.toNat < a.sliceSerial.toNat * P := by
    rw [UInt16.lt_iff_toNat_lt, sliceIdxToOffset_toNat_of_256 h256]
  rcases rxCalcSliceStep_cases hok with
    ⟨hhas, heq⟩ | ⟨hnew, hout, heq⟩ | ⟨hnew, hin, wm, hscan, heq⟩
  · obtain ⟨rfl, rfl⟩ := RxSliceInst.mk.inj heq
    exact Or.inl ⟨hhas, rfl, rfl⟩
  · obtain ⟨rfl, rfl⟩ := RxSliceInst.mk.inj heq
    exact Or.inr (Or.inl ⟨hnew, hlt.mp hout, rfl, rfl⟩)
  · obtain ⟨rfl, rfl⟩ := RxSliceInst.mk.inj heq
    rw [hlt] at hin
    have hle := h.le_offset hnew
    exact Or.inr (Or.inr ⟨wm, ⟨hnew, by omega, hscan⟩, rfl, rfl⟩)

/-- In order the watermark moves forward, over received slices, up to the end
if nothing is missing below it and not up to the end otherwise. -/
theorem InOrder.scan_cases (hP : 1 ≤ P) (h : SliceInv P s) {a : SliceArrival} (ha : a.Fits P)
    {wm : UInt16} (hin : InOrder P s a wm) :
    s.watermark.toNat ≤ wm.toNat ∧
      (∀ j : UInt8, j.toNat * P < wm.toNat → (s.acceptArrival P a).has j = true) ∧
      ((endAfter P s a).toNat ≠ 0 →
        wm.toNat ≤ (endAfter P s a).toNat ∧ (wm = endAfter P s a ↔
          ∀ j : UInt8, j.toNat * P < (endAfter P s a).toNat →
            (s.acceptArrival P a).has j = true)) := by
  have hacc := h.accept h256 ha hin.new
  have hterm : (s.acceptArrival P a).termination = endAfter P s a := rfl
  obtain ⟨n, hle, hbits, hstop, hwm⟩ := hacc.advance h256 hP hin.start hin.scan
  rw [ScanStop, hterm] at hstop
  rw [hterm] at hwm
  have hmul := Nat.mul_le_mul_right P hle
  have hcap := hacc.capped
  rw [hterm, RxSliceState.accept_watermark] at hcap
  have hstart := hin.start
  refine ⟨?_, ?_, fun hne => ?_⟩
  · rw [hwm]
    split <;> omega
  · intro j hj
    refine hbits j (Nat.lt_of_mul_lt_mul_right (a := P) ?_)
    rw [hwm] at hj
    split at hj <;> omega
  · rw [if_neg hne] at hwm
    rw [← UInt16.toNat_inj]
    refine ⟨by omega, ⟨fun he j hj => hbits j (Nat.lt_of_mul_lt_mul_right (a := P) (by omega)),
      fun hall => ?_⟩⟩
    rcases hstop with ⟨-, hreach⟩ | ⟨j, rfl, hmiss⟩
    · omega
    · -- the scan stopped at a missing slice, which then is behind the end
      have hbehind : ¬ j.toNat * P < (endAfter P s a).toNat := fun hlt => by
        have := hall j hlt
        rw [hmiss] at this
        exact Bool.false_ne_true this
      omega

/-- **One step** keeps the invariant, the bits and the watermark. -/
theorem SliceInv.step (hP : 1 ≤ P) (h : SliceInv P s) {a : SliceArrival} (ha : a.Fits P)
    {e : RxStreamEvent} {t : RxSliceState} (hok : arrivalStep P s a = .ok ⟨e, t⟩) :
    SliceInv P t ∧ (∀ i, s.has i = true → t.has i = true) ∧
      s.watermark.toNat ≤ t.watermark.toNat := by
  rcases h.step_cases h256 hok with ⟨-, -, rfl⟩ | ⟨hnew, -, -, rfl⟩ | ⟨wm, hin, rfl, -⟩
  · exact ⟨h, fun _ hi => hi, le_rfl⟩
  · exact ⟨h.accept h256 ha hnew, fun _ hi => RxSliceState.has_acceptArrival a hi, le_rfl⟩
  · have hacc := h.accept h256 ha hin.new
    obtain ⟨hle, hbelow, hend⟩ := hin.scan_cases h256 hP h ha
    refine ⟨⟨hbelow, ?_, hacc.termination_le, hacc.count_le⟩, fun i hi => ?_, hle⟩
    · rcases Nat.eq_zero_or_pos (endAfter P s a).toNat with hz | hpos
      · exact Or.inl hz
      · exact Or.inr (hend hpos.ne').1
    · exact RxSliceState.has_acceptArrival (P := P) a hi

/-- The invariant through a call, which may reset the state. -/
theorem SliceInv.call (hP : 1 ≤ P) (h : SliceInv P s) {a : SliceArrival} (ha : a.Fits P)
    {e : RxStreamEvent} {t : RxSliceState} (hok : sliceStep P s a = .ok (t, e)) :
    SliceInv P t ∧ (e ≠ .complete → (∀ i, s.has i = true → t.has i = true) ∧
      s.watermark.toNat ≤ t.watermark.toNat) := by
  obtain ⟨⟨e', t'⟩, hstep, hok⟩ := Machine.bind_eq_ok.mp hok
  obtain ⟨rfl, rfl⟩ := Prod.mk.inj (Except.ok.inj hok)
  obtain ⟨hinv, hmono⟩ := h.step h256 hP ha hstep
  split
  · rename_i he
    exact ⟨sliceInv_zero P, fun hne => absurd he hne⟩
  · exact ⟨hinv, fun _ => hmono⟩

end Steps

/-- **The invariant of the slice state.**  Over any frames that fit, as long as
the calls return: what is below the watermark is marked, the watermark is not
behind a known end, and not more slices are counted than marked; and every call
that does not complete a package keeps the marks and does not take the
watermark back. -/
theorem sliceRun_invariant (hP : 1 ≤ P) (h256 : 256 * P ≤ 65535) {arrivals : List SliceArrival}
    (hfits : ∀ a ∈ arrivals, a.Fits P) {os : List RxStreamEvent}
    (hrun : Machine.run (sliceStep P) .zero arrivals = .ok (s, os)) :
    (∀ i : UInt8, i.toNat * P < s.watermark.toNat → s.has i = true) ∧
      (s.termination = 0 ∨ s.watermark ≤ s.termination) ∧
      s.receivedCount.toNat ≤ s.marked.card ∧ s.marked.card ≤ 256 ∧
      ∀ a t e, a.Fits P → sliceStep P s a = .ok (t, e) → e ≠ .complete →
        (∀ i, s.has i = true → t.has i = true) ∧ s.watermark ≤ t.watermark := by
  have h : SliceInv P s := Machine.run_invariant (I := SliceInv P) (P := SliceArrival.Fits P)
    (fun _ _ _ _ h ha hok => (h.call h256 hP ha hok).1) (sliceInv_zero P) hfits hrun
  refine ⟨h.below, ?_, h.count_le, Leftover.card_marked_le s, fun a t e ha hok he => ?_⟩
  · rw [← UInt16.toNat_inj, UInt16.toNat_zero, UInt16.le_iff_toNat_le]
    exact h.capped
  · rw [UInt16.le_iff_toNat_le]
    exact (h.call h256 hP ha hok).2 he

/-- Two full slices, the second one first. -/
theorem sliceRun_invariant_short :
    let s : RxSliceState := ⟨#v[3, 0, 0, 0, 0, 0, 0, 0], 2, 0, 4⟩
    (∀ i : UInt8, i.toNat * 2 < s.watermark.toNat → s.has i = true) ∧
      (s.termination = 0 ∨ s.watermark ≤ s.termination) ∧
      s.receivedCount.toNat ≤ s.marked.card ∧ s.marked.card ≤ 256 ∧
      ∀ a t e, a.Fits 2 → sliceStep 2 s a = .ok (t, e) → e ≠ .complete →
        (∀ i, s.has i = true → t.has i = true) ∧ s.watermark ≤ t.watermark :=
  sliceRun_invariant (by decide) (by decide) (by decide)
    (show Machine.run (sliceStep 2) .zero [⟨1, 2, false⟩, ⟨0, 2, false⟩] =
      .ok (⟨#v[3, 0, 0, 0, 0, 0, 0, 0], 2, 0, 4⟩, [.newSliceOutOfOrder, .newSliceInOrder]) by
        decide +kernel)

/-! ### Counting against the bitmap -/

/-- The slices received once `a` has been accepted. -/
def receivedAfter (s : RxSliceState) (a : SliceArrival) : Finset ℕ :=
  insert a.sliceSerial.toNat s.marked

/-- How many slices below the end are still missing. -/
def missingBelow (P : ℕ) (s : RxSliceState) (a : SliceArrival) : ℕ :=
  ((Finset.range 256).filter fun j => j * P < (endAfter P s a).toNat ∧
    j ∉ receivedAfter s a).card

/-- How many received slices lie at or behind the end. -/
def receivedBeyond (P : ℕ) (s : RxSliceState) (a : SliceArrival) : ℕ :=
  ((receivedAfter s a).filter fun j => (endAfter P s a).toNat ≤ j * P).card

/-- How many received slices have not been counted. -/
def uncounted (s : RxSliceState) (a : SliceArrival) : ℕ :=
  (receivedAfter s a).card -
    (s.receivedCount.toNat + if a.payloadSize == 0 && a.eop then 0 else 1)

/-- A new slice in order with the end known: what is received at or behind the
end makes up for what is missing below it and for what was not counted, if and
only if nothing is missing. -/
def CountsRight (P : ℕ) (s : RxSliceState) (a : SliceArrival) : Prop :=
  s.has a.sliceSerial = false →
    sliceIdxToOffset a.sliceSerial (maxPayload (Config.ofPayload P)) ≤ s.watermark →
      endAfter P s a ≠ 0 →
        (missingBelow P s a + uncounted s a ≤ receivedBeyond P s a ↔ missingBelow P s a = 0)

/-- A new slice out of order, with the watermark at the end already. -/
def EndReached (P : ℕ) (s : RxSliceState) (a : SliceArrival) : Prop :=
  s.has a.sliceSerial = false ∧
    s.watermark < sliceIdxToOffset a.sliceSerial (maxPayload (Config.ofPayload P)) ∧
    endAfter P s a ≠ 0 ∧ endAfter P s a = s.watermark

/-- From state to state over the frames; with `reset`, COMPLETE puts the state
back to zero as in `mp_rx_stream_feed`. -/
def foldStep (reset : Bool) (P : ℕ) (s : RxSliceState) (a : SliceArrival) :
    Except Fault (RxSliceState × RxStreamEvent) :=
  if reset then sliceStep P s a
  else arrivalStep P s a >>= fun step => .ok (step.nextState, step.e)

/-- A frame that is not a duplicate is COMPLETE if and only if the end is
known, every slice below it is marked, and the watermark has reached it. -/
def ClassifiesRight (P : ℕ) (s : RxSliceState) (a : SliceArrival) : Prop :=
  ∀ step, arrivalStep P s a = .ok step → s.has a.sliceSerial = false →
    (step.e = .complete ↔ step.nextState.termination > 0 ∧
      (∀ i : UInt8, i.toNat * P < step.nextState.termination.toNat →
        step.nextState.has i = true) ∧
      step.nextState.watermark = step.nextState.termination)

theorem marked_acceptArrival (a : SliceArrival) :
    (s.acceptArrival P a).marked = receivedAfter s a :=
  Leftover.marked_accept s a.sliceSerial a.payloadSize (maxPayload (Config.ofPayload P)) a.eop

/-- No slice is missing below the end if and only if all are marked. -/
theorem missingBelow_eq_zero_iff (P : ℕ) (s : RxSliceState) (a : SliceArrival) :
    missingBelow P s a = 0 ↔ ∀ j : UInt8, j.toNat * P < (endAfter P s a).toNat →
      (s.acceptArrival P a).has j = true := by
  have hhas : ∀ j : UInt8, (s.acceptArrival P a).has j = true ↔ j.toNat ∈ receivedAfter s a := by
    intro j
    have hj := j.toNat_lt
    rw [← @marked_acceptArrival P, RxSliceState.marked, Finset.mem_filter, Finset.mem_range,
      UInt8.ofNat_toNat]
    exact ⟨fun h => ⟨by omega, h⟩, fun h => h.2⟩
  rw [missingBelow, Finset.card_eq_zero, Finset.filter_eq_empty_iff]
  simp only [hhas, not_and, not_not, Finset.mem_range]
  constructor
  · intro h j
    exact h j.toNat_lt
  · intro h j hj
    have hnum : (UInt8.ofNat j).toNat = j := by
      rw [UInt8.toNat_ofNat']
      omega
    simpa only [hnum] using h (UInt8.ofNat j)

section Counting

variable (hP : 1 ≤ P) (h256 : 256 * P ≤ 65535)
include hP h256

/-- As many slices as the end needs: those received, without the ones at or
behind the end, and the missing ones. -/
theorem SliceInv.needed_eq (h : SliceInv P s) {a : SliceArrival} (ha : a.Fits P)
    (hnew : s.has a.sliceSerial = false) :
    ((endAfter P s a).toNat + P - 1) / P + receivedBeyond P s a =
      missingBelow P s a + (receivedAfter s a).card := by
  have hterm : (endAfter P s a).toNat ≤ 256 * P := (h.accept h256 ha hnew).termination_le
  have hlt : ∀ j, j * P < (endAfter P s a).toNat ↔ j < ((endAfter P s a).toNat + P - 1) / P := by
    intro j
    rw [Nat.lt_iff_add_one_le, Nat.lt_iff_add_one_le, Nat.le_div_iff_mul_le hP, Nat.add_one_mul]
    omega
  have hrange : (Finset.range 256).filter (fun j => j * P < (endAfter P s a).toNat) =
      Finset.range (((endAfter P s a).toNat + P - 1) / P) := by
    ext j
    rw [Finset.mem_filter, Finset.mem_range, Finset.mem_range, ← hlt]
    apply and_iff_right_of_imp
    intro hj
    exact Nat.lt_of_mul_lt_mul_right (a := P) (hj.trans_le hterm)
  have hsub : receivedAfter s a ⊆ Finset.range 256 := by
    rw [← @marked_acceptArrival P]
    exact Finset.filter_subset _ _
  have hboth : ((Finset.range 256).filter fun j => j * P < (endAfter P s a).toNat ∧
      ¬ j ∉ receivedAfter s a) =
      (receivedAfter s a).filter fun j => ¬ (endAfter P s a).toNat ≤ j * P := by
    ext j
    simp only [Finset.mem_filter, not_not, not_le]
    exact ⟨fun h => ⟨h.2.2, h.2.1⟩, fun h => ⟨hsub h.1, h.2, h.1⟩⟩
  have hsplit := Finset.card_filter_add_card_filter_not
    (s := (Finset.range 256).filter fun j => j * P < (endAfter P s a).toNat)
    (· ∉ receivedAfter s a)
  have hparts := Finset.card_filter_add_card_filter_not (s := receivedAfter s a)
    fun j => (endAfter P s a).toNat ≤ j * P
  rw [Finset.filter_filter, Finset.filter_filter, hboth, hrange, Finset.card_range] at hsplit
  unfold missingBelow receivedBeyond
  omega

/-- **The test for completeness** after a new slice, with the end known. -/
theorem SliceInv.isComplete_iff (h : SliceInv P s) {a : SliceArrival} (ha : a.Fits P)
    (hnew : s.has a.sliceSerial = false) (wm : UInt16) :
    rxIsComplete { s.acceptArrival P a with watermark := wm } (maxPayload (Config.ofPayload P)) =
        true ↔
      (endAfter P s a).toNat ≠ 0 ∧ missingBelow P s a + uncounted s a ≤ receivedBeyond P s a := by
  have hPm := maxPayload_toNat_of_256 h256
  have hneeded := h.needed_eq hP h256 ha hnew
  have hcount := (h.accept h256 ha hnew).count_le
  have hmarked : (s.acceptArrival P a).marked = receivedAfter s a := marked_acceptArrival a
  rw [hmarked] at hcount
  have hold := h.count_le.trans (Leftover.card_marked_le s)
  have hnew : (s.acceptArrival P a).receivedCount.toNat =
      s.receivedCount.toNat + if a.payloadSize == 0 && a.eop then 0 else 1 := by
    simp only [RxSliceState.accept]
    split
    · rfl
    · rw [UInt16.toNat_add, UInt16.toNat_one]
      omega
  rw [rxIsComplete_iff (by omega), hPm]
  show (endAfter P s a).toNat ≠ 0 ∧ _ ≤ (s.acceptArrival P a).receivedCount.toNat ↔ _
  apply and_congr_right
  intro _
  unfold uncounted
  rw [← hnew]
  show ((endAfter P s a).toNat + P - 1) / P ≤ _ ↔ _
  omega

/-- A scan with the end known returns. -/
theorem SliceInv.exists_inOrder (h : SliceInv P s) {a : SliceArrival} (ha : a.Fits P)
    (hnew : s.has a.sliceSerial = false)
    (hord : sliceIdxToOffset a.sliceSerial (maxPayload (Config.ofPayload P)) ≤ s.watermark)
    (hend : endAfter P s a ≠ 0) : ∃ wm, InOrder P s a wm := by
  have hPm := maxPayload_toNat_of_256 h256
  have hle : (endAfter P s a).toNat ≤ 256 * P := (h.accept h256 ha hnew).termination_le
  have hstride := scanStride_le hP
  obtain ⟨wm, hscan⟩ := (@rxAdvanceWatermark_returns_iff (s.acceptArrival P a)
    (maxPayload (Config.ofPayload P)) (by omega)).mpr (Or.inr ⟨hend, by
      rw [hPm, scanTop]
      show (endAfter P s a).toNat ≤ _
      omega⟩)
  refine ⟨wm, hnew, ?_, hscan⟩
  rw [UInt16.le_iff_toNat_le, sliceIdxToOffset_toNat_of_256 h256] at hord
  exact le_antisymm (h.le_offset hnew) hord

/-- In order, both tests in terms of the slices received. -/
theorem SliceInv.inOrder_tests (h : SliceInv P s) {a : SliceArrival} (ha : a.Fits P)
    {wm : UInt16} (hin : InOrder P s a wm) :
    ((if rxIsComplete { s.acceptArrival P a with watermark := wm }
          (maxPayload (Config.ofPayload P)) then RxStreamEvent.complete else .newSliceInOrder) =
        .complete ↔
      (endAfter P s a).toNat ≠ 0 ∧ missingBelow P s a + uncounted s a ≤ receivedBeyond P s a) ∧
    (endAfter P s a > 0 ∧ (∀ i : UInt8, i.toNat * P < (endAfter P s a).toNat →
        (s.acceptArrival P a).has i = true) ∧ wm = endAfter P s a ↔
      (endAfter P s a).toNat ≠ 0 ∧ missingBelow P s a = 0) := by
  constructor
  · rw [← h.isComplete_iff hP h256 ha hin.new wm]
    split <;> simp_all
  · rw [gt_iff_lt, UInt16.lt_iff_toNat_lt, UInt16.toNat_zero, Nat.pos_iff_ne_zero]
    apply and_congr_right
    intro hne
    obtain ⟨-, -, hend⟩ := hin.scan_cases h256 hP h ha
    rw [missingBelow_eq_zero_iff, (hend hne).2, and_self_iff]

omit hP h256 in
/-- Out of order the step leaves the watermark alone. -/
theorem EndReached.arrivalStep_eq {a : SliceArrival} (hr : EndReached P s a) :
    arrivalStep P s a = .ok ⟨.newSliceOutOfOrder, s.acceptArrival P a⟩ := by
  rw [arrivalStep, rxCalcSliceStep_of_not_has hr.1, if_pos hr.2.1]

/-- **One frame** is classified right if and only if it counts right and does
not come out of order behind an end that is reached. -/
theorem SliceInv.classifiesRight_iff (h : SliceInv P s) {a : SliceArrival} (ha : a.Fits P) :
    ClassifiesRight P s a ↔ CountsRight P s a ∧ ¬ EndReached P s a := by
  constructor
  · intro hright
    constructor
    · intro hnew hord hend
      obtain ⟨wm, hin⟩ := h.exists_inOrder hP h256 ha hnew hord hend
      obtain ⟨htest, hbits⟩ := h.inOrder_tests hP h256 ha hin
      have hiff := htest.symm.trans ((hright _ (hin.arrivalStep_eq h256) hnew).trans hbits)
      have hne : (endAfter P s a).toNat ≠ 0 := fun hz => hend (UInt16.toNat_inj.mp hz)
      rwa [and_iff_right hne, and_iff_right hne] at hiff
    · intro hr
      obtain ⟨hnew, -, hne, heq⟩ := id hr
      have hpos : endAfter P s a > 0 := by
        rw [gt_iff_lt, UInt16.lt_iff_toNat_lt, UInt16.toNat_zero, Nat.pos_iff_ne_zero]
        exact fun hz => hne (UInt16.toNat_inj.mp hz)
      have hall : ∀ i : UInt8, i.toNat * P < (endAfter P s a).toNat →
          (s.acceptArrival P a).has i = true := fun i hi =>
        RxSliceState.has_acceptArrival a (h.below i (heq ▸ hi))
      exact absurd ((hright _ hr.arrivalStep_eq hnew).mpr ⟨hpos, hall, heq.symm⟩) (by simp)
  · rintro ⟨hcount, hreached⟩ ⟨e, t⟩ hok hnew
    rcases h.step_cases h256 hok with ⟨hhas, -⟩ | ⟨-, hlt, rfl, rfl⟩ | ⟨wm, hin, rfl, rfl⟩
    · rw [hnew] at hhas
      exact absurd hhas Bool.false_ne_true
    · apply iff_of_false (by simp)
      rintro ⟨hpos, -, heq⟩
      refine hreached ⟨hnew, ?_, (UInt16.ne_of_lt hpos).symm, heq.symm⟩
      rwa [UInt16.lt_iff_toNat_lt, sliceIdxToOffset_toNat_of_256 h256]
    · obtain ⟨htest, hbits⟩ := h.inOrder_tests hP h256 ha hin
      refine htest.trans (Iff.trans (and_congr_right fun hne => ?_) hbits.symm)
      refine hcount hnew ?_ fun hz => hne (congrArg UInt16.toNat hz)
      rw [UInt16.le_iff_toNat_le, sliceIdxToOffset_toNat_of_256 h256, hin.start]

/-- With the reset or without it the invariant is kept. -/
theorem SliceInv.foldCall (reset : Bool) (h : SliceInv P s) {a : SliceArrival} (ha : a.Fits P)
    {t : RxSliceState} {e : RxStreamEvent} (hok : foldStep reset P s a = .ok (t, e)) :
    SliceInv P t := by
  cases reset with
  | true => exact (h.call h256 hP ha hok).1
  | false =>
      obtain ⟨⟨e', t'⟩, hstep, hok⟩ := Machine.bind_eq_ok.mp hok
      obtain ⟨rfl, -⟩ := Prod.mk.inj (Except.ok.inj hok)
      exact (h.step h256 hP ha hstep).1

end Counting

/-- **Counting against the bitmap.**  Over any frames that fit, with or without
the reset, every frame is classified as the bitmap says, if and only if every
new frame in order with the end known counts right and none comes out of order
behind an end that is reached. -/
theorem countingTest_iff (hP : 1 ≤ P) (h256 : 256 * P ≤ 65535) (reset : Bool)
    {arrivals : List SliceArrival} (hfits : ∀ a ∈ arrivals, a.Fits P) :
    (∀ before a after s os, arrivals = before ++ a :: after →
        Machine.run (foldStep reset P) .zero before = .ok (s, os) → ClassifiesRight P s a) ↔
      ∀ before a after s os, arrivals = before ++ a :: after →
        Machine.run (foldStep reset P) .zero before = .ok (s, os) →
          CountsRight P s a ∧ ¬ EndReached P s a := by
  have hiff : ∀ before a after s os, arrivals = before ++ a :: after →
      Machine.run (foldStep reset P) .zero before = .ok (s, os) →
        (ClassifiesRight P s a ↔ CountsRight P s a ∧ ¬ EndReached P s a) := by
    rintro before a after s os rfl hrun
    have hinv : SliceInv P s :=
      Machine.run_invariant (I := SliceInv P) (P := SliceArrival.Fits P)
        (fun _ _ _ _ h ha hok => h.foldCall hP h256 reset ha hok) (sliceInv_zero P)
        (fun b hb => hfits b (List.mem_append_left _ hb)) hrun
    exact hinv.classifiesRight_iff hP h256 (hfits a (by simp))
  constructor
  · intro h before a after s os hsplit hrun
    exact (hiff before a after s os hsplit hrun).mp (h before a after s os hsplit hrun)
  · intro h before a after s os hsplit hrun
    exact (hiff before a after s os hsplit hrun).mpr (h before a after s os hsplit hrun)

/-- A short package. -/
theorem countingTest_short :
    (∀ before a after s os, [⟨0, 2, false⟩, ⟨1, 1, true⟩] = before ++ a :: after →
        Machine.run (foldStep true 2) .zero before = .ok (s, os) → ClassifiesRight 2 s a) ↔
      ∀ before a after s os, [⟨0, 2, false⟩, ⟨1, 1, true⟩] = before ++ a :: after →
        Machine.run (foldStep true 2) .zero before = .ok (s, os) →
          CountsRight 2 s a ∧ ¬ EndReached 2 s a :=
  countingTest_iff (by decide) (by decide) true (by decide)

/-- The end is in slice 2, a full slice 7 lies behind it, and slice 0 makes the
count three: COMPLETE, with slice 1 missing. -/
theorem countingTest_counts_beyond :
    ¬ ∃ reset : Bool, ∀ (P : ℕ) (arrivals : List SliceArrival), 1 ≤ P → 256 * P ≤ 65535 →
      (∀ a ∈ arrivals, a.Fits P) →
      ∀ before a after s os, arrivals = before ++ a :: after →
        Machine.run (foldStep reset P) .zero before = .ok (s, os) → ClassifiesRight P s a := by
  rintro ⟨reset, h⟩
  have hrun : Machine.run (foldStep reset 2) .zero [⟨2, 1, true⟩, ⟨7, 2, false⟩] =
      .ok (⟨#v[132, 0, 0, 0, 0, 0, 0, 0], 2, 5, 0⟩,
        [.newSliceOutOfOrder, .newSliceOutOfOrder]) := by
    cases reset <;> decide +kernel
  have hright := h 2 [⟨2, 1, true⟩, ⟨7, 2, false⟩, ⟨0, 2, false⟩] (by decide) (by decide)
    (by decide) [⟨2, 1, true⟩, ⟨7, 2, false⟩] ⟨0, 2, false⟩ [] _ _ rfl hrun
  obtain ⟨-, hbits, -⟩ := (hright ⟨.complete, ⟨#v[133, 0, 0, 0, 0, 0, 0, 0], 3, 5, 2⟩⟩
    (by decide +kernel) (by decide)).mp rfl
  exact absurd (hbits 1 (by decide)) (by decide)

end CustomData
