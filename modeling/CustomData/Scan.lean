/-
CustomData/Scan.lean

When the watermark scan returns.

The scan of `mp_rx_advance_watermark` adds `P` to a 16-bit counter until it
meets a missing slice or the termination.  It may meet neither: the counter
wraps and goes round for ever.  Because the counter visits exactly the values
congruent to the watermark modulo `gcd P 65536`, the two exits can be read off
the state:

* a missing slice is met iff one of the slice numbers up to
  `min 255 (65535 / P)` is missing — these are the numbers the counter names;
* the termination is met iff it is not above the largest value visited,
  `65536 - gcd P 65536 + watermark % gcd P 65536`.

`rxAdvanceWatermark_returns_iff` is that statement for one call and
`sliceRun_returns_iff` for a whole sequence of arbitrary frames.  A package of
17 full slices at `P = 4095`, which a sender can emit, already makes the
receiver hang (`sliceRun_hangs`).
-/
import CustomData.Rx

namespace CustomData

/-! ### The values the counter visits -/

/-- The stride of the counter's orbit. -/
def scanStride (P : ℕ) : ℕ := Nat.gcd P (2 ^ 16)

/-- The largest value the counter visits from `wm`. -/
def scanTop (P wm : ℕ) : ℕ := 2 ^ 16 - scanStride P + wm % scanStride P

/-- The largest slice number the counter names. -/
def scanLast (P : ℕ) : ℕ := min 255 ((2 ^ 16 - 1) / P)

theorem scanStride_pos {P : ℕ} (hP : 0 < P) : 0 < scanStride P :=
  Nat.gcd_pos_of_pos_left _ hP

theorem scanStride_le {P : ℕ} (hP : 0 < P) : scanStride P ≤ P :=
  Nat.gcd_le_left _ hP

/-- A value below `65536` in the residue class of `wm` is at most the top. -/
theorem le_scanTop {P wm y : ℕ} (hP : 0 < P) (hy : y < 2 ^ 16)
    (hmod : y % scanStride P = wm % scanStride P) : y ≤ scanTop P wm := by
  obtain ⟨q, hq⟩ : scanStride P ∣ 2 ^ 16 := Nat.gcd_dvd_right _ _
  have hg := scanStride_pos hP
  have hdiv := Nat.div_add_mod y (scanStride P)
  have hlt : y / scanStride P < q :=
    Nat.div_lt_of_lt_mul (by rwa [← hq])
  have hmul : scanStride P * (y / scanStride P) + scanStride P ≤ scanStride P * q := by
    calc scanStride P * (y / scanStride P) + scanStride P
        = scanStride P * (y / scanStride P + 1) := by ring
      _ ≤ scanStride P * q := Nat.mul_le_mul_left _ hlt
  unfold scanTop
  omega

theorem scanTop_lt {P wm : ℕ} (hP : 0 < P) : scanTop P wm < 2 ^ 16 := by
  have hg := scanStride_pos hP
  have hle : scanStride P ≤ 2 ^ 16 := Nat.gcd_le_right _ (by decide)
  have := Nat.mod_lt wm hg
  unfold scanTop
  omega

theorem scanTop_mod {P wm : ℕ} :
    scanTop P wm % scanStride P = wm % scanStride P := by
  have hdvd : scanStride P ∣ 2 ^ 16 - scanStride P :=
    Nat.dvd_sub (Nat.gcd_dvd_right _ _) dvd_rfl
  rw [scanTop, Nat.add_mod, Nat.mod_eq_zero_of_dvd hdvd, Nat.zero_add, Nat.mod_mod, Nat.mod_mod]

/-- Every slice number up to the last one is named by a visited value. -/
theorem exists_visited {P wm i : ℕ} (hP : 0 < P) (hi : i ≤ scanLast P) :
    ∃ y < 2 ^ 16, y % scanStride P = wm % scanStride P ∧ y / P % 2 ^ 8 = i := by
  have hg := scanStride_pos hP
  have hgP := scanStride_le hP
  have hr := Nat.mod_lt wm hg
  have hdvd : scanStride P ∣ i * P := Dvd.dvd.mul_left (Nat.gcd_dvd_left _ _) i
  have hiP : i * P ≤ 2 ^ 16 - 1 :=
    (Nat.le_div_iff_mul_le hP).mp (hi.trans (Nat.min_le_right _ _))
  have hi255 : i ≤ 255 := hi.trans (Nat.min_le_left _ _)
  refine ⟨i * P + wm % scanStride P, ?_, ?_, ?_⟩
  · -- `i * P` and `65536` are multiples of the stride
    obtain ⟨a, ha⟩ := hdvd
    obtain ⟨q, hq⟩ : scanStride P ∣ 2 ^ 16 := Nat.gcd_dvd_right _ _
    have haq : a < q := by
      by_contra hle
      have := Nat.mul_le_mul_left (scanStride P) (not_lt.mp hle)
      omega
    have : scanStride P * a + scanStride P ≤ scanStride P * q := by
      calc scanStride P * a + scanStride P = scanStride P * (a + 1) := by ring
        _ ≤ scanStride P * q := Nat.mul_le_mul_left _ haq
    omega
  · rw [Nat.add_mod, Nat.mod_eq_zero_of_dvd hdvd, Nat.zero_add, Nat.mod_mod, Nat.mod_mod]
  · rw [Nat.mul_comm, Nat.mul_add_div hP, Nat.div_eq_of_lt (by omega)]
    omega

/-! ### One scan -/

/-- The scan meets a missing slice or the termination. -/
def ScanReturns (P : ℕ) (s : RxSliceState) : Prop :=
  (∃ i : UInt8, i.toNat ≤ scanLast P ∧ s.has i = false) ∨
    (s.termination ≠ 0 ∧ s.termination.toNat ≤ scanTop P s.watermark.toNat)

/-- **One scan, exactly.** -/
theorem rxAdvanceWatermark_returns_iff {s : RxSliceState} {Pm : UInt16} (hP : 0 < Pm.toNat) :
    (∃ wm, rxAdvanceWatermark s Pm = .ok wm) ↔ ScanReturns Pm.toNat s := by
  have hPm : Pm ≠ 0 := by rintro rfl; simp at hP
  have hreturns : (∃ wm, rxAdvanceWatermark s Pm = .ok wm) ↔ watermarkScan s Pm ≠ none := by
    rcases hscan : watermarkScan s Pm with - | wm
    · simp [rxAdvanceWatermark, hPm, hscan]
    · simp only [rxAdvanceWatermark, hPm, if_false, hscan, ne_eq, reduceCtorEq, not_false_eq_true,
        iff_true]
      split <;> exact ⟨_, rfl⟩
  rw [hreturns, ne_eq, watermarkScan_eq_none_iff]
  constructor
  · -- nothing to meet keeps the scan going
    intro hstop
    by_contra hnot
    simp only [ScanReturns, not_or, not_exists, not_and, Bool.not_eq_false, not_le] at hnot
    obtain ⟨hbits, hterm⟩ := hnot
    refine hstop fun n => watermarkStops_eq_false_iff.mpr ?_
    have hval := iterate_add_toNat Pm s.watermark n
    generalize (· + Pm)^[n] s.watermark = wm at hval
    have hmod : wm.toNat % scanStride Pm.toNat = s.watermark.toNat % scanStride Pm.toNat :=
      (Loop.exists_add_mul_mod_eq_iff wm.toNat_lt).mp ⟨n, hval.symm⟩
    constructor
    -- no value reaches the termination
    · apply or_iff_not_imp_left.mpr
      intro hne
      exact (le_scanTop hP wm.toNat_lt hmod).trans_lt (hterm hne)
    · apply hbits _
      rw [offsetToSliceIdx_toNat]
      have hdiv : wm.toNat / Pm.toNat ≤ (2 ^ 16 - 1) / Pm.toNat :=
        Nat.div_le_div_right (Nat.le_pred_of_lt wm.toNat_lt)
      exact le_min (Nat.le_pred_of_lt (Nat.mod_lt _ (by decide))) ((Nat.mod_le _ _).trans hdiv)
  · -- what there is to meet is met
    rintro (⟨i, hi, hmiss⟩ | ⟨hne, hle⟩) hall
    -- the scan comes by the missing slice
    · obtain ⟨y, hy, hmod, hidx⟩ := @exists_visited _ s.watermark.toNat _ hP hi
      obtain ⟨n, hn⟩ := (Loop.exists_add_mul_mod_eq_iff hy).mpr hmod
      have hgo := (watermarkStops_eq_false_iff.mp (hall n)).2
      have hval := iterate_add_toNat Pm s.watermark n
      rw [hn] at hval
      have : offsetToSliceIdx ((· + Pm)^[n] s.watermark) Pm = i :=
        UInt8.toNat_inj.mp (by rw [offsetToSliceIdx_toNat, hval, hidx])
      rw [this, hmiss] at hgo
      exact Bool.false_ne_true hgo
    -- the scan comes by the largest value it can reach
    · obtain ⟨n, hn⟩ := (Loop.exists_add_mul_mod_eq_iff (scanTop_lt hP)).mpr
        (@scanTop_mod _ s.watermark.toNat)
      have hgo := (watermarkStops_eq_false_iff.mp (hall n)).1.resolve_left hne
      rw [iterate_add_toNat, hn] at hgo
      omega

/-- **One step, exactly.**  It has no scan to make, or its scan returns. -/
theorem rxCalcSliceStep_returns_iff (s : RxSliceState) (i : UInt8) (size Pm : UInt16)
    (eop : Bool) : (∃ step, rxCalcSliceStep s i size Pm eop = .ok step) ↔
      s.has i = true ∨ s.watermark < sliceIdxToOffset i Pm ∨
        (Pm ≠ 0 ∧ ScanReturns Pm.toNat (s.accept i size Pm eop)) := by
  rcases hhas : s.has i with - | -
  · rw [rxCalcSliceStep_of_not_has hhas]
    by_cases hoff : sliceIdxToOffset i Pm > s.watermark
    · rw [if_pos hoff]
      simp [gt_iff_lt.mp hoff]
    · rw [if_neg hoff, Machine.exists_bind_ok]
      by_cases hP : Pm = 0
      · subst hP
        simpa [rxAdvanceWatermark_zero] using hoff
      · have hpos : 0 < Pm.toNat := Nat.pos_of_ne_zero fun h => hP (UInt16.toNat_inj.mp h)
        rw [rxAdvanceWatermark_returns_iff hpos]
        have hle : ¬ s.watermark < sliceIdxToOffset i Pm := hoff
        simp [hP, hle]
  · simp [rxCalcSliceStep_of_has hhas]

/-! ### Calls and runs on arbitrary frames -/

/-- What one frame of a coordinate brings to the step. -/
structure SliceArrival where
  sliceSerial : UInt8
  payloadSize : UInt16
  eop : Bool
  deriving DecidableEq, Repr

/-- One call of the step; as in `mp_rx_stream_feed`, COMPLETE resets the
stored state. -/
def sliceStep (P : ℕ) (s : RxSliceState) (a : SliceArrival) :
    Except Fault (RxSliceState × RxStreamEvent) :=
  rxCalcSliceStep s a.sliceSerial a.payloadSize (maxPayload (Config.ofPayload P)) a.eop >>=
    fun step => .ok (if step.e = .complete then .zero else step.nextState, step.e)

/-- The end of the package as known once slice `a` has been accepted. -/
def endAfter (P : ℕ) (s : RxSliceState) (a : SliceArrival) : UInt16 :=
  if a.payloadSize < maxPayload (Config.ofPayload P) || a.eop then
    rxCalcTermination a.sliceSerial a.payloadSize (maxPayload (Config.ofPayload P))
  else s.termination

/-- The call has no scan to make, or its scan meets a slice that is still
missing, or the end of the package. -/
def CallReturns (P : ℕ) (s : RxSliceState) (a : SliceArrival) : Prop :=
  s.has a.sliceSerial = true ∨
    s.watermark < sliceIdxToOffset a.sliceSerial (maxPayload (Config.ofPayload P)) ∨
    (∃ i : UInt8, i.toNat ≤ scanLast P ∧ i ≠ a.sliceSerial ∧ s.has i = false) ∨
    (endAfter P s a ≠ 0 ∧ (endAfter P s a).toNat ≤ scanTop P s.watermark.toNat)

theorem scanReturns_accept_iff {P : ℕ} (s : RxSliceState) (a : SliceArrival) :
    ScanReturns P
        (s.accept a.sliceSerial a.payloadSize (maxPayload (Config.ofPayload P)) a.eop) ↔
      (∃ i : UInt8, i.toNat ≤ scanLast P ∧ i ≠ a.sliceSerial ∧ s.has i = false) ∨
        (endAfter P s a ≠ 0 ∧ (endAfter P s a).toNat ≤ scanTop P s.watermark.toNat) := by
  simp only [ScanReturns, RxSliceState.has_accept, Bool.or_eq_false_iff, decide_eq_false_iff_not,
    ne_comm (a := a.sliceSerial), ne_eq, RxSliceState.accept_watermark]
  simp only [RxSliceState.accept, endAfter]

theorem sliceStep_returns_iff {P : ℕ} (hP : 1 ≤ P) (hP' : P ≤ 4095) (s : RxSliceState)
    (a : SliceArrival) : (∃ r, sliceStep P s a = .ok r) ↔ CallReturns P s a := by
  have hPm : (maxPayload (Config.ofPayload P)).toNat = P :=
    maxPayload_ofPayload hP'
  have hne : maxPayload (Config.ofPayload P) ≠ 0 := by
    rintro h
    rw [h, UInt16.toNat_zero] at hPm
    omega
  unfold sliceStep CallReturns
  rw [Machine.exists_bind_ok, rxCalcSliceStep_returns_iff, hPm, scanReturns_accept_iff,
    and_iff_right hne]

/-- **When the receiver hangs.**  Over any sequence of frames from the zero
state, every call returns if and only if no call has to scan a state in which
neither a missing slice nor the termination can be met. -/
theorem sliceRun_returns_iff {P : ℕ} (hP : 1 ≤ P) (hP' : P ≤ 4095)
    (arrivals : List SliceArrival) :
    (∃ r, Machine.run (sliceStep P) .zero arrivals = .ok r) ↔
      ∀ before a after s os, arrivals = before ++ a :: after →
        Machine.run (sliceStep P) .zero before = .ok (s, os) → CallReturns P s a := by
  rw [Machine.run_ok_iff]
  exact forall₃_congr fun before a after => forall₂_congr fun s os =>
    imp_congr_right fun _ => imp_congr_right fun _ => sliceStep_returns_iff hP hP' s a

/-- A short package: both calls return. -/
theorem sliceRun_returns_short :
    (∃ r, Machine.run (sliceStep 2) .zero [⟨0, 2, false⟩, ⟨1, 1, true⟩] = .ok r) ↔
      ∀ before a after s os, [⟨0, 2, false⟩, ⟨1, 1, true⟩] = before ++ a :: after →
        Machine.run (sliceStep 2) .zero before = .ok (s, os) → CallReturns 2 s a :=
  sliceRun_returns_iff (by decide) (by decide) [⟨0, 2, false⟩, ⟨1, 1, true⟩]

/-- Full slices of `4095` bytes, none of them the last one. -/
def fullSlices (n : ℕ) : List SliceArrival :=
  (List.range n).map fun i => ⟨UInt8.ofNat i, 4095, false⟩

/-- The seventeenth slice of `4095` bytes finds the watermark at `65520`; the
next value wraps to `4079`, a received slice, and so on round the orbit. -/
theorem sliceRun_hangs :
    ¬ ∀ (P : ℕ) (arrivals : List SliceArrival), 1 ≤ P → P ≤ 4095 →
      (∀ a ∈ arrivals, a.payloadSize.toNat ≤ P) →
      ∃ r, Machine.run (sliceStep P) .zero arrivals = .ok r := by
  intro h
  obtain ⟨⟨t, os⟩, hrun⟩ := h 4095 (fullSlices 16 ++ [⟨16, 4095, false⟩]) (by decide) (by decide)
    (by decide)
  obtain ⟨s, os₁, os₂, h₁, h₂, -⟩ := Machine.run_append_eq_ok.mp hrun
  obtain ⟨s', o, os', hstep, -, -⟩ := Machine.run_cons_eq_ok.mp h₂
  have hs : Machine.run (sliceStep 4095) .zero (fullSlices 16) =
      .ok (⟨#v[65535, 0, 0, 0, 0, 0, 0, 0], 16, 0, 65520⟩,
        List.replicate 16 .newSliceInOrder) := by decide +kernel
  obtain rfl : s = ⟨#v[65535, 0, 0, 0, 0, 0, 0, 0], 16, 0, 65520⟩ := by
    rw [hs, Except.ok.injEq, Prod.mk.injEq] at h₁
    exact h₁.1.symm
  rcases (sliceStep_returns_iff (by decide) (by decide) _ _).mp ⟨_, hstep⟩ with
    hdup | hoff | ⟨i, hle, hne, hmiss⟩ | ⟨hterm, -⟩
  · exact absurd hdup (by decide)
  · exact absurd hoff (by decide)
  · have hall : ∀ n < 16, RxSliceState.has
        ⟨#v[65535, 0, 0, 0, 0, 0, 0, 0], 16, 0, 65520⟩ (UInt8.ofNat n) = true := by decide
    have hi : i.toNat < 16 := by
      have h16 : i.toNat ≠ 16 := fun he => hne (UInt8.toNat_inj.mp he)
      have : scanLast 4095 = 16 := by decide
      omega
    have := hall i.toNat hi
    rw [UInt8.ofNat_toNat, hmiss] at this
    exact Bool.false_ne_true this
  · exact hterm (by decide)

end CustomData
