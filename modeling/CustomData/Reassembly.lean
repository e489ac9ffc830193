/-
CustomData/Reassembly.lean

What the slice state of the receiver knows about a package.

`p.Tracks s₀ R s` is the closed form of the state: starting from `s₀`, the
slices of `p` received so far are `R`.  Bitmap, count, termination and
watermark are functions of `R` alone, so the order of arrival and repeats are
forgotten.  The start `s₀` is usually the zero state; the embedded decoder also
starts packages on the leftovers of earlier ones, and `p.Unobstructed s₀` says
when these are not in the way of `p`.

The three step lemmas are the whole behaviour of `mp_rx_calc_slice_step` on
the frames of one package: a repeat changes nothing (`step_of_mem`), a new
slice that leaves the package open moves to the state of the larger set
(`step_of_insert_ne`), and the slice that closes it raises COMPLETE with
termination and watermark at the length of the data (`step_of_insert_eq`).
-/
import CustomData.Rx
import CustomData.Package
import CustomData.Lib.Collect

namespace CustomData

open Collect

namespace Package

variable {P : ℕ}

/-! ### The closed form of the state -/

/-- Nothing that `s` still holds is in the way of the package: its slice bits
are clear, and its full slices do not reach a leftover termination. -/
structure Unobstructed (p : Package P) (s : RxSliceState) : Prop where
  clear : ∀ i : UInt8, i.toNat ≤ p.full → s.has i = false
  idle : p.full = 0 ∨ s.termination.toNat = 0 ∨
    s.receivedCount.toNat + p.full < (s.termination.toNat + P - 1) / P

/-- A state the package may start on. -/
structure Fresh (p : Package P) (s : RxSliceState) : Prop extends Unobstructed p s where
  watermark : s.watermark.toNat = 0
  count_le : s.receivedCount.toNat ≤ 256

/-- `s` is what receiving the slices `R` of `p` makes of `s₀`, the watermark
aside. -/
structure Holds (p : Package P) (s₀ : RxSliceState) (R : Finset ℕ) (s : RxSliceState) :
    Prop where
  subset : R ⊆ Finset.range (p.full + 1)
  bits : ∀ i : UInt8, s.has i = true ↔ i.toNat ∈ R ∨ s₀.has i = true
  count : s.receivedCount.toNat = s₀.receivedCount.toNat + (R.filter p.Counted).card
  termination : s.termination.toNat =
    if p.full ∈ R then p.data.length else s₀.termination.toNat

/-- **The closed form**: `s` is the state after the slices `R` of `p`, some
slice of which is still missing. -/
structure Tracks (p : Package P) (s₀ : RxSliceState) (R : Finset ℕ) (s : RxSliceState) : Prop
    extends Holds p s₀ R s where
  missing : R ≠ Finset.range (p.full + 1)
  watermark : s.watermark.toNat = frontier R * P

variable {p : Package P} {s₀ s : RxSliceState} {R : Finset ℕ}

theorem fresh_zero (p : Package P) : p.Fresh RxSliceState.zero where
  clear := fun i _ => RxSliceState.has_zero i
  idle := Or.inr (Or.inl rfl)
  watermark := rfl
  count_le := by decide

/-- Before the first slice. -/
theorem Fresh.tracks (h : p.Fresh s₀) : p.Tracks s₀ ∅ s₀ where
  subset := Finset.empty_subset _
  bits := by simp
  count := by simp
  termination := by simp
  missing := by
    intro he
    have : (0 : ℕ) ∈ (∅ : Finset ℕ) := he ▸ Finset.mem_range.mpr (Nat.succ_pos _)
    simp at this
  watermark := by rw [h.watermark, frontier_empty, Nat.zero_mul]

theorem Tracks.frontier_le (h : p.Tracks s₀ R s) : frontier R ≤ p.full :=
  Nat.lt_succ_iff.mp ((frontier_lt_iff h.subset).mpr h.missing)

theorem Holds.le_full (h : p.Holds s₀ R s) {i : ℕ} (hi : i ∈ R) : i ≤ p.full :=
  Nat.lt_succ_iff.mp (Finset.mem_range.mp (h.subset hi))

theorem toNat_ofNat_slice (p : Package P) {i : ℕ} (hi : i ≤ p.full) :
    (UInt8.ofNat i).toNat = i := by
  have := p.full_le
  simp only [UInt8.toNat_ofNat']
  omega

theorem Holds.has_iff (h : p.Holds s₀ R s) (hF : p.Fresh s₀) {i : ℕ} (hi : i ≤ p.full) :
    s.has (UInt8.ofNat i) = true ↔ i ∈ R := by
  have hclear := hF.clear (UInt8.ofNat i) (by rwa [p.toNat_ofNat_slice hi])
  rw [h.bits, p.toNat_ofNat_slice hi, hclear]
  simp

/-- A leftover termination lies beyond every slice offset of the package. -/
theorem Fresh.offset_lt (h : p.Fresh s₀) (ht : s₀.termination.toNat ≠ 0) {i : ℕ}
    (hi : i ≤ p.full) : i * P < s₀.termination.toNat := by
  have hP := p.capacity_pos
  rcases h.idle with hzero | hidle
  · obtain rfl : i = 0 := by omega
    omega
  have hfull : p.full < (s₀.termination.toNat + P - 1) / P := by
    have := hidle.resolve_left ht
    omega
  have hmul : (p.full + 1) * P ≤ s₀.termination.toNat + P - 1 :=
    (Nat.le_div_iff_mul_le hP).mp hfull
  have hle : i * P ≤ p.full * P := Nat.mul_le_mul_right P hi
  have := Nat.add_one_mul p.full P
  omega

/-! ### Accepting a slice -/

section Step

variable {Pm : UInt16} {i : ℕ}

theorem counted_card_le (p : Package P) (h : R ⊆ Finset.range (p.full + 1)) :
    (R.filter p.Counted).card ≤ p.need :=
  Finset.card_le_card (Finset.filter_subset_filter _ h)

/-- With the last slice received and another one missing, fewer slices count
than the data needs. -/
theorem counted_card_lt (p : Package P) (h : R ⊆ Finset.range (p.full + 1))
    (hmiss : R ≠ Finset.range (p.full + 1)) (hfull : p.full ∈ R) :
    (R.filter p.Counted).card < p.need := by
  have hlt : frontier R < p.full + 1 := (frontier_lt_iff h).mpr hmiss
  have hne : frontier R ≠ p.full := fun he => frontier_notMem R (he ▸ hfull)
  refine Finset.card_lt_card ((Finset.filter_subset_filter _ h).ssubset_of_ne fun he => ?_)
  have hmem : frontier R ∈ (Finset.range (p.full + 1)).filter p.Counted :=
    Finset.mem_filter.mpr ⟨Finset.mem_range.mpr hlt, p.counted_of_lt (by omega)⟩
  rw [← he] at hmem
  exact frontier_notMem R (Finset.mem_filter.mp hmem).1

/-- The sizes the step compares. -/
theorem size_lt_or_eop (p : Package P) (hPm : Pm.toNat = P) (hi : i ≤ p.full) :
    (decide (UInt16.ofNat (p.size i) < Pm) || decide (i = p.full)) = decide (i = p.full) := by
  have hle := p.size_le i
  have hcap := p.capacity_le
  rcases hi.lt_or_eq with hlt | rfl
  · have hsz := p.size_of_lt hlt
    have hnot : ¬ UInt16.ofNat (p.size i) < Pm := by
      rw [UInt16.lt_iff_toNat_lt, UInt16.toNat_ofNat', hPm]
      omega
    simp [hnot]
  · simp

theorem size_zero_and_eop (p : Package P) (hi : i ≤ p.full) :
    (UInt16.ofNat (p.size i) == 0 && decide (i = p.full)) = !decide (p.Counted i) := by
  have hle := p.size_le i
  have hcap := p.capacity_le
  have hP := p.capacity_pos
  have hz : (UInt16.ofNat (p.size i) == 0) = decide (p.size i = 0) := by
    rw [Bool.eq_iff_iff, beq_iff_eq, decide_eq_true_eq, ← UInt16.toNat_inj, UInt16.toNat_ofNat']
    simp only [UInt16.toNat_zero]
    omega
  rw [hz]
  rcases hi.lt_or_eq with hlt | rfl
  · simp [p.counted_of_lt hlt, hlt.ne]
  · simp only [Counted, lt_irrefl, false_or, decide_true, Bool.and_true, ← decide_not]
    congr 1
    simp

theorem sliceIdxToOffset_slice (p : Package P) (hPm : Pm.toNat = P) (hi : i ≤ p.full) :
    (sliceIdxToOffset (UInt8.ofNat i) Pm).toNat = i * P := by
  have h₁ := p.offset_le_of_le hi
  have h₂ := p.length_le
  rw [sliceIdxToOffset_toNat, p.toNat_ofNat_slice hi, hPm]
  omega

/-- The last slice sets the termination to the length of the data. -/
theorem accept_termination (p : Package P) (hPm : Pm.toNat = P) (hi : i ≤ p.full)
    (s : RxSliceState) :
    (s.accept (UInt8.ofNat i) (UInt16.ofNat (p.size i)) Pm
      (decide (i = p.full))).termination.toNat =
      if i = p.full then p.data.length else s.termination.toNat := by
  have hlen := p.length_le
  have hcap := p.capacity_le
  have hsz := p.size_full
  simp only [RxSliceState.accept, p.size_lt_or_eop hPm hi]
  by_cases hl : i = p.full
  · subst hl
    simp only [decide_true, if_true, rxCalcTermination, UInt16.toNat_add,
      p.sliceIdxToOffset_slice hPm le_rfl, UInt16.toNat_ofNat']
    omega
  · simp [hl]

/-- A counted slice is counted. -/
theorem accept_receivedCount (p : Package P) (hi : i ≤ p.full) (s : RxSliceState) :
    (s.accept (UInt8.ofNat i) (UInt16.ofNat (p.size i)) Pm
        (decide (i = p.full))).receivedCount =
      if p.Counted i then s.receivedCount + 1 else s.receivedCount := by
  simp only [RxSliceState.accept, p.size_zero_and_eop hi]
  by_cases hc : p.Counted i <;> simp [hc]

/-- Accepting slice `i` turns the state of `R` into the state of
`insert i R`, the watermark aside. -/
theorem Holds.accept (h : p.Holds s₀ R s) (hF : p.Fresh s₀) (hPm : Pm.toNat = P)
    (hi : i ≤ p.full) (hiR : i ∉ R) :
    p.Holds s₀ (insert i R)
      (s.accept (UInt8.ofNat i) (UInt16.ofNat (p.size i)) Pm (decide (i = p.full))) where
  subset := Finset.insert_subset (Finset.mem_range.mpr (Nat.lt_succ_iff.mpr hi)) h.subset
  bits := by
    intro j
    -- the new bit is that of slice `i`
    have hij : UInt8.ofNat i = j ↔ j.toNat = i := by
      rw [← UInt8.toNat_inj, p.toNat_ofNat_slice hi]
      exact eq_comm
    simp only [RxSliceState.has_accept, Bool.or_eq_true, decide_eq_true_eq, h.bits, hij,
      Finset.mem_insert, or_assoc]
  count := by
    -- at most 256 slices are counted, so the 16-bit count does not wrap
    have hroom : (R.filter p.Counted).card ≤ 256 := (p.counted_card_le h.subset).trans p.need_le
    have hcount := h.count
    have hle := hF.count_le
    rw [p.accept_receivedCount hi, Finset.filter_insert]
    by_cases hc : p.Counted i
    · have hmem : i ∉ R.filter p.Counted := fun hm => hiR (Finset.mem_filter.mp hm).1
      rw [if_pos hc, if_pos hc, UInt16.toNat_add, UInt16.toNat_one,
        Finset.card_insert_of_notMem hmem]
      omega
    · rw [if_neg hc, if_neg hc, hcount]
  termination := by
    rw [p.accept_termination hPm hi]
    by_cases hl : i = p.full
    · rw [if_pos hl, if_pos (hl ▸ Finset.mem_insert_self i R)]
    · have hmem : p.full ∈ insert i R ↔ p.full ∈ R := by
        rw [Finset.mem_insert, or_iff_right (Ne.symm hl)]
      rw [if_neg hl, h.termination]
      simp only [hmem]

/-! ### Moving the watermark -/

/-- The scan's counter at slice `j`, reached from slice `f`. -/
theorem scan_at (p : Package P) (hPm : Pm.toNat = P) {f j : ℕ}
    (hwm : s.watermark.toNat = f * P) (hfj : f ≤ j) (hj : j ≤ p.full + 1) :
    ((· + Pm)^[j - f] s.watermark).toNat = j * P := by
  have hle : j * P ≤ (p.full + 1) * P := Nat.mul_le_mul_right P hj
  have hoff := p.offset_le
  have hadd : f * P + (j - f) * P = j * P := by rw [← Nat.add_mul, Nat.add_sub_cancel' hfj]
  rw [iterate_add_toNat, hwm, hPm, hadd, Nat.mod_eq_of_lt (by omega)]

/-- The scan passes over a received slice that starts before the termination. -/
theorem Holds.scan_passes (h : p.Holds s₀ R s) (hF : p.Fresh s₀) (hPm : Pm.toNat = P)
    {wm : UInt16} {j : ℕ} (hwm : wm.toNat = j * P) (hj : j ∈ R)
    (hterm : s.termination.toNat = 0 ∨ j * P < s.termination.toNat) :
    watermarkStops s Pm wm = false := by
  have hjfull := h.le_full hj
  have hfull := p.full_le
  rw [watermarkStops_eq_false_iff]
  constructor
  · rw [← UInt16.toNat_inj, hwm]
    exact hterm
  · have hidx : offsetToSliceIdx wm Pm = UInt8.ofNat j := by
      apply UInt8.toNat_inj.mp
      rw [offsetToSliceIdx_toNat, hwm, hPm, Nat.mul_div_cancel _ p.capacity_pos,
        p.toNat_ofNat_slice hjfull]
      omega
    rw [hidx, h.has_iff hF hjfull]
    exact hj

/-- The scan stops at a missing slice. -/
theorem Holds.scan_stops_missing (h : p.Holds s₀ R s) (hF : p.Fresh s₀) (hPm : Pm.toNat = P)
    {wm : UInt16} {j : ℕ} (hwm : wm.toNat = j * P) (hj : j ∉ R) (hjfull : j ≤ p.full) :
    watermarkStops s Pm wm = true := by
  have hfull := p.full_le
  by_contra hnot
  have hstop := watermarkStops_eq_false_iff.mp (Bool.eq_false_iff.mpr hnot)
  have hidx : offsetToSliceIdx wm Pm = UInt8.ofNat j := by
    apply UInt8.toNat_inj.mp
    rw [offsetToSliceIdx_toNat, hwm, hPm, Nat.mul_div_cancel _ p.capacity_pos,
      p.toNat_ofNat_slice hjfull]
    omega
  rw [hidx, h.has_iff hF hjfull] at hstop
  exact hj hstop.2

/-- Received slices below the frontier start before the termination. -/
theorem Holds.lt_termination (h : p.Holds s₀ R s) (hF : p.Fresh s₀) {j : ℕ}
    (hj : j < p.full ∨ j ≤ p.full ∧ 0 < p.size p.full) :
    s.termination.toNat = 0 ∨ j * P < s.termination.toNat := by
  have hsz := p.size_full
  have hP := p.capacity_pos
  have hjle : j ≤ p.full := by omega
  rw [h.termination]
  split
  · right
    rcases hj with hlt | ⟨hle, hpos⟩
    · have := p.slice_end_le hlt
      omega
    · have : j * P ≤ p.full * P := Nat.mul_le_mul_right P hle
      omega
  · rcases Nat.eq_zero_or_pos s₀.termination.toNat with hz | hpos
    · exact Or.inl hz
    · exact Or.inr (hF.offset_lt (by omega) hjle)

theorem ne_zero_of_toNat (p : Package P) (hPm : Pm.toNat = P) : Pm ≠ 0 := by
  rintro rfl
  have := p.capacity_pos
  simp at hPm
  omega

/-- While a slice is missing, the scan ends at the first missing one. -/
theorem Holds.advance_of_missing (h : p.Holds s₀ R s) (hF : p.Fresh s₀) (hPm : Pm.toNat = P)
    (hmiss : R ≠ Finset.range (p.full + 1)) {f : ℕ} (hf : f ≤ frontier R)
    (hwm : s.watermark.toNat = f * P) :
    ∃ wm, rxAdvanceWatermark s Pm = .ok wm ∧ wm.toNat = frontier R * P := by
  have hfr : frontier R ≤ p.full :=
    Nat.lt_succ_iff.mp ((frontier_lt_iff h.subset).mpr hmiss)
  have hle : frontier R * P ≤ p.full * P := Nat.mul_le_mul_right P hfr
  have hfull := p.full_le
  have hlow := p.lower
  have hlen := p.length_le
  have hadd : f * P + (frontier R - f) * P = frontier R * P := by
    rw [← Nat.add_mul, Nat.add_sub_cancel' hf]
  obtain ⟨wm, hadv, hval⟩ := rxAdvanceWatermark_of_first (s := s) (P := Pm)
    (n := frontier R - f) (p.ne_zero_of_toNat hPm) (by omega) (by rw [hwm, hPm]; omega)
    (by
      intro k hk
      have hk' : f + k - f = k := Nat.add_sub_cancel_left f k
      have hat := p.scan_at hPm (j := f + k) hwm (by omega) (by omega)
      rw [hk'] at hat
      exact h.scan_passes hF hPm hat (mem_of_lt_frontier (by omega))
        (h.lt_termination hF (Or.inl (by omega))))
    (h.scan_stops_missing hF hPm (p.scan_at hPm hwm hf (by omega)) (frontier_notMem R) hfr)
  -- the final cut to the termination does not shorten this
  refine ⟨wm, hadv, ?_⟩
  rw [hval, hwm, hPm, hadd]
  split
  · rfl
  · rename_i ht
    rw [← UInt16.toNat_inj, UInt16.toNat_zero] at ht
    apply Nat.min_eq_left
    rw [h.termination] at ht ⊢
    by_cases hm : p.full ∈ R
    · rw [if_pos hm]
      omega
    · rw [if_neg hm] at ht ⊢
      exact (hF.offset_lt ht hfr).le

/-- With every slice received, the scan ends at the length of the data. -/
theorem Holds.advance_of_all (h : p.Holds s₀ R s) (hF : p.Fresh s₀) (hPm : Pm.toNat = P)
    (hall : R = Finset.range (p.full + 1)) {f : ℕ} (hf : f ≤ p.full)
    (hwm : s.watermark.toNat = f * P) :
    ∃ wm, rxAdvanceWatermark s Pm = .ok wm ∧ wm.toNat = p.data.length := by
  have hmem : ∀ j, j ≤ p.full → j ∈ R := fun j hj => by
    rw [hall, Finset.mem_range]; omega
  have hterm : s.termination.toNat = p.data.length := by
    rw [h.termination, if_pos (hmem _ le_rfl)]
  have hfull := p.full_le
  have hoff := p.offset_le
  have hupper := p.upper
  have hsz := p.size_full
  have hnz : s.termination ≠ 0 := by
    rw [ne_eq, ← UInt16.toNat_inj, hterm]
    exact p.nonempty.ne'
  -- the scan ends at the first slice offset that reaches the termination
  obtain ⟨e, hfe, hefull, hpass, hreach⟩ : ∃ e, f ≤ e ∧ e ≤ p.full + 1 ∧
      (∀ j < e, j < p.full ∨ j ≤ p.full ∧ 0 < p.size p.full) ∧ p.data.length ≤ e * P := by
    rcases Nat.eq_zero_or_pos (p.size p.full) with hz | hpos
    · exact ⟨p.full, hf, by omega, fun j hj => Or.inl hj, by omega⟩
    · exact ⟨p.full + 1, by omega, le_rfl, fun j hj => Or.inr ⟨by omega, hpos⟩, hupper⟩
  have hle : e * P ≤ (p.full + 1) * P := Nat.mul_le_mul_right P hefull
  have hadd : f * P + (e - f) * P = e * P := by rw [← Nat.add_mul, Nat.add_sub_cancel' hfe]
  obtain ⟨wm, hadv, hval⟩ := rxAdvanceWatermark_of_first (s := s) (P := Pm) (n := e - f)
    (p.ne_zero_of_toNat hPm) (by omega) (by rw [hwm, hPm]; omega)
    (by
      intro k hk
      have hk' : f + k - f = k := Nat.add_sub_cancel_left f k
      have hat := p.scan_at hPm (j := f + k) hwm (by omega) (by omega)
      rw [hk'] at hat
      have hlt := hpass (f + k) (by omega)
      exact h.scan_passes hF hPm hat (hmem _ (by omega)) (h.lt_termination hF hlt))
    (by
      by_contra hnot
      have hstop := (watermarkStops_eq_false_iff.mp (Bool.eq_false_iff.mpr hnot)).1
      rw [p.scan_at hPm hwm hfe hefull, hterm] at hstop
      rcases hstop with hz | hlt
      · exact hnz hz
      · omega)
  refine ⟨wm, hadv, ?_⟩
  rw [hval, if_neg hnz, hwm, hPm, hadd, hterm]
  exact Nat.min_eq_right hreach

/-! ### The step lemmas -/

/-- A repeat changes nothing. -/
theorem Holds.step_of_mem (h : p.Holds s₀ R s) (hi : i ∈ R) (size : UInt16) (eop : Bool) :
    rxCalcSliceStep s (UInt8.ofNat i) size Pm eop = .ok ⟨.duplicate, s⟩ := by
  refine rxCalcSliceStep_of_has ((h.bits _).mpr (Or.inl ?_)) size Pm eop
  rwa [p.toNat_ofNat_slice (h.le_full hi)]

/-- A new slice is in order exactly when it is the first missing one. -/
theorem Tracks.offset_gt_iff (h : p.Tracks s₀ R s) (hPm : Pm.toNat = P) (hi : i ≤ p.full)
    (hiR : i ∉ R) : sliceIdxToOffset (UInt8.ofNat i) Pm > s.watermark ↔ i ≠ frontier R := by
  have hP := p.capacity_pos
  rw [gt_iff_lt, UInt16.lt_iff_toNat_lt, h.watermark, p.sliceIdxToOffset_slice hPm hi,
    Nat.mul_lt_mul_right hP]
  have := frontier_le_of_notMem hiR
  omega

theorem Tracks.not_has (h : p.Tracks s₀ R s) (hF : p.Fresh s₀) (hi : i ≤ p.full)
    (hiR : i ∉ R) : s.has (UInt8.ofNat i) = false := by
  rw [Bool.eq_false_iff, ne_eq, h.has_iff hF hi]
  exact hiR

/-- An open package is not complete, provided the count speaks of this package
only, or the slices arrive in order. -/
theorem Holds.not_isComplete (h : p.Holds s₀ R s) (hF : p.Fresh s₀) (hPm : Pm.toNat = P)
    (hne : R.Nonempty) (hmiss : R ≠ Finset.range (p.full + 1))
    (hord : s₀.receivedCount.toNat = 0 ∨ p.full ∉ R) : rxIsComplete s Pm = false := by
  have hP := p.capacity_pos
  rw [Bool.eq_false_iff, ne_eq, rxIsComplete_iff (by omega), hPm, not_and, h.termination,
    h.count, not_le]
  intro hterm
  by_cases hm : p.full ∈ R
  -- the eop slice is there: fewer slices than the package needs are counted
  · rw [if_pos hm, ← p.need_eq, hord.resolve_right (not_not.mpr hm)]
    simpa using p.counted_card_lt h.subset hmiss hm
  · rw [if_neg hm] at hterm ⊢
    -- only a leftover termination could be met, and the full slices do not reach it
    have hpos : p.full ≠ 0 := by
      obtain ⟨j, hj⟩ := hne
      have hle := h.le_full hj
      have hnj : j ≠ p.full := fun he => hm (he ▸ hj)
      omega
    have hcard : (R.filter p.Counted).card ≤ p.full := by
      have hsub : R ⊆ Finset.range p.full := fun j hj => by
        have hle := h.le_full hj
        have hnj : j ≠ p.full := fun he => hm (he ▸ hj)
        exact Finset.mem_range.mpr (by omega)
      calc (R.filter p.Counted).card ≤ R.card := Finset.card_filter_le _ _
        _ ≤ (Finset.range p.full).card := Finset.card_le_card hsub
        _ = p.full := Finset.card_range _
    have := (hF.idle.resolve_left hpos).resolve_left hterm
    omega

/-- The event for a slice that leaves the package open. -/
theorem openEvent_ne (R : Finset ℕ) (i : ℕ) :
    (if i = frontier R then RxStreamEvent.newSliceInOrder else .newSliceOutOfOrder) ≠ .duplicate ∧
      (if i = frontier R then RxStreamEvent.newSliceInOrder else .newSliceOutOfOrder) ≠
        .complete := by
  by_cases hi : i = frontier R <;> simp [hi]

/-- **A new slice of an open package.**  The state moves to that of the larger
set; the event is IN_ORDER exactly for the first missing slice. -/
theorem Tracks.step_of_insert_ne (h : p.Tracks s₀ R s) (hF : p.Fresh s₀) (hPm : Pm.toNat = P)
    (hi : i ≤ p.full) (hiR : i ∉ R) (hmiss : insert i R ≠ Finset.range (p.full + 1))
    (hord : s₀.receivedCount.toNat = 0 ∨ ∀ j ∈ R, j < i) :
    ∃ s', rxCalcSliceStep s (UInt8.ofNat i) (UInt16.ofNat (p.size i)) Pm (decide (i = p.full)) =
        .ok ⟨if i = frontier R then .newSliceInOrder else .newSliceOutOfOrder, s'⟩ ∧
      p.Tracks s₀ (insert i R) s' := by
  have hacc := h.accept hF hPm hi hiR
  rw [rxCalcSliceStep_of_not_has (h.not_has hF hi hiR)]
  by_cases hfr : i = frontier R
  · rw [if_neg (by rw [h.offset_gt_iff hPm hi hiR]; exact not_not.mpr hfr)]
    obtain ⟨wm, hadv, hwm⟩ := hacc.advance_of_missing hF hPm hmiss
      (frontier_mono (Finset.subset_insert i R)) h.watermark
    -- in order, the eop slice would have been the last missing one
    have hlast : s₀.receivedCount.toNat = 0 ∨ p.full ∉ insert i R := by
      refine hord.imp_right fun hlt hmem => hmiss ?_
      have hieq : i = p.full := by
        rcases Finset.mem_insert.mp hmem with he | hm
        · exact he.symm
        · have := hlt _ hm; omega
      apply hacc.subset.antisymm
      intro j hj
      rcases (Nat.lt_succ_iff.mp (Finset.mem_range.mp hj)).lt_or_eq with hlt' | rfl
      · exact Finset.mem_insert_of_mem (mem_of_lt_frontier (by omega))
      · exact hmem
    have hholds : p.Holds s₀ (insert i R)
        { s.accept (UInt8.ofNat i) (UInt16.ofNat (p.size i)) Pm (decide (i = p.full)) with
          watermark := wm } := ⟨hacc.subset, hacc.bits, hacc.count, hacc.termination⟩
    rw [hadv, Machine.ok_bind,
      hholds.not_isComplete hF hPm (Finset.insert_nonempty i R) hmiss hlast]
    refine ⟨_, by rw [if_pos hfr]; rfl, hholds, hmiss, hwm⟩
  · rw [if_pos ((h.offset_gt_iff hPm hi hiR).mpr hfr)]
    refine ⟨_, by rw [if_neg hfr], hacc, hmiss, ?_⟩
    rw [frontier_insert_of_ne hfr]
    exact h.watermark

/-- **The slice that closes the package** raises COMPLETE, with termination and
watermark at the length of the data. -/
theorem Tracks.step_of_insert_eq (h : p.Tracks s₀ R s) (hF : p.Fresh s₀) (hPm : Pm.toNat = P)
    (hi : i ≤ p.full) (hiR : i ∉ R) (hall : insert i R = Finset.range (p.full + 1)) :
    ∃ s', rxCalcSliceStep s (UInt8.ofNat i) (UInt16.ofNat (p.size i)) Pm (decide (i = p.full)) =
        .ok ⟨.complete, s'⟩ ∧
      s'.termination.toNat = p.data.length ∧ s'.watermark.toNat = p.data.length := by
  have hP := p.capacity_pos
  have hfr : i = frontier R := eq_frontier_of_insert_eq_range hiR hall
  have hacc := h.accept hF hPm hi hiR
  obtain ⟨wm, hadv, hwm⟩ := hacc.advance_of_all hF hPm hall (h.frontier_le) h.watermark
  have hterm := hacc.termination
  rw [hall, if_pos (Finset.mem_range.mpr (Nat.lt_succ_self _))] at hterm
  have hcount := hacc.count
  rw [hall] at hcount
  -- all counted slices are there, which is what the termination asks for
  have hdone : rxIsComplete
      { s.accept (UInt8.ofNat i) (UInt16.ofNat (p.size i)) Pm (decide (i = p.full)) with
        watermark := wm } Pm = true := by
    rw [rxIsComplete_iff (by omega), hPm]
    refine ⟨by rw [hterm]; exact p.nonempty.ne', ?_⟩
    rw [hterm, hcount, ← p.need_eq]
    exact Nat.le_add_left _ _
  rw [rxCalcSliceStep_of_not_has (h.not_has hF hi hiR),
    if_neg (by rw [h.offset_gt_iff hPm hi hiR]; exact not_not.mpr hfr), hadv, Machine.ok_bind,
    hdone]
  exact ⟨_, rfl, hterm, hwm⟩

end Step

end Package

end CustomData
