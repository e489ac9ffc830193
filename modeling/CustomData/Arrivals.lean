/-
CustomData/Arrivals.lean

The slices of one package in any order, seen by the step alone.

Folding `mp_rx_calc_slice_step` over slices of a package that do not make it
whole gives a state that depends on the set of slices only, and
`sliceFold_confluent` says which one.

The end of a package is marked twice: by the eop bit and by a slice that is
not full.  `eop_cleared_iff` compares the two marks: with the eop bit of the
last slice cleared in transit, the package ends at the same frame with the same
numbers, unless the last slice is empty and the order of arrival ends in a
certain way.  Without its bit an empty slice counts as data, so the count
reaches its goal while a slice is still missing.
-/
import CustomData.Reassembly
import CustomData.Scan

namespace CustomData

open Collect

/-! ### Arrivals of a package -/

/-- Slice `i` as the step sees it. -/
def Package.arrival {P : ℕ} (p : Package P) (i : ℕ) : SliceArrival :=
  ⟨UInt8.ofNat i, UInt16.ofNat (p.size i), decide (i = p.full)⟩

/-- Slice `i` with its eop bit cleared in transit. -/
def Package.cleared {P : ℕ} (p : Package P) (i : ℕ) : SliceArrival :=
  { p.arrival i with eop := false }

/-- The step on one arrival, with `P` bytes in a slice. -/
def arrivalStep (P : ℕ) (s : RxSliceState) (a : SliceArrival) : Except Fault RxSliceInst :=
  rxCalcSliceStep s a.sliceSerial a.payloadSize (maxPayload (Config.ofPayload P)) a.eop

/-- Fold the step over arrivals. -/
def sliceFold (P : ℕ) (s : RxSliceState) (arrivals : List SliceArrival) :
    Except Fault RxSliceState :=
  arrivals.foldlM (fun s a => arrivalStep P s a >>= fun step => .ok step.nextState) s

section Confluence

variable {P : ℕ} {p : Package P} {s s' : RxSliceState} {R : Finset ℕ}

/-- The closed form says everything about the state. -/
theorem Package.Tracks.unique {s₀ : RxSliceState} (h : p.Tracks s₀ R s) (h' : p.Tracks s₀ R s') :
    s = s' := by
  refine RxSliceState.ext_has (fun i => ?_) ?_ ?_ ?_
  · rw [Bool.eq_iff_iff, h.bits, h'.bits]
  · exact UInt16.toNat_inj.mp (h.count.trans h'.count.symm)
  · exact UInt16.toNat_inj.mp (h.termination.trans h'.termination.symm)
  · exact UInt16.toNat_inj.mp (h.watermark.trans h'.watermark.symm)

/-- Slices that leave the package open. -/
theorem Package.Tracks.fold (h : p.Tracks .zero R s) {l : List ℕ} (hl : ∀ i ∈ l, i ≤ p.full)
    (hmiss : R ∪ l.toFinset ≠ Finset.range (p.full + 1)) :
    ∃ s', sliceFold P s (l.map p.arrival) = .ok s' ∧ p.Tracks .zero (R ∪ l.toFinset) s' := by
  induction l generalizing R s with
  | nil => exact ⟨s, rfl, by simpa using h⟩
  | cons i l ih =>
      have hi := hl i (by simp)
      have hrest : ∀ j ∈ l, j ≤ p.full := fun j hj => hl j (List.mem_cons_of_mem i hj)
      have hunion : R ∪ (i :: l).toFinset = insert i R ∪ l.toFinset := by
        rw [List.toFinset_cons, Finset.union_insert, Finset.insert_union]
      rw [hunion] at hmiss ⊢
      have hstep : ∃ e s₁, arrivalStep P s (p.arrival i) = .ok ⟨e, s₁⟩ ∧
          p.Tracks .zero (insert i R) s₁ := by
        by_cases hiR : i ∈ R
        · exact ⟨_, s, h.step_of_mem hiR _ _, by rwa [Finset.insert_eq_self.mpr hiR]⟩
        · have hmiss' : insert i R ≠ Finset.range (p.full + 1) := by
            intro he
            have hsub : l.toFinset ⊆ Finset.range (p.full + 1) := fun j hj =>
              Finset.mem_range.mpr (Nat.lt_succ_iff.mpr (hrest j (List.mem_toFinset.mp hj)))
            exact hmiss (by rw [he, Finset.union_eq_left.mpr hsub])
          obtain ⟨s₁, hok, h₁⟩ := h.step_of_insert_ne p.fresh_zero p.maxPayload_config hi hiR
            hmiss' (Or.inl rfl)
          exact ⟨_, s₁, hok, h₁⟩
      obtain ⟨e, s₁, hok, h₁⟩ := hstep
      obtain ⟨s', hfold, h'⟩ := ih h₁ hrest hmiss
      refine ⟨s', ?_, h'⟩
      rw [sliceFold, List.map_cons, List.foldlM_cons, hok]
      exact hfold

/-- **The state is a function of the slices received.**  Two sequences with the
same slices, some slice of the package missing in both, leave the same state:
the watermark is the end of the longest received prefix, the termination is
known if the eop slice is there, and an empty eop slice does not count. -/
theorem sliceFold_confluent (p : Package P) {l l' : List ℕ} (hl : ∀ i ∈ l, i ≤ p.full)
    (hset : l.toFinset = l'.toFinset) (hopen : l.toFinset ≠ Finset.range (p.full + 1)) :
    ∃ s, sliceFold P .zero (l.map p.arrival) = .ok s ∧
      sliceFold P .zero (l'.map p.arrival) = .ok s ∧
      (∀ i : UInt8, s.has i = true ↔ i.toNat ∈ l) ∧
      s.watermark.toNat = P * frontier l.toFinset ∧
      s.termination.toNat = (if p.full ∈ l then p.data.length else 0) ∧
      s.receivedCount.toNat = (l.toFinset.filter fun i => ¬ (i = p.full ∧ p.size i = 0)).card := by
  have hl' : ∀ i ∈ l', i ≤ p.full := fun i hi =>
    hl i (List.mem_toFinset.mp (hset ▸ List.mem_toFinset.mpr hi))
  obtain ⟨s, hfold, h⟩ := p.fresh_zero.tracks.fold hl (by rwa [Finset.empty_union])
  obtain ⟨s', hfold', h'⟩ := p.fresh_zero.tracks.fold hl' (by rwa [Finset.empty_union, ← hset])
  rw [Finset.empty_union] at h h'
  obtain rfl := h.unique (hset ▸ h')
  refine ⟨s, hfold, hfold', ?_, ?_, ?_, ?_⟩
  · intro i
    rw [h.bits]
    simp
  · rw [h.watermark, Nat.mul_comm]
  · rw [h.termination]
    simp [RxSliceState.zero]
  · rw [h.count]
    simp only [RxSliceState.zero, UInt16.toNat_zero, Nat.zero_add]
    -- among the slices of the package only the last one can be empty
    refine congrArg Finset.card (Finset.filter_congr fun i hi => ?_)
    have hle := hl i (List.mem_toFinset.mp hi)
    unfold Package.Counted
    omega

end Confluence

/-- Two slices of three, once in order and once in reverse with a repeat. -/
theorem sliceFold_confluent_short :
    let m : Message 2 := ⟨[1, 2, 3, 4], by decide, by decide, by decide, by decide, by decide⟩
    ∃ s, sliceFold 2 .zero ([0, 2].map m.stream.arrival) = .ok s ∧
      sliceFold 2 .zero ([2, 0, 2].map m.stream.arrival) = .ok s ∧
      (∀ i : UInt8, s.has i = true ↔ i.toNat ∈ [0, 2]) ∧
      s.watermark.toNat = 2 * frontier [0, 2].toFinset ∧
      s.termination.toNat = (if m.stream.full ∈ [0, 2] then m.stream.data.length else 0) ∧
      s.receivedCount.toNat =
        ([0, 2].toFinset.filter fun i => ¬ (i = m.stream.full ∧ m.stream.size i = 0)).card :=
  sliceFold_confluent (P := 2) _ (by decide) (by decide) (by decide)

/-! ### The two marks of the end -/

theorem uint16_eq_ofNat {a : UInt16} {n : ℕ} (h : a.toNat = n) : a = UInt16.ofNat n := by
  rw [← h, UInt16.ofNat_toNat]

/-- One arrival; COMPLETE resets the state and reports termination and
watermark. -/
def completeStep (P : ℕ) (s : RxSliceState) (a : SliceArrival) :
    Except Fault (RxSliceState × Option (UInt16 × UInt16)) :=
  arrivalStep P s a >>= fun step =>
    if step.e = .complete then
      .ok (.zero, some (step.nextState.termination, step.nextState.watermark))
    else .ok (step.nextState, none)

/-- The same state with another count. -/
def RxSliceState.recounted (s : RxSliceState) (n : ℕ) : RxSliceState :=
  { s with receivedCount := UInt16.ofNat n }

section Cleared

variable {P : ℕ} {p : Package P} {s : RxSliceState} {R : Finset ℕ} {i : ℕ}

/-- The scan does not look at the count. -/
theorem rxAdvanceWatermark_recounted (s : RxSliceState) (n : ℕ) (Pm : UInt16) :
    rxAdvanceWatermark (s.recounted n) Pm = rxAdvanceWatermark s Pm := rfl

/-- With its eop bit cleared, an empty last slice is accepted as data. -/
theorem Package.accept_cleared (hempty : p.size p.full = 0) (hi : i ≤ p.full) (n : ℕ) :
    (s.recounted n).accept (UInt8.ofNat i) (UInt16.ofNat (p.size i))
        (maxPayload (Config.ofPayload P)) false =
      (s.accept (UInt8.ofNat i) (UInt16.ofNat (p.size i)) (maxPayload (Config.ofPayload P))
        (decide (i = p.full))).recounted (n + 1) := by
  have hPm := p.maxPayload_config
  have hends : decide (UInt16.ofNat (p.size i) < maxPayload (Config.ofPayload P)) =
      decide (i = p.full) := by
    have hor := p.size_lt_or_eop hPm hi
    rcases hi.lt_or_eq with hlt | rfl
    · simpa [hlt.ne] using hor
    · have hP := p.capacity_pos
      simp only [hempty, decide_true, decide_eq_true_eq, UInt16.lt_iff_toNat_lt, hPm]
      exact hP
  have hcount : UInt16.ofNat n + 1 = UInt16.ofNat (n + 1) := (UInt16.ofNat_add n 1).symm
  simp only [RxSliceState.accept, RxSliceState.recounted, hends, Bool.or_false, Bool.and_false,
    Bool.or_self, hcount]
  rfl

/-- The step on a new slice whose eop bit is cleared: only the count, and with
it the test for completeness, differ. -/
theorem Package.arrivalStep_cleared (hempty : p.size p.full = 0) (hi : i ≤ p.full)
    (hnew : s.has (UInt8.ofNat i) = false) (n : ℕ) :
    arrivalStep P (s.recounted n) (p.cleared i) =
      if sliceIdxToOffset (UInt8.ofNat i) (maxPayload (Config.ofPayload P)) > s.watermark then
        .ok ⟨.newSliceOutOfOrder, (s.accept (UInt8.ofNat i) (UInt16.ofNat (p.size i))
          (maxPayload (Config.ofPayload P)) (decide (i = p.full))).recounted (n + 1)⟩
      else
        rxAdvanceWatermark (s.accept (UInt8.ofNat i) (UInt16.ofNat (p.size i))
            (maxPayload (Config.ofPayload P)) (decide (i = p.full)))
            (maxPayload (Config.ofPayload P)) >>= fun wm =>
          .ok ⟨if rxIsComplete (RxSliceState.recounted { s.accept (UInt8.ofNat i)
                (UInt16.ofNat (p.size i)) (maxPayload (Config.ofPayload P))
                (decide (i = p.full)) with watermark := wm } (n + 1))
                (maxPayload (Config.ofPayload P)) then .complete else .newSliceInOrder,
            RxSliceState.recounted { s.accept (UInt8.ofNat i) (UInt16.ofNat (p.size i))
              (maxPayload (Config.ofPayload P)) (decide (i = p.full)) with watermark := wm }
              (n + 1)⟩ := by
  have hnew' : (s.recounted n).has (UInt8.ofNat i) = false := hnew
  show rxCalcSliceStep _ (UInt8.ofNat i) (UInt16.ofNat (p.size i)) _ false = _
  rw [rxCalcSliceStep_of_not_has hnew', Package.accept_cleared hempty hi,
    rxAdvanceWatermark_recounted]
  rfl

/-- Counting an empty last slice, the count reaches its goal with one slice still
missing. -/
theorem Package.isComplete_cleared (hempty : p.size p.full = 0) (h : p.Holds .zero R s)
    (hne : R.card ≤ 256) :
    rxIsComplete (s.recounted R.card) (maxPayload (Config.ofPayload P)) = true ↔
      p.full ∈ R ∧ p.full ≤ R.card := by
  have hneed : (p.data.length + P - 1) / P = p.full := by
    rw [← p.need_eq, p.need_of_not_counted]
    unfold Package.Counted
    omega
  have hcount : (s.recounted R.card).receivedCount.toNat = R.card := by
    simp only [RxSliceState.recounted, UInt16.toNat_ofNat']
    omega
  have hterm : (s.recounted R.card).termination.toNat = if p.full ∈ R then p.data.length else 0 :=
    h.termination
  rw [rxIsComplete_iff (by rw [p.maxPayload_config]; exact p.capacity_pos), p.maxPayload_config,
    hcount, hterm]
  by_cases hm : p.full ∈ R
  · simp only [hm, if_true, hneed, true_and, and_iff_right p.nonempty.ne']
  · simp [hm]

/-- **Without the eop bit, a slice of an open package**: the state is that of
the package with the bit, except that an empty last slice counts; and a slice
in order completes the package as soon as all but one are there, the last one
among them. -/
theorem Package.Tracks.cleared_open (hempty : p.size p.full = 0) (h : p.Tracks .zero R s)
    (hi : i ≤ p.full) (hiR : i ∉ R) (hmiss : insert i R ≠ Finset.range (p.full + 1)) :
    ∃ e s', arrivalStep P (s.recounted R.card) (p.cleared i) =
        .ok ⟨e, s'.recounted (insert i R).card⟩ ∧ p.Tracks .zero (insert i R) s' ∧
      (e = .complete ↔ i = frontier R ∧ p.full ∈ insert i R ∧ (insert i R).card = p.full) := by
  have hPm := p.maxPayload_config
  have hF := p.fresh_zero
  have hacc := h.accept hF hPm hi hiR
  have hcard : (insert i R).card = R.card + 1 := Finset.card_insert_of_notMem hiR
  rw [Package.arrivalStep_cleared hempty hi (h.not_has hF hi hiR), ← hcard]
  by_cases hfr : i = frontier R
  · obtain ⟨wm, hadv, hwm⟩ := hacc.advance_of_missing hF hPm hmiss
      (frontier_mono (Finset.subset_insert i R)) h.watermark
    have hholds : p.Holds .zero (insert i R) { s.accept (UInt8.ofNat i) (UInt16.ofNat (p.size i))
        (maxPayload (Config.ofPayload P)) (decide (i = p.full)) with watermark := wm } :=
      ⟨hacc.subset, hacc.bits, hacc.count, hacc.termination⟩
    -- a slice is still missing
    have hlt := Finset.card_lt_card (hacc.subset.ssubset_of_ne hmiss)
    rw [Finset.card_range] at hlt
    have hcomplete := Package.isComplete_cleared hempty hholds (by have := p.full_le; omega)
    rw [if_neg (mt (h.offset_gt_iff hPm hi hiR).mp (not_not.mpr hfr)), hadv, Machine.ok_bind]
    refine ⟨_, _, rfl, ⟨hholds, hmiss, hwm⟩, ?_⟩
    rw [and_iff_right hfr, show (insert i R).card = p.full ↔ p.full ≤ (insert i R).card by omega,
      ← hcomplete]
    split <;> simp_all
  · rw [if_pos ((h.offset_gt_iff hPm hi hiR).mpr hfr)]
    exact ⟨_, _, rfl, ⟨hacc, hmiss, by rw [frontier_insert_of_ne hfr]; exact h.watermark⟩,
      by simp [hfr]⟩

/-- Without the eop bit, the slice that closes the package. -/
theorem Package.Tracks.cleared_last (hempty : p.size p.full = 0) (h : p.Tracks .zero R s)
    (hi : i ≤ p.full) (hiR : i ∉ R) (hall : insert i R = Finset.range (p.full + 1)) :
    ∃ s', arrivalStep P (s.recounted R.card) (p.cleared i) = .ok ⟨.complete, s'⟩ ∧
      s'.termination.toNat = p.data.length ∧ s'.watermark.toNat = p.data.length := by
  have hPm := p.maxPayload_config
  have hF := p.fresh_zero
  have hacc := h.accept hF hPm hi hiR
  have hfr : i = frontier R := eq_frontier_of_insert_eq_range hiR hall
  have hcard : (insert i R).card = R.card + 1 := Finset.card_insert_of_notMem hiR
  have hrange : (insert i R).card = p.full + 1 := by rw [hall, Finset.card_range]
  have hmem : p.full ∈ insert i R := by simp [hall]
  obtain ⟨wm, hadv, hwm⟩ := hacc.advance_of_all hF hPm hall h.frontier_le h.watermark
  have hholds : p.Holds .zero (insert i R) { s.accept (UInt8.ofNat i) (UInt16.ofNat (p.size i))
      (maxPayload (Config.ofPayload P)) (decide (i = p.full)) with watermark := wm } :=
    ⟨hacc.subset, hacc.bits, hacc.count, hacc.termination⟩
  have hcomplete := (Package.isComplete_cleared hempty hholds
    (by have := p.full_le; omega)).mpr ⟨hmem, by omega⟩
  rw [Package.arrivalStep_cleared hempty hi (h.not_has hF hi hiR), ← hcard,
    if_neg (mt (h.offset_gt_iff hPm hi hiR).mp (not_not.mpr hfr)), hadv, Machine.ok_bind, hcomplete]
  refine ⟨_, rfl, ?_, hwm⟩
  have hterm := hholds.termination
  rwa [if_pos hmem] at hterm

/-! ### Runs -/

/-- New slices, each of which reports nothing and keeps `I`, the slices received
among its arguments. -/
theorem run_silent {full n : ℕ} {I : Finset ℕ → RxSliceState → Prop} {input : ℕ → SliceArrival}
    (hstep : ∀ R s i, I R s → i ≤ full → i ∉ R → R.card < n →
      ∃ s', completeStep P s (input i) = .ok (s', none) ∧ I (insert i R) s')
    (h : I R s) {l : List ℕ} (hl : ∀ i ∈ l, i ≤ full) (hnodup : l.Nodup) (hnew : ∀ i ∈ l, i ∉ R)
    (hcard : R.card + l.length ≤ n) :
    ∃ s', Machine.run (completeStep P) s (l.map input) = .ok (s', List.replicate l.length none) ∧
      I (R ∪ l.toFinset) s' := by
  induction l generalizing R s with
  | nil => exact ⟨s, rfl, by simpa using h⟩
  | cons i l ih =>
      obtain ⟨hi, hrest⟩ := List.forall_mem_cons.mp hl
      obtain ⟨hil, hnodup'⟩ := List.nodup_cons.mp hnodup
      obtain ⟨hiR, hnew'⟩ := List.forall_mem_cons.mp hnew
      rw [List.length_cons] at hcard
      obtain ⟨s₁, hok, h₁⟩ := hstep R s i h hi hiR (by omega)
      have hdisj : ∀ j ∈ l, j ∉ insert i R := by
        intro j hj hmem
        rcases Finset.mem_insert.mp hmem with rfl | hjR
        · exact hil hj
        · exact hnew' j hj hjR
      obtain ⟨s', hrun, h'⟩ := ih h₁ hrest hnodup' hdisj
        (by rw [Finset.card_insert_of_notMem hiR]; omega)
      refine ⟨s', Machine.run_cons_of_ok hok hrun, ?_⟩
      rwa [List.toFinset_cons, Finset.union_insert, ← Finset.insert_union]

/-- A set of slices that is not larger than `full` misses one. -/
theorem ne_range_of_card_le {full : ℕ} (h : R.card ≤ full) : R ≠ Finset.range (full + 1) := by
  rintro rfl
  rw [Finset.card_range] at h
  omega

theorem Package.Tracks.completeStep_open (h : p.Tracks .zero R s) (hi : i ≤ p.full) (hiR : i ∉ R)
    (hcard : R.card < p.full) :
    ∃ s', completeStep P s (p.arrival i) = .ok (s', none) ∧ p.Tracks .zero (insert i R) s' := by
  have hmiss : insert i R ≠ Finset.range (p.full + 1) :=
    ne_range_of_card_le (by rw [Finset.card_insert_of_notMem hiR]; exact hcard)
  obtain ⟨s', hstep, h'⟩ := h.step_of_insert_ne p.fresh_zero p.maxPayload_config hi hiR hmiss
    (Or.inl rfl)
  have hstep' : arrivalStep P s (p.arrival i) = _ := hstep
  exact ⟨s', by rw [completeStep, hstep', Machine.ok_bind, if_neg (Package.openEvent_ne R i).2], h'⟩

/-- The frame that closes the package reports its length twice. -/
theorem Package.Tracks.completeStep_last (h : p.Tracks .zero R s) (hi : i ≤ p.full) (hiR : i ∉ R)
    (hall : insert i R = Finset.range (p.full + 1)) :
    completeStep P s (p.arrival i) =
      .ok (.zero, some (UInt16.ofNat p.data.length, UInt16.ofNat p.data.length)) := by
  obtain ⟨s', hstep, hterm, hwm⟩ :=
    h.step_of_insert_eq p.fresh_zero p.maxPayload_config hi hiR hall
  have hstep' : arrivalStep P s (p.arrival i) = _ := hstep
  rw [completeStep, hstep', Machine.ok_bind, if_pos rfl, uint16_eq_ofNat hterm, uint16_eq_ofNat hwm]

/-- The state of a package whose empty last slice lost its eop bit. -/
def Package.TracksCleared (p : Package P) (R : Finset ℕ) (t : RxSliceState) : Prop :=
  ∃ s, t = s.recounted R.card ∧ p.Tracks .zero R s

theorem Package.tracksCleared_zero (p : Package P) : p.TracksCleared ∅ .zero :=
  ⟨.zero, rfl, p.fresh_zero.tracks⟩

theorem Package.TracksCleared.completeStep_open (hempty : p.size p.full = 0) {t : RxSliceState}
    (h : p.TracksCleared R t) (hi : i ≤ p.full) (hiR : i ∉ R)
    (hmiss : insert i R ≠ Finset.range (p.full + 1))
    (hgo : ¬ (i = frontier R ∧ p.full ∈ insert i R ∧ (insert i R).card = p.full)) :
    ∃ t', completeStep P t (p.cleared i) = .ok (t', none) ∧ p.TracksCleared (insert i R) t' := by
  obtain ⟨s, rfl, h⟩ := h
  obtain ⟨e, s', hstep, h', he⟩ := h.cleared_open hempty hi hiR hmiss
  exact ⟨_, by rw [completeStep, hstep, Machine.ok_bind, if_neg (mt he.mp hgo)], s', rfl, h'⟩

theorem Package.TracksCleared.completeStep_early (hempty : p.size p.full = 0) {t : RxSliceState}
    (h : p.TracksCleared R t) (hi : i ≤ p.full) (hiR : i ∉ R)
    (hmiss : insert i R ≠ Finset.range (p.full + 1))
    (hdone : i = frontier R ∧ p.full ∈ insert i R ∧ (insert i R).card = p.full) :
    ∃ v, completeStep P t (p.cleared i) = .ok (.zero, some v) := by
  obtain ⟨s, rfl, h⟩ := h
  obtain ⟨e, s', hstep, -, he⟩ := h.cleared_open hempty hi hiR hmiss
  exact ⟨_, by rw [completeStep, hstep, Machine.ok_bind, if_pos (he.mpr hdone)]⟩

theorem Package.TracksCleared.completeStep_last (hempty : p.size p.full = 0) {t : RxSliceState}
    (h : p.TracksCleared R t) (hi : i ≤ p.full) (hiR : i ∉ R)
    (hall : insert i R = Finset.range (p.full + 1)) :
    completeStep P t (p.cleared i) =
      .ok (.zero, some (UInt16.ofNat p.data.length, UInt16.ofNat p.data.length)) := by
  obtain ⟨s, rfl, h⟩ := h
  obtain ⟨s', hstep, hterm, hwm⟩ := h.cleared_last hempty hi hiR hall
  rw [completeStep, hstep, Machine.ok_bind, if_pos rfl, uint16_eq_ofNat hterm, uint16_eq_ofNat hwm]

/-- Two different slices are missing: the frontier is the smaller one. -/
theorem eq_frontier_iff {full x last : ℕ} (hx : x ∉ R) (hlast : last ∉ R) (hne : x ≠ last)
    (hall : insert last (insert x R) = Finset.range (full + 1)) : x = frontier R ↔ x < last := by
  constructor
  · intro he
    have := frontier_le_of_notMem hlast
    omega
  · intro hlt
    refine (frontier_eq_of (fun j hj => ?_) hx).symm
    have hmem : x ∈ Finset.range (full + 1) := by simp [← hall]
    have hj' : j ∈ insert last (insert x R) := by
      rw [hall, Finset.mem_range]
      have := Finset.mem_range.mp hmem
      omega
    simp only [Finset.mem_insert] at hj'
    exact (hj'.resolve_left (by omega)).resolve_left (by omega)

/-- Two different slices are missing: the last of all is here exactly if the
other one is not the last of all. -/
theorem full_mem_insert_iff {full x last : ℕ} (hlast : last ∉ insert x R)
    (hall : insert last (insert x R) = Finset.range (full + 1)) :
    full ∈ insert x R ↔ last < full := by
  have hfull : full ∈ insert last (insert x R) := by simp [hall]
  have hle : last ∈ Finset.range (full + 1) := hall ▸ Finset.mem_insert_self last _
  rw [Finset.mem_insert] at hfull
  rw [Finset.mem_range] at hle
  constructor
  · intro h
    have : last ≠ full := fun he => hlast (he ▸ h)
    omega
  · intro h
    exact hfull.resolve_left (by omega)

/-- A slice that leaves another one missing is taken, early end or not. -/
theorem Package.TracksCleared.completeStep_returns (hempty : p.size p.full = 0)
    {t : RxSliceState} (h : p.TracksCleared R t) (hi : i ≤ p.full) (hiR : i ∉ R)
    (hmiss : insert i R ≠ Finset.range (p.full + 1)) :
    ∃ t' o, completeStep P t (p.cleared i) = .ok (t', o) := by
  by_cases hdone : i = frontier R ∧ p.full ∈ insert i R ∧ (insert i R).card = p.full
  · obtain ⟨v, hv⟩ := h.completeStep_early hempty hi hiR hmiss hdone
    exact ⟨_, _, hv⟩
  · obtain ⟨t', ht', -⟩ := h.completeStep_open hempty hi hiR hmiss hdone
    exact ⟨_, _, ht'⟩

/-- A slice with data in it ends the package with or without the eop bit. -/
theorem Package.completeStep_cleared_of_short (p : Package P) (hpos : p.size p.full ≠ 0)
    (hlt : p.size p.full < P) (hi : i ≤ p.full) (s : RxSliceState) :
    completeStep P s (p.cleared i) = completeStep P s (p.arrival i) := by
  rcases hi.lt_or_eq with hlt' | rfl
  · have hsame : p.cleared i = p.arrival i := by
      simp [Package.cleared, Package.arrival, hlt'.ne]
    rw [hsame]
  · have hcap := p.capacity_le
    have hsz : (UInt16.ofNat (p.size p.full)).toNat = p.size p.full := by
      rw [UInt16.toNat_ofNat']
      omega
    have hne : UInt16.ofNat (p.size p.full) ≠ 0 := by
      rw [ne_eq, ← UInt16.toNat_inj, hsz]
      exact hpos
    have hshort : UInt16.ofNat (p.size p.full) < maxPayload (Config.ofPayload P) := by
      rw [UInt16.lt_iff_toNat_lt, hsz, p.maxPayload_config]
      exact hlt
    have hstep : arrivalStep P s (p.cleared p.full) = arrivalStep P s (p.arrival p.full) :=
      rxCalcSliceStep_of_short s (UInt8.ofNat p.full) hne hshort _ _
    rw [completeStep, hstep, ← completeStep]

/-- All slices in some order: only the last one reports. -/
theorem Package.run_order (p : Package P) {init : List ℕ} {last : ℕ}
    (hperm : (init ++ [last]).Perm (List.range (p.full + 1))) :
    Machine.run (completeStep P) .zero ((init ++ [last]).map p.arrival) =
      .ok (.zero, List.replicate p.full none ++
        [some (UInt16.ofNat p.data.length, UInt16.ofNat p.data.length)]) := by
  have hnodup := hperm.nodup_iff.mpr List.nodup_range
  have hlength : init.length = p.full := by
    have := hperm.length_eq
    simpa using this
  have hle : ∀ i ∈ init ++ [last], i ≤ p.full := fun i hi =>
    Nat.lt_succ_iff.mp (List.mem_range.mp (hperm.mem_iff.mp hi))
  obtain ⟨hinit, -, hdisj⟩ := List.nodup_append.mp hnodup
  have hnew : last ∉ init.toFinset := fun hmem =>
    hdisj _ (List.mem_toFinset.mp hmem) _ (List.mem_singleton_self last) rfl
  have hall : insert last init.toFinset = Finset.range (p.full + 1) := by
    ext j
    rw [Finset.mem_insert, List.mem_toFinset, Finset.mem_range, ← List.mem_range,
      ← hperm.mem_iff]
    simp [or_comm]
  obtain ⟨s', hrun, h'⟩ := run_silent (I := p.Tracks .zero) (n := p.full)
    (fun R s i h hi hiR hcard => h.completeStep_open hi hiR hcard) p.fresh_zero.tracks
    (fun i hi => hle i (List.mem_append_left _ hi)) hinit (by simp) (by simp [hlength])
  rw [Finset.empty_union] at h'
  rw [List.map_append, ← hlength]
  exact Machine.run_concat_of_ok hrun (h'.completeStep_last (hle last (by simp)) hnew hall)

/-- All slices in some order, the empty last one without its eop bit: the
package ends too early exactly if the last slice but one is the smaller of two
missing ones and the last one is not the end. -/
theorem Package.run_order_cleared (p : Package P) (hempty : p.size p.full = 0)
    {before : List ℕ} {x last : ℕ}
    (hperm : (before ++ [x] ++ [last]).Perm (List.range (p.full + 1))) :
    ∃ s os, Machine.run (completeStep P) .zero ((before ++ [x] ++ [last]).map p.cleared) =
        .ok (s, os) ∧
      (os = List.replicate p.full none ++
        [some (UInt16.ofNat p.data.length, UInt16.ofNat p.data.length)] ↔
          ¬ (x < last ∧ last < p.full)) := by
  have hnodup := hperm.nodup_iff.mpr List.nodup_range
  have hlength : before.length + 1 = p.full := by
    have := hperm.length_eq
    simpa using this
  have hle : ∀ i ∈ before ++ [x] ++ [last], i ≤ p.full := fun i hi =>
    Nat.lt_succ_iff.mp (List.mem_range.mp (hperm.mem_iff.mp hi))
  obtain ⟨hbefore, hxlast, hdisj⟩ := List.nodup_append.mp (List.append_assoc .. ▸ hnodup)
  have hne : x ≠ last := by simpa using hxlast
  have hx : x ∉ before.toFinset := fun hmem =>
    hdisj _ (List.mem_toFinset.mp hmem) x (by simp) rfl
  have hlast : last ∉ before.toFinset := fun hmem =>
    hdisj _ (List.mem_toFinset.mp hmem) last (by simp) rfl
  have hlast' : last ∉ insert x before.toFinset := by
    rw [Finset.mem_insert, not_or]
    exact ⟨hne.symm, hlast⟩
  have hall : insert last (insert x before.toFinset) = Finset.range (p.full + 1) := by
    ext j
    rw [Finset.mem_insert, Finset.mem_insert, List.mem_toFinset, Finset.mem_range,
      ← List.mem_range, ← hperm.mem_iff]
    simp only [List.mem_append, List.mem_singleton]
    tauto
  have hcard : (insert x before.toFinset).card = p.full := by
    rw [Finset.card_insert_of_notMem hx, List.toFinset_card_of_nodup hbefore, hlength]
  have hmiss : insert x before.toFinset ≠ Finset.range (p.full + 1) :=
    ne_range_of_card_le hcard.le
  -- up to the last two slices nothing is reported
  obtain ⟨t, hrun, ht⟩ := run_silent (I := p.TracksCleared) (n := p.full - 1)
    (fun R s i h hi hiR hlt => by
      have hins : (insert i R).card = R.card + 1 := Finset.card_insert_of_notMem hiR
      exact h.completeStep_open hempty hi hiR (ne_range_of_card_le (by omega)) (by omega))
    p.tracksCleared_zero (fun i hi => hle i (by simp [hi])) hbefore (by simp) (by simp; omega)
  rw [Finset.empty_union] at ht
  have hearly : x = frontier before.toFinset ∧ p.full ∈ insert x before.toFinset ∧
      (insert x before.toFinset).card = p.full ↔ x < last ∧ last < p.full := by
    rw [eq_frontier_iff hx hlast hne hall, full_mem_insert_iff hlast' hall, and_iff_left hcard]
  simp only [List.map_append, List.map_cons, List.map_nil]
  have hreplicate : List.replicate p.full (none : Option (UInt16 × UInt16)) =
      List.replicate before.length none ++ [none] := by
    rw [← hlength, List.replicate_succ']
  by_cases hcut : x < last ∧ last < p.full
  · obtain ⟨v, hstep⟩ := ht.completeStep_early hempty (hle x (by simp)) hx hmiss (hearly.mpr hcut)
    -- the last slice then starts the package anew
    have hone : insert last ∅ ≠ Finset.range (p.full + 1) :=
      ne_range_of_card_le (by rw [Finset.card_insert_of_notMem (by simp), Finset.card_empty]; omega)
    obtain ⟨t', o, hstep'⟩ := p.tracksCleared_zero.completeStep_returns hempty (hle last (by simp))
      (Finset.notMem_empty last) hone
    refine ⟨t', _, Machine.run_concat_of_ok (Machine.run_concat_of_ok hrun hstep) hstep', ?_⟩
    simp [hcut, hreplicate]
  · obtain ⟨t', hstep, ht'⟩ :=
      ht.completeStep_open hempty (hle x (by simp)) hx hmiss (mt hearly.mp hcut)
    refine ⟨_, _, Machine.run_concat_of_ok (Machine.run_concat_of_ok hrun hstep)
      (ht'.completeStep_last hempty (hle last (by simp)) hlast' hall), ?_⟩
    rw [hreplicate]
    exact iff_of_true rfl hcut

/-- **The eop bit against a slice that is not full.**  Clearing the eop bit of
the last slice leaves COMPLETE, termination and watermark at every frame as
they are, except when that slice is empty and the last two arrivals are both
data, the smaller one first. -/
theorem eop_cleared_iff (m : Message P) {order : List ℕ}
    (hperm : order.Perm (List.range (m.stream.full + 1))) :
    ∃ s os s' os', Machine.run (completeStep P) .zero (order.map m.stream.arrival) = .ok (s, os) ∧
      Machine.run (completeStep P) .zero (order.map m.stream.cleared) = .ok (s', os') ∧
      (os' = os ↔ ¬ (P ∣ m.data.length ∧ ∃ before x last, order = before ++ [x, last] ∧ x < last ∧
        last < m.stream.full)) := by
  have hP := m.capacity_pos
  have hrest := m.stream_size_full
  have hle : ∀ i ∈ order, i ≤ m.stream.full := fun i hi =>
    Nat.lt_succ_iff.mp (List.mem_range.mp (hperm.mem_iff.mp hi))
  obtain rfl | ⟨init, last, rfl⟩ := List.eq_nil_or_concat' order
  · simp at hperm
  have hrun := m.stream.run_order hperm
  by_cases hdvd : P ∣ m.data.length
  · have hempty : m.stream.size m.stream.full = 0 := by
      rw [hrest]
      exact Nat.mod_eq_zero_of_dvd hdvd
    obtain rfl | ⟨before, x, rfl⟩ := List.eq_nil_or_concat' init
    · -- a message has at least one full slice
      have hlen : m.stream.full = 0 := by simpa using hperm.length_eq.symm
      have hsz := m.stream.size_full
      have := m.stream.nonempty
      rw [hempty, hlen] at hsz
      omega
    · obtain ⟨s', os', hrun', hiff⟩ := m.stream.run_order_cleared hempty hperm
      refine ⟨_, _, s', os', hrun, hrun', hiff.trans (not_congr ?_)⟩
      rw [and_iff_right hdvd]
      constructor
      · intro h
        exact ⟨before, x, last, by simp, h⟩
      · rintro ⟨before', x', last', heq, h⟩
        have heq' : before ++ [x, last] = before' ++ [x', last'] := by simpa using heq
        obtain ⟨-, htail⟩ := List.append_inj' heq' rfl
        simp only [List.cons.injEq, and_true] at htail
        rwa [htail.1, htail.2]
  · have hsame : Machine.run (completeStep P) .zero ((init ++ [last]).map m.stream.cleared) =
        Machine.run (completeStep P) .zero ((init ++ [last]).map m.stream.arrival) := by
      apply Machine.run_map_congr
      intro i hi s
      exact m.stream.completeStep_cleared_of_short
        (by rw [hrest]; exact fun h => hdvd (Nat.dvd_of_mod_eq_zero h))
        (by rw [hrest]; exact Nat.mod_lt _ hP) (hle i hi) s
    exact ⟨_, _, _, _, hrun, hsame.trans hrun, iff_of_true rfl fun h => hdvd h.1⟩

end Cleared

/-- Three bytes in slices of two, the eop slice first. -/
theorem eop_cleared_short :
    let m : Message 2 := ⟨[1, 2, 3], by decide, by decide, by decide, by decide, by decide⟩
    ∃ s os s' os', Machine.run (completeStep 2) .zero ([1, 0].map m.stream.arrival) = .ok (s, os) ∧
      Machine.run (completeStep 2) .zero ([1, 0].map m.stream.cleared) = .ok (s', os') ∧
      (os' = os ↔ ¬ (2 ∣ m.data.length ∧ ∃ before x last, [1, 0] = before ++ [x, last] ∧ x < last ∧
        last < m.stream.full)) :=
  eop_cleared_iff ⟨[1, 2, 3], by decide, by decide, by decide, by decide, by decide⟩ (by decide)

/-- Two bytes in slices of one. -/
def twoBytes : Message 1 := ⟨[1, 2], by decide, by decide, by decide, by decide, by decide⟩

/-- The empty eop slice first and the other slices in order: without the eop
bit slice 0 already completes the package. -/
theorem eop_cleared_early :
    ¬ ∀ (P : ℕ) (m : Message P) (order : List ℕ), order.Perm (List.range (m.stream.full + 1)) →
      ∃ s os s', Machine.run (completeStep P) .zero (order.map m.stream.arrival) = .ok (s, os) ∧
        Machine.run (completeStep P) .zero (order.map m.stream.cleared) = .ok (s', os) := by
  intro h
  have hdiffer : (Machine.run (completeStep 1) .zero
        ([2, 0, 1].map twoBytes.stream.arrival)).map Prod.snd ≠
      (Machine.run (completeStep 1) .zero
        ([2, 0, 1].map twoBytes.stream.cleared)).map Prod.snd := by
    decide +kernel
  obtain ⟨s, os, s', hrun, hrun'⟩ := h 1 twoBytes [2, 0, 1] (by decide)
  rw [hrun, hrun'] at hdiffer
  exact hdiffer rfl

end CustomData
