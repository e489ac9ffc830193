/-
CustomData/Stall.lean

Receivers that get no further.

A slice moves the watermark only if it lies at or below the watermark and is
not marked yet.  Where no such slice is left (`Stalled`) the receiver is cut
off: every slice that comes is dropped or put aside (`stalled_iff`).

An empty package leads there.  The frame of `cmd_tx` for an empty input marks
slice 0 and moves the watermark past it without counting a slice (`Behind`).
The slices of the packages after it fill up behind it, and the last slice of
one finds one slice less counted than the package needs: it ends in order
instead of complete, and a receiver that keeps one slice state is stalled
(`Lagging.step`).
-/
import CustomData.Consumer
import CustomData.Arrivals

namespace CustomData

open Collect

variable {P : ℕ} {s : RxSliceState}

/-! ### The stalled state -/

/-- No slice at or below the watermark is missing. -/
def Stalled (P : ℕ) (s : RxSliceState) : Prop :=
  ∀ i : UInt8, i.toNat * P ≤ s.watermark.toNat → s.has i = true

/-- The offset of the slice fits into 16 bits. -/
def SliceArrival.InRange (P : ℕ) (a : SliceArrival) : Prop := a.sliceSerial.toNat * P ≤ 65535

/-- The event says that the slice did not move the watermark. -/
def RxStreamEvent.Idle (e : RxStreamEvent) : Prop := e = .duplicate ∨ e = .newSliceOutOfOrder

theorem RxStreamEvent.Idle.ne_complete {e : RxStreamEvent} (h : e.Idle) : e ≠ .complete := by
  rintro rfl
  rcases h with h | h <;> cases h

theorem sliceIdxToOffset_of_inRange (hcap : P ≤ 4095) {i : UInt8} (hi : i.toNat * P ≤ 65535) :
    (sliceIdxToOffset i (maxPayload (Config.ofPayload P))).toNat = i.toNat * P := by
  rw [sliceIdxToOffset_toNat, maxPayload_ofPayload hcap]
  exact Nat.mod_eq_of_lt (by omega)

/-- **A slice comes to a stalled receiver**: it is dropped or put aside. -/
theorem Stalled.step (h : Stalled P s) (hcap : P ≤ 4095) {i : UInt8} (hi : i.toNat * P ≤ 65535)
    (size : UInt16) (eop : Bool) :
    ∃ e next, rxCalcSliceStep s i size (maxPayload (Config.ofPayload P)) eop = .ok ⟨e, next⟩ ∧
      e.Idle ∧ next.watermark = s.watermark ∧ Stalled P next := by
  cases hhas : s.has i with
  | true => exact ⟨.duplicate, s, rxCalcSliceStep_of_has hhas _ _ _, Or.inl rfl, rfl, h⟩
  | false =>
      -- a missing slice lies beyond the watermark
      have hgt : s.watermark < sliceIdxToOffset i (maxPayload (Config.ofPayload P)) := by
        rw [UInt16.lt_iff_toNat_lt, sliceIdxToOffset_of_inRange hcap hi]
        by_contra hle
        rw [h i (not_lt.mp hle)] at hhas
        cases hhas
      refine ⟨.newSliceOutOfOrder, s.accept i size (maxPayload (Config.ofPayload P)) eop, ?_,
        Or.inr rfl, rfl, fun j hj => ?_⟩
      · rw [rxCalcSliceStep_of_not_has hhas, if_pos hgt]
      · rw [RxSliceState.has_accept, h j hj, Bool.or_true]

/-- **The receiver is stalled if and only if** no slices whatever can move it:
every run returns, and all its slices are dropped or put aside. -/
theorem stalled_iff (hcap : P ≤ 4095) (s : RxSliceState) :
    Stalled P s ↔ ∀ arrivals : List SliceArrival, (∀ a ∈ arrivals, a.InRange P) →
      ∃ t os, Machine.run (sliceStep P) s arrivals = .ok (t, os) ∧ ∀ e ∈ os, e.Idle := by
  constructor
  · intro h arrivals hrange
    have hstep : ∀ (t : RxSliceState) (a : SliceArrival), Stalled P t → a.InRange P →
        ∃ u e, sliceStep P t a = .ok (u, e) ∧ Stalled P u ∧ e.Idle := by
      intro t a ht ha
      obtain ⟨e, next, hok, hidle, -, hnext⟩ := ht.step hcap ha a.payloadSize a.eop
      refine ⟨next, e, ?_, hnext, hidle⟩
      rw [sliceStep, hok, Machine.ok_bind, if_neg hidle.ne_complete]
    obtain ⟨t, os, hrun, -, hidle⟩ := Machine.exists_run hstep h hrange
    exact ⟨t, os, hrun, hidle⟩
  · intro h i hi
    -- the slice alone, as an empty end of package
    have hi' : i.toNat * P ≤ 65535 := hi.trans (Nat.le_of_lt_succ s.watermark.toNat_lt)
    obtain ⟨t, os, hrun, hidle⟩ := h [⟨i, 0, true⟩] (by simpa [SliceArrival.InRange] using hi')
    obtain ⟨s', e, os', hstep, -, rfl⟩ := Machine.run_cons_eq_ok.mp hrun
    have he : e.Idle := hidle e (by simp)
    obtain ⟨⟨e', next⟩, hok, hout⟩ := Machine.bind_eq_ok.mp hstep
    obtain ⟨-, rfl⟩ := Prod.mk.inj (Except.ok.inj hout)
    rcases rxCalcSliceStep_cases hok with ⟨hhas, -⟩ | ⟨-, hgt, -⟩ | ⟨-, -, wm, -, hinst⟩
    · exact hhas
    · rw [UInt16.lt_iff_toNat_lt, sliceIdxToOffset_of_inRange hcap hi'] at hgt
      exact absurd hi (not_le.mpr hgt)
    · -- the third case says in order or complete
      have hevent := congrArg RxSliceInst.e hinst
      dsimp only at hevent he
      rw [hevent] at he
      split at he <;> rcases he with he | he <;> cases he

/-- Slices 0 and 1 of two bytes have arrived, but only one of them is counted. -/
def stuckState : RxSliceState := ⟨#v[3, 0, 0, 0, 0, 0, 0, 0], 1, 3, 3⟩

theorem stalled_stuckState : Stalled 2 stuckState := by
  intro i hi
  have hlow : i.toNat * 2 ≤ 3 := hi
  obtain h | h : i.toNat = 0 ∨ i.toNat = 1 := by omega
  · obtain rfl : i = 0 := UInt8.toNat_inj.mp h
    decide
  · obtain rfl : i = 1 := UInt8.toNat_inj.mp h
    decide

theorem stalled_iff_two : Stalled 2 stuckState ∧
    ∀ arrivals : List SliceArrival, (∀ a ∈ arrivals, a.InRange 2) →
      ∃ t os, Machine.run (sliceStep 2) stuckState arrivals = .ok (t, os) ∧ ∀ e ∈ os, e.Idle := by
  have hstalled := stalled_stuckState
  exact ⟨hstalled, (stalled_iff (by decide) stuckState).mp hstalled⟩

/-! ### After an empty package -/

/-- The last slice of a stream is not full. -/
theorem Message.stream_short (m : Message P) :
    m.stream.data.length < (m.stream.full + 1) * P := by
  have h := Nat.lt_div_mul_add (a := m.data.length) m.capacity_pos
  rw [Nat.add_one_mul]
  exact h

/-- The slices below `k` have arrived one after another, and the first of them
was not counted. -/
structure Behind (P k : ℕ) (s : RxSliceState) : Prop where
  pos : 0 < k
  bits : ∀ i : UInt8, s.has i = true ↔ i.toNat < k
  count : s.receivedCount.toNat + 1 = k
  termination : s.termination = 0
  watermark : s.watermark.toNat = k * P

/-- The empty end of package at offset 0. -/
theorem behind_of_empty (hP : 0 < P) (hcap : P ≤ 4095) :
    ∃ next, rxCalcSliceStep .zero 0 0 (maxPayload (Config.ofPayload P)) true =
      .ok ⟨.newSliceInOrder, next⟩ ∧ Behind P 1 next := by
  have hPm := maxPayload_ofPayload hcap
  generalize hm : maxPayload (Config.ofPayload P) = Pm at hPm
  have hP0 : Pm ≠ 0 := by
    rintro rfl
    rw [UInt16.toNat_zero] at hPm
    omega
  have hzero : sliceIdxToOffset 0 Pm = 0 := by simp [sliceIdxToOffset]
  have hterm : (RxSliceState.zero.accept 0 0 Pm true).termination = 0 := by
    simp [RxSliceState.accept, rxCalcTermination, hzero]
  have hwatermark : (RxSliceState.zero.accept 0 0 Pm true).watermark = 0 := rfl
  -- the scan passes slice 0 and stops at slice 1
  have hbefore : ∀ k < 1, watermarkStops (RxSliceState.zero.accept 0 0 Pm true) Pm
      ((· + Pm)^[k] (RxSliceState.zero.accept 0 0 Pm true).watermark) = false := by
    intro k hk
    obtain rfl : k = 0 := by omega
    rw [Function.iterate_zero_apply, watermarkStops_eq_false_iff, hwatermark,
      offsetToSliceIdx_zero, RxSliceState.has_accept]
    exact ⟨Or.inl hterm, rfl⟩
  have hstop : watermarkStops (RxSliceState.zero.accept 0 0 Pm true) Pm
      ((· + Pm)^[1] (RxSliceState.zero.accept 0 0 Pm true).watermark) = true := by
    have hone : offsetToSliceIdx Pm Pm = 1 := by
      apply UInt8.toNat_inj.mp
      rw [offsetToSliceIdx_toNat, hPm, Nat.div_self hP]
      rfl
    rw [Function.iterate_one, hwatermark, UInt16.zero_add, watermarkStops, hone,
      RxSliceState.has_accept]
    simp
  obtain ⟨wm, hwm, hval⟩ := rxAdvanceWatermark_of_first hP0 (by decide)
    (by rw [hwatermark, hPm, UInt16.toNat_zero]; omega) hbefore hstop
  rw [hterm, hwatermark, hPm, if_pos rfl, UInt16.toNat_zero, Nat.zero_add] at hval
  have hopen : rxIsComplete { RxSliceState.zero.accept 0 0 Pm true with watermark := wm } Pm =
      false := by
    simp [rxIsComplete, hterm]
  refine ⟨{ RxSliceState.zero.accept 0 0 Pm true with watermark := wm }, ?_, Nat.one_pos, ?_,
    rfl, hterm, hval⟩
  · rw [rxCalcSliceStep_of_not_has (RxSliceState.has_zero 0), hzero,
      if_neg (by simp [RxSliceState.zero]), hwm, Machine.ok_bind, hopen]
    rfl
  · intro i
    show (RxSliceState.zero.accept 0 0 Pm true).has i = true ↔ _
    rw [RxSliceState.has_accept, RxSliceState.has_zero, Bool.or_false, decide_eq_true_eq,
      ← UInt8.toNat_inj, UInt8.toNat_zero]
    omega

namespace Behind

variable {k : ℕ} {p : Package P}

/-- With the missing count, the slices are those of a package that has them. -/
theorem tracks (h : Behind P k s) (hk : k ≤ p.full) :
    p.Tracks .zero (Finset.range k) (s.recounted k) where
  subset := Finset.range_mono (hk.trans (Nat.le_succ _))
  bits := by
    intro i
    rw [Finset.mem_range, RxSliceState.has_zero]
    exact (h.bits i).trans (by simp)
  count := by
    have hall : (Finset.range k).filter p.Counted = Finset.range k :=
      Finset.filter_true_of_mem fun i hi =>
        p.counted_of_lt ((Finset.mem_range.mp hi).trans_le hk)
    have := p.full_le
    rw [hall, Finset.card_range]
    show (UInt16.ofNat k).toNat = 0 + k
    rw [UInt16.toNat_ofNat']
    omega
  termination := by
    rw [if_neg (by rw [Finset.mem_range]; omega)]
    exact congrArg UInt16.toNat h.termination
  missing := by
    intro heq
    have := congrArg Finset.card heq
    rw [Finset.card_range, Finset.card_range] at this
    omega
  watermark := by
    rw [frontier_range]
    exact h.watermark

/-- The scan behind the next slice. -/
theorem advance (h : Behind P k s) (hk : k ≤ p.full) :
    ∃ wm, rxAdvanceWatermark (s.accept (UInt8.ofNat k) (UInt16.ofNat (p.size k))
        (maxPayload (Config.ofPayload P)) (decide (k = p.full))) (maxPayload (Config.ofPayload P)) =
          .ok wm ∧
      wm.toNat = if k = p.full then p.data.length else (k + 1) * P := by
  have hholds := (h.tracks hk).toHolds.accept p.fresh_zero p.maxPayload_config hk
    Finset.notMem_range_self
  rw [← Finset.range_add_one] at hholds
  by_cases hlast : k = p.full
  · rw [if_pos hlast]
    exact hholds.advance_of_all p.fresh_zero p.maxPayload_config (by rw [hlast]) hk h.watermark
  · have hmiss : Finset.range (k + 1) ≠ Finset.range (p.full + 1) := by
      intro heq
      have := congrArg Finset.card heq
      rw [Finset.card_range, Finset.card_range] at this
      omega
    rw [if_neg hlast, ← frontier_range (k + 1)]
    exact hholds.advance_of_missing p.fresh_zero p.maxPayload_config hmiss
      (by rw [frontier_range]; omega) h.watermark

/-- The count stays one short of the slices that the end asks for. -/
theorem not_isComplete (h : Behind P k s) (hk : k ≤ p.full) (wm : UInt16) :
    rxIsComplete { s.accept (UInt8.ofNat k) (UInt16.ofNat (p.size k))
        (maxPayload (Config.ofPayload P)) (decide (k = p.full)) with watermark := wm }
      (maxPayload (Config.ofPayload P)) = false := by
  have hPm := p.maxPayload_config
  have hterm := p.accept_termination hPm hk s
  have hcount := @Package.accept_receivedCount P (maxPayload (Config.ofPayload P)) k p hk s
  have hpos := h.pos
  have hshort := h.count
  have hfull := p.full_le
  rw [← Bool.not_eq_true, rxIsComplete_iff (by rw [hPm]; exact p.capacity_pos)]
  dsimp only
  rw [hterm, hPm, hcount]
  rintro ⟨hends, hle⟩
  split at hends
  · rename_i hlast
    rw [if_pos hlast, ← p.need_eq] at hle
    subst hlast
    split at hle
    · rename_i hcounted
      rw [p.need_of_counted hcounted, UInt16.toNat_add, UInt16.toNat_one] at hle
      omega
    · rename_i hcounted
      rw [p.need_of_not_counted hcounted] at hle
      omega
  · rw [h.termination] at hends
    exact hends rfl

/-- **The next slice** ends in order, also where it is the last one of its
package. -/
theorem step (h : Behind P k s) (hk : k ≤ p.full) :
    ∃ next, rxCalcSliceStep s (UInt8.ofNat k) (UInt16.ofNat (p.size k))
        (maxPayload (Config.ofPayload P)) (decide (k = p.full)) =
          .ok ⟨.newSliceInOrder, next⟩ ∧
      (∀ i : UInt8, next.has i = true ↔ i.toNat < k + 1) ∧
      next.watermark.toNat = (if k = p.full then p.data.length else (k + 1) * P) ∧
      (k < p.full → Behind P (k + 1) next) := by
  have hPm := p.maxPayload_config
  have hindex := p.toNat_ofNat_slice hk
  have hnew : s.has (UInt8.ofNat k) = false := by
    rw [← Bool.not_eq_true, h.bits, hindex]
    exact lt_irrefl k
  have hat : ¬ sliceIdxToOffset (UInt8.ofNat k) (maxPayload (Config.ofPayload P)) >
      s.watermark := by
    rw [gt_iff_lt, UInt16.lt_iff_toNat_lt, p.sliceIdxToOffset_slice hPm hk, h.watermark]
    exact lt_irrefl _
  have hbits : ∀ i : UInt8, (s.accept (UInt8.ofNat k) (UInt16.ofNat (p.size k))
      (maxPayload (Config.ofPayload P)) (decide (k = p.full))).has i = true ↔
        i.toNat < k + 1 := by
    intro i
    rw [RxSliceState.has_accept, Bool.or_eq_true, h.bits, decide_eq_true_eq, ← UInt8.toNat_inj,
      hindex]
    omega
  obtain ⟨wm, hwm, hval⟩ := h.advance hk
  refine ⟨{ s.accept (UInt8.ofNat k) (UInt16.ofNat (p.size k)) (maxPayload (Config.ofPayload P))
    (decide (k = p.full)) with watermark := wm }, ?_, hbits, hval,
    fun hlt => ⟨Nat.succ_pos k, hbits, ?_, ?_, ?_⟩⟩
  · rw [rxCalcSliceStep_of_not_has hnew, if_neg hat, hwm, Machine.ok_bind,
      h.not_isComplete hk wm]
    rfl
  · dsimp only
    have hcount := h.count
    have hfull := p.full_le
    rw [p.accept_receivedCount hk, if_pos (p.counted_of_lt hlt), UInt16.toNat_add,
      UInt16.toNat_one]
    omega
  · apply UInt16.toNat_inj.mp
    dsimp only
    rw [p.accept_termination hPm hk, if_neg hlt.ne, h.termination]
  · rw [if_neg hlt.ne] at hval
    exact hval

/-- **The last slice of a package**, where it is not full, leaves the
receiver stalled. -/
theorem step_last (h : Behind P p.full s) (hshort : p.data.length < (p.full + 1) * P) :
    ∃ next, rxCalcSliceStep s (UInt8.ofNat p.full) (UInt16.ofNat (p.size p.full))
        (maxPayload (Config.ofPayload P)) (decide (p.full = p.full)) =
          .ok ⟨.newSliceInOrder, next⟩ ∧
      next.watermark.toNat = p.data.length ∧ Stalled P next := by
  obtain ⟨next, hstep, hbits, hwm, -⟩ := h.step le_rfl
  rw [if_pos rfl] at hwm
  refine ⟨next, hstep, hwm, fun i hi => (hbits i).mpr ?_⟩
  rw [hwm] at hi
  exact Nat.lt_of_mul_lt_mul_right (hi.trans_lt hshort)

end Behind

/-- The slices below `a` of a package are behind an empty one, or the receiver
is stalled. -/
def Lagging (P a : ℕ) (s : RxSliceState) : Prop := Stalled P s ∨ ∃ k, a ≤ k ∧ Behind P k s

theorem Lagging.restart {a : ℕ} (h : Lagging P a s) : Lagging P 0 s :=
  h.imp id fun ⟨k, _, hk⟩ => ⟨k, Nat.zero_le k, hk⟩

/-- **No package behind an empty one is complete**: slice by slice. -/
theorem Lagging.step {a : ℕ} (h : Lagging P a s) (m : Message P) (ha : a ≤ m.stream.full) :
    ∃ e next, rxCalcSliceStep s (UInt8.ofNat a) (UInt16.ofNat (m.stream.size a))
        (maxPayload (Config.ofPayload P)) (decide (a = m.stream.full)) = .ok ⟨e, next⟩ ∧
      e ≠ .complete ∧ Lagging P (a + 1) next := by
  rcases h with hstalled | ⟨k, hak, hbehind⟩
  · have hoff := m.stream.offset_le_of_le ha
    have hlen := m.stream.length_le
    have hrange : (UInt8.ofNat a).toNat * P ≤ 65535 := by
      rw [m.stream.toNat_ofNat_slice ha]
      omega
    obtain ⟨e, next, hstep, hidle, -, hnext⟩ := hstalled.step m.capacity_le hrange
      (UInt16.ofNat (m.stream.size a)) (decide (a = m.stream.full))
    exact ⟨e, next, hstep, hidle.ne_complete, Or.inl hnext⟩
  · rcases hak.lt_or_eq with hlt | rfl
    · -- the slice has come before
      have hhas : s.has (UInt8.ofNat a) = true := by
        rw [hbehind.bits, m.stream.toNat_ofNat_slice ha]
        exact hlt
      exact ⟨.duplicate, s, rxCalcSliceStep_of_has hhas _ _ _, by simp,
        Or.inr ⟨k, hlt, hbehind⟩⟩
    · rcases ha.lt_or_eq with hlt | rfl
      · obtain ⟨next, hstep, -, -, hnext⟩ := hbehind.step ha
        exact ⟨_, next, hstep, by simp, Or.inr ⟨_, le_rfl, hnext hlt⟩⟩
      · obtain ⟨next, hstep, -, hnext⟩ := hbehind.step_last m.stream_short
        exact ⟨_, next, hstep, by simp, Or.inl hnext⟩

end CustomData
