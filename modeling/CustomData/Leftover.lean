/-
CustomData/Leftover.lean

What a slice state may hold that is not reset between packages.

The embedded decoder keeps one state for all coordinates, so a package that
loses a slice leaves its bits, its count and its termination to the next ones.
`Leftover P s` is what all such states have in common, whatever packages their
slices came from.  It is preserved by every frame of every package, and a frame
that finds such a state is always answered: the scan meets a missing slice or
the termination (`Leftover.step`).  Where the leftovers do not obstruct a
package, it starts as on a fresh state (`Leftover.fresh`).
-/
import CustomData.Scan
import CustomData.Reassembly

namespace CustomData

variable {P : ℕ}

/-- The slices marked in the bitmap. -/
def RxSliceState.marked (s : RxSliceState) : Finset ℕ :=
  (Finset.range 256).filter fun i => s.has (UInt8.ofNat i)

/-- A state made by slices of packages, not necessarily of one package. -/
structure Leftover (P : ℕ) (s : RxSliceState) : Prop where
  offset_le : ∀ i : UInt8, s.has i = true → (i.toNat + 1) * P ≤ 65535
  termination_le : s.termination.toNat ≤ 256 * P
  termination_ne : s.has 255 = true → s.termination.toNat ≠ 0
  count_le : s.receivedCount.toNat ≤ s.marked.card
  watermark : s.watermark.toNat = 0 ∨ s.has 0 = true

theorem leftover_zero : Leftover P .zero where
  offset_le := by simp
  termination_le := Nat.zero_le _
  termination_ne := by simp
  count_le := Nat.zero_le _
  watermark := Or.inl rfl

namespace Leftover

variable {s : RxSliceState} {p : Package P} {i : ℕ} {Pm : UInt16}

theorem card_marked_le (s : RxSliceState) : s.marked.card ≤ 256 :=
  (Finset.card_filter_le _ _).trans (by simp)

/-- Where nothing obstructs the package, it may start. -/
theorem fresh (h : Leftover P s) (hp : p.Unobstructed s) : p.Fresh s where
  toUnobstructed := hp
  watermark := h.watermark.resolve_right (by simp [hp.clear 0 (Nat.zero_le _)])
  count_le := h.count_le.trans (card_marked_le s)

/-- Accepting a slice marks one more number. -/
theorem marked_accept (s : RxSliceState) (sliceId : UInt8) (size Pm : UInt16) (eop : Bool) :
    (s.accept sliceId size Pm eop).marked = insert sliceId.toNat s.marked := by
  have hlt := sliceId.toNat_lt
  ext j
  simp only [RxSliceState.marked, Finset.mem_filter, Finset.mem_range, RxSliceState.has_accept,
    Bool.or_eq_true, decide_eq_true_eq, Finset.mem_insert, ← UInt8.toNat_inj, UInt8.toNat_ofNat']
  constructor
  · rintro ⟨hj, he | hm⟩
    · exact Or.inl (by omega)
    · exact Or.inr ⟨hj, hm⟩
  · rintro (rfl | ⟨hj, hm⟩)
    · exact ⟨by omega, Or.inl (by omega)⟩
    · exact ⟨hj, Or.inr hm⟩

/-- The watermark leaves `0` when slice `0` is there. -/
theorem setWatermark (h : Leftover P s) {wm : UInt16} (hwm : s.has 0 = true) :
    Leftover P { s with watermark := wm } :=
  ⟨h.offset_le, h.termination_le, h.termination_ne, h.count_le, Or.inr hwm⟩

/-- Accepting a slice of any package. -/
theorem accept (h : Leftover P s) (p : Package P) (hPm : Pm.toNat = P) (hi : i ≤ p.full)
    (hnew : s.has (UInt8.ofNat i) = false) :
    Leftover P (s.accept (UInt8.ofNat i) (UInt16.ofNat (p.size i)) Pm (decide (i = p.full))) where
  offset_le := by
    intro j hj
    rw [RxSliceState.has_accept, Bool.or_eq_true, decide_eq_true_eq] at hj
    rcases hj with rfl | hold
    · rw [p.toNat_ofNat_slice hi]
      exact (Nat.mul_le_mul_right P (by omega)).trans p.offset_le
    · exact h.offset_le j hold
  termination_le := by
    have hfull := p.full_le
    have hle : (p.full + 1) * P ≤ 256 * P := Nat.mul_le_mul_right P (by omega)
    rw [p.accept_termination hPm hi s]
    split
    · exact p.upper.trans hle
    · exact h.termination_le
  termination_ne := by
    intro hj
    rw [p.accept_termination hPm hi s]
    split
    · exact p.nonempty.ne'
    · rename_i hne
      apply h.termination_ne
      have hfull := p.full_le
      have hi255 : UInt8.ofNat i ≠ 255 := by
        rw [ne_eq, ← UInt8.toNat_inj, p.toNat_ofNat_slice hi]
        simp only [UInt8.reduceToNat]
        omega
      rw [RxSliceState.has_accept, Bool.or_eq_true, decide_eq_true_eq] at hj
      exact hj.resolve_left hi255
  count_le := by
    have hfull := p.full_le
    have hcard := card_marked_le s
    have hcount := h.count_le
    have hmem : i ∉ s.marked := by simp [RxSliceState.marked, hnew]
    have hins : (insert i s.marked).card = s.marked.card + 1 := Finset.card_insert_of_notMem hmem
    -- the slice adds one mark, and at most one to the count
    have hserial : (UInt8.ofNat i).toNat = i := by
      rw [UInt8.toNat_ofNat']
      omega
    rw [marked_accept, hserial, hins, p.accept_receivedCount hi]
    split
    · rw [UInt16.toNat_add, UInt16.toNat_one]
      omega
    · omega
  watermark := by
    rw [RxSliceState.accept_watermark]
    apply h.watermark.imp_right
    intro hold
    rw [RxSliceState.has_accept, hold, Bool.or_true]

/-- A frame of any package is answered. -/
theorem callReturns (h : Leftover P s) (p : Package P) (hi : i ≤ p.full) :
    CallReturns P s ⟨UInt8.ofNat i, UInt16.ofNat (p.size i), decide (i = p.full)⟩ := by
  have hP := p.capacity_pos
  have hPm := p.maxPayload_config
  have hfull := p.full_le
  have hoff : (i + 1) * P ≤ 65535 := (Nat.mul_le_mul_right P (by omega)).trans p.offset_le
  have hle : i + 1 ≤ 65535 / P := (Nat.le_div_iff_mul_le hP).mpr hoff
  have hlast : scanLast P = min 255 (65535 / P) := rfl
  rcases Nat.lt_or_ge (65535 / P) 256 with hq | hq
  · -- the last slice number that fits 16 bits belongs to no package
    have hnum : (UInt8.ofNat (65535 / P)).toNat = 65535 / P := by
      rw [UInt8.toNat_ofNat']
      omega
    refine Or.inr (Or.inr (Or.inl ⟨UInt8.ofNat (65535 / P), ?_, ?_, ?_⟩))
    · rw [hnum, hlast]
      omega
    · rw [ne_eq, ← UInt8.toNat_inj, hnum, p.toNat_ofNat_slice hi]
      omega
    · rw [Bool.eq_false_iff, ne_eq]
      intro hhas
      have hfit := h.offset_le _ hhas
      rw [hnum] at hfit
      have := Nat.lt_div_mul_add (a := 65535) hP
      have := Nat.add_one_mul (65535 / P) P
      omega
  · have hP255 : P ≤ 255 := by
      have := (Nat.le_div_iff_mul_le hP).mp hq
      omega
    by_cases h255 : UInt8.ofNat i ≠ 255 ∧ s.has 255 = false
    · refine Or.inr (Or.inr (Or.inl ⟨255, ?_, h255.1.symm, h255.2⟩))
      simp only [UInt8.reduceToNat, hlast]
      omega
    · -- slice 255 was the last slice of its package
      have hend : (endAfter P s ⟨UInt8.ofNat i, UInt16.ofNat (p.size i),
          decide (i = p.full)⟩).toNat = if i = p.full then p.data.length
            else s.termination.toNat := p.accept_termination hPm hi s
      have hstride := scanStride_le hP
      have hupper : p.data.length ≤ 256 * P :=
        p.upper.trans (Nat.mul_le_mul_right P (by omega))
      refine Or.inr (Or.inr (Or.inr ⟨?_, ?_⟩))
      · rw [ne_eq, ← UInt16.toNat_inj, hend, UInt16.toNat_zero]
        split
        · exact p.nonempty.ne'
        · rename_i hne
          apply h.termination_ne
          by_contra hmiss
          refine h255 ⟨?_, by simpa using hmiss⟩
          rw [ne_eq, ← UInt8.toNat_inj, p.toNat_ofNat_slice hi]
          simp only [UInt8.reduceToNat]
          omega
      · have := h.termination_le
        rw [hend, scanTop]
        split <;> omega

/-- **One frame of any package** on any leftovers: the step returns, and leaves
leftovers again. -/
theorem step (h : Leftover P s) (p : Package P) (hi : i ≤ p.full) :
    ∃ e next, rxCalcSliceStep s (UInt8.ofNat i) (UInt16.ofNat (p.size i))
        (maxPayload (Config.ofPayload P)) (decide (i = p.full)) = .ok ⟨e, next⟩ ∧
      Leftover P next := by
  have hPm := p.maxPayload_config
  obtain ⟨r, hr⟩ := (sliceStep_returns_iff p.capacity_pos p.capacity_le s _).mpr
    (h.callReturns p hi)
  obtain ⟨⟨e, next⟩, hstep, -⟩ := Machine.bind_eq_ok.mp hr
  refine ⟨e, next, hstep, ?_⟩
  rcases rxCalcSliceStep_cases hstep with ⟨-, heq⟩ | ⟨hnew, -, heq⟩ | ⟨hnew, hoff, wm, -, heq⟩ <;>
    obtain ⟨-, rfl⟩ := RxSliceInst.mk.inj heq
  · exact h
  · exact h.accept p hPm hi hnew
  · apply (h.accept p hPm hi hnew).setWatermark
    rw [RxSliceState.has_accept, Bool.or_eq_true, decide_eq_true_eq]
    rcases h.watermark with hzero | hold
    · -- on watermark `0` only slice `0` is in order
      rw [UInt16.lt_iff_toNat_lt, hzero, p.sliceIdxToOffset_slice hPm hi] at hoff
      have hmul := Nat.eq_zero_of_not_pos hoff
      obtain rfl := (Nat.mul_eq_zero.mp hmul).resolve_right p.capacity_pos.ne'
      exact Or.inl rfl
    · exact Or.inr hold

end Leftover

end CustomData
