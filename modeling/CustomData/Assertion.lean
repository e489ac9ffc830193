/-
CustomData/Assertion.lean

The `assert` before `ParseFromArray` in the C++ decoder.

The buffer of a slot grows with the payloads that are stored, the termination
moves with every slice that is short or marked eop, also with an empty one.  So
an end that was declared by an empty slice may lie behind everything stored.
This is harmless as long as the full slices below it are still to come; the
`assert` fails when the count says that nothing is to come any more.

`Outruns` names the two kinds of frames that bring this about: an empty one,
which declares its own offset as the end, and a full one that comes after the
end.  A run fails its `assert` exactly at such a frame (`push_run_iff`).
-/
import CustomData.Isolation

namespace CustomData

open Decoder

/-! ### Frames that outrun the buffer -/

/-- The payload size `Push` goes on with. -/
def pushedSize (block : List UInt8) : UInt16 :=
  cpp.clamp (headerUnpack (arrayToPackedHeader block)).slicePayloadSize (block.length - headerSize)

/-- A new slice in order, for a slot with the buffer `data`, that is the last
one to be counted for an end behind the buffer. -/
structure OutrunsSlot (maxPayload : UInt16) (state : RxSliceState) (data : List UInt8)
    (header : HeaderMeta) (size : UInt16) : Prop where
  new : state.has header.sliceSerial = false
  inOrder : sliceIdxToOffset header.sliceSerial maxPayload ≤ state.watermark
  kind :
    -- an empty slice behind the buffer
    (size = 0 ∧ data.length < (sliceIdxToOffset header.sliceSerial maxPayload).toNat ∧
      rxTerminationToSliceCount (sliceIdxToOffset header.sliceSerial maxPayload).toUInt32
        maxPayload ≤ state.receivedCount + if header.eop != 0 then 0 else 1) ∨
    -- a full slice before an end that was known before
    (maxPayload ≤ size ∧ header.eop = 0 ∧ data.length < state.termination.toNat ∧
      (sliceIdxToOffset header.sliceSerial maxPayload).toNat + size.toNat <
        state.termination.toNat ∧
      rxTerminationToSliceCount state.termination.toUInt32 maxPayload ≤ state.receivedCount + 1)

/-- `block` outruns the buffer of the slot it finds. -/
def Outruns (config : Config) (c : Coordinator) (block : List UInt8) : Prop :=
  headerSize ≤ block.length ∧
    OutrunsSlot (maxPayload config) (refreshed c (headerUnpack (arrayToPackedHeader block))).state
      (refreshed c (headerUnpack (arrayToPackedHeader block))).data
      (headerUnpack (arrayToPackedHeader block)) (pushedSize block)

section Slot

variable {P : UInt16} {state : RxSliceState} {data : List UInt8} {header : HeaderMeta}
variable {size : UInt16} {payload : List UInt8}

/-- The length of the buffer once the payload is stored. -/
theorem store_length (hlen : payload.length = size.toNat) (offset : ℕ) :
    (cpp.store data offset payload).length =
      if size = 0 then data.length else max data.length (offset + size.toNat) := by
  simp only [Decoder.store, List.isEmpty_iff]
  by_cases hz : size = 0
  · have hnil : payload = [] := List.length_eq_zero_iff.mp (by rw [hlen, hz]; rfl)
    simp [hz, hnil]
  · have hne : payload ≠ [] := by
      rintro rfl
      exact hz (UInt16.toNat_inj.mp hlen.symm)
    rw [if_neg hne, if_neg hz, overwrite_length, hlen]

theorem accept_termination_of_short (h : size < P ∨ header.eop ≠ 0) :
    (state.accept header.sliceSerial size P (header.eop != 0)).termination =
      rxCalcTermination header.sliceSerial size P := by
  simp only [RxSliceState.accept]
  rw [if_pos (by simpa using h)]

theorem accept_termination_of_full (h : P ≤ size) (heop : header.eop = 0) :
    (state.accept header.sliceSerial size P (header.eop != 0)).termination =
      state.termination := by
  simp only [RxSliceState.accept]
  rw [if_neg (by simpa [heop] using h)]

theorem rxCalcTermination_empty (i : UInt8) : rxCalcTermination i 0 P = sliceIdxToOffset i P := by
  simp [rxCalcTermination]

/-- An empty slice with eop is not counted, any other slice is. -/
theorem accept_receivedCount_empty :
    (state.accept header.sliceSerial 0 P (header.eop != 0)).receivedCount =
      state.receivedCount + if header.eop != 0 then 0 else 1 := by
  simp only [RxSliceState.accept]
  by_cases he : header.eop = 0 <;> simp [he]

theorem accept_receivedCount_of_ne (hz : size ≠ 0) :
    (state.accept header.sliceSerial size P (header.eop != 0)).receivedCount =
      state.receivedCount + 1 := by
  simp [RxSliceState.accept, hz]

/-- A slice with a payload that sets the termination is stored up to it. -/
theorem termination_le_store (hz : size ≠ 0) (hlen : payload.length = size.toNat) :
    (rxCalcTermination header.sliceSerial size P).toNat ≤
      (cpp.store data (sliceIdxToOffset header.sliceSerial P).toNat payload).length := by
  rw [store_length hlen, if_neg hz]
  exact (rxCalcTermination_le _ _ _).trans (Nat.le_max_right _ _)

/-- A new slice in order completes the package with a buffer that is too short
if and only if it outruns the buffer. -/
theorem outrunsSlot_iff (hP : P ≠ 0) (hlen : payload.length = size.toNat)
    (hnew : state.has header.sliceSerial = false)
    (hord : sliceIdxToOffset header.sliceSerial P ≤ state.watermark) (wm : UInt16) :
    OutrunsSlot P state data header size ↔
      rxIsComplete { state.accept header.sliceSerial size P (header.eop != 0) with
          watermark := wm } P = true ∧
        (cpp.store data (sliceIdxToOffset header.sliceSerial P).toNat payload).length <
          (state.accept header.sliceSerial size P (header.eop != 0)).termination.toNat := by
  have hpos : 0 < P.toNat := Nat.pos_of_ne_zero fun h => hP (UInt16.toNat_inj.mp h)
  have hkind : OutrunsSlot P state data header size ↔ _ :=
    ⟨fun h => h.kind, fun h => ⟨hnew, hord, h⟩⟩
  rw [hkind]
  simp only [rxIsComplete, Bool.and_eq_true, decide_eq_true_eq, gt_iff_lt, ge_iff_le,
    UInt16.lt_iff_toNat_lt (a := 0), UInt16.toNat_zero]
  by_cases hz : size = 0
  · -- the end moves to the offset of the slice, the buffer stays
    subst hz
    have hP0 : ¬ P ≤ 0 := by rw [UInt16.le_iff_toNat_le, UInt16.toNat_zero]; omega
    rw [accept_termination_of_short (Or.inl (UInt16.not_le.mp hP0)),
      rxCalcTermination_empty, accept_receivedCount_empty, store_length hlen, if_pos rfl]
    constructor
    · rintro (⟨-, hlt, hcount⟩ | ⟨hle, -⟩)
      · exact ⟨⟨by omega, hcount⟩, hlt⟩
      · exact absurd hle hP0
    · rintro ⟨⟨-, hcount⟩, hlt⟩
      exact Or.inl ⟨rfl, hlt, hcount⟩
  · by_cases hfull : P ≤ size ∧ header.eop = 0
    · -- the end stays where it was, the buffer reaches the end of the slice
      rw [accept_termination_of_full hfull.1 hfull.2, accept_receivedCount_of_ne hz,
        store_length hlen, if_neg hz]
      constructor
      · rintro (⟨h0, -⟩ | ⟨-, -, hlt, hend, hcount⟩)
        · exact absurd h0 hz
        · exact ⟨⟨by omega, hcount⟩, by omega⟩
      · rintro ⟨⟨-, hcount⟩, hlt⟩
        exact Or.inr ⟨hfull.1, hfull.2, by omega, by omega, hcount⟩
    · -- the slice is stored up to the end it declares
      have hle := @termination_le_store P data header size payload hz hlen
      rw [accept_termination_of_short (by
        rw [← UInt16.not_le]
        tauto)]
      constructor
      · rintro (⟨h0, -⟩ | ⟨h1, h2, -⟩)
        · exact absurd h0 hz
        · exact absurd ⟨h1, h2⟩ hfull
      · rintro ⟨-, hlt⟩
        omega

/-- One step whose scan returns fails its `assert` if and only if the slice
outruns the buffer. -/
theorem slotStep_assertion_iff {m : SenderMeta} {slot : Slot} (hlen : payload.length = size.toNat)
    (hscan : cpp.slotStep P m slot header size payload ≠ .error .scan) :
    cpp.slotStep P m slot header size payload = .error .assertion ↔
      OutrunsSlot P (slot.gcClockHook (m.gcHook header.packageSerial)).state
        (slot.gcClockHook (m.gcHook header.packageSerial)).data header size := by
  simp only [slotStep, slotStepWith, Bool.false_eq_true, if_false] at hscan ⊢
  generalize slot.gcClockHook (m.gcHook header.packageSerial) = slot' at hscan ⊢
  rcases hhas : slot'.state.has header.sliceSerial with - | -
  · rw [rxCalcSliceStep_of_not_has hhas] at hscan ⊢
    by_cases hord : sliceIdxToOffset header.sliceSerial P ≤ slot'.state.watermark
    · rw [if_neg (UInt16.not_lt.mpr hord)] at hscan ⊢
      rcases hadv : rxAdvanceWatermark
          (slot'.state.accept header.sliceSerial size P (header.eop != 0)) P with e | wm
      · -- the scan does not return
        rw [rxAdvanceWatermark_error hadv] at hadv
        exact absurd (by rw [hadv]; rfl) hscan
      · have hP : P ≠ 0 := rxAdvanceWatermark_ne_zero hadv
        rw [outrunsSlot_iff hP hlen hhas hord wm]
        simp only [Machine.ok_bind]
        rcases hcomp : rxIsComplete { slot'.state.accept header.sliceSerial size P
          (header.eop != 0) with watermark := wm } P with - | -
        · simp
        · simp only [if_true, reduceCtorEq, if_false, true_and]
          split <;> simp [short, *]
    · rw [if_pos (UInt16.not_le.mp hord)]
      have hno : ¬ OutrunsSlot P slot'.state slot'.data header size := fun h => hord h.inOrder
      simp [hno]
  · rw [rxCalcSliceStep_of_has hhas]
    have hno : ¬ OutrunsSlot P slot'.state slot'.data header size :=
      fun h => absurd h.new (by simp [hhas])
    simp [hno]

end Slot

/-! ### Runs of the C++ decoder -/

/-- A frame whose scan returns fails the `assert` if and only if it outruns
the buffer of its slot. -/
theorem push_assertion_iff {config : Config} {c : Coordinator} {block : List UInt8}
    (hscan : push config c block ≠ .error .scan) :
    push config c block = .error .assertion ↔ Outruns config c block := by
  by_cases hlen : headerSize ≤ block.length
  · have hpayload : ((block.drop headerSize).take (pushedSize block).toNat).length =
        (pushedSize block).toNat := by
      have := cpp.clamp_le (headerUnpack (arrayToPackedHeader block)).slicePayloadSize
        (block.length - headerSize)
      rw [List.length_take, List.length_drop, pushedSize]
      omega
    rw [push_eq hlen rfl, receive_eq] at hscan ⊢
    rw [Outruns, and_iff_right hlen]
    refine Iff.trans ?_ (slotStep_assertion_iff hpayload fun h =>
      hscan (Machine.bind_eq_error.mpr (.inl h)))
    rw [Machine.bind_eq_error]
    simp [pushedSize]
  · have hno : ¬ Outruns config c block := fun h => hlen h.1
    simp [push_of_short (not_le.mp hlen), hno]

/-- **The `assert` of `Push`.**  A run whose scans return fails it if and only
if one of its frames outruns the buffer of the slot it finds. -/
theorem push_run_iff {config : Config} {c : Coordinator} {blocks : List (List UInt8)}
    (hscan : Machine.run (push config) c blocks ≠ .error .scan) :
    Machine.run (push config) c blocks ≠ .error .assertion ↔
      ∀ before block after c' os, blocks = before ++ block :: after →
        Machine.run (push config) c before = .ok (c', os) → ¬ Outruns config c' block := by
  have hstep : ∀ before block after c' os, blocks = before ++ block :: after →
      Machine.run (push config) c before = .ok (c', os) →
      (push config c' block = .error .assertion ↔ Outruns config c' block) :=
    fun before block after c' os hsplit hrun => push_assertion_iff fun he =>
      hscan (Machine.run_error_iff.mpr ⟨before, block, after, c', os, hsplit, hrun, he⟩)
  rw [ne_eq, Machine.run_error_iff]
  constructor
  · intro h before block after c' os hsplit hrun hout
    exact h ⟨before, block, after, c', os, hsplit, hrun,
      (hstep before block after c' os hsplit hrun).mpr hout⟩
  · rintro h ⟨before, block, after, c', os, hsplit, hrun, he⟩
    exact h before block after c' os hsplit hrun
      ((hstep before block after c' os hsplit hrun).mp he)

/-- A whole package of one byte, between two empty slices of another one. -/
theorem push_run_short :
    Machine.run (push ⟨6⟩) (.fresh fun _ => ⟨0, 0⟩)
        [[8, 1, 1, 0], [9, 0, 25, 0, 7, 0], [8, 0, 1, 0]] ≠ .error .assertion ↔
      ∀ before block after c' os,
        [[8, 1, 1, 0], [9, 0, 25, 0, 7, 0], [8, 0, 1, 0]] = before ++ block :: after →
        Machine.run (push ⟨6⟩) (.fresh fun _ => ⟨0, 0⟩) before = .ok (c', os) →
          ¬ Outruns ⟨6⟩ c' block := by
  apply push_run_iff
  intro h
  have := congrArg (Except.map Prod.snd) h
  revert this
  decide +kernel

/-- Two empty slices: the second one declares an end at `2`, counts as the one
slice that is needed up to there, and nothing was stored. -/
theorem push_asserts :
    ¬ ∀ (tu : ℕ) (c : Coordinator) (blocks : List (List UInt8)), 5 ≤ tu → cpp.Initial c →
      Machine.run (push ⟨UInt16.ofNat tu⟩) c blocks ≠ .error .scan →
      Machine.run (push ⟨UInt16.ofNat tu⟩) c blocks ≠ .error .assertion := by
  intro h
  have hrun : (Machine.run (push ⟨UInt16.ofNat 6⟩) (.fresh fun _ => ⟨0, 0⟩)
      [[0, 0, 0, 0], [0, 1, 0, 0]]).map Prod.snd = .error .assertion := by decide +kernel
  rcases hr : Machine.run (push ⟨UInt16.ofNat 6⟩) (.fresh fun _ => ⟨0, 0⟩)
      [[0, 0, 0, 0], [0, 1, 0, 0]] with e | r
  · rw [hr, Except.map, Except.error.injEq] at hrun
    refine h 6 _ [[0, 0, 0, 0], [0, 1, 0, 0]] (by decide) ⟨_, rfl⟩ ?_ (hrun ▸ hr)
    rw [hr, hrun]
    simp
  · rw [hr] at hrun
    cases hrun

end CustomData
