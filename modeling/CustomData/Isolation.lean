/-
CustomData/Isolation.lean

Senders do not interfere.

Two runs whose frames from sender `s` are the same deliver the same buffers
for `s`, whatever the other senders put in their frames.  For C++ the two runs
may even start from different contents of the meta array.  For C# the runs
need no other promise than that the scans return: a span never reaches past
its buffer, because no termination does (`Decoder.WithinBuffers`).
-/
import CustomData.Agreement

namespace CustomData

namespace Decoder

variable {config : Config}

/-! ### The C# decoder does not throw -/

/-- No termination lies beyond its buffer. -/
def WithinBuffers (c : Coordinator) : Prop :=
  ∀ i, (c.slots i).state.termination.toNat ≤ (c.slots i).data.length

theorem rxCalcSliceStep_termination {s : RxSliceState} {i : UInt8} {size P : UInt16} {eop : Bool}
    {inst : RxSliceInst} (h : rxCalcSliceStep s i size P eop = .ok inst) :
    inst.nextState.termination = s.termination ∨
      inst.nextState.termination = rxCalcTermination i size P := by
  have hacc : (s.accept i size P eop).termination = s.termination ∨
      (s.accept i size P eop).termination = rxCalcTermination i size P := by
    simp only [RxSliceState.accept]
    split
    · exact Or.inr rfl
    · exact Or.inl rfl
  rcases rxCalcSliceStep_cases h with ⟨-, rfl⟩ | ⟨-, -, rfl⟩ | ⟨-, -, wm, -, rfl⟩
  · exact Or.inl rfl
  · exact hacc
  · exact hacc

theorem rxCalcTermination_le (i : UInt8) (size P : UInt16) :
    (rxCalcTermination i size P).toNat ≤ (sliceIdxToOffset i P).toNat + size.toNat := by
  rw [rxCalcTermination, UInt16.toNat_add]
  exact Nat.mod_le _ _

theorem gcClockHook_within {slot : Slot} (h : slot.state.termination.toNat ≤ slot.data.length)
    (m : SenderMeta) :
    (slot.gcClockHook m).state.termination.toNat ≤ (slot.gcClockHook m).data.length := by
  rw [Slot.gcClockHook_state, Slot.gcClockHook_data]
  split
  · exact Nat.zero_le _
  · exact h

/-- The buffer of the C# decoder is grown to the end of the slice before the
span is taken. -/
theorem termination_le_of_step {slot : Slot} {i : UInt8} {size P : UInt16} {eop : Bool}
    {inst : RxSliceInst} {payload : List UInt8}
    (h : slot.state.termination.toNat ≤ slot.data.length) (hlen : payload.length = size.toNat)
    (hstep : rxCalcSliceStep slot.state i size P eop = .ok inst) :
    inst.nextState.termination.toNat ≤
      (cs.store slot.data (sliceIdxToOffset i P).toNat payload).length := by
  rw [store, overwrite_length, hlen]
  have hcalc := rxCalcTermination_le i size P
  -- the termination is the old one, or the end of this slice
  rcases rxCalcSliceStep_termination hstep with ht | ht
  · rw [ht]
    omega
  · rw [ht]
    omega

theorem slotStep_within {P size : UInt16} {m : SenderMeta} {slot : Slot} {header : HeaderMeta}
    {payload : List UInt8} (h : slot.state.termination.toNat ≤ slot.data.length)
    (hlen : payload.length = size.toNat) :
    (∀ r v, cs.slotStep P m slot header size payload = .ok (r, v) →
        r.2.state.termination.toNat ≤ r.2.data.length) ∧
      ∀ e, cs.slotStep P m slot header size payload = .error e → e = .scan := by
  have hslot := gcClockHook_within h (m.gcHook header.packageSerial)
  simp only [slotStep, slotStepWith, Bool.false_eq_true, if_false]
  generalize slot.gcClockHook (m.gcHook header.packageSerial) = slot' at hslot
  rcases hcalc : rxCalcSliceStep slot'.state header.sliceSerial size P (header.eop != 0) with
    e | ⟨e, next⟩
  · refine ⟨fun r v hok => (by cases hok), fun e' he => ?_⟩
    rw [Machine.error_bind] at he
    rw [← Except.error.inj he]
    exact rxCalcSliceStep_error hcalc
  · have hnext := termination_le_of_step hslot hlen hcalc
    rw [Machine.ok_bind]
    by_cases hd : e = .duplicate
    · simp only [hd, if_true]
      refine ⟨fun r v hok => ?_, fun e' he => by cases he⟩
      simp only [Except.ok.injEq, Prod.mk.injEq] at hok
      rw [← hok.1]
      exact hslot
    · by_cases hc : e = .complete
      -- after COMPLETE the state is cleared, and its termination with it
      · simp only [hc, reduceCtorEq, if_false, if_true, if_neg (not_lt.mpr hnext)]
        refine ⟨fun r v hok => ?_, fun e' he => by cases he⟩
        simp only [Except.ok.injEq, Prod.mk.injEq] at hok
        rw [← hok.1]
        exact Nat.zero_le _
      · simp only [hd, hc, if_false]
        refine ⟨fun r v hok => ?_, fun e' he => by cases he⟩
        simp only [Except.ok.injEq, Prod.mk.injEq] at hok
        rw [← hok.1]
        exact hnext

/-- A C# call keeps the buffers long enough, and the only fault it knows is a
scan that does not return. -/
theorem WithinBuffers.decode {c : Coordinator} (h : WithinBuffers c) {f : List UInt8}
    (hf : headerSize ≤ f.length) :
    (∀ c' o, decode config c f = .ok (c', o) → WithinBuffers c') ∧
      ∀ e, decode config c f = .error e → e = .scan := by
  have hsize := cs.clamp_le (headerUnpack (arrayToPackedHeader f)).slicePayloadSize
    (f.length - headerSize)
  rw [decode_eq hf rfl, receive_eq]
  generalize cs.clamp (headerUnpack (arrayToPackedHeader f)).slicePayloadSize
    (f.length - headerSize) = size at hsize
  have hlen : ((f.drop headerSize).take size.toNat).length = size.toNat := by
    rw [List.length_take, List.length_drop]
    omega
  generalize (f.drop headerSize).take size.toNat = payload at hlen
  generalize headerUnpack (arrayToPackedHeader f) = header
  obtain ⟨hok, herr⟩ := @slotStep_within (maxPayload config) size (c.senderMeta header.senderId)
    (c.slots (Coordinator.slotIndex header.senderId header.packageSerial)) header payload (h _) hlen
  refine ⟨fun c' o hdec => ?_, fun e he => ?_⟩
  · obtain ⟨⟨r, v⟩, hstep, hc⟩ := Machine.bind_eq_ok.mp hdec
    simp only [Except.ok.injEq, Prod.mk.injEq] at hc
    rw [← hc.1]
    intro i
    simp only [putBack, Function.update_apply]
    split
    · exact hok r v hstep
    · exact h i
  · rcases Machine.bind_eq_error.mp he with he | ⟨r, -, he⟩
    · exact herr e he
    · cases he

/-- C# runs whose scans return do not fault at all. -/
theorem decode_run_ok {senderMeta : UInt8 → SenderMeta} {frames : List (List UInt8)}
    (hlen : ∀ f ∈ frames, headerSize ≤ f.length)
    (hscan : Machine.run (decode config) (.fresh senderMeta) frames ≠ .error .scan) :
    ∃ c os, Machine.run (decode config) (.fresh senderMeta) frames = .ok (c, os) := by
  obtain ⟨⟨c, os⟩, hrun⟩ := Machine.run_error_of_step (I := WithinBuffers)
    (P := fun f : List UInt8 => headerSize ≤ f.length)
    (fun c f c' o h hf => (h.decode hf).1 c' o) (fun c f e h hf => (h.decode hf).2 e)
    (fun _ => Nat.zero_le _) hlen hscan
  exact ⟨c, os, hrun⟩

/-! ### Non-interference -/

/-- Two runs of one decoder from the same meta array. -/
theorem deliveredFrom_eq_of_filter {d : Decoder} (s : UInt8) {c t₁ t₂ : Coordinator}
    {frames₁ frames₂ : List (List UInt8)} {os₁ os₂ : List (Option Verdict)}
    (hsame : (frames₁.filter fun f => frameSender f = s) =
      frames₂.filter fun f => frameSender f = s)
    (h₁ : Machine.run (d.feed config) c frames₁ = .ok (t₁, os₁))
    (h₂ : Machine.run (d.feed config) c frames₂ = .ok (t₂, os₂)) :
    deliveredFrom s os₁ = deliveredFrom s os₂ := by
  rw [deliveredFrom_eq_outputsOf s h₁, deliveredFrom_eq_outputsOf s h₂,
    ((feed_keyed d config).run_agree s rfl hsame h₁ h₂).2]

/-- The contents of the C++ meta array do not show. -/
theorem push_run_fresh (m m' : UInt8 → SenderMeta) {frames : List (List UInt8)}
    {c : Coordinator} {os : List (Option Verdict)}
    (h : Machine.run (push config) (.fresh m) frames = .ok (c, os)) :
    ∃ c', Machine.run (push config) (.fresh m') frames = .ok (c', os) := by
  have hstep : ∀ c₁ c₁' c₂ f o, TableAlike c₁ c₂ → True → push config c₁ f = .ok (c₁', o) →
      ∃ c₂', push config c₂ f = .ok (c₂', o) ∧ TableAlike c₁' c₂' :=
    fun c₁ c₁' c₂ f o halike _ hfeed => halike.feed hfeed .cpp (Or.inr rfl) fun _ _ => rfl
  obtain ⟨c', hrun, -⟩ :=
    Machine.run_simulation hstep (tableAlike_fresh m m') (fun _ _ => trivial) h
  exact ⟨c', hrun⟩

end Decoder

open Decoder

/-- **Senders do not interfere.**  Two sequences of frames with the same frames
from sender `s` deliver the same buffers for `s`: in the C++ decoder whatever
its meta array holds at the start of either run, provided neither run faults,
and in the C# decoder provided the scans of both runs return. -/
theorem sender_noninterference (s : UInt8) {tu : ℕ} {frames₁ frames₂ : List (List UInt8)}
    (hlen₁ : ∀ f ∈ frames₁, f.length = tu) (hlen₂ : ∀ f ∈ frames₂, f.length = tu)
    (hsame : (frames₁.filter fun f => frameSender f = s) =
      frames₂.filter fun f => frameSender f = s) :
    (∀ m₁ m₂ c₁ c₂ os₁ os₂,
      Machine.run (push ⟨UInt16.ofNat tu⟩) (.fresh m₁) frames₁ = .ok (c₁, os₁) →
      Machine.run (push ⟨UInt16.ofNat tu⟩) (.fresh m₂) frames₂ = .ok (c₂, os₂) →
      deliveredFrom s os₁ = deliveredFrom s os₂) ∧
    (headerSize ≤ tu →
      Machine.run (decode ⟨UInt16.ofNat tu⟩) (.fresh fun _ => ⟨0, 0⟩) frames₁ ≠ .error .scan →
      Machine.run (decode ⟨UInt16.ofNat tu⟩) (.fresh fun _ => ⟨0, 0⟩) frames₂ ≠ .error .scan →
      ∃ c₁ c₂ os₁ os₂,
        Machine.run (decode ⟨UInt16.ofNat tu⟩) (.fresh fun _ => ⟨0, 0⟩) frames₁ = .ok (c₁, os₁) ∧
        Machine.run (decode ⟨UInt16.ofNat tu⟩) (.fresh fun _ => ⟨0, 0⟩) frames₂ = .ok (c₂, os₂) ∧
        deliveredFrom s os₁ = deliveredFrom s os₂) := by
  constructor
  · intro m₁ m₂ c₁ c₂ os₁ os₂ h₁ h₂
    obtain ⟨c₂', h₂'⟩ := push_run_fresh m₂ m₁ h₂
    exact deliveredFrom_eq_of_filter (d := .cpp) s hsame h₁ h₂'
  · intro htu hscan₁ hscan₂
    obtain ⟨c₁, os₁, h₁⟩ := decode_run_ok (fun f hf => by rw [hlen₁ f hf]; exact htu) hscan₁
    obtain ⟨c₂, os₂, h₂⟩ := decode_run_ok (fun f hf => by rw [hlen₂ f hf]; exact htu) hscan₂
    exact ⟨c₁, c₂, os₁, os₂, h₁, h₂, deliveredFrom_eq_of_filter (d := .cs) s hsame h₁ h₂⟩

/-- One frame of sender 1, with and without a hostile frame of sender 2. -/
theorem sender_noninterference_single :
    ∃ c₁ c₂ os₁ os₂,
      Machine.run (decode ⟨UInt16.ofNat 6⟩) (.fresh fun _ => ⟨0, 0⟩)
          [[9, 7, 26, 255, 1, 1], [9, 0, 25, 0, 7, 0]] = .ok (c₁, os₁) ∧
      Machine.run (decode ⟨UInt16.ofNat 6⟩) (.fresh fun _ => ⟨0, 0⟩)
          [[9, 0, 25, 0, 7, 0]] = .ok (c₂, os₂) ∧
      deliveredFrom 1 os₁ = deliveredFrom 1 os₂ := by
  refine (@sender_noninterference 1 6 _ _ (by decide) (by decide) (by decide)).2 (by decide) ?_ ?_
  · intro h
    have := congrArg (Except.map Prod.snd) h
    revert this
    decide +kernel
  · intro h
    have := congrArg (Except.map Prod.snd) h
    revert this
    decide +kernel

end CustomData
