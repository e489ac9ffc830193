/-
CustomData/Senders.lean

A frame acts on the meta element and the slots of its sender and on nothing
else.

`Decoder.senderStep` is what a decoder does to that component, and
`Decoder.feed_keyed` says that feeding a frame is this step on the component of
the frame's sender, all others left as they are.  What a sender gets delivered
is therefore a run over the frames of that sender alone
(`Decoder.deliveredFrom_eq_outputsOf`).
-/
import CustomData.Decoder

namespace CustomData

namespace Decoder

variable {d : Decoder} {config : Config}

/-! ### The component of a sender -/

/-- The sender a frame claims to be from. -/
def frameSender (f : List UInt8) : UInt8 := (headerUnpack (arrayToPackedHeader f)).senderId

/-- Meta element and slots of one sender. -/
abbrev SenderView := SenderMeta × (UInt8 → Slot)

/-- What the table keeps for sender `s`. -/
def senderView (c : Coordinator) (s : UInt8) : SenderView :=
  (c.senderMeta s, fun k => c.slots (Coordinator.slotIndex s k))

/-- `feed` on the component of the frame's sender. -/
def senderStep (d : Decoder) (config : Config) (v : SenderView) (f : List UInt8) :
    Except Fault (SenderView × Option Verdict) :=
  if f.length < headerSize then
    match d with
    | .cpp => .ok (v, none)
    | .cs => .error .range
  else
    let header := headerUnpack (arrayToPackedHeader f)
    let size := d.clamp header.slicePayloadSize (f.length - headerSize)
    d.slotStep (maxPayload config) v.1 (v.2 header.packageSerial) header size
        ((f.drop headerSize).take size.toNat) >>=
      fun r => .ok ((r.1.1, Function.update v.2 header.packageSerial r.1.2), some r.2)

theorem senderView_putBack (c : Coordinator) (s k : UInt8) (v : SenderMeta × Slot) :
    senderView (putBack c s k v) s = (v.1, Function.update (senderView c s).2 k v.2) := by
  refine Prod.ext (by simp [senderView, putBack]) (funext fun k' => ?_)
  simp only [senderView, putBack, Function.update_apply, Coordinator.slotIndex_inj, true_and]

theorem senderView_putBack_of_ne (c : Coordinator) {s s' : UInt8} (h : s' ≠ s) (k : UInt8)
    (v : SenderMeta × Slot) : senderView (putBack c s k v) s' = senderView c s' := by
  refine Prod.ext (by simp [senderView, putBack, h]) (funext fun k' => ?_)
  simp only [senderView, putBack, Function.update_apply, Coordinator.slotIndex_inj, h, false_and,
    if_false]

/-- A step of the component is a step of the table that leaves the other
components alone. -/
theorem feed_of_senderStep {c : Coordinator} {f : List UInt8} {w : SenderView}
    {o : Option Verdict}
    (h : d.senderStep config (senderView c (frameSender f)) f = .ok (w, o)) :
    ∃ c', d.feed config c f = .ok (c', o) ∧ senderView c' (frameSender f) = w ∧
      ∀ s, s ≠ frameSender f → senderView c' s = senderView c s := by
  by_cases hf : f.length < headerSize
  · cases d with
    | cpp =>
        simp only [senderStep, hf, if_true, Except.ok.injEq, Prod.mk.injEq] at h
        obtain ⟨rfl, rfl⟩ := h
        exact ⟨c, by simp [feed, push_of_short hf], rfl, fun _ _ => rfl⟩
    | cs => simp [senderStep, hf] at h
  · simp only [senderStep, hf, if_false, Machine.bind_eq_ok] at h
    obtain ⟨r, hr, hok⟩ := h
    simp only [Except.ok.injEq, Prod.mk.injEq] at hok
    obtain ⟨rfl, rfl⟩ := hok
    refine ⟨_, ?_, senderView_putBack c _ _ r.1, fun s hs => senderView_putBack_of_ne c hs _ r.1⟩
    rw [feed_eq d (not_lt.mp hf) rfl, receive_eq]
    simp only [senderView, frameSender] at hr
    rw [hr]
    rfl

theorem senderStep_of_feed {c c' : Coordinator} {f : List UInt8} {o : Option Verdict}
    (h : d.feed config c f = .ok (c', o)) :
    ∃ w, d.senderStep config (senderView c (frameSender f)) f = .ok (w, o) := by
  by_cases hf : f.length < headerSize
  · cases d with
    | cpp =>
        simp only [feed, push_of_short hf, Except.ok.injEq, Prod.mk.injEq] at h
        exact ⟨senderView c (frameSender f), by simp only [senderStep, hf, if_true, h.2]⟩
    | cs => simp [feed, decode_of_short hf] at h
  · rw [feed_eq d (not_lt.mp hf) rfl, receive_eq, Machine.bind_eq_ok] at h
    obtain ⟨r, hr, hok⟩ := h
    simp only [Except.ok.injEq, Prod.mk.injEq] at hok
    obtain ⟨-, rfl⟩ := hok
    refine ⟨(r.1.1, Function.update (senderView c (frameSender f)).2
      (headerUnpack (arrayToPackedHeader f)).packageSerial r.1.2), ?_⟩
    simp only [senderStep, hf, if_false]
    simp only [senderView, frameSender]
    rw [hr]
    rfl

/-- **Every frame acts on the component of its sender only.** -/
theorem feed_keyed (d : Decoder) (config : Config) :
    Machine.Keyed (d.feed config) (d.senderStep config) senderView frameSender where
  acts := by
    intro c f c' o h
    obtain ⟨w, hw⟩ := senderStep_of_feed h
    obtain ⟨c'', hc, hview, -⟩ := feed_of_senderStep hw
    rw [h, Except.ok.injEq, Prod.mk.injEq] at hc
    rw [hw, hc.1, hview]
  frame := by
    intro c f c' o s h hs
    obtain ⟨w, hw⟩ := senderStep_of_feed h
    obtain ⟨c'', hc, -, hframe⟩ := feed_of_senderStep hw
    rw [h, Except.ok.injEq, Prod.mk.injEq] at hc
    rw [hc.1, hframe s hs]

/-! ### What a sender gets delivered -/

/-- The buffers handed to the consumer for packages of sender `s`. -/
def deliveredFrom (s : UInt8) (os : List (Option Verdict)) : List (List UInt8) :=
  os.filterMap fun o => o.bind fun v => if v.senderId = s then v.buffer else none

theorem slotStep_verdict {P size : UInt16} {m m' : SenderMeta} {slot slot' : Slot}
    {header : HeaderMeta} {payload : List UInt8} {v : Verdict}
    (h : d.slotStep P m slot header size payload = .ok ((m', slot'), v)) :
    v.senderId = header.senderId ∧ v.packageId = header.packageSerial := by
  simp only [slotStep, slotStepWith, Bool.false_eq_true, if_false, Machine.bind_eq_ok] at h
  obtain ⟨⟨e, next⟩, -, h⟩ := h
  by_cases hd : e = .duplicate
  · simp only [hd, if_true, Except.ok.injEq, Prod.mk.injEq] at h
    simp [← h.2]
  · by_cases hc : e = .complete
    · simp only [hc, reduceCtorEq, if_false, if_true] at h
      split at h
      · cases h
      · simp only [Except.ok.injEq, Prod.mk.injEq] at h
        simp [← h.2]
    · simp only [hd, hc, if_false, Except.ok.injEq, Prod.mk.injEq] at h
      simp [← h.2]

/-- A verdict names the sender of its frame. -/
theorem feed_senderId {c c' : Coordinator} {f : List UInt8} {v : Verdict}
    (h : d.feed config c f = .ok (c', some v)) : v.senderId = frameSender f := by
  by_cases hf : f.length < headerSize
  · cases d with
    | cpp => simp [feed, push_of_short hf] at h
    | cs => simp [feed, decode_of_short hf] at h
  · rw [feed_eq d (not_lt.mp hf) rfl, receive_eq, Machine.bind_eq_ok] at h
    obtain ⟨⟨⟨m, sl⟩, v'⟩, hslot, hok⟩ := h
    simp only [Except.ok.injEq, Prod.mk.injEq, Option.some.injEq] at hok
    rw [← hok.2]
    exact (slotStep_verdict hslot).1

theorem deliveredFrom_eq_outputsOf (s : UInt8) {c c' : Coordinator} {frames : List (List UInt8)}
    {os : List (Option Verdict)} (h : Machine.run (d.feed config) c frames = .ok (c', os)) :
    deliveredFrom s os =
      (Machine.outputsOf frameSender s frames os).filterMap fun o => o.bind Verdict.buffer := by
  induction frames generalizing c os with
  | nil =>
      simp only [Machine.run_nil, Except.ok.injEq, Prod.mk.injEq] at h
      simp [← h.2, deliveredFrom]
  | cons f frames ih =>
      obtain ⟨c₁, o, os', hfeed, hrun, rfl⟩ := Machine.run_cons_eq_ok.mp h
      have ih := ih hrun
      simp only [deliveredFrom] at ih ⊢
      rw [Machine.outputsOf_cons, List.filterMap_cons, ih]
      cases o with
      | none => by_cases hs : frameSender f = s <;> simp [hs]
      | some v =>
          have hv := feed_senderId hfeed
          by_cases hs : frameSender f = s
          · simp only [Option.bind_some, hv, hs, if_true, List.filterMap_cons]
          · simp [hv, hs]

end Decoder

end CustomData
