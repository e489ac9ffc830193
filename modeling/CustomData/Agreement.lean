/-
CustomData/Agreement.lean

The C++ and the C# decoder agree.

The C++ decoder starts with arbitrary generations.  Two tables are `Alike` when
the generations of each sender differ by a constant — at the slots where they
matter, those with a counted slice — and the buffers hold the same bytes up to
zeros at the end.  A C++ step is matched by a step of either decoder from an
alike table, with the same verdict (`TableAlike.feed`).  With the C# table this says
that the two decoders agree; with another C++ table it says that the initial
generations do not matter.
-/
import CustomData.Senders

namespace CustomData

namespace Decoder

variable {config : Config}

/-! ### Alike tables -/

/-- The generations differ by `shift` where it matters, and `b` holds the bytes
of `a`, with zeros behind them. -/
structure SlotAlike (shift : UInt8) (a b : Slot) : Prop where
  state : a.state = b.state
  gen : a.state.receivedCount.toNat = 0 ∨ b.gen = a.gen + shift
  length_le : a.data.length ≤ b.data.length
  bytes : ∀ j, a.data.getD j 0 = b.data.getD j 0

/-- The components of a sender agree up to a shift of the generations; before
the first frame the meta elements need not agree at all. -/
def Alike (v w : SenderView) : Prop :=
  ∃ shift, (∀ k, SlotAlike shift (v.2 k) (w.2 k)) ∧
    ((v.1.pkg = w.1.pkg ∧ w.1.gen = v.1.gen + shift) ∨
      ∀ k, (v.2 k).state.receivedCount.toNat = 0)

theorem alike_fresh (m m' : UInt8 → SenderMeta) (s : UInt8) :
    Alike (senderView (.fresh m) s) (senderView (.fresh m') s) :=
  ⟨0, fun _ => ⟨rfl, Or.inl rfl, le_rfl, fun _ => rfl⟩, Or.inr fun _ => rfl⟩

/-- After the hook the meta elements agree up to a shift in any case. -/
theorem Alike.exists_shift {v w : SenderView} (h : Alike v w) (k : UInt8) :
    ∃ shift, (∀ k, SlotAlike shift (v.2 k) (w.2 k)) ∧
      (w.1.gcHook k).gen = (v.1.gcHook k).gen + shift := by
  obtain ⟨shift, hslots, ⟨hpkg, hgen⟩ | hclear⟩ := h
  · refine ⟨shift, hslots, ?_⟩
    simp only [SenderMeta.gcHook, hpkg, hgen]
    split
    · rw [UInt8.add_assoc, UInt8.add_assoc, UInt8.add_comm shift]
    · rfl
  -- nothing is counted yet, so any shift will do, and this one fits the meta elements
  · refine ⟨(w.1.gcHook k).gen - (v.1.gcHook k).gen, fun k' => ?_, ?_⟩
    swap
    · rw [UInt8.add_comm, UInt8.sub_add_cancel]
    exact ⟨(hslots k').state, Or.inl (hclear k'), (hslots k').length_le, (hslots k').bytes⟩

/-- The reset hits both slots or none. -/
theorem SlotAlike.gcClockHook {shift : UInt8} {a b : Slot} (h : SlotAlike shift a b)
    {m m' : SenderMeta} (hgen : m'.gen = m.gen + shift) :
    SlotAlike shift (a.gcClockHook m) (b.gcClockHook m') where
  state := by
    rw [Slot.gcClockHook_state, Slot.gcClockHook_state, ← h.state]
    rcases h.gen with hz | hg
    · simp [hz]
    · have : b.gen ≠ m'.gen ↔ a.gen ≠ m.gen := by
        rw [hg, hgen, ne_eq, UInt8.add_left_inj]
      simp only [this]
  gen := Or.inr (by simp [hgen])
  length_le := by simpa using h.length_le
  bytes := by simpa using h.bytes

theorem overwrite_getD (data : List UInt8) (offset : ℕ) (payload : List UInt8) (j : ℕ) :
    (overwrite data offset payload).getD j 0 =
      if offset ≤ j ∧ j < offset + payload.length then payload.getD (j - offset) 0
      else data.getD j 0 := by
  split
  · rename_i h
    rw [List.getD_eq_getElem?_getD, overwrite_getElem?_of_mem h.1 h.2,
      ← List.getD_eq_getElem?_getD]
  · exact overwrite_getD_of_notMem (by omega)

/-- Storing a payload keeps the buffers alike, also where C++ skips an empty
payload. -/
theorem store_alike (d : Decoder) {a b : List UInt8} (hlen : a.length ≤ b.length)
    (hbytes : ∀ j, a.getD j 0 = b.getD j 0) (offset : ℕ) (payload : List UInt8) :
    (cpp.store a offset payload).length ≤ (d.store b offset payload).length ∧
      ∀ j, (cpp.store a offset payload).getD j 0 = (d.store b offset payload).getD j 0 := by
  have hnil : payload.length = 0 → ∀ j, (overwrite b offset payload).getD j 0 = b.getD j 0 := by
    intro hz j
    rw [overwrite_getD, if_neg (by omega)]
  cases d with
  | cpp =>
      simp only [store]
      split
      · exact ⟨hlen, hbytes⟩
      · simp only [overwrite_length, overwrite_getD, hbytes]
        exact ⟨by omega, fun _ => trivial⟩
  | cs =>
      simp only [store]
      split
      · rename_i hz
        rw [List.isEmpty_iff_length_eq_zero] at hz
        refine ⟨by rw [overwrite_length]; omega, fun j => by rw [hnil hz, hbytes]⟩
      · simp only [overwrite_length, overwrite_getD, hbytes]
        exact ⟨by omega, fun _ => trivial⟩

theorem take_eq_of_getD {a b : List UInt8} {n : ℕ} (ha : n ≤ a.length) (hb : n ≤ b.length)
    (h : ∀ j, a.getD j 0 = b.getD j 0) : a.take n = b.take n := by
  apply List.ext_getElem (by simp [ha, hb])
  intro j hj hj'
  simp only [List.length_take] at hj hj'
  have := h j
  rw [List.getD_eq_getElem _ _ (by omega), List.getD_eq_getElem _ _ (by omega)] at this
  simpa using this

/-- A step of C++ on a slot is matched by either decoder on an alike slot. -/
theorem SlotAlike.slotStep {shift : UInt8} {a b : Slot} (h : SlotAlike shift a b)
    {m m' : SenderMeta} {header : HeaderMeta}
    (hgen : (m'.gcHook header.packageSerial).gen = (m.gcHook header.packageSerial).gen + shift)
    {P size : UInt16} {payload : List UInt8} {m₁ : SenderMeta} {a₁ : Slot} {o : Verdict}
    (hstep : cpp.slotStep P m a header size payload = .ok ((m₁, a₁), o)) (d : Decoder) :
    ∃ b₁, d.slotStep P m' b header size payload =
        .ok ((m'.gcHook header.packageSerial, b₁), o) ∧
      m₁ = m.gcHook header.packageSerial ∧ SlotAlike shift a₁ b₁ := by
  have hhook := h.gcClockHook hgen
  -- both slots carry the generation of their sender now
  have hgen' : (b.gcClockHook (m'.gcHook header.packageSerial)).gen =
      (a.gcClockHook (m.gcHook header.packageSerial)).gen + shift := by
    rw [Slot.gcClockHook_gen, Slot.gcClockHook_gen, hgen]
  simp only [Decoder.slotStep, Decoder.slotStepWith, Bool.false_eq_true, if_false] at hstep ⊢
  generalize a.gcClockHook (m.gcHook header.packageSerial) = a' at hhook hstep hgen'
  generalize b.gcClockHook (m'.gcHook header.packageSerial) = b' at hhook hgen'
  obtain ⟨hlen, hbytes⟩ := store_alike d hhook.length_le hhook.bytes
    (sliceIdxToOffset header.sliceSerial P).toNat payload
  rw [Machine.bind_eq_ok] at hstep
  obtain ⟨⟨e, next⟩, hcalc, hstep⟩ := hstep
  rw [← hhook.state, hcalc, Machine.ok_bind]
  by_cases hd : e = .duplicate
  · simp only [hd, if_true, Except.ok.injEq, Prod.mk.injEq] at hstep ⊢
    obtain ⟨⟨rfl, rfl⟩, rfl⟩ := hstep
    exact ⟨b', by simp, rfl, hhook⟩
  · by_cases hc : e = .complete
    · simp only [hc, reduceCtorEq, if_false, if_true] at hstep ⊢
      split at hstep
      · cases hstep
      -- the stale bytes behind the payloads are alike as well
      · rename_i hterm
        simp only [Except.ok.injEq, Prod.mk.injEq] at hstep
        obtain ⟨⟨rfl, rfl⟩, rfl⟩ := hstep
        rw [if_neg (by omega), take_eq_of_getD (by omega) (by omega) hbytes]
        exact ⟨_, rfl, rfl, rfl, Or.inl rfl, hlen, hbytes⟩
    · simp only [hd, hc, if_false, Except.ok.injEq, Prod.mk.injEq] at hstep ⊢
      obtain ⟨⟨rfl, rfl⟩, rfl⟩ := hstep
      exact ⟨⟨next, d.store b'.data (sliceIdxToOffset header.sliceSerial P).toNat payload, b'.gen⟩,
        by simp, rfl, rfl, Or.inr hgen', hlen, hbytes⟩

/-- A step of C++ on a sender is matched by either decoder. -/
theorem Alike.senderStep {v w v₁ : SenderView} (h : Alike v w) {f : List UInt8}
    {o : Option Verdict} (hstep : cpp.senderStep config v f = .ok (v₁, o)) (d : Decoder)
    (hf : headerSize ≤ f.length ∨ d = .cpp)
    (hclamp : ∀ size : UInt16, size.toNat < 4096 →
      cpp.clamp size (f.length - headerSize) = d.clamp size (f.length - headerSize)) :
    ∃ w₁, d.senderStep config w f = .ok (w₁, o) ∧ Alike v₁ w₁ := by
  by_cases hlt : f.length < headerSize
  · obtain rfl := hf.resolve_left (not_le.mpr hlt)
    simp only [Decoder.senderStep, hlt, if_true, Except.ok.injEq, Prod.mk.injEq] at hstep ⊢
    obtain ⟨rfl, rfl⟩ := hstep
    exact ⟨w, ⟨rfl, rfl⟩, h⟩
  · simp only [Decoder.senderStep, hlt, if_false, Machine.bind_eq_ok] at hstep ⊢
    obtain ⟨⟨⟨m₁, a₁⟩, verdict⟩, hslot, hok⟩ := hstep
    simp only [Except.ok.injEq, Prod.mk.injEq] at hok
    obtain ⟨rfl, rfl⟩ := hok
    obtain ⟨shift, hslots, hgen⟩ :=
      h.exists_shift (headerUnpack (arrayToPackedHeader f)).packageSerial
    obtain ⟨b₁, hb, rfl, halike⟩ := (hslots _).slotStep hgen hslot d
    rw [hclamp _ (headerUnpack_fits _).slicePayloadSize] at hb
    refine ⟨_, ⟨_, hb, rfl⟩, shift, fun k => ?_, Or.inl ⟨rfl, hgen⟩⟩
    simp only [Function.update_apply]
    split
    · exact halike
    · exact hslots k

/-! ### The two decoders agree -/

/-- The components of all senders are alike. -/
def TableAlike (c₁ c₂ : Coordinator) : Prop := ∀ s, Alike (senderView c₁ s) (senderView c₂ s)

theorem tableAlike_fresh (m m' : UInt8 → SenderMeta) : TableAlike (.fresh m) (.fresh m') :=
  fun s => alike_fresh m m' s

theorem clamp_eq {room : ℕ} (h : room < 2 ^ 16 ∨ 4095 ≤ room % 2 ^ 16) {size : UInt16}
    (hsize : size.toNat < 4096) : cpp.clamp size room = cs.clamp size room := by
  apply UInt16.toNat_inj.mp
  simp only [clamp, UInt16.toNat_min, UInt16.toNat_ofNat']
  omega

/-- A matched step of one sender is a matched step of the whole table. -/
theorem TableAlike.feed {c₁ c₁' c₂ : Coordinator} (h : TableAlike c₁ c₂)
    {f : List UInt8} {o : Option Verdict} (hfeed : push config c₁ f = .ok (c₁', o))
    (d : Decoder) (hf : headerSize ≤ f.length ∨ d = .cpp)
    (hclamp : ∀ size : UInt16, size.toNat < 4096 →
      cpp.clamp size (f.length - headerSize) = d.clamp size (f.length - headerSize)) :
    ∃ c₂', d.feed config c₂ f = .ok (c₂', o) ∧ TableAlike c₁' c₂' := by
  have hact := (feed_keyed .cpp config).acts c₁ f c₁' o hfeed
  obtain ⟨w, hw, halike⟩ := (h (frameSender f)).senderStep hact d hf hclamp
  obtain ⟨c₂', hfeed₂, rfl, hframe₂⟩ := feed_of_senderStep hw
  refine ⟨c₂', hfeed₂, fun s => ?_⟩
  by_cases hs : s = frameSender f
  · rw [hs]
    exact halike
  · rw [hframe₂ s hs, (feed_keyed .cpp config).frame c₁ f c₁' o s hfeed hs]
    exact h s

end Decoder

open Decoder

/-- **The C++ and the C# decoder agree.**  Whatever the C++ meta array holds at
the start, a C++ run without a fault is followed by the C# decoder, frame by
frame with the same class and the same buffer.  The frame size must survive
the C# cast to 16 bits, as far as a header can name it. -/
theorem decoders_agree {tu : ℕ} (htu : 5 ≤ tu)
    (hcast : tu - 4 < 2 ^ 16 ∨ 4095 ≤ (tu - 4) % 2 ^ 16) (senderMeta : UInt8 → SenderMeta)
    {frames : List (List UInt8)} (hlen : ∀ f ∈ frames, f.length = tu) {c : Coordinator}
    {os : List (Option Verdict)}
    (hrun : Machine.run (push ⟨UInt16.ofNat tu⟩) (.fresh senderMeta) frames = .ok (c, os)) :
    ∃ c', Machine.run (decode ⟨UInt16.ofNat tu⟩) (.fresh fun _ => ⟨0, 0⟩) frames =
      .ok (c', os) := by
  have hstep : ∀ c₁ c₁' c₂ f o, TableAlike c₁ c₂ → f.length = tu →
      push ⟨UInt16.ofNat tu⟩ c₁ f = .ok (c₁', o) →
      ∃ c₂', decode ⟨UInt16.ofNat tu⟩ c₂ f = .ok (c₂', o) ∧ TableAlike c₁' c₂' := by
    intro c₁ c₁' c₂ f o halike hf hfeed
    have hheader : headerSize ≤ f.length := by
      rw [hf]
      exact le_trans (by decide) htu
    exact halike.feed hfeed .cs (Or.inl hheader)
      fun size hsize => clamp_eq (by rw [hf]; exact hcast) hsize
  obtain ⟨c', hrun', -⟩ :=
    Machine.run_simulation hstep (tableAlike_fresh senderMeta fun _ => ⟨0, 0⟩) hlen hrun
  exact ⟨c', hrun'⟩

/-- A frame of one byte from sender 1. -/
theorem decoders_agree_single :
    ∃ c', Machine.run (decode ⟨UInt16.ofNat 6⟩) (.fresh fun _ => ⟨0, 0⟩) [[9, 0, 25, 0, 7, 0]] =
      .ok (c', [some ⟨1, 9, .complete, some [7]⟩]) := by
  obtain ⟨c, hrun⟩ : ∃ c, Machine.run (push ⟨UInt16.ofNat 6⟩) (.fresh fun _ => ⟨200, 3⟩)
      [[9, 0, 25, 0, 7, 0]] = .ok (c, [some ⟨1, 9, .complete, some [7]⟩]) :=
    Machine.exists_of_map_snd (by decide +kernel)
  exact decoders_agree (by decide) (by decide) _ (by decide) hrun

/-- Without the bound on the frame size the decoders part: at `65541` bytes the
C# cast leaves 1 of 65537 bytes, and a header that says 2 is clamped. -/
theorem decoders_disagree :
    ¬ ∀ (tu : ℕ) (senderMeta : UInt8 → SenderMeta) (frames : List (List UInt8)) (c : Coordinator)
        (os : List (Option Verdict)), 5 ≤ tu → (∀ f ∈ frames, f.length = tu) →
      Machine.run (push ⟨UInt16.ofNat tu⟩) (.fresh senderMeta) frames = .ok (c, os) →
      ∃ c', Machine.run (decode ⟨UInt16.ofNat tu⟩) (.fresh fun _ => ⟨0, 0⟩) frames =
        .ok (c', os) := by
  intro h
  let header : HeaderMeta := ⟨0, 0, 0, 1, 2⟩
  let f := packedHeaderToArray (headerPack header) ++ List.replicate 65537 0
  have hlen : f.length = 65541 := by
    rw [List.length_append, packedHeaderToArray_length, List.length_replicate]
    rfl
  have hheader : headerUnpack (arrayToPackedHeader f) = header :=
    headerUnpack_wire ⟨by decide, by decide, by decide⟩ _
  have hdrop : f.drop headerSize = List.replicate 65537 0 :=
    List.drop_left' (packedHeaderToArray_length _)
  have hle : headerSize ≤ f.length := by rw [hlen]; decide
  have hpush : push ⟨UInt16.ofNat 65541⟩ (.fresh fun _ => ⟨0, 0⟩) f = _ := push_eq hle hheader
  have hdecode : decode ⟨UInt16.ofNat 65541⟩ (.fresh fun _ => ⟨0, 0⟩) f = _ :=
    decode_eq hle hheader
  have hcpp : cpp.clamp header.slicePayloadSize (f.length - headerSize) = 2 := by
    rw [hlen]; decide
  have hcs : cs.clamp header.slicePayloadSize (f.length - headerSize) = 1 := by
    rw [hlen]; decide
  rw [hcpp, hdrop, show (2 : UInt16).toNat = 2 from rfl, List.take_replicate] at hpush
  rw [hcs, hdrop, show (1 : UInt16).toNat = 1 from rfl, List.take_replicate] at hdecode
  obtain ⟨c, hc⟩ : ∃ c, push ⟨UInt16.ofNat 65541⟩ (.fresh fun _ => ⟨0, 0⟩) f =
      .ok (c, some ⟨0, 0, .newSliceInOrder, none⟩) :=
    Machine.exists_of_map_snd (by rw [hpush]; decide +kernel)
  obtain ⟨c', hrun⟩ := h 65541 (fun _ => ⟨0, 0⟩) [f] c _ (by decide) (by simpa using hlen)
    (Machine.run_singleton_of_ok hc)
  obtain ⟨t, o, os, hstep, -, ho⟩ := Machine.run_cons_eq_ok.mp hrun
  obtain rfl : some ⟨0, 0, .newSliceInOrder, none⟩ = o := (List.cons.inj ho).1
  rw [hdecode] at hstep
  have hcomplete : (cs.receive ⟨UInt16.ofNat 65541⟩ (.fresh fun _ => ⟨0, 0⟩) header 1
      (List.replicate (min 1 65537) 0)).map Prod.snd = .ok (some ⟨0, 0, .complete, some [0]⟩) := by
    decide +kernel
  rw [hstep] at hcomplete
  simp [Except.map] at hcomplete

end CustomData
