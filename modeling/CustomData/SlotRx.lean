/-
CustomData/SlotRx.lean

Packages in the slots of the decoders.

`p.InSlot R slot` says that a slot holds the slices `R` of `p`: the state is
the closed form of `R`, and the bytes of these slices are in the buffer.  One
frame of `p` then does four things, all of them functions of `R` and the two
generations (`Package.InSlot.feed`): the lazy reset leaves `p.survivors`, the
new slice is added, a whole package is delivered, and after a delivery the
slot is clear again.  Nothing about the bytes is left to prove after this
module.
-/
import CustomData.Reassembly
import CustomData.Decoder

namespace CustomData

open Collect

variable {P : ℕ}

/-! ### A package in a slot -/

/-- The slot holds the slices `R` of the package. -/
structure Package.InSlot (p : Package P) (R : Finset ℕ) (slot : Slot) : Prop where
  tracks : p.Tracks .zero R slot.state
  bytes : ∀ j, j / P ∈ R → j < p.data.length → slot.data[j]? = p.data[j]?

namespace Package

variable {p : Package P} {R : Finset ℕ} {slot : Slot} {i : ℕ}

/-- What the lazy reset leaves of the slices `R`: an older generation loses
them, unless none of them was counted. -/
def survivors (p : Package P) (R : Finset ℕ) (stale : Bool) : Finset ℕ :=
  if stale ∧ ∃ i ∈ R, p.Counted i then ∅ else R

/-- The slices held after slice `i`; a whole package leaves the slot clear. -/
def after (p : Package P) (R : Finset ℕ) (i : ℕ) : Finset ℕ :=
  if insert i R = Finset.range (p.full + 1) then ∅ else insert i R

/-- What slice `i` delivers. -/
def delivery (p : Package P) (R : Finset ℕ) (i : ℕ) : Option (List UInt8) :=
  if insert i R = Finset.range (p.full + 1) then some p.data else none

/-- A clear slot holds nothing of any package. -/
theorem inSlot_empty (p : Package P) (h : slot.state = .zero) : p.InSlot ∅ slot where
  tracks := h ▸ p.fresh_zero.tracks
  bytes := by simp

theorem InSlot.state_eq_zero (h : p.InSlot ∅ slot) : slot.state = .zero := by
  have hcount := h.tracks.count
  have hterm := h.tracks.termination
  have hwm := h.tracks.watermark
  refine RxSliceState.ext_has (fun i => ?_) ?_ ?_ ?_
  · rw [RxSliceState.has_zero, Bool.eq_false_iff, ne_eq, h.tracks.bits]
    simp
  · exact UInt16.toNat_inj.mp (by simpa using hcount)
  · exact UInt16.toNat_inj.mp (by simpa using hterm)
  · exact UInt16.toNat_inj.mp (by simpa [RxSliceState.zero] using hwm)

/-- The guard of the reset: something counted was received. -/
theorem InSlot.receivedCount_ne_zero_iff (h : p.InSlot R slot) :
    slot.state.receivedCount.toNat ≠ 0 ↔ ∃ i ∈ R, p.Counted i := by
  have hcount := h.tracks.count
  rw [show RxSliceState.zero.receivedCount.toNat = 0 from rfl, Nat.zero_add] at hcount
  rw [hcount, ← Nat.pos_iff_ne_zero, Finset.card_pos]
  simp [Finset.Nonempty]

/-- The lazy reset on a slot that holds a package. -/
theorem InSlot.gcClockHook (h : p.InSlot R slot) (m : SenderMeta) :
    p.InSlot (p.survivors R (slot.gen != m.gen)) (slot.gcClockHook m) := by
  have hstate := slot.gcClockHook_state m
  simp only [h.receivedCount_ne_zero_iff] at hstate
  simp only [survivors, bne_iff_ne]
  by_cases hg : slot.gen ≠ m.gen ∧ ∃ i ∈ R, p.Counted i
  · rw [if_pos hg]
    exact p.inSlot_empty (by rw [hstate, if_pos hg.symm])
  · rw [if_neg hg]
    rw [if_neg (fun hn => hg hn.symm)] at hstate
    exact ⟨hstate ▸ h.tracks, by simpa using h.bytes⟩

@[simp] theorem survivors_empty (p : Package P) (stale : Bool) : p.survivors ∅ stale = ∅ := by
  simp [survivors]

theorem survivors_subset (p : Package P) (R : Finset ℕ) (stale : Bool) :
    p.survivors R stale ⊆ R := by
  unfold survivors
  split <;> simp

/-! ### Storing a slice -/

/-- Storing slice `i` keeps the bytes of the other slices and adds its own. -/
theorem store_payload (d : Decoder) {data : List UInt8}
    (h : ∀ j, j / P ∈ R → j < p.data.length → data[j]? = p.data[j]?) (hi : i ≤ p.full) :
    ∀ j, j / P ∈ insert i R → j < p.data.length →
      (d.store data (i * P) (p.payload i))[j]? = p.data[j]? := by
  have hP := p.capacity_pos
  have hend := p.offset_add_size_le hi
  have hsz : p.size i = min P (p.data.length - i * P) := rfl
  intro j hj hlt
  have hdiv := Nat.div_mul_le_self j P
  have hmod := Nat.lt_div_mul_add (a := j) hP
  by_cases hji : j / P = i
  · -- a byte of slice `i`
    rw [hji] at hdiv hmod
    have hne : (p.payload i).isEmpty = false := by
      rw [List.isEmpty_eq_false_iff_exists_mem]
      have hpos : 0 < (p.payload i).length := by rw [p.length_payload]; omega
      exact ⟨_, List.getElem_mem hpos⟩
    have hstore : d.store data (i * P) (p.payload i) =
        overwrite data (i * P) (p.payload i) := by
      cases d with
      | cpp => simp [Decoder.store, hne]
      | cs => rfl
    rw [hstore, overwrite_getElem?_of_mem hdiv (by rw [p.length_payload]; omega), payload,
      List.getElem?_take, if_pos (by omega), List.getElem?_drop]
    congr 1
    omega
  · -- a byte of a slice received before
    have hjR : j / P ∈ R := (Finset.mem_insert.mp hj).resolve_left hji
    have hold := h j hjR hlt
    have hin : j < data.length := by
      rw [List.getElem?_eq_getElem hlt] at hold
      exact (List.getElem?_eq_some_iff.mp hold).1
    have hout : j < i * P ∨ i * P + (p.payload i).length ≤ j := by
      rw [p.length_payload]
      by_contra hcon
      refine hji (Nat.div_eq_of_lt_le (by omega) ?_)
      have := Nat.add_one_mul i P
      omega
    rw [← hold]
    cases d with
    | cpp =>
        simp only [Decoder.store]
        split
        · rfl
        · exact overwrite_getElem?_of_notMem hout hin
    | cs => exact overwrite_getElem?_of_notMem hout hin

/-- All bytes in place: the buffer starts with the data. -/
theorem take_eq_data {data : List UInt8}
    (h : ∀ j < p.data.length, data[j]? = p.data[j]?) :
    p.data.length ≤ data.length ∧ data.take p.data.length = p.data := by
  have hlen : p.data.length ≤ data.length := by
    by_contra hlt
    have hpos := p.nonempty
    have := h (p.data.length - 1) (by omega)
    rw [List.getElem?_eq_getElem (by omega : p.data.length - 1 < p.data.length),
      List.getElem?_eq_none (by omega)] at this
    cases this
  refine ⟨hlen, List.ext_getElem? fun j => ?_⟩
  rw [List.getElem?_take]
  split
  · rename_i hj
    exact h j hj
  · rw [List.getElem?_eq_none (by omega)]

/-! ### One frame -/

/-- The verdict on slice `i` of a package of which the slices `R` are there. -/
def verdict (p : Package P) (sender serial : UInt8) (R : Finset ℕ) (i : ℕ) : Verdict where
  senderId := sender
  packageId := serial
  e := if i ∈ R then .duplicate
    else if insert i R = Finset.range (p.full + 1) then .complete
    else if i = frontier R then .newSliceInOrder else .newSliceOutOfOrder
  buffer := p.delivery R i

/-- An up-to-date slot takes one more slice. -/
theorem InSlot.slotStep_of_gen (h : p.InSlot R slot) (d : Decoder) (hi : i ≤ p.full)
    (sender serial : UInt8) {m : SenderMeta} (hgen : slot.gen = (m.gcHook serial).gen) :
    ∃ slot', d.slotStep (maxPayload (Config.ofPayload P)) m slot (p.header sender serial i)
        (UInt16.ofNat (p.size i)) (p.payload i) =
          .ok ((m.gcHook serial, slot'), p.verdict sender serial R i) ∧
      p.InSlot (p.after R i) slot' ∧ slot'.gen = (m.gcHook serial).gen := by
  have hP := p.maxPayload_config
  have hhook : slot.gcClockHook (m.gcHook serial) = slot := Slot.gcClockHook_of_gen hgen
  have hserial : (p.header sender serial i).sliceSerial = UInt8.ofNat i := rfl
  have hpkg : (p.header sender serial i).packageSerial = serial := rfl
  have hsender : (p.header sender serial i).senderId = sender := rfl
  simp only [Decoder.slotStep, Decoder.slotStepWith, Bool.false_eq_true, if_false, header_eop,
    hserial, p.sliceIdxToOffset_slice hP hi, hpkg, hsender, hhook]
  -- a repeat, the slice that closes the package, or a slice that leaves it open
  by_cases hiR : i ∈ R
  · have hopen : insert i R ≠ Finset.range (p.full + 1) := by
      rw [Finset.insert_eq_self.mpr hiR]
      exact h.tracks.missing
    rw [h.tracks.step_of_mem hiR, Machine.ok_bind, if_pos rfl]
    refine ⟨slot, by simp [verdict, delivery, hiR, h.tracks.missing], ?_, hgen⟩
    rwa [after, if_neg hopen, Finset.insert_eq_self.mpr hiR]
  · have hbytes := store_payload d h.bytes hi
    by_cases hall : insert i R = Finset.range (p.full + 1)
    · obtain ⟨s', hstep, hterm, -⟩ := h.tracks.step_of_insert_eq p.fresh_zero hP hi hiR hall
      -- the termination cuts the buffer to the data, whatever lies behind it
      obtain ⟨hlen, htake⟩ := p.take_eq_data (fun j hj => hbytes j
        (hall ▸ Finset.mem_range.mpr (Nat.lt_succ_iff.mpr (p.div_le_full hj))) hj)
      rw [hstep, Machine.ok_bind, if_neg (by simp), if_pos rfl, hterm, if_neg (not_lt.mpr hlen),
        htake]
      refine ⟨⟨.zero, d.store slot.data (i * P) (p.payload i), slot.gen⟩,
        by simp [verdict, delivery, hiR, hall], ?_, hgen⟩
      rw [after, if_pos hall]
      exact p.inSlot_empty rfl
    · obtain ⟨s', hstep, htr⟩ := h.tracks.step_of_insert_ne p.fresh_zero hP hi hiR hall (Or.inl rfl)
      rw [hstep, Machine.ok_bind]
      rw [if_neg (openEvent_ne R i).1, if_neg (openEvent_ne R i).2]
      refine ⟨⟨s', d.store slot.data (i * P) (p.payload i), slot.gen⟩,
        by simp [verdict, delivery, hiR, hall], ?_, hgen⟩
      rw [after, if_neg hall]
      exact ⟨htr, hbytes⟩

theorem handed_verdict (p : Package P) (sender serial : UInt8) (R : Finset ℕ) (i : ℕ) :
    handed [some (p.verdict sender serial R i)] = (p.delivery R i).toList := by
  simp only [handed, List.filterMap_cons, List.filterMap_nil, Option.bind_some, verdict]
  cases p.delivery R i <;> rfl

/-! ### One frame in the table -/

/-- `c'` differs from `c` in the meta element of the sender, which has seen
`serial`, and in the slot of `(sender, serial)`, which is up to date. -/
structure Touched (c c' : Coordinator) (sender serial : UInt8) : Prop where
  senderMeta : c'.senderMeta sender = (c.senderMeta sender).gcHook serial
  gen : (c'.slots (Coordinator.slotIndex sender serial)).gen = (c'.senderMeta sender).gen
  otherMeta : ∀ s, s ≠ sender → c'.senderMeta s = c.senderMeta s
  otherSlots : ∀ s k, (s ≠ sender ∨ k ≠ serial) →
    c'.slots (Coordinator.slotIndex s k) = c.slots (Coordinator.slotIndex s k)

/-- The survivors in the slot of `(sender, serial)` when its next frame comes. -/
def kept (p : Package P) (R : Finset ℕ) (c : Coordinator) (sender serial : UInt8) : Finset ℕ :=
  p.survivors R ((c.slots (Coordinator.slotIndex sender serial)).gen !=
    ((c.senderMeta sender).gcHook serial).gen)

variable {sender serial : UInt8} {f : List UInt8} {c : Coordinator}

/-- A decoder reads a frame of a package as what it is. -/
theorem IsFrame.feed_eq (hf : p.IsFrame sender serial i f) (hs : sender.toNat < 8) (d : Decoder) :
    d.feed (Config.ofPayload P) c f =
      d.receive (Config.ofPayload P) c (p.header sender serial i) (UInt16.ofNat (p.size i))
        (p.payload i) :=
  d.feed_of_starts (header_fits hs) p.capacity_le (by rw [header_size_toNat, p.length_payload])
    (by rw [p.length_payload]; exact p.size_le i) hf.length hf.starts

/-- One frame of a package whose slot, once refreshed, holds the slices `R`. -/
theorem InSlot.feed_of_refreshed
    (h : p.InSlot R ((c.slots (Coordinator.slotIndex sender serial)).gcClockHook
      ((c.senderMeta sender).gcHook serial)))
    (hf : p.IsFrame sender serial i f) (hs : sender.toNat < 8) (d : Decoder) :
    ∃ c', d.feed (Config.ofPayload P) c f = .ok (c', some (p.verdict sender serial R i)) ∧
      p.InSlot (p.after R i) (c'.slots (Coordinator.slotIndex sender serial)) ∧
      Touched c c' sender serial := by
  obtain ⟨slot', hstep, hin, hgen⟩ :=
    h.slotStep_of_gen d hf.slice_le sender serial (Slot.gcClockHook_gen _ _)
  refine ⟨Decoder.putBack c sender serial ((c.senderMeta sender).gcHook serial, slot'), ?_, ?_, ?_⟩
  -- refreshing the slot beforehand changes nothing, the step does it again
  · rw [hf.feed_eq hs, Decoder.receive_eq, ← Decoder.slotStep_gcClockHook]
    exact Machine.bind_eq_ok.mpr ⟨_, hstep, rfl⟩
  · simpa [Decoder.putBack] using hin
  · refine ⟨by simp [Decoder.putBack], by simpa [Decoder.putBack] using hgen, fun s hs' => ?_,
      fun s k hsk => ?_⟩
    · simp [Decoder.putBack, hs']
    · simp only [Decoder.putBack, Function.update_apply, Coordinator.slotIndex_inj]
      rw [if_neg (by tauto)]

/-- **One frame of a package.**  Either decoder drops what the lazy reset
drops, adds the slice, and delivers the package if that makes it whole. -/
theorem InSlot.feed (h : p.InSlot R (c.slots (Coordinator.slotIndex sender serial)))
    (hf : p.IsFrame sender serial i f) (hs : sender.toNat < 8) (d : Decoder) :
    ∃ c', d.feed (Config.ofPayload P) c f =
        .ok (c', some (p.verdict sender serial (p.kept R c sender serial) i)) ∧
      p.InSlot (p.after (p.kept R c sender serial) i)
        (c'.slots (Coordinator.slotIndex sender serial)) ∧
      Touched c c' sender serial :=
  (h.gcClockHook ((c.senderMeta sender).gcHook serial)).feed_of_refreshed hf hs d

theorem InSlot.kept_ne (h : p.InSlot R (c.slots (Coordinator.slotIndex sender serial))) :
    p.kept R c sender serial ≠ Finset.range (p.full + 1) :=
  (h.gcClockHook ((c.senderMeta sender).gcHook serial)).tracks.missing

/-- COMPLETE is the verdict exactly where the package is whole. -/
theorem verdict_complete_iff (h : R ≠ Finset.range (p.full + 1)) :
    (p.verdict sender serial R i).e = .complete ↔ insert i R = Finset.range (p.full + 1) := by
  simp only [verdict]
  by_cases hi : i ∈ R
  · simp [hi, h]
  · by_cases hall : insert i R = Finset.range (p.full + 1)
    · simp [hi, hall]
    · simp only [hi, hall, if_false, iff_false]
      split <;> simp

/-! ### The frames of one package in a row -/

theorem Touched.trans {c₁ c₂ : Coordinator} (h₁ : Touched c c₁ sender serial)
    (h₂ : Touched c₁ c₂ sender serial) : Touched c c₂ sender serial where
  senderMeta := by rw [h₂.senderMeta, h₁.senderMeta, SenderMeta.gcHook_gcHook]
  gen := h₂.gen
  otherMeta := fun s hs => (h₂.otherMeta s hs).trans (h₁.otherMeta s hs)
  otherSlots := fun s k hsk => (h₂.otherSlots s k hsk).trans (h₁.otherSlots s k hsk)

/-- The next frame of the same package finds its slot up to date. -/
theorem Touched.refreshed {c' : Coordinator} (h : Touched c c' sender serial) :
    (c'.slots (Coordinator.slotIndex sender serial)).gcClockHook
      ((c'.senderMeta sender).gcHook serial) =
      c'.slots (Coordinator.slotIndex sender serial) := by
  apply Slot.gcClockHook_of_gen
  rw [h.gen, h.senderMeta, SenderMeta.gcHook_gcHook]

/-- What a slot holds once the slices `S` have arrived. -/
def heldAfter (p : Package P) (S : Finset ℕ) : Finset ℕ :=
  if S = Finset.range (p.full + 1) then ∅ else S

/-- What the slices `S` deliver together. -/
def handedAfter (p : Package P) (S : Finset ℕ) : List (List UInt8) :=
  if S = Finset.range (p.full + 1) then [p.data] else []

/-- **The frames of one package in a row**, without repeats, to a slot that is
clear for the package once refreshed. -/
theorem run_package (hs : sender.toNat < 8) (d : Decoder) {order : List ℕ}
    {frames : List (List UInt8)} (hframes : p.AreFrames sender serial order frames)
    (hne : order ≠ []) (hnodup : order.Nodup) (hdisj : ∀ i ∈ order, i ∉ R)
    (h : p.InSlot R ((c.slots (Coordinator.slotIndex sender serial)).gcClockHook
      ((c.senderMeta sender).gcHook serial))) :
    ∃ c' os, Machine.run (d.feed (Config.ofPayload P)) c frames = .ok (c', os) ∧
      p.InSlot (p.heldAfter (R ∪ order.toFinset))
        (c'.slots (Coordinator.slotIndex sender serial)) ∧
      Touched c c' sender serial ∧ handed os = p.handedAfter (R ∪ order.toFinset) := by
  induction hframes generalizing c R with
  | nil => exact absurd rfl hne
  | @cons i f order frames hf hframes ih =>
      have hunion : R ∪ (i :: order).toFinset = insert i R ∪ order.toFinset := by
        rw [List.toFinset_cons, Finset.union_insert, Finset.insert_union]
      obtain ⟨c₁, hfeed, hin, htouch⟩ := h.feed_of_refreshed hf hs d
      rw [hunion]
      cases order with
      | nil =>
          obtain rfl : frames = [] := by cases hframes; rfl
          rw [List.toFinset_nil, Finset.union_empty]
          refine ⟨c₁, _, Machine.run_singleton_of_ok hfeed, hin, htouch, ?_⟩
          rw [handed_verdict, delivery, handedAfter]
          split <;> rfl
      | cons j order =>
          -- another slice is to come, so this one does not close the package
          have hj : j ∉ insert i R := by
            rw [Finset.mem_insert, not_or]
            refine ⟨fun he => ?_, hdisj j (by simp)⟩
            rw [he] at hnodup
            simp at hnodup
          have hopen : insert i R ≠ Finset.range (p.full + 1) := by
            intro hall
            cases hframes with
            | cons hfj _ =>
                exact hj (hall ▸ Finset.mem_range.mpr (Nat.lt_succ_iff.mpr hfj.slice_le))
          rw [after, if_neg hopen, ← htouch.refreshed] at hin
          obtain ⟨c', os, hrun, hin', htouch', hhanded⟩ := ih (by simp) hnodup.of_cons
            (fun k hk => by
              rw [Finset.mem_insert, not_or]
              exact ⟨fun he => (List.nodup_cons.mp hnodup).1 (he ▸ hk),
                hdisj k (List.mem_cons_of_mem _ hk)⟩) hin
          refine ⟨c', _, Machine.run_cons_of_ok hfeed hrun, hin',
            htouch.trans htouch', ?_⟩
          have hnone : handed [some (p.verdict sender serial R i)] = [] := by
            rw [handed_verdict, delivery, if_neg hopen]
            rfl
          rw [← List.singleton_append, handed_append, hnone, hhanded]
          rfl

end Package

end CustomData
