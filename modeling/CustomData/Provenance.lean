/-
CustomData/Provenance.lean

Where the bytes of a package come from.

Nothing is assumed of the frames here: headers may claim anything, slices may
overlap, and a package may be completed with slices missing.  Even then a
decoder hands over no byte of another sender or of another serial: every byte
was carried to its place by a frame with the header of the package, or is a
zero from growing the buffer (`handed_provenance`).

The memory that such frames can take up is bounded as well: only the slots of
the table proper are ever written, and no buffer grows beyond the last offset
and one slice (`slots_bounded`).
-/
import CustomData.Interleaving

namespace CustomData

namespace Decoder

variable {d : Decoder} {config : Config} {c c' : Coordinator} {f : List UInt8}

/-! ### What one frame does to the buffers -/

/-- The bytes a frame brings, as far as its header and its length go. -/
def carried (d : Decoder) (f : List UInt8) : List UInt8 :=
  (f.drop headerSize).take
    (d.clamp (headerUnpack (arrayToPackedHeader f)).slicePayloadSize (f.length - headerSize)).toNat

/-- The place of a frame's bytes in its package. -/
def place (config : Config) (f : List UInt8) : ℕ :=
  (sliceIdxToOffset (headerUnpack (arrayToPackedHeader f)).sliceSerial (maxPayload config)).toNat

/-- The slot a frame claims. -/
def claimed (f : List UInt8) : ℕ :=
  Coordinator.slotIndex (headerUnpack (arrayToPackedHeader f)).senderId
    (headerUnpack (arrayToPackedHeader f)).packageSerial

/-- A step leaves the buffer or stores the payload, and hands over the front of
what it has stored. -/
theorem slotStep_data {P size : UInt16} {m m' : SenderMeta} {slot slot' : Slot}
    {header : HeaderMeta} {payload : List UInt8} {v : Verdict}
    (h : d.slotStep P m slot header size payload = .ok ((m', slot'), v)) :
    (slot'.data = slot.data ∨
      slot'.data = d.store slot.data (sliceIdxToOffset header.sliceSerial P).toNat payload) ∧
    ∀ buf, v.buffer = some buf → buf <+: slot'.data := by
  simp only [slotStep, slotStepWith, Bool.false_eq_true, if_false, Machine.bind_eq_ok,
    Slot.gcClockHook_data] at h
  obtain ⟨⟨e, next⟩, -, h⟩ := h
  by_cases hd : e = .duplicate
  · simp only [hd, if_true, Except.ok.injEq, Prod.mk.injEq] at h
    obtain ⟨⟨-, rfl⟩, rfl⟩ := h
    exact ⟨Or.inl (Slot.gcClockHook_data _ _), fun buf hbuf => by cases hbuf⟩
  · by_cases hc : e = .complete
    · simp only [hc, reduceCtorEq, if_false, if_true] at h
      split at h
      · cases h
      · simp only [Except.ok.injEq, Prod.mk.injEq] at h
        obtain ⟨⟨-, rfl⟩, rfl⟩ := h
        refine ⟨Or.inr rfl, fun buf hbuf => ?_⟩
        rw [← Option.some.inj hbuf]
        exact List.take_prefix _ _
    · simp only [hd, hc, if_false, Except.ok.injEq, Prod.mk.injEq] at h
      obtain ⟨⟨-, rfl⟩, rfl⟩ := h
      exact ⟨Or.inr rfl, fun buf hbuf => by cases hbuf⟩

/-- What a decoder does with a frame, as far as the buffers go. -/
theorem feed_data {o : Option Verdict} (h : d.feed config c f = .ok (c', o)) :
    (∀ i, i ≠ claimed f → c'.slots i = c.slots i) ∧
    ((c'.slots (claimed f)).data = (c.slots (claimed f)).data ∨
      (c'.slots (claimed f)).data =
        d.store (c.slots (claimed f)).data (place config f) (carried d f)) ∧
    ∀ v buf, o = some v → v.buffer = some buf →
      Coordinator.slotIndex v.senderId v.packageId = claimed f ∧
        buf <+: (c'.slots (claimed f)).data := by
  by_cases hf : f.length < headerSize
  · cases d with
    | cpp =>
        simp only [feed, push_of_short hf, Except.ok.injEq, Prod.mk.injEq] at h
        obtain ⟨rfl, rfl⟩ := h
        exact ⟨fun _ _ => rfl, Or.inl rfl, fun v _ hv => by cases hv⟩
    | cs => simp [feed, decode_of_short hf] at h
  · rw [feed_eq d (not_lt.mp hf) rfl, receive_eq, Machine.bind_eq_ok] at h
    obtain ⟨⟨⟨m, sl⟩, v'⟩, hslot, hok⟩ := h
    simp only [Except.ok.injEq, Prod.mk.injEq] at hok
    obtain ⟨rfl, rfl⟩ := hok
    obtain ⟨hdata, hprefix⟩ := slotStep_data hslot
    obtain ⟨hsender, hpackage⟩ := slotStep_verdict hslot
    have hput : ∀ c s k (w : SenderMeta × Slot),
        (putBack c s k w).slots (Coordinator.slotIndex s k) = w.2 := by simp [putBack]
    refine ⟨fun i hi => Function.update_of_ne hi _ _, ?_, ?_⟩
    · rw [claimed, hput]
      exact hdata
    · intro v buf hv hbuf
      obtain rfl := Option.some.inj hv
      rw [claimed, hput]
      exact ⟨by rw [hsender, hpackage], hprefix buf hbuf⟩

/-! ### The origin of a byte -/

/-- A frame brings byte `b` to position `j` of the package in slot `i`. -/
def Carries (d : Decoder) (config : Config) (i j : ℕ) (b : UInt8) (f : List UInt8) : Prop :=
  claimed f = i ∧ place config f ≤ j ∧ (carried d f)[j - place config f]? = some b

/-- Every byte of every buffer has been brought to its place by one of the
frames, or is zero. -/
def Traced (d : Decoder) (config : Config) (past : List (List UInt8)) (c : Coordinator) : Prop :=
  ∀ i j b, (c.slots i).data[j]? = some b → b = 0 ∨ ∃ f ∈ past, Carries d config i j b f

theorem traced_fresh (m : UInt8 → SenderMeta) : Traced d config [] (.fresh m) := by
  intro i j b hb
  simp [Coordinator.fresh, Slot.empty] at hb

/-- A byte of a buffer into which a payload was stored is one of the payload,
an old one, or zero. -/
theorem store_getElem? {data payload : List UInt8} {offset j : ℕ} {b : UInt8}
    (h : (d.store data offset payload)[j]? = some b) :
    (offset ≤ j ∧ payload[j - offset]? = some b) ∨ data[j]? = some b ∨ b = 0 := by
  have hover : (overwrite data offset payload)[j]? = some b →
      (offset ≤ j ∧ payload[j - offset]? = some b) ∨ data[j]? = some b ∨ b = 0 := by
    intro hb
    by_cases hin : offset ≤ j ∧ j < offset + payload.length
    · exact Or.inl ⟨hin.1, by rw [← overwrite_getElem?_of_mem hin.1 hin.2, hb]⟩
    · have hout : j < offset ∨ offset + payload.length ≤ j := by omega
      have hold : (overwrite data offset payload).getD j 0 = data.getD j 0 :=
        overwrite_getD_of_notMem hout
      rw [List.getD_eq_getElem?_getD, hb, Option.getD_some, List.getD_eq_getElem?_getD] at hold
      cases hj : data[j]? with
      | none => exact Or.inr (Or.inr (by rw [hold, hj]; rfl))
      | some a => exact Or.inr (Or.inl (by rw [hold, hj]; rfl))
  cases d with
  | cpp =>
      simp only [store] at h
      split at h
      · exact Or.inr (Or.inl h)
      · exact hover h
  | cs => exact hover h

/-- One frame: what is new in its slot, it has carried there. -/
theorem Traced.feed {past : List (List UInt8)} (hc : Traced d config past c)
    {o : Option Verdict} (h : d.feed config c f = .ok (c', o)) :
    Traced d config (past ++ [f]) c' := by
  obtain ⟨hother, hdata, -⟩ := feed_data h
  have hpast : ∀ i j b, (c.slots i).data[j]? = some b →
      b = 0 ∨ ∃ g ∈ past ++ [f], Carries d config i j b g := by
    intro i j b hb
    rcases hc i j b hb with hz | ⟨g, hg, hcarries⟩
    · exact Or.inl hz
    · exact Or.inr ⟨g, List.mem_append_left _ hg, hcarries⟩
  intro i j b hb
  by_cases hi : i = claimed f
  · subst hi
    rcases hdata with hsame | hstore
    · exact hpast _ _ _ (hsame ▸ hb)
    · rw [hstore] at hb
      rcases store_getElem? hb with ⟨hle, hnew⟩ | hold | hzero
      · exact Or.inr ⟨f, by simp, rfl, hle, hnew⟩
      · exact hpast _ _ _ hold
      · exact Or.inl hzero
  · exact hpast i j b (by rwa [hother i hi] at hb)

theorem Traced.run {past frames : List (List UInt8)} {os : List (Option Verdict)}
    (hc : Traced d config past c) (h : Machine.run (d.feed config) c frames = .ok (c', os)) :
    Traced d config (past ++ frames) c' := by
  induction frames generalizing c past os with
  | nil =>
      simp only [Machine.run_nil, Except.ok.injEq, Prod.mk.injEq] at h
      rwa [← h.1, List.append_nil]
  | cons f frames ih =>
      obtain ⟨c₁, o, os', hfeed, hrun, -⟩ := Machine.run_cons_eq_ok.mp h
      have hrest := ih (hc.feed hfeed) hrun
      rwa [List.append_assoc] at hrest

end Decoder

/-- **The origin of what is handed over.**  Whatever frames a new decoder is
fed, each byte of a package that the last of them hands over was brought to its
place by a frame with the sender and the serial of the package, or is zero. -/
theorem handed_provenance {d : Decoder} {config : Config} {c c' : Coordinator} (hc : d.Initial c)
    {frames : List (List UInt8)} {f : List UInt8} {os : List (Option Verdict)} {v : Verdict}
    (hrun : Machine.run (d.feed config) c (frames ++ [f]) = .ok (c', os ++ [some v]))
    {buf : List UInt8} (hbuf : v.buffer = some buf) :
    ∀ j b, buf[j]? = some b → b = 0 ∨ ∃ g ∈ frames ++ [f],
      Decoder.Carries d config (Coordinator.slotIndex v.senderId v.packageId) j b g := by
  obtain ⟨m, rfl⟩ := hc.exists_fresh
  obtain ⟨c₁, os₁, os₂, hfront, hlast, hos⟩ := Machine.run_append_eq_ok.mp hrun
  obtain ⟨c₂, o, os₃, hfeed, hnil, rfl⟩ := Machine.run_cons_eq_ok.mp hlast
  simp only [Machine.run_nil, Except.ok.injEq, Prod.mk.injEq] at hnil
  obtain ⟨rfl, rfl⟩ := hnil
  obtain ⟨-, ho⟩ := List.append_inj' hos rfl
  have htraced : Decoder.Traced d config (frames ++ [f]) c₂ := by
    have hstart : Decoder.Traced d config [] (.fresh m) := Decoder.traced_fresh m
    exact hstart.run hrun
  obtain ⟨-, -, hhanded⟩ := Decoder.feed_data hfeed
  obtain ⟨hslot, hprefix⟩ := hhanded v buf (List.cons.inj ho).1.symm hbuf
  intro j b hb
  obtain ⟨rest, hrest⟩ := hprefix
  rw [hslot]
  apply htraced
  rw [← hrest, List.getElem?_append_left (List.getElem?_eq_some_iff.mp hb).1, hb]

/-- Slice 2 is the last one and slice 1 is missing, but slice 3 counts. -/
def gappedFrames : List (List UInt8) :=
  [[9, 2, 25, 0, 7, 8], [9, 3, 33, 0, 1, 1], [9, 0, 33, 0, 5, 6]]

theorem run_gappedFrames :
    (Machine.run (Decoder.cs.feed (Config.ofPayload 2)) (.fresh fun _ => ⟨0, 0⟩)
      gappedFrames).map Prod.snd =
      .ok (List.replicate 2 (some ⟨1, 9, .newSliceOutOfOrder, none⟩) ++
        [some ⟨1, 9, .complete, some [5, 6, 0, 0, 7]⟩]) := by
  decide +kernel

theorem handed_provenance_gapped : [5, 6, 0, 0, (7 : UInt8)][4]? = some 7 ∧
    ((7 : UInt8) = 0 ∨ ∃ g ∈ gappedFrames,
      Decoder.Carries .cs (Config.ofPayload 2) (Coordinator.slotIndex 1 9) 4 7 g) := by
  obtain ⟨⟨c', os⟩, hrun, rfl⟩ := Machine.map_eq_ok.mp run_gappedFrames
  refine ⟨rfl, ?_⟩
  exact @handed_provenance .cs _ (.fresh fun _ => ⟨0, 0⟩) c' rfl
    [[9, 2, 25, 0, 7, 8], [9, 3, 33, 0, 1, 1]] [9, 0, 33, 0, 5, 6] _ _ hrun _ rfl 4 7 rfl

/-! ### The room that is taken up -/

namespace Decoder

variable {d : Decoder} {config : Config} {c c' : Coordinator} {f : List UInt8}

theorem clamp_le_size (d : Decoder) (size : UInt16) (room : ℕ) :
    (d.clamp size room).toNat ≤ size.toNat := by
  cases d with
  | cpp =>
      simp only [clamp, UInt16.toNat_ofNat']
      exact (Nat.mod_le _ _).trans (Nat.min_le_left _ _)
  | cs =>
      simp only [clamp, UInt16.toNat_min]
      exact Nat.min_le_left _ _

/-- The header has twelve bits for the size. -/
theorem length_carried (d : Decoder) (f : List UInt8) : (carried d f).length ≤ 4095 := by
  have hsize : (headerUnpack (arrayToPackedHeader f)).slicePayloadSize.toNat ≤ 4095 := by
    have hle : ((arrayToPackedHeader f >>> 20) &&& 0x0fff).toNat ≤ 4095 := by
      rw [UInt32.toNat_and]
      exact Nat.and_le_right
    simp only [headerUnpack, UInt32.toNat_toUInt16]
    omega
  exact (List.length_take_le _ _).trans ((d.clamp_le_size _ _).trans hsize)

/-- The index of the slot stays inside `_slots`. -/
theorem claimed_lt (f : List UInt8) : claimed f < 2 ^ 11 := by
  have hsender := frameSender_lt f
  have hpackage := (headerUnpack (arrayToPackedHeader f)).packageSerial.toNat_lt
  rw [frameSender] at hsender
  rw [claimed, Coordinator.slotIndex_eq]
  omega

/-- No buffer reaches further than the last offset and one slice, and what is
behind the table is never written. -/
def SlotsBounded (c : Coordinator) : Prop :=
  ∀ i, (c.slots i).data.length ≤ 65535 + 4095 ∧ (2 ^ 11 ≤ i → c.slots i = .empty)

theorem SlotsBounded.feed (hc : SlotsBounded c) {o : Option Verdict}
    (h : d.feed config c f = .ok (c', o)) : SlotsBounded c' := by
  obtain ⟨hother, hdata, -⟩ := feed_data h
  intro i
  by_cases hi : i = claimed f
  · subst hi
    refine ⟨?_, fun hge => absurd (claimed_lt f) (not_lt.mpr hge)⟩
    rcases hdata with hsame | hstore
    · exact hsame ▸ (hc _).1
    · have hold := (hc (claimed f)).1
      have hlen := length_carried d f
      have hplace : place config f < 2 ^ 16 := UInt16.toNat_lt _
      have hover := overwrite_length (c.slots (claimed f)).data (place config f) (carried d f)
      rw [hstore]
      cases d with
      | cpp =>
          simp only [store]
          split <;> omega
      | cs =>
          simp only [store]
          omega
  · rw [hother i hi]
    exact hc i

end Decoder

/-- **Bounded memory.**  Whatever frames a new decoder is fed, it writes to no
slot outside its table of `2 ^ 11`, and no buffer takes up more than the largest
offset and one slice. -/
theorem slots_bounded {d : Decoder} {config : Config} {c c' : Coordinator} (hc : d.Initial c)
    {frames : List (List UInt8)} {os : List (Option Verdict)}
    (hrun : Machine.run (d.feed config) c frames = .ok (c', os)) :
    Decoder.SlotsBounded c' := by
  obtain ⟨m, rfl⟩ := hc.exists_fresh
  have hfresh : Decoder.SlotsBounded (.fresh m) := fun _ => ⟨Nat.zero_le _, fun _ => rfl⟩
  apply Machine.run_invariant (I := Decoder.SlotsBounded) (P := fun _ => True) _ hfresh
    (fun _ _ => trivial) hrun
  exact fun _ _ _ _ hI _ hstep => hI.feed hstep

theorem slots_bounded_gapped : ∃ c' os,
    Machine.run (Decoder.cs.feed (Config.ofPayload 2)) (.fresh fun _ => ⟨0, 0⟩) gappedFrames =
      .ok (c', os) ∧ Decoder.SlotsBounded c' := by
  obtain ⟨r, hrun, -⟩ := Machine.map_eq_ok.mp run_gappedFrames
  exact ⟨r.1, r.2, hrun, slots_bounded (d := .cs) rfl hrun⟩

end CustomData
