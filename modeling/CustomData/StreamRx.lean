/-
CustomData/StreamRx.lean

The receiving stream (`customdata-stream-rx.c`): `mp_rx_stream_feed` reads the
header of a frame, fetches the slice state of its coordinate, takes one step
and tells the downstream callback about it.

The coordinator's callbacks are user code; here they are functions on a world
`σ` that holds whatever the user keeps.  To talk about what the stream reports,
`recordFeed` feeds one frame to a stream whose downstream only records the
callback it gets.  Its state store is any `StateStore`: a written slice state
is read back at every coordinate of the same package.

The round trip (`stream_roundtrip`): whatever the order and the repeats, the
frames of a package raise COMPLETE at the frame that makes the set of received
slices whole and not before, with the payloads placed at their offsets giving
back the message.
-/
import CustomData.Reassembly
import Mathlib.Data.List.Forall2

namespace CustomData

open Collect

/-! ### The stream -/

/-- `mp_rx_coordinator_t`: `ctx` and the four callbacks.  A payload pointer is
the bytes from there on; a pointer that is only read is a function of the
displacement. -/
structure RxCoordinator (σ : Type) where
  stateGet : σ → Coordinate → RxSliceState
  statePut : σ → Coordinate → RxSliceState → σ
  payloadPut : σ → Coordinate → List UInt8 → UInt16 → σ
  payloadGet : σ → Coordinate → ℕ → UInt8

/-- `mp_rx_event_cb` -/
abbrev RxEventCb (σ : Type) :=
  σ → RxStreamEvent → Coordinate → RxCoordinator σ → RxSliceState → UInt32 → List UInt8 →
    UInt16 → σ

/-- `mp_rx_stream_t` -/
structure RxStream (σ : Type) where
  config : Config
  coordinator : RxCoordinator σ
  onEvent : RxEventCb σ

variable {σ : Type}

/-- `mp_rx_stream_feed` -/
def rxStreamFeed (s : RxStream σ) (w : σ) (frame : List UInt8) (frameSize : UInt16) :
    Except Fault σ :=
  if frameSize.toNat < headerSize then .ok w else
    -- the source loads the header word in place, on a little-endian machine
    let hdr := headerUnpack (arrayToPackedHeader frame)
    let maxPayload := maxPayload s.config
    let payloadSize := hdr.slicePayloadSize
    let payload := frame.drop headerSize
    let coord := rxHeaderToCoordinate s.config hdr
    let oldState := s.coordinator.stateGet w coord
    let oldWatermark := oldState.watermark.toUInt32
    do
      let step ← rxCalcSliceStep oldState hdr.sliceSerial payloadSize maxPayload (hdr.eop != 0)
      if step.e = .duplicate then .ok w else
        let w := if step.e = .complete then s.coordinator.statePut w coord .zero
          else s.coordinator.statePut w coord step.nextState
        .ok (s.onEvent w step.e coord s.coordinator step.nextState oldWatermark payload payloadSize)

/-- What the stream does with a frame, behind the parsing of its header. -/
theorem rxStreamFeed_of_header {s : RxStream σ} {f : List UInt8} {header : HeaderMeta}
    (hlen : headerSize ≤ (UInt16.ofNat f.length).toNat)
    (hread : headerUnpack (arrayToPackedHeader f) = header) (w : σ) :
    rxStreamFeed s w f (UInt16.ofNat f.length) =
      rxCalcSliceStep (s.coordinator.stateGet w (rxHeaderToCoordinate s.config header))
        header.sliceSerial header.slicePayloadSize (maxPayload s.config) (header.eop != 0) >>=
      fun step =>
        if step.e = .duplicate then .ok w else
          .ok (s.onEvent
            (if step.e = .complete then
                s.coordinator.statePut w (rxHeaderToCoordinate s.config header) .zero
              else s.coordinator.statePut w (rxHeaderToCoordinate s.config header) step.nextState)
            step.e (rxHeaderToCoordinate s.config header) s.coordinator step.nextState
            (s.coordinator.stateGet w (rxHeaderToCoordinate s.config header)).watermark.toUInt32
            (f.drop headerSize) header.slicePayloadSize) := by
  simp only [rxStreamFeed, not_lt.mpr hlen, if_false, hread]

/-- What the stream does with a frame of a package. -/
theorem rxStreamFeed_of_isFrame {P : ℕ} {p : Package P} {sender serial : UInt8} {i : ℕ}
    {f : List UInt8} (hf : p.IsFrame sender serial i f) (hs : sender.toNat < 8)
    {s : RxStream σ} (hcfg : s.config = Config.ofPayload P) (w : σ) :
    rxStreamFeed s w f (UInt16.ofNat f.length) =
      rxCalcSliceStep (s.coordinator.stateGet w (p.coord sender serial i)) (UInt8.ofNat i)
        (UInt16.ofNat (p.size i)) (maxPayload (Config.ofPayload P)) (decide (i = p.full)) >>=
      fun step =>
        if step.e = .duplicate then .ok w else
          .ok (s.onEvent
            (if step.e = .complete then
                s.coordinator.statePut w (p.coord sender serial i) .zero
              else s.coordinator.statePut w (p.coord sender serial i) step.nextState)
            step.e (p.coord sender serial i) s.coordinator step.nextState
            (s.coordinator.stateGet w (p.coord sender serial i)).watermark.toUInt32
            (f.drop headerSize) (UInt16.ofNat (p.size i))) := by
  have hcap := p.capacity_le
  have hlen : headerSize ≤ (UInt16.ofNat f.length).toNat := by
    rw [hf.length, UInt16.toNat_ofNat']
    unfold headerSize
    omega
  simp only [rxStreamFeed_of_header hlen (hf.headerUnpack_eq hs), hcfg, hf.coordinate_eq,
    Package.header_eop]
  rfl

/-! ### Recording the callbacks -/

/-- The arguments of one `on_event` call. -/
structure Callback where
  e : RxStreamEvent
  coord : Coordinate
  state : RxSliceState
  oldWatermark : UInt32
  payload : List UInt8
  payloadSize : UInt16

/-- The bytes a callback may read. -/
def Callback.bytes (c : Callback) : List UInt8 := c.payload.take c.payloadSize.toNat

/-- The same package of the same sender. -/
def Coordinate.SamePackage (c c' : Coordinate) : Prop :=
  c.senderId = c'.senderId ∧ c.packageId = c'.packageId

instance (c c' : Coordinate) : Decidable (c.SamePackage c') := by
  unfold Coordinate.SamePackage; infer_instance

/-- A place to keep slice states: what is written for a package is read back
at every coordinate of that package. -/
structure StateStore (σ : Type) where
  get : σ → Coordinate → RxSliceState
  put : σ → Coordinate → RxSliceState → σ
  get_put : ∀ w c c' s, c.SamePackage c' → get (put w c s) c' = s

/-- One state for all packages. -/
def StateStore.single : StateStore RxSliceState where
  get := fun w _ => w
  put := fun _ _ s => s
  get_put := fun _ _ _ _ _ => rfl

/-- A stream over a state store whose downstream keeps the callback it gets. -/
def recorder (store : StateStore σ) (config : Config) : RxStream (σ × Option Callback) where
  config := config
  coordinator :=
    { stateGet := fun w c => store.get w.1 c
      statePut := fun w c s => (store.put w.1 c s, w.2)
      payloadPut := fun w _ _ _ => w
      payloadGet := fun _ _ _ => 0 }
  onEvent := fun w e coord _ state oldWatermark payload payloadSize =>
    (w.1, some ⟨e, coord, state, oldWatermark, payload, payloadSize⟩)

/-- Feed one frame and report the callback it caused, if any. -/
def recordFeed (store : StateStore σ) (config : Config) (w : σ) (frame : List UInt8) :
    Except Fault (σ × Option Callback) :=
  rxStreamFeed (recorder store config) (w, none) frame (UInt16.ofNat frame.length)

section Package

variable {P : ℕ} {p : Package P} {sender serial : UInt8} {i : ℕ} {f : List UInt8}
variable {store : StateStore σ} {w : σ}

/-- The callback for slice `i` of a package. -/
def Package.callback (p : Package P) (sender serial : UInt8) (i : ℕ) (f : List UInt8)
    (e : RxStreamEvent) (old next : RxSliceState) : Callback :=
  ⟨e, p.coord sender serial i, next, old.watermark.toUInt32, f.drop headerSize,
    UInt16.ofNat (p.size i)⟩

theorem Package.callback_bytes (hf : p.IsFrame sender serial i f) (e : RxStreamEvent)
    (old next : RxSliceState) :
    (p.callback sender serial i f e old next).bytes = p.payload i := by
  have h₁ := p.size_le i
  have h₂ := p.capacity_le
  rw [← hf.take_drop_eq]
  simp only [Callback.bytes, Package.callback, UInt16.toNat_ofNat']
  rw [Nat.mod_eq_of_lt (by omega)]

/-- One recorded frame of a package, given what the step makes of its slice. -/
theorem recordFeed_of_step (hf : p.IsFrame sender serial i f) (hs : sender.toNat < 8)
    {old next : RxSliceState} {e : RxStreamEvent}
    (hget : store.get w (p.coord sender serial i) = old)
    (hstep : rxCalcSliceStep old (UInt8.ofNat i) (UInt16.ofNat (p.size i))
      (maxPayload (Config.ofPayload P)) (decide (i = p.full)) = .ok ⟨e, next⟩) :
    recordFeed store (Config.ofPayload P) w f = .ok
      (if e = .duplicate then (w, none) else
        (store.put w (p.coord sender serial i) (if e = .complete then .zero else next),
          some (p.callback sender serial i f e old next))) := by
  rw [recordFeed, rxStreamFeed_of_isFrame hf hs rfl]
  simp only [recorder, hget, hstep, Machine.ok_bind]
  by_cases hd : e = .duplicate
  · simp [hd]
  · by_cases hc : e = .complete <;> simp [hd, hc, Package.callback]

/-- A recorded frame writes at most the state of its own package. -/
theorem recordFeed_state (hf : p.IsFrame sender serial i f) (hs : sender.toNat < 8) {w' : σ}
    {o : Option Callback} (h : recordFeed store (Config.ofPayload P) w f = .ok (w', o)) :
    w' = w ∨ ∃ s, w' = store.put w (p.coord sender serial i) s := by
  rw [recordFeed, rxStreamFeed_of_isFrame hf hs rfl] at h
  obtain ⟨⟨e, next⟩, -, h⟩ := Machine.bind_eq_ok.mp h
  simp only [recorder] at h
  split at h
  · simp only [Except.ok.injEq, Prod.mk.injEq] at h
    exact Or.inl h.1.symm
  · simp only [Except.ok.injEq, Prod.mk.injEq] at h
    apply Or.inr
    split at h <;> exact ⟨_, h.1.symm⟩

/-! ### The state kept for a package -/

/-- The store holds, at every coordinate of the package, the state of having
received the slices `R`. -/
def Package.Stored (p : Package P) (sender serial : UInt8) (store : StateStore σ)
    (R : Finset ℕ) (w : σ) : Prop :=
  ∃ s, (∀ c : Coordinate, c.senderId = sender → c.packageId = serial → store.get w c = s) ∧
    p.Tracks .zero R s

theorem Package.stored_empty (p : Package P)
    (h : ∀ c : Coordinate, c.senderId = sender → c.packageId = serial →
      store.get w c = .zero) : p.Stored sender serial store ∅ w :=
  ⟨.zero, h, (p.fresh_zero).tracks⟩

/-- The step of a recorded frame that leaves the package open: the callback is
missing for a repeat and never says COMPLETE. -/
theorem Package.Stored.feed_open {R : Finset ℕ} (h : p.Stored sender serial store R w)
    (hs : sender.toNat < 8) (hf : p.IsFrame sender serial i f)
    (hmiss : insert i R ≠ Finset.range (p.full + 1)) :
    ∃ w' o, recordFeed store (Config.ofPayload P) w f = .ok (w', o) ∧
      p.Stored sender serial store (insert i R) w' ∧
      (i ∈ R → o = none) ∧
      (i ∉ R → ∃ e old next, e ≠ .complete ∧ o = some (p.callback sender serial i f e old next)) :=
  by
  obtain ⟨s, hget, htr⟩ := h
  have hg := hget (p.coord sender serial i) rfl rfl
  by_cases hi : i ∈ R
  · refine ⟨w, none, ?_, ⟨s, hget, by rwa [Finset.insert_eq_self.mpr hi]⟩, fun _ => rfl,
      fun hn => absurd hi hn⟩
    rw [recordFeed_of_step hf hs hg (htr.step_of_mem hi _ _), if_pos rfl]
  · obtain ⟨s', hstep, htr'⟩ := htr.step_of_insert_ne p.fresh_zero p.maxPayload_config
      hf.slice_le hi hmiss (Or.inl rfl)
    obtain ⟨hd, he⟩ := Package.openEvent_ne R i
    refine ⟨_, _, by rw [recordFeed_of_step hf hs hg hstep, if_neg hd, if_neg he], ⟨s', ?_, htr'⟩,
      fun hm => absurd hm hi, fun _ => ⟨_, s, s', he, rfl⟩⟩
    intro c hcs hcp
    exact store.get_put _ _ _ _ ⟨hcs.symm, hcp.symm⟩

/-- The step of the recorded frame that completes the package. -/
theorem Package.Stored.feed_last {R : Finset ℕ} (h : p.Stored sender serial store R w)
    (hs : sender.toNat < 8) (hf : p.IsFrame sender serial i f) (hi : i ∉ R)
    (hall : insert i R = Finset.range (p.full + 1)) :
    ∃ w' old next, recordFeed store (Config.ofPayload P) w f =
        .ok (w', some (p.callback sender serial i f .complete old next)) ∧
      next.termination.toNat = p.data.length ∧ next.watermark.toNat = p.data.length ∧
      ∀ c : Coordinate, c.senderId = sender → c.packageId = serial → store.get w' c = .zero := by
  obtain ⟨s, hget, htr⟩ := h
  obtain ⟨s', hstep, hterm, hwm⟩ :=
    htr.step_of_insert_eq p.fresh_zero p.maxPayload_config hf.slice_le hi hall
  refine ⟨_, s, s', by rw [recordFeed_of_step hf hs (hget _ rfl rfl) hstep, if_neg (by simp),
    if_pos rfl], hterm, hwm, ?_⟩
  intro c hcs hcp
  exact store.get_put _ _ _ _ ⟨hcs.symm, hcp.symm⟩

/-! ### Placing the payloads -/

/-- Put a callback's bytes at its offset. -/
def place (mem : ℕ → Option UInt8) (c : Callback) : ℕ → Option UInt8 := fun j =>
  if c.coord.offset.toNat ≤ j ∧ j < c.coord.offset.toNat + c.bytes.length then
    c.bytes[j - c.coord.offset.toNat]?
  else mem j

/-- The memory a sequence of callbacks leaves, from an empty one. -/
def assembled (os : List (Option Callback)) : ℕ → Option UInt8 :=
  (os.filterMap id).foldl place fun _ => none

/-- The bytes of the slices `R`. -/
def Package.contents (p : Package P) (R : Finset ℕ) : ℕ → Option UInt8 := fun j =>
  if j / P ∈ R then p.data[j]? else none

theorem Package.contents_range (p : Package P) :
    p.contents (Finset.range (p.full + 1)) = fun j => p.data[j]? := by
  funext j
  simp only [contents, Finset.mem_range]
  split
  · rfl
  · rename_i hj
    rw [List.getElem?_eq_none]
    by_contra hlt
    exact hj (Nat.lt_succ_iff.mpr (p.div_le_full (by omega)))

/-- Placing a slice adds it to the contents. -/
theorem Package.place_callback (hf : p.IsFrame sender serial i f) (R : Finset ℕ)
    (e : RxStreamEvent) (old next : RxSliceState) :
    place (p.contents R) (p.callback sender serial i f e old next) =
      p.contents (insert i R) := by
  have hP := p.capacity_pos
  have hend := p.offset_add_size_le hf.slice_le
  have hoff : (p.callback sender serial i f e old next).coord.offset.toNat = i * P :=
    p.coord_offset_toNat hf.slice_le
  have hsz : p.size i = min P (p.data.length - i * P) := rfl
  funext j
  simp only [place, p.callback_bytes hf, hoff, p.length_payload, contents]
  -- the bytes of slice `i` are those between its offset and the next one
  have hdiv : i * P ≤ j → j < i * P + P → j / P = i := by
    intro h₁ h₂
    apply Nat.div_eq_of_lt_le h₁
    have := Nat.add_one_mul i P
    omega
  split
  · rename_i hin
    rw [hdiv hin.1 (by omega), if_pos (Finset.mem_insert_self i R), payload, List.getElem?_take,
      if_pos (by omega), List.getElem?_drop]
    congr 1
    omega
  · rename_i hout
    by_cases hji : j / P = i
    · -- past the end of slice `i` there is no data
      have h₁ : i * P ≤ j := hji ▸ Nat.div_mul_le_self j P
      have h₂ : j < i * P + P := by
        have := Nat.lt_div_mul_add (a := j) hP
        rw [hji] at this
        exact this
      rw [List.getElem?_eq_none (by omega)]
      simp
    · simp [Finset.mem_insert, hji]

/-! ### Runs -/

/-- Frames that leave the package open: no COMPLETE, and both the state and
the memory are those of the slices received. -/
theorem Package.Stored.run_open {R : Finset ℕ} {mem : ℕ → Option UInt8} {order : List ℕ}
    {frames : List (List UInt8)} (hs : sender.toNat < 8)
    (hframes : p.AreFrames sender serial order frames)
    (h : p.Stored sender serial store R w) (hmem : mem = p.contents R)
    (hmiss : R ∪ order.toFinset ≠ Finset.range (p.full + 1)) :
    ∃ w' os, Machine.run (recordFeed store (Config.ofPayload P)) w frames = .ok (w', os) ∧
      p.Stored sender serial store (R ∪ order.toFinset) w' ∧
      (∀ cb, some cb ∈ os → cb.e ≠ .complete) ∧
      (os.filterMap id).foldl place mem = p.contents (R ∪ order.toFinset) := by
  induction hframes generalizing R w mem with
  | nil => exact ⟨w, [], rfl, by simpa using h, by simp, by simpa using hmem⟩
  | @cons i f order frames hf hframes ih =>
      have hunion : R ∪ (i :: order).toFinset = insert i R ∪ order.toFinset := by
        rw [List.toFinset_cons, Finset.union_insert, Finset.insert_union]
      rw [hunion] at hmiss ⊢
      have hmiss' : insert i R ≠ Finset.range (p.full + 1) := by
        intro he
        have hsub := Package.AreFrames.toFinset_subset hframes
        exact hmiss (by rw [he, Finset.union_eq_left.mpr hsub])
      obtain ⟨w₁, o, hfeed, hst, hdup, hnew⟩ := h.feed_open hs hf hmiss'
      -- a new slice is placed, a repeat is not even reported
      obtain ⟨mem₁, hmem₁, hfold⟩ : ∃ mem₁, mem₁ = p.contents (insert i R) ∧
          ∀ os : List (Option Callback), ((o :: os).filterMap id).foldl place mem =
            (os.filterMap id).foldl place mem₁ := by
        by_cases hi : i ∈ R
        · refine ⟨mem, by rw [hmem, Finset.insert_eq_self.mpr hi], fun os => ?_⟩
          rw [hdup hi]
          rfl
        · obtain ⟨e, old, next, -, rfl⟩ := hnew hi
          refine ⟨_, p.place_callback hf R e old next, fun os => ?_⟩
          rw [hmem]
          rfl
      obtain ⟨w', os, hrun, hst', hne, hmem'⟩ := ih hst hmem₁ hmiss
      refine ⟨w', o :: os, Machine.run_cons_of_ok hfeed hrun, hst', ?_,
        by rw [hfold, hmem']⟩
      intro cb hcb
      rcases List.mem_cons.mp hcb with rfl | hcb
      · by_cases hi : i ∈ R
        · exact absurd (hdup hi) (by simp)
        · obtain ⟨e, old, next, he, hcb⟩ := hnew hi
          obtain rfl := Option.some.inj hcb
          exact he
      · exact hne cb hcb

end Package

/-! ### The round trip -/

/-- **Round trip under reordering and duplication.**  Cut a message with either
framing and deliver frames of the package in any order with any repeats.  The
frame that makes the set of delivered slices whole raises COMPLETE and no
earlier one does; termination and watermark are the length of the message, the
payloads placed at their offsets are the message, and the stored state is the
zero state again. -/
theorem stream_roundtrip {P : ℕ} (m : Message P) (fr : Framing) {sender serial : UInt8}
    (hs : sender.toNat < 8) (store : StateStore σ) (w : σ)
    (hzero : ∀ c : Coordinate, c.senderId = sender → c.packageId = serial →
      store.get w c = .zero)
    {order : List ℕ} {last : ℕ} {frames : List (List UInt8)} {f : List UInt8}
    (hframes : (m.cut fr).AreFrames sender serial order frames)
    (hlast : (m.cut fr).IsFrame sender serial last f)
    (hopen : ¬ Covers ((m.cut fr).full + 1) order)
    (hclosed : Covers ((m.cut fr).full + 1) (order ++ [last])) :
    ∃ w' os cb,
      Machine.run (recordFeed store (Config.ofPayload P)) w (frames ++ [f]) =
        .ok (w', os ++ [some cb]) ∧
      (∀ c, some c ∈ os → c.e ≠ .complete) ∧ cb.e = .complete ∧
      cb.state.termination.toNat = m.data.length ∧
      cb.state.watermark.toNat = m.data.length ∧
      (assembled (os ++ [some cb]) = fun j => m.data[j]?) ∧
      ∀ c : Coordinate, c.senderId = sender → c.packageId = serial →
        store.get w' c = .zero := by
  rw [← m.cut_data fr]
  generalize m.cut fr = p at *
  have hsub := Package.AreFrames.toFinset_subset hframes
  obtain ⟨hnew, hall⟩ :=
    insert_toFinset_eq_range hsub (Nat.lt_succ_iff.mpr hlast.slice_le) hopen hclosed
  obtain ⟨w₁, os, hrun, hst, hne, hmem⟩ := Package.Stored.run_open
    hs hframes (p.stored_empty hzero)
    (show (fun _ => none) = p.contents ∅ by funext j; simp [Package.contents])
    (by rw [Finset.empty_union]; exact fun he => hopen ((covers_iff_toFinset hsub).mpr he))
  rw [Finset.empty_union] at hst hmem
  obtain ⟨w', old, next, hfeed, hterm, hwm, hzero'⟩ := hst.feed_last hs hlast hnew hall
  refine ⟨w', os, _, Machine.run_concat_of_ok hrun hfeed, hne, rfl,
    hterm, hwm, ?_, hzero'⟩
  rw [assembled, List.filterMap_append, List.foldl_append, hmem]
  exact (p.place_callback hlast _ _ _ _).trans (by rw [hall, p.contents_range])

/-- Three bytes in slices of two, the eop slice first. -/
theorem stream_roundtrip_swapped :
    let m : Message 2 := ⟨[1, 2, 3], by decide, by decide, by decide, by decide, by decide⟩
    ∃ w' os cb,
      Machine.run (recordFeed StateStore.single (Config.ofPayload 2)) .zero
          ([(m.cut .stream).frame 0 7 1] ++ [(m.cut .stream).frame 0 7 0]) =
        .ok (w', os ++ [some cb]) ∧
      (∀ c, some c ∈ os → c.e ≠ .complete) ∧ cb.e = .complete ∧
      cb.state.termination.toNat = m.data.length ∧
      cb.state.watermark.toNat = m.data.length ∧
      (assembled (os ++ [some cb]) = fun j => m.data[j]?) ∧
      ∀ c : Coordinate, c.senderId = 0 → c.packageId = 7 →
        StateStore.single.get w' c = .zero :=
  stream_roundtrip ⟨[1, 2, 3], by decide, by decide, by decide, by decide, by decide⟩ .stream
    (by decide) StateStore.single .zero (fun _ _ _ => rfl)
    (.cons (Package.isFrame_frame _ 0 7 (by decide)) .nil)
    (Package.isFrame_frame _ 0 7 (by decide)) (by decide) (by decide)

end CustomData
