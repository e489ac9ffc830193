/-
CustomData/Embedded.lean

The embedded decoder (`customdata-embedded-decode.c`).

It sits behind the receiving stream with a coordinator that keeps one slice
state for all coordinates, and starts `pb_decode` on a pull stream over the
user's payload store when a package is complete.  `pb_decode` and the two store
callbacks are not part of the repository: the first is a parameter, the others
are any `PayloadStore`, a memory addressed by the offset of the coordinate.

A package that starts on an unobstructed state is collected as on a fresh one
(`Package.Held`), since its frames arrive in order; so every decode gets the
bytes of a package (`embedded_never_mixes`), and a package that arrives whole
is decoded at its last frame whatever was lost before
(`embedded_resynchronises`).  Leftovers in the way break both
(`embedded_mixes`, `embedded_loses`).
-/
import CustomData.StreamRx
import CustomData.Transfers
import CustomData.Leftover
import CustomData.SlicePull

namespace CustomData

open Collect

variable {σ : Type} {P : ℕ}

/-! ### The decoder -/

/-- `payload_put` and `payload_get` on the user's memory.  What was put at an
offset is read back there, and other addresses are left alone. -/
structure PayloadStore (σ : Type) where
  get : σ → Coordinate → ℕ → UInt8
  put : σ → Coordinate → List UInt8 → UInt16 → σ
  get_put : ∀ w c c' payload size k b, c.offset = c'.offset → k < size.toNat →
    payload[k]? = some b → get (put w c payload size) c' k = b
  get_put_of_disjoint : ∀ w c c' payload size k, c.offset ≠ c'.offset →
    (c'.offset.toNat + k < c.offset.toNat ∨
      c.offset.toNat + size.toNat ≤ c'.offset.toNat + k) →
    get (put w c payload size) c' k = get w c' k

/-- `mp_pb_output_config_t`: what `pb_decode` makes of a stream with the
configured fields, and the callback for a decoded message. -/
structure PbOutputConfig (σ : Type) where
  pbDecode : SlicePull → Bool
  onMessage : σ → σ

/-- `mp_pb_decoder_inst_t`, the part that changes, with the user's memory.
`started` is the stream `pb_decode` was started on in the current call. -/
structure PbDecoderInst (σ : Type) where
  state : RxSliceState
  lastDecodeOk : Bool
  user : σ
  started : Option SlicePull

/-- `mp_pb_state_get` -/
def pbStateGet (inst : PbDecoderInst σ) (_coord : Coordinate) : RxSliceState := inst.state

/-- `mp_pb_state_put` -/
def pbStatePut (inst : PbDecoderInst σ) (_coord : Coordinate) (state : RxSliceState) :
    PbDecoderInst σ := { inst with state := state }

/-- `mp_pb_slice_istream_init` -/
def pbSliceIstreamInit (coordinator : RxCoordinator (PbDecoderInst σ)) (inst : PbDecoderInst σ)
    (baseCoord : Coordinate) (termination : UInt32) (maxPayload : UInt16) : SlicePull where
  payloadGet := coordinator.payloadGet inst
  baseCoord := baseCoord
  termination := termination
  maxPayload := maxPayload
  consumed := 0

/-- `mp_pb_on_event` -/
def pbOnEvent (config : Config) (output : PbOutputConfig σ) : RxEventCb (PbDecoderInst σ) :=
  fun inst e coord coordinator state _oldWatermark payload payloadSize =>
    let inst := if payloadSize > 0 then coordinator.payloadPut inst coord payload payloadSize
      else inst
    if e ≠ .complete then inst else
      let istream := pbSliceIstreamInit coordinator inst coord state.termination.toUInt32
        (maxPayload config)
      if output.pbDecode istream then
        { inst with
          user := output.onMessage inst.user
          lastDecodeOk := true
          started := some istream }
      else { inst with lastDecodeOk := false, started := some istream }

/-- The stream that `mp_pb_decode_init` sets up. -/
def pbStream (config : Config) (output : PbOutputConfig σ) (store : PayloadStore σ) :
    RxStream (PbDecoderInst σ) where
  config := config
  coordinator :=
    { stateGet := pbStateGet
      statePut := pbStatePut
      payloadPut := fun inst coord payload size =>
        { inst with user := store.put inst.user coord payload size }
      payloadGet := fun inst coord => store.get inst.user coord }
  onEvent := pbOnEvent config output

/-- The rest of `mp_pb_decode_init`. -/
def pbDecodeInit (user : σ) : PbDecoderInst σ := ⟨.zero, true, user, none⟩

/-- `mp_pb_decode_feed`; it returns `lastDecodeOk`.  The output is the stream
`pb_decode` was started on, if it was. -/
def pbDecodeFeed (config : Config) (output : PbOutputConfig σ) (store : PayloadStore σ)
    (inst : PbDecoderInst σ) (block : List UInt8) :
    Except Fault (PbDecoderInst σ × Option SlicePull) := do
  let inst ← rxStreamFeed (pbStream config output store) { inst with started := none } block
    (UInt16.ofNat block.length)
  .ok (inst, inst.started)

/-! ### The event callback -/

section Event

variable (config : Config) (output : PbOutputConfig σ) (store : PayloadStore σ)
variable (inst : PbDecoderInst σ) (coord : Coordinate) (state : RxSliceState) (wm : UInt32)
variable (payload : List UInt8) (size : UInt16)

/-- The user's memory once a payload is stored. -/
def PayloadStore.keep (store : PayloadStore σ) (w : σ) (coord : Coordinate)
    (payload : List UInt8) (size : UInt16) : σ :=
  if size > 0 then store.put w coord payload size else w

/-- The pull stream over the memory `w`. -/
def PayloadStore.istream (store : PayloadStore σ) (w : σ) (config : Config) (coord : Coordinate)
    (termination : UInt16) : SlicePull :=
  ⟨store.get w, coord, termination.toUInt32, maxPayload config, 0⟩

theorem payloadPut_eq :
    (if size > 0 then (pbStream config output store).coordinator.payloadPut inst coord payload size
      else inst) = { inst with user := store.keep inst.user coord payload size } := by
  unfold PayloadStore.keep
  split <;> rfl

/-- A slice that leaves the package open is stored. -/
theorem pbOnEvent_of_ne_complete {e : RxStreamEvent} (he : e ≠ .complete) :
    pbOnEvent config output inst e coord (pbStream config output store).coordinator state wm
        payload size = { inst with user := store.keep inst.user coord payload size } := by
  simp only [pbOnEvent, payloadPut_eq]
  exact if_pos he

/-- A complete package is stored and decoded. -/
theorem pbOnEvent_complete :
    (pbOnEvent config output inst .complete coord (pbStream config output store).coordinator state
        wm payload size).state = inst.state ∧
      (pbOnEvent config output inst .complete coord (pbStream config output store).coordinator state
        wm payload size).started = some (store.istream (store.keep inst.user coord payload size)
          config coord state.termination) := by
  simp only [pbOnEvent, payloadPut_eq, ne_eq, not_true, if_false]
  split <;> exact ⟨rfl, rfl⟩

end Event

/-! ### The bytes in the store -/

/-- The first `len` bytes of `data` are in the store, at the offsets of their
slices. -/
def PayloadStore.Holds (store : PayloadStore σ) (P : ℕ) (data : List UInt8) (len : ℕ) (w : σ) :
    Prop :=
  ∀ c : Coordinate, ∀ j < len, c.offset.toNat = j / P * P →
    data[j]? = some (store.get w c (j % P))

/-- With all bytes in the store, the stream offers them. -/
theorem PayloadStore.Holds.offers (store : PayloadStore σ) {data : List UInt8} {w : σ}
    (h : store.Holds P data data.length w) (c : Coordinate) {termination : UInt16}
    (hterm : termination.toNat = data.length) (hP : 0 < P) (hcap : P ≤ 4095)
    (hlen : data.length ≤ 65535) (hupper : data.length ≤ 256 * P) :
    (store.istream w (Config.ofPayload P) c termination).Offers data := by
  have hmax := maxPayload_ofPayload hcap
  refine SlicePull.offers ⟨?_, ?_, ?_⟩ rfl ?_ fun j hj => ?_
  · show 0 < (maxPayload (Config.ofPayload P)).toNat
    rw [hmax]
    exact hP
  · rw [PayloadStore.istream, UInt16.toNat_toUInt32, hterm]
    exact hlen
  · simp only [PayloadStore.istream, UInt16.toNat_toUInt32, hterm, hmax]
    exact hupper
  · rw [PayloadStore.istream, UInt16.toNat_toUInt32, hterm]
  · simp only [SlicePull.byteAt, PayloadStore.istream, hmax]
    apply h _ j hj
    have := Nat.div_mul_le_self j P
    rw [UInt16.toNat_ofNat']
    omega

/-! ### One frame -/

section Frame

variable (output : PbOutputConfig σ) (store : PayloadStore σ) {inst : PbDecoderInst σ}

/-- The user's memory once the payload of a frame is stored. -/
def PayloadStore.keepFrame (store : PayloadStore σ) (w : σ) (config : Config)
    (header : HeaderMeta) (f : List UInt8) : σ :=
  store.keep w (rxHeaderToCoordinate config header) (f.drop headerSize) header.slicePayloadSize

/-- The decoder on a frame, given what the step makes of it. -/
theorem pbDecodeFeed_of_header {config : Config} {f : List UInt8} {header : HeaderMeta}
    (hlen : headerSize ≤ (UInt16.ofNat f.length).toNat)
    (hread : headerUnpack (arrayToPackedHeader f) = header) {e : RxStreamEvent}
    {next : RxSliceState}
    (hstep : rxCalcSliceStep inst.state header.sliceSerial header.slicePayloadSize
      (maxPayload config) (header.eop != 0) = .ok ⟨e, next⟩) :
    ∃ inst', pbDecodeFeed config output store inst f = .ok (inst', inst'.started) ∧
      inst'.state = (if e = .duplicate then inst.state else if e = .complete then .zero
        else next) ∧
      (e ≠ .duplicate → e ≠ .complete →
        inst'.user = store.keepFrame inst.user config header f) ∧
      inst'.started = if e = .complete then
        some (store.istream (store.keepFrame inst.user config header f) config
          (rxHeaderToCoordinate config header) next.termination) else none := by
  have hfeed := rxStreamFeed_of_header (s := pbStream config output store) hlen hread
    { inst with started := none }
  have hget : (pbStream config output store).coordinator.stateGet
      { inst with started := none } (rxHeaderToCoordinate config header) = inst.state := rfl
  have hconfig : (pbStream config output store).config = config := rfl
  have hevent : (pbStream config output store).onEvent = pbOnEvent config output := rfl
  rw [hconfig, hget, hstep, Machine.ok_bind] at hfeed
  simp only [pbDecodeFeed, hfeed, hevent]
  by_cases hd : e = .duplicate
  · subst hd
    exact ⟨_, rfl, rfl, by simp, rfl⟩
  · by_cases hc : e = .complete
    · subst hc
      simp only [reduceCtorEq, if_false, if_true]
      obtain ⟨hstate, hstarted⟩ := pbOnEvent_complete config output store
        { inst with state := .zero, started := none } (rxHeaderToCoordinate config header) next
        inst.state.watermark.toUInt32 (f.drop headerSize) header.slicePayloadSize
      exact ⟨_, rfl, hstate, by simp, hstarted⟩
    · simp only [if_neg hd, if_neg hc, pbOnEvent_of_ne_complete _ _ _ _ _ _ _ _ _ hc]
      exact ⟨_, rfl, rfl, fun _ _ => rfl, rfl⟩

/-- A scan that does not return is a call that does not return. -/
theorem pbDecodeFeed_of_error {config : Config} {f : List UInt8} {header : HeaderMeta}
    (hlen : headerSize ≤ (UInt16.ofNat f.length).toNat)
    (hread : headerUnpack (arrayToPackedHeader f) = header) {e : Fault}
    (hstep : rxCalcSliceStep inst.state header.sliceSerial header.slicePayloadSize
      (maxPayload config) (header.eop != 0) = .error e) :
    pbDecodeFeed config output store inst f = .error e := by
  have hfeed := rxStreamFeed_of_header (s := pbStream config output store) hlen hread
    { inst with started := none }
  have hget : (pbStream config output store).coordinator.stateGet
      { inst with started := none } (rxHeaderToCoordinate config header) = inst.state := rfl
  have hconfig : (pbStream config output store).config = config := rfl
  rw [hconfig, hget, hstep, Machine.error_bind] at hfeed
  rw [pbDecodeFeed, hfeed, Machine.error_bind]

/-- `pb_decode` never sees more bytes than 16 bits count. -/
theorem pbDecodeFeed_started {config : Config} {f : List UInt8} {inst' : PbDecoderInst σ}
    {pull : SlicePull} (h : pbDecodeFeed config output store inst f = .ok (inst', some pull)) :
    pull.termination.toNat < 2 ^ 16 := by
  by_cases hlen : headerSize ≤ (UInt16.ofNat f.length).toNat
  · rcases hstep : rxCalcSliceStep inst.state
      (headerUnpack (arrayToPackedHeader f)).sliceSerial
      (headerUnpack (arrayToPackedHeader f)).slicePayloadSize (maxPayload config)
      ((headerUnpack (arrayToPackedHeader f)).eop != 0) with e | ⟨e, next⟩
    · rw [pbDecodeFeed_of_error output store hlen rfl hstep] at h
      cases h
    · obtain ⟨inst'', hfeed, -, -, hstarted⟩ :=
        pbDecodeFeed_of_header output store hlen rfl hstep
      rw [hfeed, Except.ok.injEq, Prod.mk.injEq, hstarted] at h
      obtain ⟨-, h⟩ := h
      split at h
      · rw [← Option.some.inj h, PayloadStore.istream, UInt16.toNat_toUInt32]
        exact next.termination.toNat_lt
      · cases h
  · rw [pbDecodeFeed, rxStreamFeed, if_pos (not_le.mp hlen)] at h
    cases h

end Frame

section Frame

variable {p : Package P} {sender serial : UInt8} {i : ℕ} {f : List UInt8}
variable (output : PbOutputConfig σ) {store : PayloadStore σ} {inst : PbDecoderInst σ}

/-- The user's memory once slice `i` is stored. -/
def Package.stored (p : Package P) (store : PayloadStore σ) (w : σ) (sender serial : UInt8)
    (i : ℕ) (f : List UInt8) : σ :=
  store.keep w (p.coord sender serial i) (f.drop headerSize) (UInt16.ofNat (p.size i))

/-- The decoder on a frame of a package, given what the step makes of it. -/
theorem pbDecodeFeed_of_step (store : PayloadStore σ) (hf : p.IsFrame sender serial i f)
    (hs : sender.toNat < 8) {e : RxStreamEvent} {next : RxSliceState}
    (hstep : rxCalcSliceStep inst.state (UInt8.ofNat i) (UInt16.ofNat (p.size i))
      (maxPayload (Config.ofPayload P)) (decide (i = p.full)) = .ok ⟨e, next⟩) :
    ∃ inst', pbDecodeFeed (Config.ofPayload P) output store inst f = .ok (inst', inst'.started) ∧
      inst'.state = (if e = .duplicate then inst.state else if e = .complete then .zero
        else next) ∧
      (e ≠ .duplicate → e ≠ .complete →
        inst'.user = p.stored store inst.user sender serial i f) ∧
      inst'.started = if e = .complete then
        some (store.istream (p.stored store inst.user sender serial i f) (Config.ofPayload P)
          (p.coord sender serial i) next.termination) else none := by
  have hlen : headerSize ≤ (UInt16.ofNat f.length).toNat := by
    have hcap := p.capacity_le
    rw [hf.length, UInt16.toNat_ofNat']
    unfold headerSize
    omega
  rw [← @Package.header_eop P p sender serial] at hstep
  have h := pbDecodeFeed_of_header output store hlen (hf.headerUnpack_eq hs) hstep
  rw [PayloadStore.keepFrame, hf.coordinate_eq] at h
  exact h

/-- A frame of any package is answered, whatever the leftovers. -/
theorem Leftover.pbDecodeFeed (store : PayloadStore σ) (h : Leftover P inst.state)
    (hf : p.IsFrame sender serial i f) (hs : sender.toNat < 8) :
    ∃ inst' o, pbDecodeFeed (Config.ofPayload P) output store inst f = .ok (inst', o) ∧
      Leftover P inst'.state := by
  obtain ⟨e, next, hstep, hnext⟩ := h.step p hf.slice_le
  obtain ⟨inst', hfeed, hstate, -⟩ := pbDecodeFeed_of_step output store hf hs hstep
  refine ⟨inst', _, hfeed, ?_⟩
  rw [hstate]
  split
  · exact h
  · split
    · exact leftover_zero
    · exact hnext

/-- The bytes of the slices `R` are in the store. -/
def Package.InStore (p : Package P) (store : PayloadStore σ) (R : Finset ℕ) (w : σ) : Prop :=
  ∀ i ∈ R, ∀ c : Coordinate, c.offset.toNat = i * P → ∀ k < p.size i,
    (p.payload i)[k]? = some (store.get w c k)

/-- Storing slice `i` adds its bytes. -/
theorem Package.InStore.insert {R : Finset ℕ} {w : σ} (h : p.InStore store R w)
    (hf : p.IsFrame sender serial i f) :
    p.InStore store (insert i R) (p.stored store w sender serial i f) := by
  have hcap := p.capacity_le
  have hsz := p.size_le i
  have hsize : (UInt16.ofNat (p.size i)).toNat = p.size i := by
    rw [UInt16.toNat_ofNat']
    omega
  have hoff : (p.coord sender serial i).offset.toNat = i * P := p.coord_offset_toNat hf.slice_le
  have hpos : UInt16.ofNat (p.size i) > 0 ↔ 0 < p.size i := by
    rw [gt_iff_lt, UInt16.lt_iff_toNat_lt, hsize, UInt16.toNat_zero]
  simp only [stored, PayloadStore.keep, hpos]
  intro j hj c hc k hk
  by_cases hji : j = i
  · subst hji
    rw [if_pos (by omega)]
    have hlt : k < (p.payload j).length := by rwa [p.length_payload]
    have hbyte : (f.drop headerSize)[k]? = some (p.payload j)[k] := by
      have htake := congrArg (·[k]?) hf.take_drop_eq
      simpa [List.getElem?_take, hk, List.getElem?_eq_getElem hlt] using htake
    rw [List.getElem?_eq_getElem hlt, store.get_put _ _ _ _ _ _ _ _ (by rwa [hsize]) hbyte]
    exact UInt16.toNat_inj.mp (hoff.trans hc.symm)
  · have hjR : j ∈ R := (Finset.mem_insert.mp hj).resolve_left hji
    have hold := h j hjR c hc k hk
    split
    · have hszj := p.size_le j
      rw [store.get_put_of_disjoint, hold]
      · intro he
        refine hji (Nat.eq_of_mul_eq_mul_right p.capacity_pos ?_)
        rw [← hc, ← hoff, he]
      · -- slices of different numbers do not overlap
        rw [hoff, hc, hsize]
        rcases Nat.lt_or_gt_of_ne hji with hlt | hlt
        · have := Nat.mul_le_mul_right P (Nat.succ_le_of_lt hlt)
          rw [Nat.succ_mul] at this
          omega
        · have := Nat.mul_le_mul_right P (Nat.succ_le_of_lt hlt)
          rw [Nat.succ_mul] at this
          omega
    · exact hold

/-- With all slices in the store, the stream offers the data. -/
theorem Package.InStore.offers {w : σ} (h : p.InStore store (Finset.range (p.full + 1)) w)
    (c : Coordinate) {termination : UInt16} (hterm : termination.toNat = p.data.length) :
    (store.istream w (Config.ofPayload P) c termination).Offers p.data := by
  have hfull := p.full_le
  have hupper : p.data.length ≤ 256 * P := p.upper.trans (Nat.mul_le_mul_right P (by omega))
  refine PayloadStore.Holds.offers store (fun c' j hj hc => ?_) c hterm p.capacity_pos p.capacity_le
    p.length_le hupper
  have hslice := p.div_le_full hj
  have hmod := Nat.div_add_mod' j P
  have hlt := Nat.mod_lt j p.capacity_pos
  have hsz : j % P < p.size (j / P) := by
    simp only [size]
    omega
  rw [← h (j / P) (Finset.mem_range.mpr (by omega)) c' hc (j % P) hsz, payload,
    List.getElem?_take, if_pos hlt, List.getElem?_drop, hmod]

/-! ### The frames of one package -/

/-- The decoder holds the slices `R` of a package that started on `s₀`. -/
structure Package.Held (p : Package P) (store : PayloadStore σ) (s₀ : RxSliceState)
    (R : Finset ℕ) (inst : PbDecoderInst σ) : Prop where
  tracks : p.Tracks s₀ R inst.state
  bytes : p.InStore store R inst.user

variable {s₀ : RxSliceState} {R : Finset ℕ}

theorem Package.Fresh.held (store : PayloadStore σ) (h : p.Fresh inst.state) :
    p.Held store inst.state ∅ inst where
  tracks := h.tracks
  bytes := fun i hi => absurd hi (Finset.notMem_empty i)

/-- A later slice that leaves the package open. -/
theorem Package.Held.feed_open (h : p.Held store s₀ R inst) (hF : p.Fresh s₀)
    (hf : p.IsFrame sender serial i f) (hs : sender.toNat < 8) (hlater : ∀ j ∈ R, j < i)
    (hmiss : insert i R ≠ Finset.range (p.full + 1)) :
    ∃ inst', pbDecodeFeed (Config.ofPayload P) output store inst f = .ok (inst', none) ∧
      p.Held store s₀ (insert i R) inst' := by
  have hiR : i ∉ R := fun hi => lt_irrefl i (hlater i hi)
  obtain ⟨next, hstep, htr⟩ := h.tracks.step_of_insert_ne hF p.maxPayload_config hf.slice_le hiR
    hmiss (Or.inr hlater)
  obtain ⟨hd, hc⟩ := Package.openEvent_ne R i
  obtain ⟨inst', hfeed, hstate, huser, hstarted⟩ :=
    pbDecodeFeed_of_step output store hf hs hstep
  rw [if_neg hd, if_neg hc] at hstate
  rw [if_neg hc] at hstarted
  refine ⟨inst', by rw [hfeed, hstarted], hstate ▸ htr, ?_⟩
  rw [huser hd hc]
  exact h.bytes.insert hf

/-- The slice that closes the package starts a decode of its bytes. -/
theorem Package.Held.feed_last (h : p.Held store s₀ R inst) (hF : p.Fresh s₀)
    (hf : p.IsFrame sender serial i f) (hs : sender.toNat < 8) (hiR : i ∉ R)
    (hall : insert i R = Finset.range (p.full + 1)) :
    ∃ inst' istream, pbDecodeFeed (Config.ofPayload P) output store inst f =
      .ok (inst', some istream) ∧ istream.Offers p.data ∧ inst'.state = .zero := by
  obtain ⟨next, hstep, hterm, -⟩ :=
    h.tracks.step_of_insert_eq hF p.maxPayload_config hf.slice_le hiR hall
  obtain ⟨inst', hfeed, hstate, -, hstarted⟩ :=
    pbDecodeFeed_of_step output store hf hs hstep
  rw [if_pos rfl] at hstarted
  have hbytes := h.bytes.insert (i := i) hf
  rw [hall] at hbytes
  exact ⟨inst', _, by rw [hfeed, hstarted], hbytes.offers _ hterm, by simpa using hstate⟩

/-- Frames in order that leave the package open. -/
theorem Package.Held.run_open {order : List ℕ} {frames : List (List UInt8)}
    (hframes : p.AreFrames sender serial order frames) (hs : sender.toNat < 8)
    (h : p.Held store s₀ R inst) (hF : p.Fresh s₀) (hsorted : order.Pairwise (· < ·))
    (hlater : ∀ i ∈ order, ∀ j ∈ R, j < i)
    (hmiss : R ∪ order.toFinset ≠ Finset.range (p.full + 1)) :
    ∃ inst' os, Machine.run (pbDecodeFeed (Config.ofPayload P) output store) inst frames =
        .ok (inst', os) ∧
      p.Held store s₀ (R ∪ order.toFinset) inst' ∧ ∀ o ∈ os, o = none := by
  induction hframes generalizing inst R with
  | nil => exact ⟨inst, [], rfl, by simpa using h, by simp⟩
  | @cons i f order frames hf hframes ih =>
      have hunion : R ∪ (i :: order).toFinset = insert i R ∪ order.toFinset := by
        rw [List.toFinset_cons, Finset.union_insert, Finset.insert_union]
      rw [hunion] at hmiss ⊢
      have hmiss' : insert i R ≠ Finset.range (p.full + 1) := by
        intro he
        have hsub := Package.AreFrames.toFinset_subset hframes
        exact hmiss (by rw [he, Finset.union_eq_left.mpr hsub])
      obtain ⟨hi, hsorted⟩ := List.pairwise_cons.mp hsorted
      obtain ⟨inst₁, hfeed, hheld⟩ :=
        h.feed_open output hF hf hs (hlater i (by simp)) hmiss'
      obtain ⟨inst₂, os, hrun, hheld', hnone⟩ := ih hheld hsorted
        (fun k hk j hj => by
          rcases Finset.mem_insert.mp hj with rfl | hj
          · exact hi k hk
          · exact hlater k (List.mem_cons_of_mem _ hk) j hj) hmiss
      refine ⟨inst₂, none :: os, Machine.run_cons_of_ok hfeed hrun, hheld', ?_⟩
      simpa using hnone

/-- Frames of any package are answered. -/
theorem Leftover.run (store : PayloadStore σ) {order : List ℕ} {frames : List (List UInt8)}
    (hframes : p.AreFrames sender serial order frames) (hs : sender.toNat < 8)
    (h : Leftover P inst.state) :
    ∃ inst' os, Machine.run (CustomData.pbDecodeFeed (Config.ofPayload P) output store) inst
        frames = .ok (inst', os) ∧ Leftover P inst'.state := by
  rw [← List.map_id frames]
  apply Machine.run_history ?_ ?_ frames (Package.AreFrames.exists_of_mem hframes)
  · exact h
  rintro _ inst₁ _ f h₁ ⟨i, hf⟩
  exact h₁.pbDecodeFeed output store hf hs

/-- A list that corresponds to another one up to its last element. -/
theorem forall₂_concat_left {α β : Type} {R : α → β → Prop} {as : List α} {a : α} {bs : List β}
    (h : List.Forall₂ R (as ++ [a]) bs) :
    ∃ front last, bs = front ++ [last] ∧ List.Forall₂ R as front ∧ R a last := by
  have hfront := List.forall₂_take as.length h
  have hback := List.forall₂_drop as.length h
  rw [List.take_left' rfl] at hfront
  rw [List.drop_left' rfl, List.forall₂_cons_left_iff] at hback
  obtain ⟨last, rest, hlast, hnil, hdrop⟩ := hback
  rw [List.forall₂_nil_left_iff.mp hnil] at hdrop
  exact ⟨_, last, by rw [← hdrop, List.take_append_drop], hfront, hlast⟩

/-- Feeding `frames` from `inst` starts one decode, at the last frame, and on
`data`. -/
def Presented (output : PbOutputConfig σ) (store : PayloadStore σ) (P : ℕ)
    (inst : PbDecoderInst σ) (frames : List (List UInt8)) (data : List UInt8) : Prop :=
  ∃ front last inst₁ os inst₂ istream, frames = front ++ [last] ∧
    Machine.run (CustomData.pbDecodeFeed (Config.ofPayload P) output store) inst front =
      .ok (inst₁, os) ∧ (∀ o ∈ os, o = none) ∧
    CustomData.pbDecodeFeed (Config.ofPayload P) output store inst₁ last =
      .ok (inst₂, some istream) ∧
    istream.Offers data

/-- **A whole package** that nothing obstructs is presented. -/
theorem Package.Fresh.presented (store : PayloadStore σ) {frames : List (List UInt8)}
    (hframes : p.AreFrames sender serial (List.range (p.full + 1)) frames) (hs : sender.toNat < 8)
    (hF : p.Fresh inst.state) : Presented output store P inst frames p.data := by
  -- all frames but the last one leave the package open
  rw [List.range_succ] at hframes
  obtain ⟨front, last, hsplit, hfront, hlast⟩ := forall₂_concat_left hframes
  have hset : ∅ ∪ (List.range p.full).toFinset = Finset.range p.full := by
    ext j
    simp
  obtain ⟨inst₁, os, hrun, hheld, hnone⟩ := (hF.held store).run_open output
    hfront hs hF List.pairwise_lt_range (by simp) (by
      rw [hset]
      intro he
      have hmem : p.full ∈ Finset.range p.full := he ▸ Finset.mem_range.mpr (Nat.lt_succ_self _)
      exact Finset.notMem_range_self hmem)
  rw [hset] at hheld
  obtain ⟨inst₂, istream, hfeed, hoffers, -⟩ := hheld.feed_last output hF hlast hs
    Finset.notMem_range_self (Finset.range_add_one ▸ rfl)
  exact ⟨front, last, inst₁, os, inst₂, istream, hsplit, hrun, hnone, hfeed, hoffers⟩

end Frame

/-! ### The theorems -/

variable {t : Transfers P} {frames : ℕ → List (List UInt8)}
variable (output : PbOutputConfig σ) (store : PayloadStore σ)

/-- Any loss leaves leftovers only, and no call hangs. -/
theorem run_leftover (hframes : t.AreFrames frames) (user : σ) (n : ℕ) :
    ∃ inst os, Machine.run (pbDecodeFeed (Config.ofPayload P) output store) (pbDecodeInit user)
        ((List.range n).flatMap frames) = .ok (inst, os) ∧ Leftover P inst.state := by
  induction n with
  | zero => exact ⟨_, [], rfl, leftover_zero⟩
  | succ n ih =>
      obtain ⟨inst, os, hrun, h⟩ := ih
      obtain ⟨inst', os', hrun', h'⟩ := h.run output store (hframes n) t.sender_lt
      refine ⟨inst', os ++ os', ?_, h'⟩
      rw [List.range_succ, List.flatMap_append, List.flatMap_singleton]
      exact Machine.run_append_of_ok hrun hrun'

/-- One unobstructed package: every decode is on its bytes. -/
theorem run_unobstructed (hframes : t.AreFrames frames) {n : ℕ} {inst : PbDecoderInst σ}
    (hF : (t.package n).Fresh inst.state) :
    ∃ inst' os, Machine.run (pbDecodeFeed (Config.ofPayload P) output store) inst (frames n) =
        .ok (inst', os) ∧
      ∀ istream, some istream ∈ os → istream.Offers (t.message n).data := by
  have hn := hframes n
  by_cases hwhole : t.Whole n
  · rw [hwhole] at hn
    obtain ⟨front, last, inst₁, os, inst₂, istream, hsplit, hrun, hnone, hfeed, hoffers⟩ :=
      hF.presented output store hn t.sender_lt
    refine ⟨inst₂, os ++ [some istream], ?_, fun istream' hmem => ?_⟩
    · rw [hsplit]
      exact Machine.run_concat_of_ok hrun hfeed
    · rcases List.mem_append.mp hmem with hold | hlast
      · exact absurd (hnone _ hold) (by simp)
      · obtain rfl : istream' = istream := by simpa using hlast
        exact hoffers
  -- with a slice missing nothing is decoded
  · have hopen : ∅ ∪ (t.got n).toFinset ≠ Finset.range ((t.package n).full + 1) := by
      rw [Finset.empty_union]
      exact mt (Transfers.whole_iff n).mpr hwhole
    obtain ⟨inst', os, hrun, -, hnone⟩ := (hF.held store).run_open output hn t.sender_lt hF
      (List.pairwise_lt_range.sublist (t.got_sublist n)) (by simp) hopen
    exact ⟨inst', os, hrun, fun istream hmem => absurd (hnone _ hmem) (by simp)⟩

/-- **No mixtures.**  If nothing obstructs any package of which something
arrives, every decode is started on the bytes of a package. -/
theorem embedded_never_mixes (hframes : t.AreFrames frames) (user : σ) {N : ℕ}
    (hclear : ∀ n < N, t.got n ≠ [] → ∀ inst os,
      Machine.run (pbDecodeFeed (Config.ofPayload P) output store) (pbDecodeInit user)
        ((List.range n).flatMap frames) = .ok (inst, os) →
      (t.package n).Unobstructed inst.state) :
    ∃ inst os, Machine.run (pbDecodeFeed (Config.ofPayload P) output store) (pbDecodeInit user)
        ((List.range N).flatMap frames) = .ok (inst, os) ∧
      ∀ istream, some istream ∈ os → ∃ n < N, istream.Offers (t.message n).data := by
  induction N with
  | zero => exact ⟨_, [], rfl, by simp⟩
  | succ N ih =>
      obtain ⟨inst, os, hrun, hoffers⟩ := ih fun n hn => hclear n (by omega)
      have hold : ∀ istream, some istream ∈ os →
          ∃ n < N + 1, istream.Offers (t.message n).data := fun istream hmem =>
        (hoffers istream hmem).imp fun n hn => ⟨by omega, hn.2⟩
      rw [List.range_succ, List.flatMap_append, List.flatMap_singleton]
      by_cases hgot : t.got N = []
      · have hnil : frames N = [] := by
          have hn := hframes N
          rw [hgot] at hn
          exact List.forall₂_nil_left_iff.mp hn
        exact ⟨inst, os, by rw [hnil, List.append_nil, hrun], hold⟩
      -- what the first `N` packages leave lets the next one start
      · obtain ⟨inst', os', hrun', h⟩ :=
          run_leftover output store hframes user N
        rw [hrun, Except.ok.injEq, Prod.mk.injEq] at hrun'
        have hF := (hrun'.1 ▸ h).fresh (hclear N (by omega) hgot inst os hrun)
        obtain ⟨inst₁, os₁, hrun₁, hoffers₁⟩ :=
          run_unobstructed output store hframes hF
        refine ⟨inst₁, os ++ os₁, Machine.run_append_of_ok hrun hrun₁, fun istream hmem => ?_⟩
        rcases List.mem_append.mp hmem with hmem | hmem
        · exact hold istream hmem
        · exact ⟨N, by omega, hoffers₁ istream hmem⟩

/-- A flat memory. -/
def flatStore : PayloadStore (ℕ → UInt8) where
  get := fun w c k => w (c.offset.toNat + k)
  put := fun w c payload size j =>
    if c.offset.toNat ≤ j ∧ j < c.offset.toNat + size.toNat then
      payload.getD (j - c.offset.toNat) 0
    else w j
  get_put := by
    intro w c c' payload size k b hc hk hb
    simp only [hc]
    rw [if_pos (by omega), Nat.add_sub_cancel_left, List.getD_eq_getElem?_getD, hb]
    rfl
  get_put_of_disjoint := by
    intro w c c' payload size k _ hdisj
    exact if_neg (by omega)

/-- An application that decodes everything and keeps its memory. -/
def plainOutput : PbOutputConfig (ℕ → UInt8) := ⟨fun _ => true, id⟩

/-- The first slice of a package of two is lost, then comes a package of one. -/
def shortLoss : Transfers 2 where
  sender := 1
  sender_lt := sender_one_lt
  first := 0
  message := fun n =>
    if n = 0 then .ofBytes 2 [1, 2, 3] (.refl true)
    else .ofBytes 2 [4] (.refl true)
  got := fun n => if n = 0 then [1] else [0]
  got_sublist := by
    intro n
    by_cases hn : n = 0
    · rw [if_pos hn, if_pos hn]
      decide
    · rw [if_neg hn, if_neg hn]
      decide

theorem shortLoss_unobstructed : ∀ n < 2, ∀ inst os,
    Machine.run (pbDecodeFeed (Config.ofPayload 2) plainOutput flatStore)
      (pbDecodeInit fun _ => 0) ((List.range n).flatMap shortLoss.zeroFilled) = .ok (inst, os) →
    (shortLoss.package n).Unobstructed inst.state := by
  intro n hn inst os hrun
  rcases (show n = 0 ∨ n = 1 by omega) with rfl | rfl
  · obtain ⟨rfl, -⟩ := Prod.mk.inj (Except.ok.inj hrun)
    exact ((shortLoss.package 0).fresh_zero).toUnobstructed
  · have hstate : (Machine.run (pbDecodeFeed (Config.ofPayload 2) plainOutput flatStore)
        (pbDecodeInit fun _ => 0) ((List.range 1).flatMap shortLoss.zeroFilled)).map
          (fun r => r.1.state) = .ok ⟨#v[2, 0, 0, 0, 0, 0, 0, 0], 1, 3, 0⟩ := by
      decide +kernel
    rw [hrun] at hstate
    rw [show inst.state = _ from Except.ok.inj hstate]
    refine ⟨fun i hi => ?_, Or.inl (by decide)⟩
    obtain rfl : i = 0 := UInt8.toNat_inj.mp (Nat.le_zero.mp hi)
    decide

theorem embedded_never_mixes_short :
    ∃ inst os, Machine.run (pbDecodeFeed (Config.ofPayload 2) plainOutput flatStore)
        (pbDecodeInit fun _ => 0) ((List.range 2).flatMap shortLoss.zeroFilled) = .ok (inst, os) ∧
      ∀ istream, some istream ∈ os → ∃ n < 2, istream.Offers (shortLoss.message n).data :=
  embedded_never_mixes plainOutput flatStore shortLoss.areFrames_zeroFilled (fun _ => 0)
    fun n hn _ => shortLoss_unobstructed n hn

/-- The last slice of the first package is lost; the second one arrives
whole. -/
def tailLoss : Transfers 2 where
  sender := 1
  sender_lt := sender_one_lt
  first := 0
  message := fun n =>
    if n = 0 then .ofBytes 2 [1, 2, 3] (.refl true)
    else .ofBytes 2 [4, 5, 6] (.refl true)
  got := fun n => if n = 0 then [0] else [0, 1]
  got_sublist := by
    intro n
    by_cases hn : n = 0
    · rw [if_pos hn, if_pos hn]
      decide
    · rw [if_neg hn, if_neg hn]
      decide

/-- The second package's first slice passes for a repeat, so its decode gets
the first package's. -/
theorem run_tailLoss :
    (Machine.run (pbDecodeFeed (Config.ofPayload 2) plainOutput flatStore)
      (pbDecodeInit fun _ => 0) ((List.range 2).flatMap tailLoss.zeroFilled)).map
        (fun r => r.2.map fun o => o.map fun istream => istream.pulls [3]) =
      .ok [none, none, some (some [1, 2, 6])] := by
  decide +kernel

theorem embedded_mixes :
    ¬ ∀ (P : ℕ) (t : Transfers P) (frames : ℕ → List (List UInt8)), t.AreFrames frames →
      ∀ (σ : Type) (output : PbOutputConfig σ) (store : PayloadStore σ) (user : σ) (N : ℕ),
        ∃ inst os, Machine.run (pbDecodeFeed (Config.ofPayload P) output store)
            (pbDecodeInit user) ((List.range N).flatMap frames) = .ok (inst, os) ∧
          ∀ istream, some istream ∈ os → ∃ n < N, istream.Offers (t.message n).data := by
  intro h
  obtain ⟨inst, os, hrun, hoffers⟩ := h 2 tailLoss _ tailLoss.areFrames_zeroFilled _ plainOutput
    flatStore (fun _ => 0) 2
  have hpulls := run_tailLoss
  rw [hrun] at hpulls
  have hos : (os.map fun o => o.map fun istream => istream.pulls [3]) =
      [none, none, some (some [1, 2, 6])] := Except.ok.inj hpulls
  have hmem : some (some [1, 2, 6]) ∈
      os.map fun o => o.map fun istream => istream.pulls [3] := by
    rw [hos]
    simp
  obtain ⟨o, ho, hpull⟩ := List.mem_map.mp hmem
  obtain ⟨istream, rfl, hread⟩ := Option.map_eq_some_iff.mp hpull
  obtain ⟨n, -, -, hall⟩ := hoffers istream ho
  rcases (show n = 0 ∨ n ≠ 0 by omega) with rfl | hn
  · have h3 := hall [3] (by decide)
    rw [hread] at h3
    exact absurd h3 (by decide)
  · have hdata : (tailLoss.message n).data = [4, 5, 6] := by
      simp [tailLoss, Message.ofBytes, hn]
    have h3 := hall [3] (by rw [hdata]; decide)
    rw [hread, hdata] at h3
    exact absurd h3 (by decide)

/-- **Resynchronisation.**  Whatever was lost before, a package that arrives
whole and finds nothing in its way is decoded at its last frame. -/
theorem embedded_resynchronises (hframes : t.AreFrames frames) (user : σ) {n : ℕ}
    (hwhole : t.Whole n) (hclear : ∀ inst os,
      Machine.run (pbDecodeFeed (Config.ofPayload P) output store) (pbDecodeInit user)
        ((List.range n).flatMap frames) = .ok (inst, os) →
      (t.package n).Unobstructed inst.state) :
    ∃ inst os, Machine.run (pbDecodeFeed (Config.ofPayload P) output store) (pbDecodeInit user)
        ((List.range n).flatMap frames) = .ok (inst, os) ∧
      Presented output store P inst (frames n) (t.message n).data := by
  obtain ⟨inst, os, hrun, h⟩ := run_leftover output store hframes user n
  have hn := hframes n
  rw [hwhole] at hn
  exact ⟨inst, os, hrun, (h.fresh (hclear inst os hrun)).presented output store hn t.sender_lt⟩

theorem embedded_resynchronises_short :
    ∃ inst os, Machine.run (pbDecodeFeed (Config.ofPayload 2) plainOutput flatStore)
        (pbDecodeInit fun _ => 0) ((List.range 1).flatMap shortLoss.zeroFilled) = .ok (inst, os) ∧
      Presented plainOutput flatStore 2 inst (shortLoss.zeroFilled 1)
        (shortLoss.message 1).data :=
  embedded_resynchronises plainOutput flatStore shortLoss.areFrames_zeroFilled (fun _ => 0)
    (by decide) (shortLoss_unobstructed 1 (by decide))

/-- The package after a lost tail is not presented. -/
theorem embedded_loses :
    ¬ ∀ (P : ℕ) (t : Transfers P) (frames : ℕ → List (List UInt8)), t.AreFrames frames →
      ∀ (σ : Type) (output : PbOutputConfig σ) (store : PayloadStore σ) (user : σ) (n : ℕ),
        t.Whole n →
        ∃ inst os, Machine.run (pbDecodeFeed (Config.ofPayload P) output store)
            (pbDecodeInit user) ((List.range n).flatMap frames) = .ok (inst, os) ∧
          Presented output store P inst (frames n) (t.message n).data := by
  intro h
  obtain ⟨inst, os, hrun, front, last, inst₁, os₁, inst₂, istream, hsplit, hfront, -, hlast,
    hoffers⟩ := h 2 tailLoss _ tailLoss.areFrames_zeroFilled _ plainOutput flatStore (fun _ => 0) 1
      (by decide)
  have hall := Machine.run_append_of_ok hrun (Machine.run_concat_of_ok hfront hlast)
  have hpulls := run_tailLoss
  rw [List.range_succ, List.flatMap_append, List.flatMap_singleton, hsplit, hall] at hpulls
  have hos := congrArg List.getLast? (Except.ok.inj hpulls)
  have h3 : istream.pulls [3] = some [1, 2, 6] := by simpa using hos
  rw [hoffers.pulls [3] (by decide)] at h3
  exact absurd h3 (by decide)

end CustomData
