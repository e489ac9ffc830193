/-
CustomData/DecodeResult.lean

What `mp_pb_decode_feed` returns.

The header file promises `false` for a failed protobuf decode and `true` for a
decode that succeeds or a package that is still open.  The function returns a
flag that only a complete package writes, so after a failure it goes on
returning `false` for the frames of the packages that follow.

The payload callbacks are arbitrary here: neither what they store nor what they
return has any influence on the result.  A call answers as documented exactly
if its scan returns and either the last package completed before was decoded
or the frame completes a package itself (`pbDecodeFeed_reports_iff`).
-/
import CustomData.Embedded
import Mathlib.Data.List.ReduceOption

namespace CustomData

variable {σ : Type}

/-! ### The decoder over any payload callbacks -/

/-- The payload callbacks that `mp_pb_decode_init` is given. -/
structure PayloadCallbacks (σ : Type) where
  put : σ → Coordinate → List UInt8 → UInt16 → σ
  get : σ → Coordinate → ℕ → UInt8

/-- The stream that `mp_pb_decode_init` sets up with them. -/
def pbStreamWith (config : Config) (output : PbOutputConfig σ) (callbacks : PayloadCallbacks σ) :
    RxStream (PbDecoderInst σ) where
  config := config
  coordinator :=
    { stateGet := pbStateGet
      statePut := pbStatePut
      payloadPut := fun inst coord payload size =>
        { inst with user := callbacks.put inst.user coord payload size }
      payloadGet := fun inst coord => callbacks.get inst.user coord }
  onEvent := pbOnEvent config output

/-- `mp_pb_decode_feed` with them; it returns `lastDecodeOk`. -/
def pbDecodeFeedWith (config : Config) (output : PbOutputConfig σ)
    (callbacks : PayloadCallbacks σ) (inst : PbDecoderInst σ) (block : List UInt8) :
    Except Fault (PbDecoderInst σ × Option SlicePull) := do
  let inst ← rxStreamFeed (pbStreamWith config output callbacks) { inst with started := none }
    block (UInt16.ofNat block.length)
  .ok (inst, inst.started)

/-- Callbacks that keep what they are given are the ones of `pbDecodeFeed`. -/
theorem pbDecodeFeedWith_store (config : Config) (output : PbOutputConfig σ)
    (store : PayloadStore σ) :
    pbDecodeFeedWith config output ⟨store.put, store.get⟩ = pbDecodeFeed config output store := rfl

/-! ### The frame and the state it finds -/

/-- `size < MP_HEADER_SIZE` -/
def TooShort (f : List UInt8) : Prop := (UInt16.ofNat f.length).toNat < headerSize

/-- The step that the frame takes on the kept slice state. -/
def frameStep (config : Config) (state : RxSliceState) (f : List UInt8) :
    Except Fault RxSliceInst :=
  rxCalcSliceStep state (headerUnpack (arrayToPackedHeader f)).sliceSerial
    (headerUnpack (arrayToPackedHeader f)).slicePayloadSize (maxPayload config)
    ((headerUnpack (arrayToPackedHeader f)).eop != 0)

/-- The frame completes a package on the kept slice state. -/
def Completes (config : Config) (state : RxSliceState) (f : List UInt8) : Prop :=
  ¬ TooShort f ∧ ∃ next, frameStep config state f = .ok ⟨.complete, next⟩

/-- The frame is not read, or repeated, or out of order, or its scan leaves the
loop. -/
def FeedReturns (config : Config) (state : RxSliceState) (f : List UInt8) : Prop :=
  TooShort f ∨
    state.has (headerUnpack (arrayToPackedHeader f)).sliceSerial = true ∨
    state.watermark <
      sliceIdxToOffset (headerUnpack (arrayToPackedHeader f)).sliceSerial (maxPayload config) ∨
    (maxPayload config ≠ 0 ∧ ScanReturns (maxPayload config).toNat
      (state.accept (headerUnpack (arrayToPackedHeader f)).sliceSerial
        (headerUnpack (arrayToPackedHeader f)).slicePayloadSize (maxPayload config)
        ((headerUnpack (arrayToPackedHeader f)).eop != 0)))

/-! ### The event callback -/

section Event

variable (config : Config) (output : PbOutputConfig σ) (callbacks : PayloadCallbacks σ)
variable (inst : PbDecoderInst σ) (coord : Coordinate) (state : RxSliceState) (wm : UInt32)
variable (payload : List UInt8) (size : UInt16)

/-- A complete package is decoded, and the flag says how that went. -/
theorem pbOnEvent_complete_flag : ∃ istream,
    (pbOnEvent config output inst .complete coord (pbStreamWith config output callbacks).coordinator
      state wm payload size).started = some istream ∧
    (pbOnEvent config output inst .complete coord (pbStreamWith config output callbacks).coordinator
      state wm payload size).lastDecodeOk = output.pbDecode istream := by
  simp only [pbOnEvent, ne_eq, not_true, if_false]
  generalize (if size > 0 then _ else inst) = kept
  split
  · rename_i hdecode
    exact ⟨_, rfl, hdecode.symm⟩
  · rename_i hdecode
    exact ⟨_, rfl, (Bool.eq_false_iff.mpr hdecode).symm⟩

/-- Any other event leaves the flag as it is. -/
theorem pbOnEvent_flag_of_ne {e : RxStreamEvent} (he : e ≠ .complete) :
    (pbOnEvent config output inst e coord (pbStreamWith config output callbacks).coordinator
      state wm payload size).started = inst.started ∧
    (pbOnEvent config output inst e coord (pbStreamWith config output callbacks).coordinator
      state wm payload size).lastDecodeOk = inst.lastDecodeOk := by
  simp only [pbOnEvent, if_pos he]
  split <;> exact ⟨rfl, rfl⟩

end Event

/-! ### One call -/

section Call

variable {config : Config} {output : PbOutputConfig σ} {callbacks : PayloadCallbacks σ}
variable {inst inst' : PbDecoderInst σ} {f : List UInt8} {started : Option SlicePull}

/-- A frame that is not read changes nothing. -/
theorem pbDecodeFeedWith_short (hshort : TooShort f) :
    pbDecodeFeedWith config output callbacks inst f =
      .ok ({ inst with started := none }, none) := by
  have hlen : (UInt16.ofNat f.length).toNat < headerSize := hshort
  rw [pbDecodeFeedWith, rxStreamFeed, if_pos hlen]
  rfl

/-- A frame that is read takes its step, and then the event is handled. -/
theorem pbDecodeFeedWith_of_step (hlen : ¬ TooShort f) {e : RxStreamEvent} {next : RxSliceState}
    (hstep : frameStep config inst.state f = .ok ⟨e, next⟩) :
    ∃ inst', pbDecodeFeedWith config output callbacks inst f = .ok (inst', inst'.started) ∧
      (e = .complete → ∃ istream, inst'.started = some istream ∧
        inst'.lastDecodeOk = output.pbDecode istream) ∧
      (e ≠ .complete → inst'.started = none ∧ inst'.lastDecodeOk = inst.lastDecodeOk) := by
  have hfeed := rxStreamFeed_of_header (s := pbStreamWith config output callbacks)
    (not_lt.mp hlen) rfl { inst with started := none }
  have hget : rxCalcSliceStep ((pbStreamWith config output callbacks).coordinator.stateGet
      { inst with started := none } (rxHeaderToCoordinate config
        (headerUnpack (arrayToPackedHeader f)))) _ _ _ _ = _ := hstep
  have hconfig : (pbStreamWith config output callbacks).config = config := rfl
  have hevent : (pbStreamWith config output callbacks).onEvent = pbOnEvent config output := rfl
  rw [hconfig, hget, Machine.ok_bind] at hfeed
  simp only [pbDecodeFeedWith, hfeed, hevent]
  by_cases hd : e = .duplicate
  · subst hd
    exact ⟨_, rfl, by simp, fun _ => ⟨rfl, rfl⟩⟩
  · by_cases hc : e = .complete
    · subst hc
      exact ⟨_, rfl, fun _ => pbOnEvent_complete_flag _ _ _ _ _ _ _ _ _, by simp⟩
    · simp only [if_neg hd, if_neg hc]
      exact ⟨_, rfl, by simp [hc], fun _ => pbOnEvent_flag_of_ne _ _ _ _ _ _ _ _ _ hc⟩

/-- A scan that does not return is a call that does not return. -/
theorem pbDecodeFeedWith_of_error (hlen : ¬ TooShort f) {e : Fault}
    (hstep : frameStep config inst.state f = .error e) :
    pbDecodeFeedWith config output callbacks inst f = .error e := by
  have hfeed := rxStreamFeed_of_header (s := pbStreamWith config output callbacks)
    (not_lt.mp hlen) rfl { inst with started := none }
  have hget : rxCalcSliceStep ((pbStreamWith config output callbacks).coordinator.stateGet
      { inst with started := none } (rxHeaderToCoordinate config
        (headerUnpack (arrayToPackedHeader f)))) _ _ _ _ = _ := hstep
  have hconfig : (pbStreamWith config output callbacks).config = config := rfl
  rw [hconfig, hget, Machine.error_bind] at hfeed
  rw [pbDecodeFeedWith, hfeed, Machine.error_bind]

/-- Which calls return. -/
theorem pbDecodeFeedWith_returns_iff :
    (∃ r, pbDecodeFeedWith config output callbacks inst f = .ok r) ↔
      FeedReturns config inst.state f := by
  by_cases hlen : TooShort f
  · exact ⟨fun _ => Or.inl hlen, fun _ => ⟨_, pbDecodeFeedWith_short hlen⟩⟩
  · have hreturns := rxCalcSliceStep_returns_iff inst.state
      (headerUnpack (arrayToPackedHeader f)).sliceSerial
      (headerUnpack (arrayToPackedHeader f)).slicePayloadSize (maxPayload config)
      ((headerUnpack (arrayToPackedHeader f)).eop != 0)
    rw [FeedReturns, or_iff_right hlen, ← hreturns]
    show _ ↔ ∃ step, frameStep config inst.state f = .ok step
    rcases hstep : frameStep config inst.state f with e | ⟨e, next⟩
    · rw [pbDecodeFeedWith_of_error hlen hstep]
      simp
    · obtain ⟨inst', hfeed, -⟩ := pbDecodeFeedWith_of_step hlen hstep
      exact ⟨fun _ => ⟨_, rfl⟩, fun _ => ⟨_, hfeed⟩⟩

/-- **What a call does to the flag.**  A frame that completes a package sets it
to the result of the decode, any other frame leaves it. -/
theorem pbDecodeFeedWith_flag
    (h : pbDecodeFeedWith config output callbacks inst f = .ok (inst', started)) :
    (Completes config inst.state f ∧ ∃ istream, started = some istream ∧
        inst'.lastDecodeOk = output.pbDecode istream) ∨
      (¬ Completes config inst.state f ∧ started = none ∧
        inst'.lastDecodeOk = inst.lastDecodeOk) := by
  by_cases hlen : TooShort f
  · rw [pbDecodeFeedWith_short hlen, Except.ok.injEq, Prod.mk.injEq] at h
    obtain ⟨rfl, rfl⟩ := h
    exact Or.inr ⟨fun hc => hc.1 hlen, rfl, rfl⟩
  · rcases hstep : frameStep config inst.state f with e | ⟨e, next⟩
    · rw [pbDecodeFeedWith_of_error hlen hstep] at h
      cases h
    · obtain ⟨inst'', hfeed, hcomplete, hother⟩ := pbDecodeFeedWith_of_step hlen hstep
      rw [hfeed, Except.ok.injEq, Prod.mk.injEq] at h
      obtain ⟨rfl, rfl⟩ := h
      by_cases he : e = .complete
      · subst he
        exact Or.inl ⟨⟨hlen, next, hstep⟩, hcomplete rfl⟩
      · refine Or.inr ⟨?_, hother he⟩
        rintro ⟨-, next', hnext⟩
        rw [hstep, Except.ok.injEq, RxSliceInst.mk.injEq] at hnext
        exact he hnext.1

end Call

/-! ### The documented result -/

/-- The call returns, and it returns `false` exactly if its frame completes a
package on which `pb_decode` fails. -/
def Reports (config : Config) (output : PbOutputConfig σ) (callbacks : PayloadCallbacks σ)
    (inst : PbDecoderInst σ) (f : List UInt8) : Prop :=
  ∃ inst' started, pbDecodeFeedWith config output callbacks inst f = .ok (inst', started) ∧
    (inst'.lastDecodeOk = false ↔
      Completes config inst.state f ∧ ∃ istream, started = some istream ∧
        output.pbDecode istream = false)

/-- The last of the packages that were completed, if any was, has been decoded. -/
def LastDecoded (output : PbOutputConfig σ) (started : List (Option SlicePull)) : Prop :=
  ∀ istream ∈ started.reduceOption.getLast?, output.pbDecode istream = true

section Result

variable {config : Config} {output : PbOutputConfig σ} {callbacks : PayloadCallbacks σ}

/-- One call answers as documented unless it repeats an old failure. -/
theorem reports_iff {inst : PbDecoderInst σ} {f : List UInt8} :
    Reports config output callbacks inst f ↔
      FeedReturns config inst.state f ∧
        (Completes config inst.state f ∨ inst.lastDecodeOk = true) := by
  have hreturns : (∃ r, pbDecodeFeedWith config output callbacks inst f = .ok r) ↔
      FeedReturns config inst.state f := pbDecodeFeedWith_returns_iff
  rw [← hreturns]
  constructor
  · rintro ⟨inst', started, hfeed, hresult⟩
    refine ⟨⟨_, hfeed⟩, or_iff_not_imp_left.mpr fun hopen => ?_⟩
    rcases pbDecodeFeedWith_flag hfeed with ⟨hc, -⟩ | ⟨-, -, hflag⟩
    · exact absurd hc hopen
    · rw [← hflag, ← Bool.not_eq_false]
      exact fun hfalse => hopen (hresult.mp hfalse).1
  · rintro ⟨⟨⟨inst', started⟩, hfeed⟩, hcond⟩
    refine ⟨inst', started, hfeed, ?_⟩
    rcases pbDecodeFeedWith_flag hfeed with ⟨hc, istream, rfl, hflag⟩ | ⟨hopen, -, hflag⟩
    · rw [hflag]
      exact ⟨fun h => ⟨hc, istream, rfl, h⟩, fun ⟨_, _, h, hfail⟩ => Option.some.inj h ▸ hfail⟩
    · rw [hflag, hcond.resolve_left hopen]
      exact ⟨fun h => absurd h (by simp), fun h => absurd h.1 hopen⟩

/-- Between two packages the flag is the result of the last decode. -/
theorem run_lastDecodeOk_iff {user : σ} {frames : List (List UInt8)} {inst : PbDecoderInst σ}
    {started : List (Option SlicePull)}
    (h : Machine.run (pbDecodeFeedWith config output callbacks) (pbDecodeInit user) frames =
      .ok (inst, started)) : inst.lastDecodeOk = true ↔ LastDecoded output started := by
  induction frames using List.reverseRecOn generalizing inst started with
  | nil =>
      rw [Machine.run_nil, Except.ok.injEq, Prod.mk.injEq] at h
      obtain ⟨rfl, rfl⟩ := h
      exact ⟨fun _ _ hmem => by simp at hmem, fun _ => rfl⟩
  | append_singleton frames f ih =>
      obtain ⟨inst₁, started₁, started₂, h₁, h₂, rfl⟩ := Machine.run_append_eq_ok.mp h
      obtain ⟨inst₂, o, os, hfeed, hnil, rfl⟩ := Machine.run_cons_eq_ok.mp h₂
      rw [Machine.run_nil, Except.ok.injEq, Prod.mk.injEq] at hnil
      obtain ⟨rfl, rfl⟩ := hnil
      rcases pbDecodeFeedWith_flag hfeed with ⟨-, istream, rfl, hflag⟩ | ⟨-, rfl, hflag⟩
      · rw [hflag, LastDecoded, List.reduceOption_append, List.reduceOption_cons_of_some]
        simp
      · rw [hflag, ih h₁, LastDecoded, LastDecoded, List.reduceOption_append,
          List.reduceOption_cons_of_none]
        simp

/-- **The result of `mp_pb_decode_feed`.**  Over any run from the initial
state, a call answers as documented if and only if it returns and its frame
completes a package or the last package that was completed has been decoded. -/
theorem pbDecodeFeed_reports_iff (config : Config) (output : PbOutputConfig σ)
    (callbacks : PayloadCallbacks σ) (user : σ) (frames : List (List UInt8)) :
    (∀ before f after inst started, frames = before ++ f :: after →
      Machine.run (pbDecodeFeedWith config output callbacks) (pbDecodeInit user) before =
        .ok (inst, started) →
      Reports config output callbacks inst f) ↔
    ∀ before f after inst started, frames = before ++ f :: after →
      Machine.run (pbDecodeFeedWith config output callbacks) (pbDecodeInit user) before =
        .ok (inst, started) →
      FeedReturns config inst.state f ∧
        (Completes config inst.state f ∨ LastDecoded output started) := by
  refine forall₃_congr fun before f after => forall₂_congr fun inst started => ?_
  refine imp_congr_right fun _ => imp_congr_right fun hrun => ?_
  rw [reports_iff, run_lastDecodeOk_iff hrun]

end Result

/-- A protobuf decoder that, like the real one, refuses a message that starts
with the tag `0`. -/
def zeroTagOutput : PbOutputConfig (ℕ → UInt8) :=
  ⟨fun istream => istream.pulls [1] != some [0], id⟩

/-- The package with the tag `0` fails, and so does the first slice of the
package after it. -/
theorem pbDecodeFeed_repeats_failure :
    ¬ ∀ (config : Config) (output : PbOutputConfig (ℕ → UInt8))
      (callbacks : PayloadCallbacks (ℕ → UInt8)) (user : ℕ → UInt8) (frames : List (List UInt8)),
      ∀ before f after inst started, frames = before ++ f :: after →
        Machine.run (pbDecodeFeedWith config output callbacks) (pbDecodeInit user) before =
          .ok (inst, started) →
        Reports config output callbacks inst f := by
  intro h
  have hrun : (Machine.run (pbDecodeFeed ⟨6⟩ zeroTagOutput flatStore)
      (pbDecodeInit fun _ => 0) [[7, 0, 0x18, 0, 0]]).map
        (fun r => (r.1.state, r.1.lastDecodeOk)) = .ok (.zero, false) := by
    decide +kernel
  rw [← pbDecodeFeedWith_store] at hrun
  rcases hr : Machine.run (pbDecodeFeedWith ⟨6⟩ zeroTagOutput ⟨flatStore.put, flatStore.get⟩)
      (pbDecodeInit fun _ => 0) [[7, 0, 0x18, 0, 0]] with e | ⟨inst, started⟩
  · rw [hr] at hrun
    cases hrun
  · rw [hr] at hrun
    obtain ⟨hstate, hflag⟩ := Prod.mk.inj (Except.ok.inj hrun)
    rcases (reports_iff.mp (h _ _ _ _ _ _ [8, 0, 0x20, 0, 1, 2] [] _ _ rfl hr)).2 with
      ⟨-, next, hstep⟩ | hok
    · -- one full slice of an open package
      rw [hstate] at hstep
      have hevent : (frameStep ⟨6⟩ .zero [8, 0, 0x20, 0, 1, 2]).map RxSliceInst.e =
          .ok .newSliceInOrder := by decide +kernel
      rw [hstep] at hevent
      cases hevent
    · rw [hflag] at hok
      exact Bool.false_ne_true hok

end CustomData
