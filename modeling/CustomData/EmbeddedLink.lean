/-
CustomData/EmbeddedLink.lean

The embedded encoder and the embedded decoder on one link.

`mp_pb_encode` is called for message after message; a call may fail after any
number of bytes, and a message may be empty.  Nothing is lost on the link.
What the decoder then hands to `pb_decode` is exactly what `spliceAll` computes
from the bytes of the calls and their results (`pbSession_received`): a failed
call gives its full slices to the next message that is long enough, and a
shorter one disappears.  Only if no call fails after a full slice, the decoder
gets what was sent (`pbSession_delivered`).
-/
import CustomData.Splice
import CustomData.Encoder
import CustomData.RoundTrip

namespace CustomData

variable {P : ℕ}

/-! ### Frames of a stream that is not finalized -/

namespace SliceBlock

variable {start : Coordinate} {data : List UInt8} {b : SliceBlock}

/-- The accesses of an open stream, made to a block with room for a unit. -/
theorem foldlM_streamLog {log : List BlockAccess} (h : StreamLog P start data log)
    (hroom : P + headerSize ≤ b.bytes.length) :
    ∃ bytes frames, log.foldlM (access (P + headerSize)) b =
        .ok ⟨bytes, b.sent ++ frames, b.accesses ++ log⟩ ∧
      bytes.length = b.bytes.length ∧
      List.Forall₂ (SliceFrame P start data false) (List.range (data.length / P)) frames := by
  obtain ⟨slices, pieces, hslices, hpieces, rfl⟩ := h
  obtain ⟨bytes, frames, hfold, hlen, hframes⟩ := foldlM_slices (b := b) hslices hroom
  have hle : (slicePayload P data (data.length / P)).length ≤ P := List.length_take_le _ _
  have hputs := @foldlM_puts ⟨bytes, b.sent ++ frames, b.accesses ++ slices.flatten⟩
    (P + headerSize) headerSize pieces (by rw [hpieces]; dsimp only; omega)
  refine ⟨copyAt bytes headerSize pieces.flatten, frames, ?_, ?_, hframes⟩
  · rw [List.foldlM_append, hfold, Machine.ok_bind, hputs, List.append_assoc]
  · rw [length_copyAt (by rw [hpieces]; omega), hlen]

variable {bytes : List UInt8}

theorem Ready.sent_open (h : b.Ready P bytes) (hlog : StreamLog P start data b.accesses)
    (hroom : P + headerSize ≤ bytes.length) :
    List.Forall₂ (SliceFrame P start data false) (List.range (data.length / P)) b.sent := by
  obtain ⟨bytes', frames, hfold, -, hframes⟩ :=
    foldlM_streamLog (b := .untouched bytes) hlog hroom
  rw [h.replayed, Except.ok.injEq] at hfold
  rw [hfold]
  exact hframes

theorem Ready.sent_closed (h : b.Ready P bytes) (hlog : SessionLog P start data b.accesses)
    (hroom : P + headerSize ≤ bytes.length) :
    ∃ front last, b.sent = front ++ [last] ∧
      List.Forall₂ (SliceFrame P start data false) (List.range (data.length / P)) front ∧
      SliceFrame P start data true (data.length / P) last := by
  obtain ⟨bytes', front, last, hfold, hfront, hlast⟩ :=
    foldlM_sessionLog (b := .untouched bytes) hlog hroom
  rw [h.replayed, Except.ok.injEq] at hfold
  exact ⟨front, last, by rw [hfold]; rfl, hfront, hlast⟩

end SliceBlock

/-- The frames of a finished stream. -/
theorem Message.areFrames_closed (m : Message P) {start : Coordinate} {front : List (List UInt8)}
    {last : List UInt8}
    (hfront : List.Forall₂ (SliceFrame P start m.data false) (List.range (m.data.length / P)) front)
    (hlast : SliceFrame P start m.data true (m.data.length / P) last) :
    m.stream.AreFrames (start.senderId &&& 0x7) start.packageId (List.range (m.stream.full + 1))
      (front ++ [last]) := by
  rw [List.range_succ]
  refine List.rel_append (areFrames_front hfront) (.cons ?_ .nil)
  have hframe : SliceFrame P start m.stream.data true m.stream.full last := hlast
  exact hframe.isFrame le_rfl (by simp)

/-! ### One call -/

/-- A call of `mp_pb_encode`: what nanopb writes, and the package serial. -/
structure PbSend where
  message : PbWrites
  serial : UInt8

/-- Whether the call sends an eop slice. -/
def PbSend.finished (s : PbSend) : Bool := s.message.succeeds && !s.message.bytes.isEmpty

/-- `mp_pb_encode` with a user that assembles in the bytes left from the call
before.  The outputs are the blocks sent and the result. -/
def pbSend (P : ℕ) (senderId : UInt8) (bytes : List UInt8) (s : PbSend) :
    Except TxFault (List UInt8 × List (List UInt8) × Bool) := do
  let (b, ok) ← pbEncode (blockCallbacks (P + headerSize)) (Config.ofPayload P) senderId
    (.untouched bytes) s.message s.serial
  .ok (b.bytes, b.sent, ok)

/-- The bytes of the call can be framed. -/
def PbSend.Fits (P : ℕ) (s : PbSend) : Prop :=
  s.message.bytes.length / P ≤ 255 ∧ (s.message.bytes.length / P + 1) * P ≤ 65535

instance PbSend.decidableFits (P : ℕ) (s : PbSend) : Decidable (s.Fits P) := by
  unfold PbSend.Fits; infer_instance

theorem PbSend.Fits.length_le {s : PbSend} (h : s.Fits P) (hP : 0 < P) :
    s.message.bytes.length ≤ 65535 := by
  have hlt := Nat.lt_div_mul_add (a := s.message.bytes.length) hP
  have hmul := Nat.add_one_mul (s.message.bytes.length / P) P
  have hoff := h.2
  omega

/-- The encoder is the sending stream behind its sink, finalized if nanopb
succeeds and something was written. -/
theorem pbEncode_of_streams {bytes : List UInt8} {senderId : UInt8} {m : PbWrites} {serial : UInt8}
    {s s' : TxStream (PbEncoderInst SliceBlock)}
    (hfeeds : txStreamFeeds (embeddedStream P ⟨senderId, serial, 0⟩ bytes) m.writes = .ok s)
    (hfinal : txStreamFinalize s = .ok s') :
    pbEncode (blockCallbacks (P + headerSize)) (Config.ofPayload P) senderId (.untouched bytes) m
        serial =
      .ok ((if m.succeeds && !m.bytes.isEmpty then s' else s).downstream.user.user,
        m.succeeds) := by
  have hempty : (0 + m.writes.flatten.length == 0) = m.bytes.isEmpty := by
    rw [Nat.zero_add, PbWrites.bytes]
    cases m.writes.flatten <;> rfl
  have hwrite := writeAll_pbOstreamPipeline hfeeds 0
  rw [embeddedStream] at hwrite
  simp only [pbEncode, PbWrites.encode, hwrite, Machine.ok_bind, hempty, Bool.true_and]
  cases m.succeeds && !m.bytes.isEmpty with
  | true => simp [hfinal]
  | false => rfl

/-- The message of a call that sends something. -/
def PbSend.Fits.toMessage {s : PbSend} (h : s.Fits P) (hP : 0 < P) (hcap : P ≤ 4095)
    (hne : s.message.bytes ≠ []) : Message P :=
  ⟨s.message.bytes, hP, hcap, hne, h.1, h.2⟩

/-- **One call** is an attempt to send what nanopb writes. -/
theorem pbSend_attempt (hP : 0 < P) (hcap : P ≤ 4095) {bytes : List UInt8}
    (hroom : P + headerSize ≤ bytes.length) (senderId : UInt8) {s : PbSend} (hfits : s.Fits P) :
    ∃ (bytes' : List UInt8) (a : Attempt P),
      pbSend P senderId bytes s = .ok (bytes', a.frames, s.message.succeeds) ∧
        P + headerSize ≤ bytes'.length ∧ a.outcome = (s.message.bytes, s.finished) ∧
        a.sender = senderId &&& 0x7 := by
  have hsink := @txPushPipelineView_assembles P bytes hcap
  have h₀ := @embeddedStream_holding P ⟨senderId, s.serial, 0⟩ bytes rfl hroom
  obtain ⟨t, hfeeds, h⟩ := h₀.feeds hsink hP hcap s.message.writes
  obtain ⟨u, hfinal, -, -, -, hvalid, hlog⟩ := h.finalize hsink hP hcap
  have hwrites : ∀ buf ∈ s.message.writes, buf.length ≤ 65535 := fun buf hbuf =>
    (List.sublist_flatten_of_mem hbuf).length_le.trans (hfits.length_le hP)
  rw [List.nil_append, map_seen hwrites, ← PbWrites.bytes] at h hlog
  have hencode := pbEncode_of_streams hfeeds hfinal
  rw [pbSend, hencode, Machine.ok_bind]
  cases hfinished : s.message.succeeds && !s.message.bytes.isEmpty with
  | true =>
      have hne : s.message.bytes ≠ [] := by
        intro hnil
        simp [hnil] at hfinished
      obtain ⟨front, last, hsent, hfront, hlast⟩ := hvalid.2.sent_closed hlog hroom
      refine ⟨_, ⟨s.message.bytes, true, senderId &&& 0x7, senderId_and_lt senderId, s.serial,
        u.downstream.user.user.sent, Or.inr ⟨hfits.toMessage hP hcap hne, rfl, ?_⟩⟩, rfl,
        hvalid.2.room, ?_, rfl⟩
      · rw [hsent]
        exact (hfits.toMessage hP hcap hne).areFrames_closed hfront hlast
      · rw [Attempt.outcome, PbSend.finished, hfinished]
  | false =>
      have hfront := h.valid.2.sent_open h.log hroom
      refine ⟨_, ⟨s.message.bytes, false, senderId &&& 0x7, senderId_and_lt senderId, s.serial,
        t.downstream.user.user.sent, ?_⟩, rfl, h.valid.2.room, ?_, rfl⟩
      · by_cases hne : s.message.bytes = []
        · rw [hne, List.length_nil, Nat.zero_div, List.range_zero,
            List.forall₂_nil_left_iff] at hfront
          exact Or.inl ⟨hne, rfl, hfront⟩
        · have hframes := areFrames_front (p := (hfits.toMessage hP hcap hne).stream) hfront
          exact Or.inr ⟨hfits.toMessage hP hcap hne, rfl, hframes⟩
      · rw [Attempt.outcome, PbSend.finished, hfinished]

/-! ### Call after call -/

/-- The bytes of a call and whether it sent an eop slice. -/
def PbSend.outcome (s : PbSend) : List UInt8 × Bool := (s.message.bytes, s.finished)

/-- Calls one after the other are attempts one after the other. -/
theorem run_pbSend (hP : 0 < P) (hcap : P ≤ 4095) (senderId : UInt8) {bytes : List UInt8}
    (hroom : P + headerSize ≤ bytes.length) {sends : List PbSend}
    (hfits : ∀ s ∈ sends, s.Fits P) :
    ∃ bytes' outs, ∃ attempts : List (Attempt P),
      Machine.run (pbSend P senderId) bytes sends = .ok (bytes', outs) ∧
      outs.map Prod.snd = sends.map (fun s => s.message.succeeds) ∧
      outs.flatMap Prod.fst = attempts.flatMap Attempt.frames ∧
      attempts.map Attempt.outcome = sends.map PbSend.outcome := by
  induction sends generalizing bytes with
  | nil => exact ⟨bytes, [], [], rfl, rfl, rfl, rfl⟩
  | cons s sends ih =>
      obtain ⟨hs, hrest⟩ := List.forall_mem_cons.mp hfits
      obtain ⟨bytes₁, a, hsend, hroom₁, houtcome, -⟩ := pbSend_attempt hP hcap hroom senderId hs
      obtain ⟨bytes₂, outs, attempts, hrun, hresults, hframes, houtcomes⟩ := ih hroom₁ hrest
      refine ⟨bytes₂, (a.frames, s.message.succeeds) :: outs, a :: attempts,
        Machine.run_cons_of_ok hsend hrun, ?_, ?_, ?_⟩
      · rw [List.map_cons, List.map_cons, hresults]
      · rw [List.flatMap_cons, List.flatMap_cons, hframes]
      · rw [List.map_cons, List.map_cons, houtcomes, houtcome, PbSend.outcome]

section Session

variable {σ : Type} (output : PbOutputConfig σ) (store : PayloadStore σ)

/-- The decodes that a fresh decoder starts on the frames of a session. -/
def SessionStarts (P : ℕ) (output : PbOutputConfig σ) (store : PayloadStore σ) (user : σ)
    (senderId : UInt8) (txBlock : List UInt8) (sends : List PbSend)
    (packages : List (List UInt8)) : Prop :=
  ∃ bytes outs inst os, Machine.run (pbSend P senderId) txBlock sends = .ok (bytes, outs) ∧
    outs.map Prod.snd = sends.map (fun s => s.message.succeeds) ∧
    Machine.run (pbDecodeFeed (Config.ofPayload P) output store) (pbDecodeInit user)
      (outs.flatMap Prod.fst) = .ok (inst, os) ∧
    List.Forall₂ SlicePull.Offers (Package.pulls os) packages

/-- The decodes are those of the packages that the splice completes. -/
theorem sessionStarts_of_spliceAll (hP : 1 ≤ P) (hcap : P ≤ 4095) (user : σ) (senderId : UInt8)
    {txBlock : List UInt8} (hroom : P + headerSize ≤ txBlock.length) {sends : List PbSend}
    (hfits : ∀ s ∈ sends, s.Fits P) {packages : List (List UInt8)}
    (hsplice : (spliceAll P [] (sends.map PbSend.outcome)).2 = packages) :
    SessionStarts P output store user senderId txBlock sends packages := by
  subst hsplice
  obtain ⟨bytes, outs, attempts, hrun, hresults, hframes, houtcomes⟩ :=
    run_pbSend hP hcap senderId hroom hfits
  obtain ⟨inst, os, hdecode, p, n, -, -, -, hdecodes⟩ := (splices_embedded output store).run
    (rests_pbDecodeInit store hP hcap user) attempts fun a _ => a.length_le
  rw [houtcomes] at hdecodes
  exact ⟨bytes, outs, inst, os, hrun, hresults, by rw [hframes, hdecode], hdecodes.offers⟩

def wholeSend : PbSend := ⟨⟨[[4, 5], [6, 7, 8]], true⟩, 8⟩

/-- **Nothing is mixed up** if no call fails after a full slice: the decoder
gets the messages that were finished, in order. -/
theorem pbSession_delivered (hP : 1 ≤ P) (hcap : P ≤ 4095) (user : σ) (senderId : UInt8)
    {txBlock : List UInt8} (hroom : P + headerSize ≤ txBlock.length) {sends : List PbSend}
    (hfits : ∀ s ∈ sends, s.Fits P)
    (hshort : ∀ s ∈ sends, s.finished = false → s.message.bytes.length < P) :
    SessionStarts P output store user senderId txBlock sends
      ((sends.filter PbSend.finished).map fun s => s.message.bytes) := by
  refine sessionStarts_of_spliceAll output store hP hcap user senderId hroom hfits ?_
  rw [spliceAll_of_short, List.filter_map, List.map_map]
  · rfl
  · intro a ha
    obtain ⟨s, hs, rfl⟩ := List.mem_map.mp ha
    exact hshort s hs

theorem pbSession_delivered_two :
    SessionStarts 3 plainOutput flatStore (fun _ => 0) 1 (List.replicate 7 0)
      [⟨⟨[[1, 2]], false⟩, 7⟩, wholeSend] [[4, 5, 6, 7, 8]] :=
  pbSession_delivered plainOutput flatStore (by decide) (by decide) (fun _ => 0) 1 (by decide)
    (by decide) (by decide)

end Session

end CustomData
