/-
CustomData/Silence.lean

What an empty run of the tool does to the receivers that keep one slice state.

`cmd_tx` sends a frame for an empty input too.  The frame is well formed, but it
leaves the state behind the packages that follow (`Behind`), and nothing in the
receivers gets them out of there.

* The embedded decoder starts no decode any more, whatever the embedded encoder
  and the tool send it (`embedded_silenced`).
* `cmd_rx` writes a slice of what its buffer held before, then the rest of the
  first package of at least one full slice, and then nothing
  (`tool_silenced`), in all later calls as well: the state is in the session
  file.
-/
import CustomData.ToolArea
import CustomData.ToolLink
import CustomData.Network
import CustomData.Stall

namespace CustomData

open Collect

variable {P : ℕ}

/-! ### The frame of an empty input -/

/-- An end of package at offset 0 without payload. -/
structure IsEmptyFrame (P : ℕ) (sender serial : UInt8) (f : List UInt8) : Prop where
  length : f.length = P + headerSize
  header : headerUnpack (arrayToPackedHeader f) = ⟨serial, 0, sender, 1, 0⟩

theorem SliceFrame.isEmptyFrame (hP : 0 < P) (hcap : P ≤ 4095) {start : Coordinate}
    {f : List UInt8} (h : SliceFrame P start [] true 0 f) :
    IsEmptyFrame P (start.senderId &&& 0x7) start.packageId f where
  length := h.length
  header := by
    have hs := senderId_and_lt start.senderId
    obtain ⟨pad, hf⟩ := h.starts
    rw [txMakeHeader_slice hP (by omega) hcap] at hf
    rw [← hf, List.append_assoc, headerUnpack_wire ⟨hs, by simp, by simp [slicePayload]⟩]
    simp [slicePayload]

/-- **A call of `tx` with an empty input.** -/
theorem cmdTx_empty (hP : 0 < P) (hfit : P + headerSize ≤ 4096) {session : TxSession}
    (hsession : session.Ready P) {call : TxCall} (hempty : call.data = []) :
    ∃ session' block f, cmdTx session call = .ok (session', block) ∧ session'.Ready P ∧
      block.sent = [f] ∧ IsEmptyFrame P call.sender session.coord.packageId f := by
  have hsize : headerSize = 4 := rfl
  obtain ⟨session', block, hrun, hready, -, front, last, hsent, hfront, hlast⟩ :=
    cmdTx_blocks hP hfit hsession call
  rw [hempty, List.length_nil, Nat.zero_div] at hlast
  rw [hempty, List.length_nil, Nat.zero_div, List.range_zero, List.forall₂_nil_left_iff] at hfront
  refine ⟨session', block, last, hrun, hready, ?_, hlast.isEmptyFrame hP (by omega)⟩
  rw [hsent, hfront, List.nil_append]

/-! ### The embedded decoder -/

section Embedded

variable {σ : Type} (output : PbOutputConfig σ) (store : PayloadStore σ)
variable {inst : PbDecoderInst σ}

theorem pbDecodeFeed_empty (hP : 0 < P) (hcap : P ≤ 4095) (hzero : inst.state = .zero)
    {sender serial : UInt8} {f : List UInt8} (hf : IsEmptyFrame P sender serial f) :
    ∃ inst', pbDecodeFeed (Config.ofPayload P) output store inst f = .ok (inst', none) ∧
      Lagging P 0 inst'.state := by
  obtain ⟨next, hstep, hnext⟩ := behind_of_empty hP hcap
  have hlen : headerSize ≤ (UInt16.ofNat f.length).toNat := by
    rw [hf.length, UInt16.toNat_ofNat']
    unfold headerSize
    omega
  rw [← hzero] at hstep
  obtain ⟨inst', hfeed, hstate, -, hstarted⟩ :=
    pbDecodeFeed_of_header output store hlen hf.header hstep
  rw [hstarted, if_neg (by simp)] at hfeed
  rw [if_neg (by simp), if_neg (by simp)] at hstate
  exact ⟨inst', hfeed, Or.inr ⟨1, Nat.zero_le 1, hstate ▸ hnext⟩⟩

theorem Lagging.pbDecodeFeed {a : ℕ} (h : Lagging P a inst.state) (m : Message P)
    {sender serial : UInt8} (hs : sender.toNat < 8) {f : List UInt8}
    (hf : m.stream.IsFrame sender serial a f) :
    ∃ inst' o, pbDecodeFeed (Config.ofPayload P) output store inst f = .ok (inst', o) ∧
      Lagging P (a + 1) inst'.state ∧ o = none := by
  obtain ⟨e, next, hstep, he, hnext⟩ := h.step m hf.slice_le
  obtain ⟨inst', hfeed, hstate, -, hstarted⟩ := pbDecodeFeed_of_step output store hf hs hstep
  rw [hstarted, if_neg he] at hfeed
  rw [if_neg he] at hstate
  refine ⟨inst', none, hfeed, ?_, rfl⟩
  rw [hstate]
  split
  · rename_i hdup
    subst hdup
    exact rxCalcSliceStep_duplicate hstep ▸ hnext
  · exact hnext

/-- An attempt to send a message starts no decode. -/
theorem Lagging.run_attempt {a : Attempt P} (h : Lagging P 0 inst.state) :
    ∃ inst' os, Machine.run (CustomData.pbDecodeFeed (Config.ofPayload P) output store) inst
        a.frames = .ok (inst', os) ∧ Lagging P 0 inst'.state ∧ ∀ o ∈ os, o = none := by
  rcases a.sent with ⟨-, -, hnil⟩ | ⟨m, -, hframes⟩
  · exact ⟨inst, [], by rw [hnil]; rfl, h, by simp⟩
  · rw [List.range_eq_range'] at hframes
    have hstep : ∀ (n : ℕ) (inst : PbDecoderInst σ) (f : List UInt8), Lagging P n inst.state →
        m.stream.IsFrame a.sender a.serial n f →
        ∃ t o, CustomData.pbDecodeFeed (Config.ofPayload P) output store inst f = .ok (t, o) ∧
          Lagging P (n + 1) t.state ∧ o = none :=
      fun _ _ _ h hf => h.pbDecodeFeed output store m a.sender_lt hf
    obtain ⟨inst', os, hrun, hlagging, hnone⟩ := Machine.exists_run_range hstep h hframes
    exact ⟨inst', os, hrun, hlagging.restart, hnone⟩

theorem Lagging.run_attempts (h : Lagging P 0 inst.state) (attempts : List (Attempt P)) :
    ∃ inst' os, Machine.run (CustomData.pbDecodeFeed (Config.ofPayload P) output store) inst
        (attempts.flatMap Attempt.frames) = .ok (inst', os) ∧ ∀ o ∈ os, o = none := by
  induction attempts generalizing inst with
  | nil => exact ⟨inst, [], rfl, by simp⟩
  | cons a attempts ih =>
      obtain ⟨inst₁, os₁, hrun₁, h₁, hnone₁⟩ := h.run_attempt output store (a := a)
      obtain ⟨inst₂, os₂, hrun₂, hnone₂⟩ := ih h₁
      refine ⟨inst₂, os₁ ++ os₂, ?_, ?_⟩
      · rw [List.flatMap_cons]
        exact Machine.run_append_of_ok hrun₁ hrun₂
      · exact List.forall_mem_append.mpr ⟨hnone₁, hnone₂⟩

end Embedded

theorem eq_zero_of_stale (p : Package P) {n : ℕ} (hn : n ≤ p.full)
    (hstale : [] = p.data.take (n * P)) : n = 0 := by
  have hlength := length_take_slices p hn
  rw [← hstale, List.length_nil] at hlength
  exact (Nat.mul_eq_zero.mp hlength.symm).resolve_right p.capacity_pos.ne'

/-- A decoder between two packages has forgotten the last one. -/
theorem Rests.state_zero {σ : Type} {store : PayloadStore σ} {given : List (List UInt8)} {room : ℕ}
    {inst : PbDecoderInst σ} {os : List (Option SlicePull)}
    (h : Rests room (fun p : Package P => p.Decodes store) given [] inst os) :
    inst.state = .zero ∧ List.Forall₂ SlicePull.Offers (Package.pulls os) given := by
  obtain ⟨p, n, -, hn, hstale, hdecodes⟩ := h
  obtain rfl := eq_zero_of_stale p hn hstale
  exact ⟨hdecodes.held.tracks.unique p.fresh_zero.tracks, hdecodes.offers⟩

/-- **An empty run silences the embedded decoder.**  It starts the decodes of
what was sent before, in finished runs on data that can be framed; after the
frame of an empty input it starts none, whatever the tool and the embedded
encoder go on to send, finished or broken off (`Attempt`). -/
theorem embedded_silenced (hP : 1 ≤ P) (hfit : P + headerSize ≤ 4096) {σ : Type}
    (output : PbOutputConfig σ) (store : PayloadStore σ) (user : σ) (before : List (SenderRun P))
    {session session' : TxSession} (hsession : session.Ready P) {call : TxCall}
    (hempty : call.data = []) {block : SliceBlock}
    (hcall : cmdTx session call = .ok (session', block)) (after : List (Attempt P)) :
    ∃ inst os, Machine.run (pbDecodeFeed (Config.ofPayload P) output store) (pbDecodeInit user)
        (before.flatMap SenderRun.frames ++ (block.sent ++ after.flatMap Attempt.frames)) =
          .ok (inst, os) ∧
      List.Forall₂ SlicePull.Offers (Package.pulls os) (before.map SenderRun.data) := by
  have hsize : headerSize = 4 := rfl
  have hcap : P ≤ 4095 := by omega
  obtain ⟨ps, hparcels, hcopies, hdata⟩ := SenderRun.exists_parcels before
  have hroom : ∀ p ∈ ps, p.package.data.length ≤ 65535 := fun p _ => p.package.length_le
  obtain ⟨inst₁, os₁, hrun₁, hrests⟩ :=
    (splices_embedded output store).parcels_run (rests_pbDecodeInit store hP hcap user) ps hroom
  rw [hparcels] at hrun₁
  obtain ⟨hzero, hoffers⟩ := hrests.state_zero
  rw [List.nil_append, hcopies] at hoffers
  obtain ⟨session'', block', f, hcall', -, hsent, hframe⟩ := cmdTx_empty hP hfit hsession hempty
  obtain ⟨-, rfl⟩ := Prod.mk.inj (Except.ok.inj (hcall'.symm.trans hcall))
  obtain ⟨inst₂, hfeed, hlagging⟩ := pbDecodeFeed_empty output store hP hcap hzero hframe
  obtain ⟨inst₃, os₃, hrun₃, hnone⟩ := hlagging.run_attempts output store after
  have hrest := Machine.run_cons_of_ok hfeed hrun₃
  refine ⟨inst₃, os₁ ++ none :: os₃, ?_, ?_⟩
  · rw [hsent]
    exact Machine.run_append_of_ok hrun₁ hrest
  · have hquiet : Package.pulls (none :: os₃) = [] :=
      List.filterMap_eq_nil_iff.mpr (List.forall_mem_cons.mpr ⟨rfl, hnone⟩)
    rw [Package.pulls_append, hquiet, List.append_nil]
    exact hoffers

/-- The attempt that sends a message in the frames padded with zeros. -/
def Message.attempt (m : Message P) {sender : UInt8} (hs : sender.toNat < 8) (serial : UInt8) :
    Attempt P where
  data := m.data
  finished := true
  sender := sender
  sender_lt := hs
  serial := serial
  frames := (List.range (m.stream.full + 1)).map (m.stream.frame sender serial)
  sent := Or.inr ⟨m, rfl, List.forall₂_map_right_iff.mpr <| List.forall₂_same.mpr fun _ hi =>
    m.stream.isFrame_frame sender serial (Nat.lt_succ_iff.mp (List.mem_range.mp hi))⟩

/-- Five bytes for a decoder that an empty run of the tool has reached first. -/
theorem embedded_silenced_five : ∃ session block,
    cmdTx (sessionTxCreate 7) emptyCall = .ok (session, block) ∧
      ∃ inst os, Machine.run (pbDecodeFeed (Config.ofPayload 3) plainOutput flatStore)
          (pbDecodeInit fun _ => 0) (block.sent ++ ((Message.ofBytes 3 [1, 2, 3, 4, 5]
            (.refl true)).attempt sender_one_lt 7).frames) = .ok (inst, os) ∧
        List.Forall₂ SlicePull.Offers (Package.pulls os) [] := by
  obtain ⟨session, block, -, hcall, -⟩ := @cmdTx_empty 3 (by decide) (by decide)
    (sessionTxCreate 7) ⟨rfl, rfl⟩ emptyCall rfl
  refine ⟨session, block, hcall, ?_⟩
  have h := embedded_silenced (by decide) (by decide) plainOutput flatStore (fun _ => 0) []
    ⟨rfl, rfl⟩ rfl hcall [(Message.ofBytes 3 [1, 2, 3, 4, 5] (.refl true)).attempt sender_one_lt 7]
  rwa [List.flatMap_singleton] at h

/-! ### The tool -/

section Tool

variable {write : Write} {c : RxCtx} {p : Package P} {k : ℕ} {f : List UInt8}
variable {sender serial : UInt8}

/-- With nothing to store, the callback writes what the buffer holds. -/
theorem onEvent_empty (hw : write.Succeeds) (hP : 0 < P) (hcap : P ≤ 4095)
    (hconfig : (⟨c.session.transmissionUnit⟩ : Config) = Config.ofPayload P)
    (hroom : P ≤ c.assembly.length) (e : RxStreamEvent) (coord : Coordinate) {next : RxSliceState}
    (hwm : next.watermark.toNat = P) (payload : List UInt8) :
    onEvent write c e coord RxCtx.coordinator next 0 payload 0 =
      { c with stdout := c.stdout ++ c.assembly.take P } := by
  have hlt : (0 : UInt32) < next.watermark.toUInt32 := by
    rw [UInt32.lt_iff_toNat_lt, UInt16.toNat_toUInt32, hwm, UInt32.toNat_zero]
    omega
  have hflush := @flush_of_stored write hw coord c.assembly next.watermark.toUInt32 0
    (maxPayload (Config.ofPayload P)) (2 ^ 16) c
  simp only [UInt16.toNat_toUInt32, hwm, maxPayload_ofPayload hcap, UInt32.toNat_zero,
    List.drop_zero, Nat.sub_zero] at hflush
  unfold onEvent
  simp only [UInt16.lt_irrefl, gt_iff_lt, if_false, hconfig, if_pos hlt]
  exact hflush hP (by omega) hroom hroom (by omega) fun _ _ _ => trivial

/-- The frame of an empty input writes a slice from the buffer. -/
theorem RxCtx.feed_empty (c : RxCtx) (hw : write.Succeeds) (hP : 3 ≤ P) (hcap : P ≤ 4095)
    (hc : c.Sound P) (hzero : c.session.state = .zero) (hf : IsEmptyFrame P sender serial f) :
    ∃ c', c.feed write P f = .ok (c', ()) ∧ c'.Sound P ∧ Behind P 1 c'.session.state ∧
      c'.stdout = c.stdout ++ c.assembly.take P := by
  have hsize : headerSize = 4 := rfl
  have htu : (UInt16.ofNat (P + headerSize)).toNat = P + headerSize := by
    rw [UInt16.toNat_ofNat']
    omega
  obtain ⟨next, hstep, hnext⟩ := behind_of_empty (by omega) hcap
  have hwm : next.watermark.toNat = P := by rw [hnext.watermark, Nat.one_mul]
  have hroom : P ≤ c.assembly.length := by
    rw [hc.length]
    omega
  generalize hat : rxHeaderToCoordinate ⟨UInt16.ofNat (P + headerSize)⟩
    ⟨serial, 0, sender, 1, 0⟩ = coord
  have hfeed := @cmdRx_feed_eq _ _ write c f (by rw [htu]; omega) (by rw [hf.length, htu])
    hf.header
  have hstep' : rxCalcSliceStep c.session.state 0 0
      (maxPayload ⟨UInt16.ofNat (P + headerSize)⟩) ((1 : UInt8) != 0) =
        .ok ⟨.newSliceInOrder, next⟩ := by
    rw [hzero]
    exact hstep
  have hevent := onEvent_empty (c := c.statePut coord next) hw (by omega) hcap hc.config hroom
    .newSliceInOrder coord hwm (f.drop headerSize)
  have hold : c.session.state.watermark.toUInt32 = 0 := by rw [hzero]; rfl
  rw [hat, hold] at hfeed
  dsimp only at hfeed
  rw [hstep', Machine.ok_bind, if_neg (by simp), if_neg (by simp), hevent] at hfeed
  exact ⟨_, RxCtx.feed_of_ok hfeed, ⟨hc.config, hc.length, hc.fault⟩, hnext, rfl⟩

/-- The next slice behind an empty package is written out. -/
theorem Behind.feed (hw : write.Succeeds) (h : Behind P k c.session.state) (hc : c.Sound P)
    (hroom : p.data.length ≤ c.assembly.length) (hs : sender.toNat < 8)
    (hf : p.IsFrame sender serial k f) :
    ∃ c', c.feed write P f = .ok (c', ()) ∧ c'.Sound P ∧
      (k < p.full → Behind P (k + 1) c'.session.state) ∧
      (k = p.full → p.data.length < (p.full + 1) * P → Stalled P c'.session.state) ∧
      c'.stdout = c.stdout ++ (p.data.drop (k * P)).take P := by
  have hk := hf.slice_le
  have hmul := p.offset_le_of_le hk
  have hupper := p.upper
  have hsucc := Nat.add_one_mul k P
  have hstale : (c.assembly.take (k * P)).length = k * P := by
    rw [List.length_take]
    omega
  have hsent : k < p.sentSlices true := Nat.lt_succ_of_le hk
  -- the package that the buffer would hold
  obtain ⟨q, hfull, hdata, hlength, hframe⟩ := p.exists_spliced hstale hsent
  have hkq : k ≤ q.full := hfull ▸ hk
  have hdrop : q.data.drop (k * P) = p.data.drop (k * P) := by
    rw [hdata, List.drop_left' hstale, hstale]
    rfl
  have hlen : q.data.length = p.data.length := hlength
  obtain ⟨next, hstep, hbits, hwm, hnext⟩ := h.step hkq
  have hend : next.watermark.toNat ≤ q.data.length ∧ next.watermark.toNat ≤ (k + 1) * P ∧
      k * P ≤ next.watermark.toNat := by
    rw [hwm]
    split
    · rename_i hlast
      rw [← hfull, ← hlast] at hupper
      omega
    · have := q.slice_end_le (hkq.lt_of_ne (by assumption))
      omega
  have hstored : ∀ j < q.data.length, j / P ∈ Finset.range k → c.assembly[j]? = q.data[j]? := by
    intro j _ hj
    have hlt : j < k * P := (Nat.div_lt_iff_lt_mul p.capacity_pos).mp (Finset.mem_range.mp hj)
    rw [hdata, List.getElem?_append_left (by rw [hstale]; exact hlt), List.getElem?_take,
      if_pos hlt]
  have hbelow : ∀ j < next.watermark.toNat, j / P ∈ insert k (Finset.range k) := by
    intro j hj
    rw [← Finset.range_add_one, Finset.mem_range, Nat.div_lt_iff_lt_mul p.capacity_pos]
    omega
  have hfeed := Package.cmdRx_feed_of_step hw (hframe le_rfl hsent hf) hs hc (hlen ▸ hroom) hstored
    hstep (by simp) (by rw [h.watermark]; exact hend.2.2) hend.1 hbelow
  rw [h.watermark, hdrop] at hfeed
  refine ⟨_, RxCtx.feed_of_ok hfeed, ⟨hc.config, ?_, hc.fault⟩, fun hlt => ?_,
    fun hlast hshort i hi => ?_, ?_⟩
  · exact (Package.length_overwrite_slice hkq (hlen ▸ hroom)).trans hc.length
  · exact hnext (hfull ▸ hlt)
  · rw [if_pos (hlast.trans hfull.symm)] at hwm
    apply (hbits i).mpr
    have hi' : i.toNat * P ≤ next.watermark.toNat := hi
    rw [hwm, hlen, hlast] at *
    exact Nat.lt_of_mul_lt_mul_right (hi'.trans_lt hshort)
  · have htake : (p.data.drop (k * P)).take (next.watermark.toNat - k * P) =
        (p.data.drop (k * P)).take P := by
      rw [hwm]
      split
      · -- the last slice is the rest of the package
        rename_i hlast
        rw [← hfull, ← hlast] at hupper
        rw [hlen, List.take_of_length_le (by rw [List.length_drop]),
          List.take_of_length_le (by rw [List.length_drop]; omega)]
      · rw [hsucc, Nat.add_sub_cancel_left]
    exact congrArg (c.stdout ++ ·) htake

variable (write) in
/-- A stalled session writes nothing. -/
theorem Stalled.feed (h : Stalled P c.session.state) (hc : c.Sound P)
    (hroom : p.data.length ≤ c.assembly.length) (hs : sender.toNat < 8) {i : ℕ}
    (hf : p.IsFrame sender serial i f) :
    ∃ c', c.feed write P f = .ok (c', ()) ∧ c'.Sound P ∧ Stalled P c'.session.state ∧
      c'.stdout = c.stdout := by
  have hoff := p.offset_le_of_le hf.slice_le
  have hlen := p.length_le
  have hrange : (UInt8.ofNat i).toNat * P ≤ 65535 := by
    rw [p.toNat_ofNat_slice hf.slice_le]
    omega
  obtain ⟨e, next, hstep, hidle, hwm, hnext⟩ := h.step p.capacity_le hrange
    (UInt16.ofNat (p.size i)) (decide (i = p.full))
  rcases hidle with rfl | rfl
  · exact ⟨c, RxCtx.feed_of_duplicate hf hs hstep, hc, h, rfl⟩
  · have hfeed := rxStreamFeed_of_isFrame hf hs
      (s := cmdRxStream write (UInt16.ofNat (P + headerSize))) rfl c
    have hevent : onEvent write (c.statePut (p.coord sender serial i) next) .newSliceOutOfOrder
        (p.coord sender serial i) RxCtx.coordinator next c.session.state.watermark.toUInt32
        (f.drop headerSize) (UInt16.ofNat (p.size i)) =
          { c.statePut (p.coord sender serial i) next with
            assembly := overwrite c.assembly (i * P) (p.payload i) } := by
      have hput := Package.payloadPut_slice hf (c.statePut (p.coord sender serial i) next) hroom
        hf.slice_le
      unfold onEvent
      simp only [hput, hwm, UInt32.lt_irrefl, if_false]
      rfl
    rw [hf.length] at hfeed
    have hfeed' : rxStreamFeed (cmdRxStream write (UInt16.ofNat (P + headerSize))) c f
        (UInt16.ofNat (P + headerSize)) = .ok { c.statePut (p.coord sender serial i) next with
          assembly := overwrite c.assembly (i * P) (p.payload i) } := by
      rw [hfeed]
      show rxCalcSliceStep c.session.state _ _ _ _ >>= _ = _
      rw [hstep, Machine.ok_bind, if_neg (by simp), if_neg (by simp)]
      exact congrArg Except.ok hevent
    refine ⟨_, RxCtx.feed_of_ok hfeed', ⟨hc.config, ?_, hc.fault⟩, hnext, rfl⟩
    exact (Package.length_overwrite_slice hf.slice_le hroom).trans hc.length

theorem Attempt.frames_isFrame {room : ℕ} {attempts : List (Attempt P)}
    (hroom : ∀ a ∈ attempts, a.data.length ≤ room) :
    ∀ f ∈ attempts.flatMap Attempt.frames, ∃ (p : Package P) (sender serial : UInt8) (i : ℕ),
      p.data.length ≤ room ∧ sender.toNat < 8 ∧ p.IsFrame sender serial i f := by
  intro f hf
  obtain ⟨a, ha, hmem⟩ := List.mem_flatMap.mp hf
  rcases a.sent with ⟨-, -, hnil⟩ | ⟨m, hm, hframes⟩
  · rw [hnil] at hmem
    cases hmem
  · obtain ⟨i, hi⟩ := hframes.exists_of_mem f hmem
    exact ⟨m.stream, a.sender, a.serial, i, (congrArg List.length hm).trans_le (hroom a ha),
      a.sender_lt, hi⟩

variable (write) in
/-- A stalled session writes nothing of any frames. -/
theorem Stalled.run (h : Stalled P c.session.state) (hc : c.Sound P) {frames : List (List UInt8)}
    (hframes : ∀ f ∈ frames, ∃ (p : Package P) (sender serial : UInt8) (i : ℕ),
      p.data.length ≤ 256 * (P - 2) ∧ sender.toNat < 8 ∧ p.IsFrame sender serial i f) :
    ∃ c' os, Machine.run (RxCtx.feed write P) c frames = .ok (c', os) ∧ c'.Sound P ∧
      c'.stdout = c.stdout := by
  have hstep : ∀ (t : RxCtx) (f : List UInt8),
      (t.Sound P ∧ Stalled P t.session.state ∧ t.stdout = c.stdout) →
      (∃ (p : Package P) (sender serial : UInt8) (i : ℕ), p.data.length ≤ 256 * (P - 2) ∧
        sender.toNat < 8 ∧ p.IsFrame sender serial i f) →
      ∃ u o, t.feed write P f = .ok (u, o) ∧
        (u.Sound P ∧ Stalled P u.session.state ∧ u.stdout = c.stdout) ∧ o = () := by
    rintro t f ⟨ht, hstalled, hout⟩ ⟨p, sender, serial, i, hroom, hs, hf⟩
    obtain ⟨u, hfeed, hu, hnext, hsame⟩ := hstalled.feed write ht
      (hroom.trans ht.length.ge) hs hf
    exact ⟨u, (), hfeed, ⟨hu, hnext, hsame.trans hout⟩, rfl⟩
  obtain ⟨c', os, hrun, ⟨hc', -, hout⟩, -⟩ := Machine.exists_run hstep ⟨hc, h, rfl⟩ hframes
  exact ⟨c', os, hrun, hc', hout⟩

/-- Slice 1 and those after it. -/
theorem Behind.run_rest (hw : write.Succeeds) (h : Behind P 1 c.session.state) (hc : c.Sound P)
    (m : Message P) (hroom : m.data.length ≤ 256 * (P - 2)) (hfull : 1 ≤ m.stream.full)
    (hs : sender.toNat < 8) {frames : List (List UInt8)}
    (hframes : m.stream.AreFrames sender serial (List.range' 1 m.stream.full) frames) :
    ∃ c' os, Machine.run (RxCtx.feed write P) c frames = .ok (c', os) ∧ c'.Sound P ∧
      Stalled P c'.session.state ∧ c'.stdout = c.stdout ++ m.data.drop P := by
  have hstep : ∀ (a : ℕ) (t : RxCtx) (f : List UInt8),
      (t.Sound P ∧ (a ≤ m.stream.full → Behind P a t.session.state) ∧
        (m.stream.full < a → Stalled P t.session.state) ∧
        t.stdout = c.stdout ++ (m.data.take (a * P)).drop P) →
      m.stream.IsFrame sender serial a f →
      ∃ u o, t.feed write P f = .ok (u, o) ∧
        (u.Sound P ∧ (a + 1 ≤ m.stream.full → Behind P (a + 1) u.session.state) ∧
          (m.stream.full < a + 1 → Stalled P u.session.state) ∧
          u.stdout = c.stdout ++ (m.data.take ((a + 1) * P)).drop P) ∧ o = () := by
    rintro a t f ⟨ht, hbehind, -, hout⟩ hf
    have ha := hf.slice_le
    have hpos := (hbehind ha).pos
    have hmul : P ≤ a * P := Nat.le_mul_of_pos_left P hpos
    have hle : a * P ≤ m.data.length := m.stream.offset_le_of_le ha
    obtain ⟨u, hfeed, hu, hnext, hlast, hgrown⟩ := (hbehind ha).feed hw ht
      (hroom.trans ht.length.ge) hs hf
    refine ⟨u, (), hfeed, ⟨hu, hnext, fun hlt => hlast (by omega) m.stream_short, ?_⟩, rfl⟩
    have htake : (m.data.take (a * P)).drop P ++ (m.data.drop (a * P)).take P =
        (m.data.take ((a + 1) * P)).drop P := by
      rw [Nat.add_one_mul, List.take_add, List.drop_append_of_le_length]
      rw [List.length_take]
      omega
    rw [hgrown, hout, List.append_assoc, ← htake]
    rfl
  have hstart : c.Sound P ∧ (1 ≤ m.stream.full → Behind P 1 c.session.state) ∧
      (m.stream.full < 1 → Stalled P c.session.state) ∧
      c.stdout = c.stdout ++ (m.data.take (1 * P)).drop P := by
    refine ⟨hc, fun _ => h, fun hlt => absurd hfull (not_le.mpr hlt), ?_⟩
    rw [Nat.one_mul, List.drop_eq_nil_of_le (List.length_take_le _ _), List.append_nil]
  obtain ⟨c', os, hrun, ⟨hc', -, hstalled, hout⟩, -⟩ :=
    Machine.exists_run_range hstep hstart hframes
  refine ⟨c', os, hrun, hc', hstalled (by omega), ?_⟩
  have hshort := m.stream_short
  rw [hout, List.take_of_length_le]
  rw [Nat.add_comm]
  exact hshort.le

/-- What is written of the packages behind an empty one. -/
def afterEmpty (P : ℕ) : List (List UInt8) → List UInt8
  | [] => []
  | data :: rest => if P ≤ data.length then data.drop P else afterEmpty P rest

/-- **Behind an empty package.** -/
theorem Behind.run_attempts (hw : write.Succeeds) (h : Behind P 1 c.session.state) (hc : c.Sound P)
    {attempts : List (Attempt P)} (hfinished : ∀ a ∈ attempts, a.finished = true)
    (hroom : ∀ a ∈ attempts, a.data.length ≤ 256 * (P - 2)) :
    ∃ c' os, Machine.run (RxCtx.feed write P) c (attempts.flatMap Attempt.frames) =
        .ok (c', os) ∧ c'.Sound P ∧
      c'.stdout = c.stdout ++ afterEmpty P (attempts.map Attempt.data) := by
  induction attempts generalizing c with
  | nil => exact ⟨c, [], rfl, hc, (List.append_nil _).symm⟩
  | cons a attempts ih =>
      obtain ⟨hdone, hdones⟩ := List.forall_mem_cons.mp hfinished
      obtain ⟨hfits, hrooms⟩ := List.forall_mem_cons.mp hroom
      obtain ⟨m, hm, hframes⟩ := a.exists_stream hdone
      rw [← hm] at hfits
      rw [List.range_eq_range', List.range'_succ, Nat.zero_add] at hframes
      rw [List.flatMap_cons, List.map_cons, afterEmpty, ← hm]
      generalize a.frames = frames at hframes
      cases hframes with
      | @cons _ f _ frames hf hframes =>
          -- slice 0 has come before
          have hhas : c.session.state.has 0 = true := (h.bits 0).mpr (by simp)
          have hfirst : c.feed write P f = .ok (c, ()) :=
            RxCtx.feed_of_duplicate hf a.sender_lt (rxCalcSliceStep_of_has hhas _ _ _)
          by_cases hlong : P ≤ m.data.length
          · have hfull : 1 ≤ m.stream.full := (Nat.one_le_div_iff m.capacity_pos).mpr hlong
            obtain ⟨c₁, os₁, hrun₁, hc₁, hstalled, hout₁⟩ :=
              h.run_rest hw hc m hfits hfull a.sender_lt hframes
            obtain ⟨c₂, os₂, hrun₂, hc₂, hout₂⟩ := hstalled.run write hc₁
              (Attempt.frames_isFrame hrooms)
            refine ⟨c₂, _, Machine.run_append_of_ok (Machine.run_cons_of_ok hfirst hrun₁) hrun₂,
              hc₂, ?_⟩
            rw [hout₂, hout₁, if_pos hlong]
          · have hfull : m.stream.full = 0 := Nat.div_eq_of_lt (not_le.mp hlong)
            rw [hfull, List.range'_zero, List.forall₂_nil_left_iff] at hframes
            obtain ⟨c₂, os₂, hrun₂, hc₂, hout₂⟩ := ih h hc hdones hrooms
            refine ⟨c₂, () :: os₂, ?_, hc₂, ?_⟩
            · rw [hframes]
              exact Machine.run_cons_of_ok hfirst hrun₂
            · rw [hout₂, if_neg hlong]

/-- A session between two packages has forgotten the last one. -/
theorem Rests.waiting {given : List (List UInt8)} {os : List Unit} {room : ℕ}
    (h : Rests room (Package.Writes (P := P) []) given [] c os) :
    c.Waiting P ∧ c.stdout = given.flatten := by
  obtain ⟨-, hout⟩ := h.stdout
  obtain ⟨p, n, -, hn, hstale, hwrites⟩ := h
  obtain rfl := eq_zero_of_stale p hn hstale
  exact ⟨⟨hwrites.toSound, hwrites.state.unique p.fresh_zero.tracks⟩,
    hout.trans (List.append_nil _)⟩

/-- **An empty run silences the tool.**  Between the inputs of the calls of `tx`
before an empty one and those after it the calls of `rx` write a slice that
nobody sent.  Of the inputs after it they write what follows the first slice of
the first one that fills a slice, and nothing else, without a fault. -/
theorem tool_silenced {mtu : UInt16} {opts : List ConfigOption}
    (hconfig : cmdConfig opts = .ok (.tx, mtu)) (hfit : mtu.toNat ≤ 4096)
    {before after : List TxCall} {empty : TxCall}
    (hbefore : ∀ call ∈ before, call.Fits (mtu.toNat - headerSize)) (hempty : empty.data = [])
    (hafter : ∀ call ∈ after, call.Fits (mtu.toNat - headerSize)) :
    ∃ session blocks, Machine.run cmdTx (sessionTxCreate mtu) (before ++ empty :: after) =
        .ok (session, blocks) ∧
      ∀ runs : List (RxRun mtu), runs.flatMap RxRun.blocks = blocks.flatMap SliceBlock.sent →
        ∃ file outs stale, Machine.run RxFile.call (RxFile.create mtu) runs = .ok (file, outs) ∧
          stale.length = mtu.toNat - headerSize ∧
          outs.flatMap Prod.fst = before.flatMap TxCall.data ++ stale ++
            afterEmpty (mtu.toNat - headerSize) (after.map TxCall.data) ∧
          ∀ o ∈ outs, o.2 = none := by
  have hlow := cmdConfig_le hconfig
  have hsize : headerSize = 4 := rfl
  obtain ⟨P, hP⟩ : ∃ P, mtu.toNat = P + headerSize := ⟨mtu.toNat - headerSize, by omega⟩
  have hmtu : mtu = UInt16.ofNat (P + headerSize) := by
    rw [← hP, UInt16.ofNat_toNat]
  rw [hP, Nat.add_sub_cancel] at hbefore hafter ⊢
  rw [hP] at hfit hlow
  have hready : TxSession.Ready P (sessionTxCreate mtu) := ⟨hmtu, rfl⟩
  -- the calls of `tx`
  obtain ⟨session₁, blocks₁, attempts₁, hrun₁, hready₁, hsent₁, houtcomes₁⟩ :=
    run_cmdTx (by omega) hfit hready hbefore
  obtain ⟨session₂, block, f, hrun₂, hready₂, hsent₂, hframe⟩ :=
    cmdTx_empty (by omega) hfit hready₁ hempty
  obtain ⟨session₃, blocks₃, attempts₃, hrun₃, -, hsent₃, houtcomes₃⟩ :=
    run_cmdTx (by omega) hfit hready₂ hafter
  refine ⟨session₃, blocks₁ ++ block :: blocks₃,
    Machine.run_append_of_ok hrun₁ (Machine.run_cons_of_ok hrun₂ hrun₃), fun runs hruns => ?_⟩
  rw [List.flatMap_append, List.flatMap_cons, hsent₁, hsent₂, hsent₃] at hruns
  -- the blocks at one session of `rx`
  have hw : Write.Succeeds fun _ n => some n := fun _ n hn => ⟨n, rfl, hn, le_rfl⟩
  obtain ⟨-, hattempts₁⟩ := attempts_of_calls houtcomes₁ fun call hcall => (hbefore call hcall).room
  obtain ⟨hdata₃, hattempts₃⟩ :=
    attempts_of_calls houtcomes₃ fun call hcall => (hafter call hcall).room
  obtain ⟨c₁, os₁, hrx₁, hrests⟩ := (splices_tool hw []).run
    (rests_sessionRxCreate (by omega) (by omega)) attempts₁ fun a ha => (hattempts₁ a ha).2
  obtain ⟨hstale, hwhole⟩ := @spliceAll_calls P before
  rw [houtcomes₁, hstale] at hrests
  obtain ⟨hwaiting, hout₁⟩ := hrests.waiting
  rw [List.nil_append, hwhole] at hout₁
  obtain ⟨c₂, hrx₂, hsound₂, hbehind, hout₂⟩ :=
    c₁.feed_empty hw (by omega) (by omega) hwaiting.toSound hwaiting.state hframe
  obtain ⟨c₃, os₃, hrx₃, hsound₃, hout₃⟩ := hbehind.run_attempts hw hsound₂
    (fun a ha => (hattempts₃ a ha).1) fun a ha => (hattempts₃ a ha).2
  have hcreate := waiting_sessionRxCreate (by omega : 2 ≤ P) (by omega)
  have hrx := cmdRx_of_run hcreate.toSound
    (Machine.run_append_of_ok hrx₁ (Machine.run_cons_of_ok hrx₂ hrx₃))
  rw [← hmtu, ← List.singleton_append, ← hruns] at hrx
  have htu : (RxFile.create mtu).session.transmissionUnit = mtu := rfl
  obtain ⟨outs, hcalls, hout, hfaults⟩ := cmdRx_restarts hw htu hrx
  refine ⟨_, outs, c₁.assembly.take P, hcalls, ?_, ?_, hfaults.mp hsound₃.fault⟩
  · rw [List.length_take, hwaiting.length]
    omega
  · rw [hout, hout₃, hout₂, hout₁, hdata₃]

/-- An empty run between two others, in units of seven bytes. -/
theorem tool_silenced_five : ∃ session blocks,
    Machine.run cmdTx (sessionTxCreate 7) ([fiveByteCall] ++ emptyCall :: [fiveByteCall]) =
        .ok (session, blocks) ∧
      ∀ runs : List (RxRun 7), runs.flatMap RxRun.blocks = blocks.flatMap SliceBlock.sent →
        ∃ file outs stale, Machine.run RxFile.call (RxFile.create 7) runs = .ok (file, outs) ∧
          stale.length = 3 ∧
          outs.flatMap Prod.fst = [1, 2, 3, 4, 5] ++ stale ++ [4, 5] ∧ ∀ o ∈ outs, o.2 = none :=
  @tool_silenced 7 [.mtu 7] rfl (by decide) [fiveByteCall] [fiveByteCall] emptyCall
    (by simpa [headerSize] using fiveByteCall_fits) rfl
    (by simpa [headerSize] using fiveByteCall_fits)

end Tool

end CustomData
