/-
CustomData/Network.lean

Every sender of the repository against every receiver.

There are four programs that send: the embedded encoder, the tool, the C++
encoder and the writers of the C# encoder.  `Sends P s frames data` says that a
run of one of them sends `frames` for `data` as sender `s`.  Each of these runs
is a parcel if the data is not empty and can be framed (`SenderRun`), so up to
eight senders may share a link to a decoder, each of them changing between
programs and serials as it likes (`network_delivered`), and a row of such runs
is what the receivers with one state expect: the embedded decoder
(`network_to_embedded`) and the tool (`network_to_tool`).
-/
import CustomData.Parcels
import CustomData.ToolLink
import CustomData.PushContract
import CustomData.EmbeddedLink

namespace CustomData

open Collect

variable {P : ℕ}

/-! ### Whole packages are parcels -/

/-- All frames of a package in order. -/
def Package.parcel (p : Package P) {sender serial : UInt8} (hs : sender.toNat < 8)
    {frames : List (List UInt8)}
    (h : p.AreFrames sender serial (List.range (p.full + 1)) frames) : Parcel P where
  package := p
  sender := sender
  sender_lt := hs
  serial := serial
  order := List.range (p.full + 1)
  frames := frames
  areFrames := h
  closed := by rw [rounds_range_self]

theorem Package.copies_parcel (p : Package P) {sender serial : UInt8} (hs : sender.toNat < 8)
    {frames : List (List UInt8)}
    (h : p.AreFrames sender serial (List.range (p.full + 1)) frames) :
    (p.parcel hs h).copies = [p.data] := by
  have htimes : (p.parcel hs h).times = 1 := by
    rw [Parcel.times, Package.parcel, rounds_range_self]
  rw [Parcel.copies, htimes]
  rfl

/-- The frames are a whole package of the sender, with the bytes `data`. -/
def Whole (P : ℕ) (s : UInt8) (frames : List (List UInt8)) (data : List UInt8) : Prop :=
  ∃ (p : Package P) (serial : UInt8), p.data = data ∧
    p.AreFrames s serial (List.range (p.full + 1)) frames

/-! ### The writers of the C# encoder -/

namespace TxWriter

/-- No hint exceeds the room that is left in the current slice. -/
def Fitting (P : ℕ) : ℕ → List WriterCall → Prop
  | _, [] => True
  | n, call :: calls => call.sizeHint ≤ P - n % P ∧ Fitting P (n + call.data.length) calls

instance decidableFitting (P : ℕ) :
    ∀ (n : ℕ) (calls : List WriterCall), Decidable (Fitting P n calls)
  | _, [] => .isTrue trivial
  | n, call :: calls =>
      have := decidableFitting P (n + call.data.length) calls
      inferInstanceAs (Decidable (call.sizeHint ≤ P - n % P ∧
        Fitting P (n + call.data.length) calls))

variable {w : TxWriter} {start : Coordinate} {data : List UInt8} {q r : ℕ}

/-- Calls whose hints fit cut no slice short. -/
theorem Pending.run_fitting {calls : List WriterCall} (h : Pending P start data q r w)
    (hP : P ≤ 4095) (hr : r < P) (hlegal : Legal (Config.ofPayload P) w calls)
    (hfits : Fitting P data.length calls) :
    ∃ w' spans q' r', Machine.run (TxWriter.call (Config.ofPayload P)) w calls = .ok (w', spans) ∧
      r' < P ∧ Pending P start (data ++ written calls) q' r' w' := by
  induction calls generalizing w data q r with
  | nil => exact ⟨w, [], q, r, rfl, hr, by simpa [written] using h⟩
  | cons call calls ih =>
      obtain ⟨hhint, hrest⟩ := hlegal
      obtain ⟨hroom, hfits⟩ := hfits
      have hmod : data.length % P = r := by
        rw [h.length, Nat.mul_add_mod', Nat.mod_eq_of_lt hr]
      rw [hmod] at hroom
      obtain ⟨w₁, hw₁, hreq, -, -, -⟩ := (h.room hr).request hP (hroom.trans (Nat.sub_le _ _))
      rw [hreq] at hrest
      obtain ⟨hlength, hlegal'⟩ := hrest
      -- the request emits nothing
      rw [h.fill, if_neg (by omega)] at hw₁
      subst hw₁
      rw [h.fill] at hlength hlegal'
      obtain ⟨q₁, r₁, hr₁, hpend⟩ := h.use hP hr hlength
      obtain ⟨w', spans, q', r', hrun, hr', hpend'⟩ :=
        ih hpend hr₁ hlegal' (by rwa [List.length_append])
      rw [← h.fill] at hrun
      rw [List.append_assoc] at hpend'
      exact ⟨w', _, q', r', Machine.run_cons_of_ok (call_of_request hreq) hrun, hr', hpend'⟩

/-- The frames of a writer whose last slice is waiting. -/
theorem Pending.areFrames {w : TxWriter} {m : Message P} (h : Pending P start m.data q r w)
    (hr : r < P) :
    m.stream.AreFrames (start.senderId &&& 0x7) start.packageId
      (List.range (m.stream.full + 1)) (w.dispose (Config.ofPayload P)).emitted := by
  have hP := m.capacity_pos
  have hlen := h.length
  obtain rfl : q = m.data.length / P := by
    rw [hlen, Nat.mul_comm, Nat.mul_add_div hP, Nat.div_eq_of_lt hr, Nat.add_zero]
  have hgo : ¬ (w.fill = 0 ∧ (!true || w.cursor.offset = 0)) := by
    rintro ⟨hzero, hoff⟩
    have hfill := h.fill
    rw [hzero, UInt16.toNat_zero] at hfill
    have hpos := List.length_pos_iff.mpr m.nonempty
    have hmul := m.stream.offset_le_of_le le_rfl
    have hoffset : (start.slice P (m.data.length / P)).offset.toNat = 0 := by
      rw [← h.cursor]
      simpa [← UInt16.toNat_inj] using hoff
    simp only [Coordinate.slice, UInt16.toNat_ofNat'] at hoffset
    have hle := m.stream.length_le
    have hdata : m.stream.data = m.data := rfl
    have hfull : m.stream.full = m.data.length / P := rfl
    rw [hdata] at hle
    rw [hdata, hfull] at hmul
    omega
  obtain ⟨f, hf, hemitted, -⟩ := h.emitSlice m.capacity_le true hgo
  rw [dispose, hemitted]
  exact m.areFrames_closed h.frames hf

end TxWriter

/-! ### The four senders -/

/-- A run of one of the senders: the frames it sends as sender `s`, and the
bytes that it was given. -/
inductive Sends (P : ℕ) : UInt8 → List (List UInt8) → List UInt8 → Prop
  /-- A call of `mp_pb_encode` that succeeds. -/
  | embedded {senderId serial : UInt8} {bytes : List UInt8} {m : PbWrites} {b : SliceBlock}
      (room : P + headerSize ≤ bytes.length)
      (call : pbEncode (blockCallbacks (P + headerSize)) (Config.ofPayload P) senderId
        (.untouched bytes) m serial = .ok (b, true)) :
      Sends P (senderId &&& 0x7) b.sent m.bytes
  /-- A call of `cmd_tx`. -/
  | tool {session session' : TxSession} {call : TxCall} {block : SliceBlock}
      (fits : P + headerSize ≤ 4096) (ready : session.Ready P)
      (run : cmdTx session call = .ok (session', block)) :
      Sends P call.sender block.sent call.data
  /-- A call of `Push`, whose serializer fills its buffers. -/
  | cpp {e : TxEncoderCore} {buffer : List UInt8} (c : TxEncoderCore.Client P)
      (tu : e.tu = UInt16.ofNat (P + headerSize)) (unit : buffer.length = P + headerSize) :
      Sends P (e.senderId &&& 0x7) (e.push c.calls true buffer).2.1 c.bytes
  /-- A writer that is disposed after calls whose hints fit. -/
  | cs {encoder : TxEncoder} {rented : List UInt8} {calls : List WriterCall} {w : TxWriter}
      {spans : List Span} (config : encoder.config = Config.ofPayload P)
      (room : P + headerSize ≤ rented.length)
      (legal : TxWriter.Legal encoder.config (encoder.createWriter rented).2 calls)
      (fitting : TxWriter.Fitting P 0 calls)
      (run : Machine.run (TxWriter.call encoder.config) (encoder.createWriter rented).2 calls =
        .ok (w, spans)) :
      Sends P (encoder.senderId &&& 0x7) (w.dispose encoder.config).emitted (written calls)

variable {s : UInt8} {frames : List (List UInt8)} {data : List UInt8}

theorem Sends.lt (h : Sends P s frames data) : s.toNat < 8 := by
  cases h <;> exact senderId_and_lt _

/-- **Every sender sends a package.** -/
theorem Sends.whole (h : Sends P s frames data) (m : Message P) (hm : m.data = data) :
    Whole P s frames data := by
  have hP := m.capacity_pos
  have hcap := m.capacity_le
  cases h with
  | @embedded senderId serial bytes message b room call =>
      have hfits : PbSend.Fits P ⟨message, serial⟩ := by
        have hfits' := And.intro m.serial_le m.offset_le
        rwa [hm] at hfits'
      obtain ⟨bytes', a, hsend, -, houtcome, hsender⟩ :=
        pbSend_attempt hP hcap room senderId (s := ⟨message, serial⟩) hfits
      rw [pbSend, call, Machine.ok_bind] at hsend
      obtain ⟨-, hpair⟩ := Prod.mk.inj (Except.ok.inj hsend)
      obtain ⟨hsent, hok⟩ := Prod.mk.inj hpair
      have hne : message.bytes ≠ [] := hm ▸ m.nonempty
      have hsucceeds : message.succeeds = true := hok.symm
      have hfinished : PbSend.finished ⟨message, serial⟩ = true := by
        simp [PbSend.finished, hsucceeds, hne]
      rw [hfinished] at houtcome
      obtain ⟨m', hp, hframes⟩ := a.exists_stream (Prod.mk.inj houtcome).2
      rw [hsender, ← hsent] at hframes
      exact ⟨m'.stream, a.serial, hp.trans (Prod.mk.inj houtcome).1, hframes⟩
  | @tool session session' call block fits ready run =>
      obtain ⟨session₁, block₁, hrun, -, -, hframes⟩ := cmdTx_sends hP fits ready call
      obtain ⟨-, rfl⟩ := Prod.mk.inj (Except.ok.inj (run.symm.trans hrun))
      exact ⟨m.stream, _, hm, hframes m hm⟩
  | @cpp e buffer c tu unit =>
      have hserial : c.bytes.length / P ≤ 255 := hm ▸ m.serial_le
      have hoffset : (c.bytes.length / P + 1) * P ≤ 65535 := hm ▸ m.offset_le
      have hn : c.buffers ≤ 256 := c.buffers_le hserial
      have hoff : c.buffers * P ≤ 65535 :=
        (Nat.mul_le_mul_right P (c.buffers_le le_rfl)).trans hoffset
      exact ⟨c.package hcap hn hoff, _, rfl, c.areFrames hcap hn hoff tu unit⟩
  | @cs encoder rented calls w spans config room legal fitting run =>
      have hpend : TxWriter.Pending P ⟨encoder.senderId,
          (encoder.currentPackageId + 1).toUInt8, 0⟩ [] 0 0 (encoder.createWriter rented).2 :=
        ⟨⟨by simp, Nat.zero_le _, rfl, by simp [TxEncoder.createWriter, Coordinate.slice], room,
          fun k hk => absurd hk (Nat.not_lt_zero k)⟩, .nil⟩
      rw [config] at legal run ⊢
      obtain ⟨w', spans', q, r, hrun, hr, hpending⟩ :=
        hpend.run_fitting hcap hP legal fitting
      obtain ⟨rfl, -⟩ := Prod.mk.inj (Except.ok.inj (run.symm.trans hrun))
      rw [List.nil_append, ← hm] at hpending
      exact ⟨m.stream, _, hm, hpending.areFrames hr⟩

/-! ### The receivers -/

/-- A run of a sender on bytes that can be framed, of which there is at least
one. -/
structure SenderRun (P : ℕ) where
  sender : UInt8
  frames : List (List UInt8)
  data : List UInt8
  sends : Sends P sender frames data
  fits : Message.fits P data = true

/-- A run is a parcel. -/
theorem SenderRun.exists_parcel (run : SenderRun P) :
    ∃ p : Parcel P, p.frames = run.frames ∧ p.copies = [run.data] ∧
      p.package.data = run.data := by
  obtain ⟨p, serial, hdata, hframes⟩ := run.sends.whole (.ofBytes P run.data run.fits) rfl
  refine ⟨p.parcel run.sends.lt hframes, rfl, ?_, hdata⟩
  rw [p.copies_parcel, hdata]

theorem SenderRun.exists_parcels (runs : List (SenderRun P)) :
    ∃ ps : List (Parcel P), ps.flatMap Parcel.frames = runs.flatMap SenderRun.frames ∧
      ps.flatMap Parcel.copies = runs.map SenderRun.data ∧
      ps.map (fun p => p.package.data) = runs.map SenderRun.data := by
  induction runs with
  | nil => exact ⟨[], rfl, rfl, rfl⟩
  | cons run runs ih =>
      obtain ⟨p, hframes, hcopies, hdata⟩ := run.exists_parcel
      obtain ⟨ps, hframes', hcopies', hdata'⟩ := ih
      refine ⟨p :: ps, ?_, ?_, ?_⟩
      · rw [List.flatMap_cons, List.flatMap_cons, hframes, hframes']
      · rw [List.flatMap_cons, List.map_cons, hcopies, hcopies', List.singleton_append]
      · rw [List.map_cons, List.map_cons, hdata, hdata']

/-- **The network.**  Up to eight senders, whichever programs they run on data
that is not empty and can be framed, share a link that mixes their frames in
any way.  A C++ or C# decoder hands over what each of them was given, in order,
each once. -/
theorem network_delivered {d : Decoder} {c : Coordinator} (hc : d.Initial c)
    (runs : UInt8 → List (SenderRun P)) {frames : List (List UInt8)}
    (hframes : ∀ s, s.toNat < 8 →
      Decoder.framesOf s frames = (runs s).flatMap SenderRun.frames) :
    ∃ c' os, Machine.run (d.feed (Config.ofPayload P)) c frames = .ok (c', os) ∧
      ∀ s, s.toNat < 8 → Decoder.deliveredFrom s os = (runs s).map SenderRun.data := by
  obtain ⟨m, rfl⟩ := hc.exists_fresh
  choose ps hparcels hcopies _ using fun s => SenderRun.exists_parcels (runs s)
  have hps : ∀ s, s.toNat < 8 → Decoder.framesOf s frames = (ps s).flatMap Parcel.frames :=
    fun s hs => (hframes s hs).trans (hparcels s).symm
  obtain ⟨c', os, hrun, hdelivered⟩ := parcels_from_senders (Coordinator.clear_fresh m) d hps
  exact ⟨c', os, hrun, fun s hs => (hdelivered s hs).trans (hcopies s)⟩

/-! One run of each program, in units of seven bytes. -/

def pbRun : SenderRun 3 where
  sender := 2
  frames := [[8, 0, 50, 0, 4, 5, 6], [8, 1, 42, 0, 7, 8, 6]]
  data := [4, 5, 6, 7, 8]
  sends := by
    have h : (pbEncode (blockCallbacks 7) (Config.ofPayload 3) 2 (.untouched (List.replicate 7 0))
        ⟨[[4, 5], [6, 7, 8]], true⟩ 8).map (fun r => (r.1.sent, r.2)) =
        .ok ([[8, 0, 50, 0, 4, 5, 6], [8, 1, 42, 0, 7, 8, 6]], true) := by
      decide +kernel
    obtain ⟨⟨b, ok⟩, hcall, hsent⟩ := Machine.map_eq_ok.mp h
    obtain ⟨hframes, rfl⟩ := Prod.mk.inj hsent
    exact hframes ▸ .embedded (by decide) hcall
  fits := rfl

def toolRun : SenderRun 3 where
  sender := 3
  frames := [[0, 0, 51, 0, 1, 2, 3], [0, 1, 43, 0, 4, 5, 3]]
  data := [1, 2, 3, 4, 5]
  sends := by
    have h : (cmdTx (sessionTxCreate 7) fiveByteCall).map (fun r => r.2.sent) =
        .ok [[0, 0, 51, 0, 1, 2, 3], [0, 1, 43, 0, 4, 5, 3]] := by
      decide +kernel
    obtain ⟨⟨session, block⟩, hrun, hsent⟩ := Machine.map_eq_ok.mp h
    exact hsent ▸ .tool (by decide) ⟨rfl, rfl⟩ hrun
  fits := rfl

def cppRun : SenderRun 3 where
  sender := 2
  frames := [[9, 0, 26, 0, 5, 0, 0]]
  data := [5]
  sends := @Sends.cpp 3 ⟨2, 7, 9⟩ (List.replicate 7 0) TxEncoderCore.oneByte rfl rfl
  fits := rfl

def csRun : SenderRun 3 where
  sender := 1
  frames := [[1, 0, 49, 0, 1, 2, 3], [1, 1, 25, 0, 4, 2, 3]]
  data := [1, 2, 3, 4]
  sends := by
    have h : (Machine.run (TxWriter.call (TxEncoder.mk 7 1 0).config)
        ((TxEncoder.mk 7 1 0).createWriter (List.replicate 7 0)).2
        [⟨.getSpan, 0, [1, 2], [9]⟩, ⟨.getMemory, 1, [3], []⟩, ⟨.getSpan, 3, [4], []⟩]).map
          (fun r => (r.1.dispose (TxEncoder.mk 7 1 0).config).emitted) =
        .ok [[1, 0, 49, 0, 1, 2, 3], [1, 1, 25, 0, 4, 2, 3]] := by
      decide +kernel
    obtain ⟨⟨w, spans⟩, hrun, hemitted⟩ := Machine.map_eq_ok.mp h
    exact hemitted ▸ .cs rfl (by decide) (by decide +kernel) (by decide) hrun
  fits := rfl

/-- Sender 2 changes from the embedded encoder to the C++ one. -/
def sharedRuns (s : UInt8) : List (SenderRun 3) :=
  if s = 1 then [csRun] else if s = 2 then [pbRun, cppRun] else if s = 3 then [toolRun] else []

/-- The frames of the three senders on one link. -/
def sharedFrames : List (List UInt8) :=
  [[8, 0, 50, 0, 4, 5, 6], [1, 0, 49, 0, 1, 2, 3], [8, 1, 42, 0, 7, 8, 6],
    [0, 0, 51, 0, 1, 2, 3], [9, 0, 26, 0, 5, 0, 0], [1, 1, 25, 0, 4, 2, 3],
    [0, 1, 43, 0, 4, 5, 3]]

theorem framesOf_sharedFrames (s : UInt8) (hs : s.toNat < 8) :
    Decoder.framesOf s sharedFrames = (sharedRuns s).flatMap SenderRun.frames := by
  have h : ∀ k : Fin 8, Decoder.framesOf (UInt8.ofNat k) sharedFrames =
      (sharedRuns (UInt8.ofNat k)).flatMap SenderRun.frames := by
    decide +kernel
  simpa using h ⟨s.toNat, hs⟩

theorem network_delivered_shared :
    ∃ c' os, Machine.run (Decoder.cpp.feed (Config.ofPayload 3)) (.fresh fun _ => ⟨0, 7⟩)
        sharedFrames = .ok (c', os) ∧
      ∀ s, s.toNat < 8 → Decoder.deliveredFrom s os = (sharedRuns s).map SenderRun.data :=
  @network_delivered 3 .cpp _ ⟨_, rfl⟩ sharedRuns sharedFrames framesOf_sharedFrames

/-- **Run after run** of any senders, on data that is not empty and can be
framed, the embedded decoder starts a decode of each, which is offered the bytes
that the sender was given. -/
theorem network_to_embedded (hP : 1 ≤ P) (hcap : P ≤ 4095) {σ : Type} (output : PbOutputConfig σ)
    (store : PayloadStore σ) (user : σ) (runs : List (SenderRun P)) :
    ∃ inst os, Machine.run (pbDecodeFeed (Config.ofPayload P) output store) (pbDecodeInit user)
        (runs.flatMap SenderRun.frames) = .ok (inst, os) ∧
      List.Forall₂ SlicePull.Offers (Package.pulls os) (runs.map SenderRun.data) := by
  obtain ⟨ps, hframes, hcopies, -⟩ := SenderRun.exists_parcels runs
  have hdecoded := parcels_to_embedded output store hP hcap user ps
  rwa [hframes, hcopies] at hdecoded

theorem network_to_embedded_four :
    ∃ inst os, Machine.run (pbDecodeFeed (Config.ofPayload 3) plainOutput flatStore)
        (pbDecodeInit fun _ => 0) ([toolRun, pbRun, csRun, cppRun].flatMap SenderRun.frames) =
          .ok (inst, os) ∧
      List.Forall₂ SlicePull.Offers (Package.pulls os)
        [[1, 2, 3, 4, 5], [4, 5, 6, 7, 8], [1, 2, 3, 4], [5]] :=
  network_to_embedded (by decide) (by decide) plainOutput flatStore (fun _ => 0)
    [toolRun, pbRun, csRun, cppRun]

/-- **To the tool**: it writes out what any senders were given, run after run,
as long as the data is not empty and can be framed, and the assembly buffer has
room for each. -/
theorem network_to_tool (hP : 3 ≤ P) (hcap : P ≤ 4095) {write : Write} (hw : write.Succeeds)
    (runs : List (SenderRun P)) (hroom : ∀ run ∈ runs, run.data.length ≤ 256 * (P - 2)) :
    ∃ c, cmdRx write (sessionRxCreate (UInt16.ofNat (P + headerSize)))
        (runs.flatMap SenderRun.frames) = .ok c ∧ c.fault = none ∧
      c.stdout = runs.flatMap SenderRun.data := by
  obtain ⟨ps, hframes, hcopies, hdata⟩ := SenderRun.exists_parcels runs
  have hroom' : ∀ p ∈ ps, p.package.data.length ≤ 256 * (P - 2) := by
    intro p hp
    have hmem : p.package.data ∈ runs.map SenderRun.data := hdata ▸ List.mem_map_of_mem hp
    obtain ⟨run, hrun, heq⟩ := List.mem_map.mp hmem
    rw [← heq]
    exact hroom run hrun
  have hwritten := parcels_to_tool hP hcap hw ps hroom'
  rw [hframes, hcopies] at hwritten
  rwa [List.flatMap_def]

theorem network_to_tool_four :
    ∃ c, cmdRx (fun _ n => some n) (sessionRxCreate 7)
        ([toolRun, pbRun, csRun, cppRun].flatMap SenderRun.frames) = .ok c ∧ c.fault = none ∧
      c.stdout = [1, 2, 3, 4, 5, 4, 5, 6, 7, 8, 1, 2, 3, 4, 5] :=
  network_to_tool (by decide) (by decide) (fun _ n hn => ⟨n, rfl, hn, le_rfl⟩)
    [toolRun, pbRun, csRun, cppRun] (by decide)

end CustomData
