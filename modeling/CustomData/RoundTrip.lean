/-
CustomData/RoundTrip.lean

From the C# writer to the C# decoder.

A session of a buffer writer ends in blocks that are the frames of a package,
or begin with those of a shorter one: the receiver takes any short slice for
the last one, so a slice that a size hint has cut short ends the package there.
Hence the decoder hands over what was written if and only if no slice is cut
short before the last byte (`writer_roundtrip_iff`).
-/
import CustomData.TxWriter
import CustomData.SlotRx

namespace CustomData

variable {P : ℕ} {start : Coordinate} {data : List UInt8} {q r : ℕ}

/-! ### Blocks as frames -/

/-- The package of `data` whose last slice has number `q`. -/
theorem exists_package (hP : P ≤ 255) (hlength : data.length = q * P + r) (hr : r ≤ P)
    (hq : q ≤ 255) (hne : data ≠ []) : ∃ p : Package P, p.data = data ∧ p.full = q := by
  have hmul : (q + 1) * P ≤ 256 * 255 := Nat.mul_le_mul (by omega) hP
  have hsucc := Nat.add_one_mul q P
  exact ⟨⟨data, q, by omega, hq, by omega, List.length_pos_iff.mpr hne, by omega, by omega⟩,
    rfl, rfl⟩

section Frames

variable {p : Package P} {i : ℕ} {f : List UInt8} {eop : Bool}

/-- The header a writer gives a slice of a package. -/
theorem SliceFrame.starts_package (h : SliceFrame P start p.data eop i f) (hi : i ≤ p.full) :
    packedHeaderToArray (headerPack
      { p.header (start.senderId &&& 0x7) start.packageId i with eop := if eop then 1 else 0 }) ++
        p.payload i <+: f := by
  have hlen := p.length_le
  have hoff := p.offset_le_of_le hi
  have hstarts := h.starts
  rw [txMakeHeader_slice p.capacity_pos (by omega) p.capacity_le] at hstarts
  have hpayload : slicePayload P p.data i = p.payload i := rfl
  rw [hpayload, p.length_payload] at hstarts
  exact hstarts

/-- A block with the right eop mark is a frame. -/
theorem SliceFrame.isFrame (h : SliceFrame P start p.data eop i f) (hi : i ≤ p.full)
    (heop : eop = decide (i = p.full)) :
    p.IsFrame (start.senderId &&& 0x7) start.packageId i f where
  slice_le := hi
  length := h.length
  starts := by
    have hstarts := h.starts_package hi
    subst heop
    have hheader : { p.header (start.senderId &&& 0x7) start.packageId i with
        eop := if decide (i = p.full) then 1 else 0 } =
          p.header (start.senderId &&& 0x7) start.packageId i := by
      simp [Package.header]
    rwa [hheader] at hstarts

/-- A decoder takes a short block for the last one. -/
theorem SliceFrame.feed_short (h : SliceFrame P start p.data false p.full f)
    (hpos : 0 < p.size p.full) (hlt : p.size p.full < P) (d : Decoder) (c : Coordinator) :
    d.feed (Config.ofPayload P) c f = d.feed (Config.ofPayload P) c
      (p.frame (start.senderId &&& 0x7) start.packageId p.full) := by
  have hcap := p.capacity_le
  have hs := senderId_and_lt start.senderId
  have hfits : (p.header (start.senderId &&& 0x7) start.packageId p.full).Fits :=
    Package.header_fits hs
  have hsize : (p.header (start.senderId &&& 0x7) start.packageId p.full).slicePayloadSize =
      UInt16.ofNat (p.size p.full) := rfl
  have hnat : (UInt16.ofNat (p.size p.full)).toNat = p.size p.full := by
    rw [UInt16.toNat_ofNat']
    omega
  have hne : UInt16.ofNat (p.size p.full) ≠ 0 := by
    rw [ne_eq, ← UInt16.toNat_inj, hnat, UInt16.toNat_zero]
    omega
  have hlt' : UInt16.ofNat (p.size p.full) < maxPayload (Config.ofPayload P) := by
    rw [UInt16.lt_iff_toNat_lt, hnat, p.maxPayload_config]
    exact hlt
  have hfits' : HeaderMeta.Fits { p.header (start.senderId &&& 0x7) start.packageId p.full with
      eop := 0 } := ⟨hfits.senderId, by simp, hfits.slicePayloadSize⟩
  rw [(p.isFrame_frame _ start.packageId le_rfl).feed_eq hs, d.feed_of_starts hfits' hcap
      (by rw [hsize, hnat, p.length_payload]) (by rw [p.length_payload]; omega) h.length
      (h.starts_package le_rfl)]
  exact d.receive_of_short hne hlt' c _ 0 _

end Frames

/-! ### The decoder behind the writer -/

/-- A whole package to a fresh decoder, frame by frame. -/
theorem run_fresh (p : Package P) {sender serial : UInt8} (hs : sender.toNat < 8) (d : Decoder)
    {frames : List (List UInt8)}
    (hframes : p.AreFrames sender serial (List.range (p.full + 1)) frames)
    (m : UInt8 → SenderMeta) :
    ∃ c os, Machine.run (d.feed (Config.ofPayload P)) (.fresh m) frames = .ok (c, os) ∧
      (c.slots (Coordinator.slotIndex sender serial)).state = .zero ∧ handed os = [p.data] := by
  have hclear : p.InSlot ∅ (((Coordinator.fresh m).slots (Coordinator.slotIndex sender
      serial)).gcClockHook (((Coordinator.fresh m).senderMeta sender).gcHook serial)) := by
    have hempty : p.InSlot ∅ ((Coordinator.fresh m).slots (Coordinator.slotIndex sender serial)) :=
      p.inSlot_empty rfl
    simpa only [Package.survivors_empty] using
      hempty.gcClockHook (((Coordinator.fresh m).senderMeta sender).gcHook serial)
  obtain ⟨c, os, hrun, hin, -, hhanded⟩ := p.run_package hs d hframes (by simp)
    List.nodup_range (by simp) hclear
  have hall : ∅ ∪ (List.range (p.full + 1)).toFinset = Finset.range (p.full + 1) := by
    ext j
    simp
  rw [hall, Package.heldAfter, if_pos rfl] at hin
  rw [hall, Package.handedAfter, if_pos rfl] at hhanded
  exact ⟨c, os, hrun, hin.state_eq_zero, hhanded⟩

/-- The full slices of a package are frames of it. -/
theorem areFrames_front {p : Package P} {front : List (List UInt8)}
    (hfront : List.Forall₂ (SliceFrame P start p.data false) (List.range p.full) front) :
    p.AreFrames (start.senderId &&& 0x7) start.packageId (List.range p.full) front := by
  refine List.forall₂_iff_zip.mpr ⟨hfront.length_eq, fun {i f} hmem => ?_⟩
  have hi := List.mem_range.mp (List.of_mem_zip hmem).1
  exact (List.forall₂_zip hfront hmem).isFrame hi.le (by simp [hi.ne])

/-- What waits when the writer is disposed goes out as the last slice, and the
decoder hands over the data. -/
theorem run_pending {w : TxWriter} (h : w.Pending P start data q r) (hP : P ≤ 255)
    (hq : q ≤ 255) (hne : data ≠ []) (d : Decoder) (m : UInt8 → SenderMeta) :
    ∃ c os, Machine.run (d.feed (Config.ofPayload P)) (.fresh m)
        (w.dispose (Config.ofPayload P)).emitted = .ok (c, os) ∧ handed os = [data] := by
  have hmul : q * P ≤ 255 * 255 := Nat.mul_le_mul hq hP
  have hpos := List.length_pos_iff.mpr hne
  have hgo : ¬ (w.fill = 0 ∧ (!true || w.cursor.offset = 0)) := by
    rintro ⟨hzero, hoff⟩
    have hr := h.fill
    have hlen := h.length
    rw [hzero, UInt16.toNat_zero] at hr
    have hoff' : (start.slice P q).offset.toNat = 0 := by
      rw [← h.cursor]
      simpa [← UInt16.toNat_inj] using hoff
    simp only [Coordinate.slice, UInt16.toNat_ofNat'] at hoff'
    omega
  obtain ⟨f, hf, hemitted, -⟩ := h.emitSlice (by omega) true hgo
  obtain ⟨p, rfl, rfl⟩ := exists_package hP h.length h.le hq hne
  have hframes : p.AreFrames (start.senderId &&& 0x7) start.packageId
      (List.range (p.full + 1)) (w.emitted ++ [f]) := by
    rw [List.range_succ]
    exact List.rel_append (areFrames_front h.frames) (.cons (hf.isFrame le_rfl (by simp)) .nil)
  obtain ⟨c, os, hrun, -, hhanded⟩ := run_fresh p (senderId_and_lt _) d hframes m
  exact ⟨c, os, by rw [TxWriter.dispose, hemitted, hrun], hhanded⟩

/-- Blocks that end in a short slice: the decoder hands over the data, marked
or not. -/
theorem run_cutShort {blocks : List (List UInt8)} (h : TxWriter.CutShort P start data q r blocks)
    (hP : P ≤ 255) (hq : q ≤ 255) (d : Decoder) (m : UInt8 → SenderMeta) :
    ∃ c os, Machine.run (d.feed (Config.ofPayload P)) (.fresh m) blocks = .ok (c, os) ∧
      (c.slots (Coordinator.slotIndex (start.senderId &&& 0x7) start.packageId)).state = .zero ∧
      handed os = [data] := by
  obtain ⟨hlength, hpos, hlt, front, last, rfl, hfront, hlast⟩ := h
  have hne : data ≠ [] := by
    rintro rfl
    simp at hlength
    omega
  obtain ⟨p, rfl, rfl⟩ := exists_package hP hlength hlt.le hq hne
  have hsize : p.size p.full = r := by
    have := p.size_full
    omega
  have hframes : p.AreFrames (start.senderId &&& 0x7) start.packageId (List.range (p.full + 1))
      (front ++ [p.frame (start.senderId &&& 0x7) start.packageId p.full]) := by
    rw [List.range_succ]
    exact List.rel_append (areFrames_front hfront) (.cons (p.isFrame_frame _ _ le_rfl) .nil)
  rw [Machine.run_concat_congr fun c => hlast.feed_short (by omega) (by omega) d c]
  exact run_fresh p (senderId_and_lt _) d hframes m

/-- The empty last slice behind a short one is kept, and nothing more is handed
over. -/
theorem run_extra {w : TxWriter} (hcursor : w.cursor = start.slice P (q + 1)) (hfill : w.fill = 0)
    (hroom : TxWriter.Room P w) (hP : P ≤ 255) (hq : q < 255) (d : Decoder) {c : Coordinator}
    (hclear : (c.slots (Coordinator.slotIndex (start.senderId &&& 0x7)
      start.packageId)).state = .zero) :
    ∃ f c' os, (w.dispose (Config.ofPayload P)).emitted = w.emitted ++ [f] ∧
      Machine.run (d.feed (Config.ofPayload P)) c [f] = .ok (c', os) ∧ handed os = [] := by
  have hP0 : 0 < P := lt_of_le_of_lt (Nat.zero_le _) hroom.fill
  have hmul : (q + 1) * P ≤ 255 * 255 := Nat.mul_le_mul (by omega) hP
  have hpos : 0 < (q + 1) * P := Nat.mul_pos (Nat.succ_pos q) hP0
  -- the block is the empty last slice of any package of `q + 1` full ones
  have hlength : (List.replicate ((q + 1) * P) (0 : UInt8)).length = (q + 1) * P + 0 := by simp
  have hne : List.replicate ((q + 1) * P) (0 : UInt8) ≠ [] := by simpa using hpos.ne'
  have hwait : w.Waiting P start (List.replicate ((q + 1) * P) 0) (q + 1) 0 :=
    ⟨hlength, Nat.zero_le _, by rw [hfill, UInt16.toNat_zero], hcursor, hroom.buffer,
      fun k hk => absurd hk (Nat.not_lt_zero k)⟩
  have hgo : ¬ (w.fill = 0 ∧ (!true || w.cursor.offset = 0)) := by
    rintro ⟨-, hoff⟩
    have hoff' : (start.slice P (q + 1)).offset.toNat = 0 := by
      rw [← hcursor]
      simpa [← UInt16.toNat_inj] using hoff
    simp only [Coordinate.slice, UInt16.toNat_ofNat'] at hoff'
    omega
  obtain ⟨f, hf, hemitted, -⟩ := hwait.emitSlice (by omega) true hgo
  obtain ⟨p, hdata, hfull⟩ := exists_package hP hlength (Nat.zero_le _) (by omega) hne
  rw [← hdata, ← hfull] at hf
  have hin : p.InSlot ∅ ((c.slots (Coordinator.slotIndex (start.senderId &&& 0x7)
      start.packageId)).gcClockHook ((c.senderMeta (start.senderId &&& 0x7)).gcHook
        start.packageId)) := by
    simpa only [Package.survivors_empty] using
      (p.inSlot_empty hclear).gcClockHook ((c.senderMeta (start.senderId &&& 0x7)).gcHook
        start.packageId)
  obtain ⟨c', hfeed, -, -⟩ := hin.feed_of_refreshed (hf.isFrame le_rfl (by simp))
    (senderId_and_lt _) d
  refine ⟨f, c', _, hemitted, Machine.run_singleton_of_ok hfeed, ?_⟩
  have hopen : insert p.full ∅ ≠ Finset.range (p.full + 1) := by
    intro he
    have hmem : (0 : ℕ) ∈ insert p.full (∅ : Finset ℕ) := he ▸ Finset.mem_range.mpr (Nat.succ_pos _)
    simp at hmem
    omega
  rw [Package.handed_verdict, Package.delivery, if_neg hopen]
  rfl

/-! ### The theorem -/

open TxWriter

/-- **The round trip of a writer.**  For every legal session, all spans are
large enough; and a fresh decoder hands over exactly what was written, if and
only if no call whose hint exceeds the room left in the current slice is
followed by more data. -/
theorem writer_roundtrip_iff (hP : 1 ≤ P) (hP' : P ≤ 255) {encoder : TxEncoder}
    (hencoder : encoder.config = Config.ofPayload P) {rented : List UInt8}
    (hrented : P + headerSize ≤ rented.length) {calls : List WriterCall}
    (hlegal : Legal encoder.config (encoder.createWriter rented).2 calls)
    (hne : written calls ≠ []) (hlen : (written calls).length ≤ 255 * P) {c : Coordinator}
    (hc : Decoder.cs.Initial c) :
    ∃ w spans, Machine.run (TxWriter.call encoder.config) (encoder.createWriter rented).2 calls =
        .ok (w, spans) ∧
      List.Forall₂ LargeEnough calls spans ∧
      ((∃ c' os, Machine.run (decode (Config.ofPayload P)) c (w.dispose encoder.config).emitted =
          .ok (c', os) ∧ handed os = [written calls]) ↔ NoEarlyCut P 0 calls) := by
  rw [hencoder] at hlegal ⊢
  obtain ⟨m, rfl⟩ := hc.exists_fresh
  have hpend : Pending P ⟨encoder.senderId, (encoder.currentPackageId + 1).toUInt8, 0⟩ [] 0 0
      (encoder.createWriter rented).2 :=
    ⟨⟨by simp, Nat.zero_le _, rfl, by simp [TxEncoder.createWriter, Coordinate.slice], hrented,
      fun k hk => absurd hk (Nat.not_lt_zero k)⟩, .nil⟩
  obtain ⟨w, spans, hrun, hspans, -⟩ := (hpend.room hP).run (by omega) hlegal
  obtain ⟨w', spans', hrun', hfinished, hbroken⟩ := hpend.run (by omega) hP hlegal
  rw [hrun, Except.ok.injEq, Prod.mk.injEq] at hrun'
  obtain ⟨rfl, -⟩ := hrun'
  rw [List.nil_append] at hfinished hbroken
  refine ⟨w, spans, hrun, hspans, ?_, fun hno => ?_⟩
  · rintro ⟨c', os, hdecode, hhanded⟩
    by_contra hnot
    obtain ⟨pre, blocks, q, r, hpre, hshort, hblocks, hcut⟩ := hbroken hnot
    have hlength := hcut.length
    have hq : q < 255 := Nat.lt_of_mul_lt_mul_right (a := P) (by omega)
    obtain ⟨rest, hrest⟩ := hblocks.trans (emitSlice_emitted (Config.ofPayload P) w true)
    obtain ⟨c₁, os₁, hrun₁, -, hhanded₁⟩ := run_cutShort hcut hP' hq.le .cs m
    -- the decoder hands over the prefix first
    rw [TxWriter.dispose, ← hrest] at hdecode
    obtain ⟨c₂, os₁', os₂, hrun₁', -, rfl⟩ := Machine.run_append_eq_ok.mp hdecode
    obtain ⟨-, rfl⟩ := Prod.mk.inj (Except.ok.inj (hrun₁.symm.trans hrun₁'))
    rw [handed_append, hhanded₁, List.singleton_append, List.cons.injEq] at hhanded
    rw [hhanded.1] at hshort
    exact lt_irrefl _ hshort
  · obtain ⟨q, r, hr, hpending | ⟨hcut, hfill, hcursor, hroom⟩⟩ := hfinished hno
    · have hlength := hpending.length
      have hq : q ≤ 255 := Nat.le_of_mul_le_mul_right (show q * P ≤ 255 * P by omega) hP
      exact run_pending hpending hP' hq hne .cs m
    · have hlength := hcut.length
      have hpos := hcut.pos
      have hq : q < 255 := Nat.lt_of_mul_lt_mul_right (a := P) (by omega)
      obtain ⟨c₁, os₁, hrun₁, hclear, hhanded₁⟩ := run_cutShort hcut hP' hq.le .cs m
      obtain ⟨f, c₂, os₂, hemitted, hrun₂, hhanded₂⟩ :=
        run_extra hcursor hfill hroom hP' hq .cs hclear
      refine ⟨c₂, os₁ ++ os₂, ?_, by rw [handed_append, hhanded₁, hhanded₂, List.append_nil]⟩
      rw [hemitted]
      exact Machine.run_append_of_ok hrun₁ hrun₂

/-- Three bytes through two-byte slices; the hint of the last call does not fit,
but nothing is written after it. -/
def shortCalls : List WriterCall :=
  [⟨.getSpan, 0, [1], [9]⟩, ⟨.getMemory, 1, [2], []⟩, ⟨.getSpan, 2, [3], []⟩,
    ⟨.getSpan, 2, [], []⟩]

theorem writer_roundtrip_short :
    ∃ w spans, Machine.run (TxWriter.call (TxEncoder.mk 6 1 0).config)
        ((TxEncoder.mk 6 1 0).createWriter (List.replicate 8 0)).2 shortCalls = .ok (w, spans) ∧
      List.Forall₂ LargeEnough shortCalls spans ∧
      ((∃ c' os, Machine.run (decode (Config.ofPayload 2)) (.fresh fun _ => ⟨0, 0⟩)
          (w.dispose (TxEncoder.mk 6 1 0).config).emitted = .ok (c', os) ∧
          handed os = [written shortCalls]) ↔ NoEarlyCut 2 0 shortCalls) :=
  writer_roundtrip_iff (by decide) (by decide) rfl (by decide) (by decide +kernel) (by decide)
    (by decide) rfl

/-- One byte, then a hint for a whole slice and one more byte. -/
def cutCalls : List WriterCall := [⟨.getSpan, 0, [1], []⟩, ⟨.getSpan, 3, [2], []⟩]

/-- The hint cuts the first slice short, and the decoder stops there. -/
theorem writer_cuts_early :
    ¬ ∀ (P : ℕ) (encoder : TxEncoder) (rented : List UInt8) (calls : List WriterCall), 1 ≤ P →
      P ≤ 255 → encoder.config = Config.ofPayload P → P + headerSize ≤ rented.length →
      Legal encoder.config (encoder.createWriter rented).2 calls → written calls ≠ [] →
      (written calls).length ≤ 255 * P →
      ∃ w spans, Machine.run (TxWriter.call encoder.config) (encoder.createWriter rented).2 calls =
          .ok (w, spans) ∧
        List.Forall₂ LargeEnough calls spans ∧
        ∃ c' os, Machine.run (decode (Config.ofPayload P)) (.fresh fun _ => ⟨0, 0⟩)
          (w.dispose encoder.config).emitted = .ok (c', os) ∧ handed os = [written calls] := by
  intro h
  obtain ⟨w, spans, hrun, -, c', os, hdecode, hhanded⟩ := h 3 ⟨7, 1, 0⟩ (List.replicate 7 0)
    cutCalls (by decide) (by decide) rfl (by decide)
    (by decide +kernel) (by decide) (by decide)
  have hboth : (Machine.run (TxWriter.call (TxEncoder.mk 7 1 0).config)
      ((TxEncoder.mk 7 1 0).createWriter (List.replicate 7 0)).2 cutCalls >>= fun r =>
        Machine.run (decode (Config.ofPayload 3)) (.fresh fun _ => ⟨0, 0⟩)
          (r.1.dispose (TxEncoder.mk 7 1 0).config).emitted).map (fun r => handed r.2) =
      .ok [[1]] := by
    decide +kernel
  rw [hrun, Machine.ok_bind, hdecode] at hboth
  have hone : handed os = [[1]] := Except.ok.inj hboth
  rw [hhanded] at hone
  exact absurd hone (by decide)

end CustomData
