/-
CustomData/Writers.lean

Several writers of one C# encoder at the same time.

`TxEncoder.CreateWriter` counts the package numbers up, so an encoder may be
asked for a writer while others are still being filled, and nothing says whose
slice is emitted next.  Here the writers of an encoder are one machine: each
input is one step with one of them (a request, a write to the span, `Advance`
or `Dispose`), and gives the blocks that go out (`writersStep`).

A writer does not see the others, so the blocks of each are those of its
session alone, in whatever order the steps come (`TxWriter.run_ops`).  The
decoders sort them out by package number: as long as no writer lags more than
127 numbers behind one that has emitted, and the numbers do not wrap, they hand
over what was written to each writer, once (`writers_delivered`).
-/
import CustomData.Ledger
import CustomData.Network
import CustomData.Lib.Tagged

namespace CustomData

open Collect Tagged

variable {P : ℕ}

/-! ### One writer -/

/-- What is asked of a writer, and what its client does in between: write to
the front of the span that was handed out last. -/
inductive WriterOp
  | request (method : RequestMethod) (sizeHint : ℕ)
  | fill (content : List UInt8)
  | advance (count : ℕ)
  | dispose
  deriving DecidableEq

/-- The three steps of a call. -/
def WriterCall.ops (c : WriterCall) : List WriterOp :=
  [.request c.method c.sizeHint, .fill (c.data ++ c.scratch), .advance c.data.length]

namespace TxWriter

variable {config : Config} {w w' : TxWriter}

/-- `GetSpan` or `GetMemory`. -/
def ask (config : Config) (w : TxWriter) : RequestMethod → ℕ → Except Fault (TxWriter × Span)
  | .getSpan, sizeHint => w.getSpan config sizeHint
  | .getMemory, sizeHint => w.getMemory config sizeHint

theorem request_eq (w : TxWriter) (c : WriterCall) :
    w.request config c = w.ask config c.method c.sizeHint := by
  obtain ⟨method, sizeHint, data, scratch⟩ := c
  cases method with
  | getSpan => rfl
  | getMemory => rfl

/-- What one step does to a writer and the span that it handed out last. -/
def act (config : Config) (w : TxWriter × Span) : WriterOp → Except Fault (TxWriter × Span)
  | .request method sizeHint => w.1.ask config method sizeHint
  | .fill content => .ok (w.1.write w.2 content, w.2)
  | .advance count => .ok (w.1.advance config count, w.2)
  | .dispose => .ok (w.1.dispose config, w.2)

/-- One step, with the blocks that it emits. -/
def op (config : Config) (w : TxWriter × Span) (i : WriterOp) :
    Except Fault ((TxWriter × Span) × List (List UInt8)) := do
  let w' ← act config w i
  .ok (w', w'.1.emitted.drop w.1.emitted.length)

/-- A request takes back nothing that went out. -/
theorem emitted_of_ask {method : RequestMethod} {sizeHint : ℕ} {span : Span}
    (h : w.ask config method sizeHint = .ok (w', span)) : w.emitted <+: w'.emitted := by
  have hget : w.getSpan config sizeHint = .ok (w', span) := by
    cases method with
    | getSpan => exact h
    | getMemory => exact h
  rw [getSpan] at hget
  split at hget
  · cases hget
  · obtain ⟨rfl, -⟩ := Prod.mk.inj (Except.ok.inj hget)
    rw [checkSizeAndTryEmitSlice]
    split
    · exact emitSlice_emitted _ _ _
    · exact List.prefix_rfl

/-- No step takes back what went out. -/
theorem emitted_of_act {w w' : TxWriter × Span} {i : WriterOp} (h : act config w i = .ok w') :
    w.1.emitted <+: w'.1.emitted := by
  cases i with
  | request method sizeHint => exact emitted_of_ask h
  | fill content =>
      obtain rfl := Except.ok.inj h
      exact List.prefix_rfl
  | advance count =>
      obtain rfl := Except.ok.inj h
      dsimp only
      rw [advance]
      split
      · exact emitSlice_emitted _ { w.1 with fill := w.1.fill + UInt16.ofNat count } false
      · exact List.prefix_rfl
  | dispose =>
      obtain rfl := Except.ok.inj h
      exact emitSlice_emitted _ _ _

/-- The blocks of a run are what went out in it. -/
theorem emitted_of_run {w w' : TxWriter × Span} {ops : List WriterOp}
    {outs : List (List (List UInt8))} (h : Machine.run (op config) w ops = .ok (w', outs)) :
    w.1.emitted ++ outs.flatten = w'.1.emitted := by
  induction ops generalizing w outs with
  | nil =>
      obtain ⟨rfl, rfl⟩ := Prod.mk.inj (Except.ok.inj h)
      exact List.append_nil _
  | cons i ops ih =>
      obtain ⟨w₁, blocks, outs, hop, hrest, rfl⟩ := Machine.run_cons_eq_ok.mp h
      obtain ⟨w₂, hact, hok⟩ := Machine.bind_eq_ok.mp hop
      obtain ⟨rfl, rfl⟩ := Prod.mk.inj (Except.ok.inj hok)
      obtain ⟨new, hnew⟩ := emitted_of_act hact
      rw [List.flatten_cons, ← ih hrest, ← hnew, List.drop_left, List.append_assoc]

/-- **A session, step by step**: its calls may be taken apart. -/
theorem run_ops {calls : List WriterCall} {spans : List Span}
    (h : Machine.run (TxWriter.call config) w calls = .ok (w', spans)) (span : Span) :
    ∃ span' outs, Machine.run (op config) (w, span) (calls.flatMap WriterCall.ops ++ [.dispose]) =
      .ok ((w'.dispose config, span'), outs) := by
  induction calls generalizing w spans span with
  | nil =>
      obtain ⟨rfl, -⟩ := Prod.mk.inj (Except.ok.inj h)
      exact ⟨span, _, Machine.run_singleton_of_ok rfl⟩
  | cons c calls ih =>
      obtain ⟨w₁, span₁, spans', hcall, hrest, -⟩ := Machine.run_cons_eq_ok.mp h
      obtain ⟨⟨w₂, span₂⟩, hrequest, huse⟩ := Machine.bind_eq_ok.mp hcall
      obtain ⟨rfl, rfl⟩ := Prod.mk.inj (Except.ok.inj huse)
      obtain ⟨span', outs, hrun⟩ := ih hrest span₂
      rw [request_eq] at hrequest
      have hask : op config (w, span) (.request c.method c.sizeHint) =
          .ok ((w₂, span₂), w₂.emitted.drop w.emitted.length) := by
        rw [op, act, hrequest, Machine.ok_bind]
      exact ⟨span', _, Machine.run_cons_of_ok hask
        (Machine.run_cons_of_ok rfl (Machine.run_cons_of_ok rfl hrun))⟩

end TxWriter

/-! ### The writers of an encoder -/

/-- The writer that `CreateWriter` returns after `k` others. -/
def TxEncoder.writer (encoder : TxEncoder) : ℕ → List UInt8 → TxWriter
  | 0, rented => (encoder.createWriter rented).2
  | k + 1, rented => (encoder.createWriter rented).1.writer k rented

theorem TxEncoder.writer_eq (encoder : TxEncoder) (k : ℕ) (rented : List UInt8) :
    encoder.writer k rented =
      ⟨rented, ⟨encoder.senderId, (encoder.currentPackageId + UInt32.ofNat (k + 1)).toUInt8, 0⟩,
        0, []⟩ := by
  induction k generalizing encoder with
  | zero => rfl
  | succ k ih =>
      have hcount : encoder.currentPackageId + 1 + UInt32.ofNat (k + 1) =
          encoder.currentPackageId + UInt32.ofNat (k + 1 + 1) := by
        rw [UInt32.ofNat_add (k + 1) 1, UInt32.add_assoc, UInt32.add_comm 1]
        rfl
      rw [TxEncoder.writer, ih, ← hcount]
      rfl

/-- One step with one of the writers. -/
def writersStep {ι : Type} [DecidableEq ι] (config : Config) (ws : ι → TxWriter × Span)
    (i : ι × WriterOp) : Except Fault ((ι → TxWriter × Span) × List (List UInt8)) := do
  let (w, blocks) ← TxWriter.op config (ws i.1) i.2
  .ok (Function.update ws i.1 w, blocks)

section Machine

variable {ι : Type}

/-- The blocks that go out, with the writers that they are from. -/
def taggedBlocks (ops : List (ι × WriterOp)) (outs : List (List (List UInt8))) :
    List (ι × List UInt8) :=
  (ops.zip outs).flatMap fun e => e.2.map fun block => (e.1.1, block)

theorem map_taggedBlocks {ops : List (ι × WriterOp)} {outs : List (List (List UInt8))}
    (h : ops.length = outs.length) : (taggedBlocks ops outs).map Prod.snd = outs.flatten := by
  have hmap : ∀ e : (ι × WriterOp) × List (List UInt8),
      (e.2.map fun block => (e.1.1, block)).map Prod.snd = e.2 := by
    intro e
    rw [List.map_map]
    exact List.map_id _
  rw [taggedBlocks, List.map_flatMap]
  simp only [hmap]
  rw [List.flatMap_def, List.map_snd_zip h.ge]

/-- What holds of any two steps in their order holds of their blocks. -/
theorem pairwise_taggedBlocks {R : ι → ι → Prop} {ops : List (ι × WriterOp)}
    {outs : List (List (List UInt8))} (h : ops.length = outs.length)
    (hR : ∀ k, R k k) (hops : ops.Pairwise fun a b => R a.1 b.1) :
    (taggedBlocks ops outs).Pairwise fun a b => R a.1 b.1 := by
  have hzip : (ops.zip outs).Pairwise fun a b => R a.1.1 b.1.1 := by
    have hfst := hops
    rw [← List.map_fst_zip h.le, List.pairwise_map] at hfst
    exact hfst
  rw [taggedBlocks, List.pairwise_flatMap]
  refine ⟨fun e _ => ?_, hzip.imp fun hab x hx y hy => ?_⟩
  · rw [List.pairwise_map]
    exact List.pairwise_of_forall fun _ _ => hR _
  · obtain ⟨-, -, rfl⟩ := List.mem_map.mp hx
    obtain ⟨-, -, rfl⟩ := List.mem_map.mp hy
    exact hab

variable [DecidableEq ι] {config : Config}

theorem writersStep_keyed : Machine.Keyed (writersStep (ι := ι) config)
    (fun w (i : ι × WriterOp) => TxWriter.op config w i.2) (fun ws k => ws k) Prod.fst where
  acts := by
    intro ws i ws' blocks h
    obtain ⟨⟨w, blocks'⟩, hop, hok⟩ := Machine.bind_eq_ok.mp h
    obtain ⟨rfl, rfl⟩ := Prod.mk.inj (Except.ok.inj hok)
    rw [Function.update_self]
    exact hop
  frame := by
    intro ws i ws' blocks k h hk
    obtain ⟨⟨w, blocks'⟩, -, hok⟩ := Machine.bind_eq_ok.mp h
    obtain ⟨rfl, -⟩ := Prod.mk.inj (Except.ok.inj hok)
    exact Function.update_of_ne hk _ _

theorem valuesOf_taggedBlocks (k : ι) (ops : List (ι × WriterOp))
    (outs : List (List (List UInt8))) :
    valuesOf k (taggedBlocks ops outs) = (Machine.outputsOf Prod.fst k ops outs).flatten := by
  induction ops generalizing outs with
  | nil => rfl
  | cons op ops ih =>
      cases outs with
      | nil => rfl
      | cons out outs =>
          rw [Machine.outputsOf_cons, taggedBlocks, List.zip_cons_cons, List.flatMap_cons,
            valuesOf_append, valuesOf_map_mk]
          have hrest := ih outs
          rw [taggedBlocks] at hrest
          rw [hrest]
          split
          · rw [List.flatten_cons]
          · rfl

end Machine

/-! ### Delivery -/

/-- What a client does with a writer: it asks for room that is there, writes
what can be framed, and disposes. -/
structure WriterSession (P : ℕ) where
  rented : List UInt8
  calls : List WriterCall
  room : P + headerSize ≤ rented.length
  fitting : TxWriter.Fitting P 0 calls
  fits : Message.fits P (written calls) = true

namespace WriterSession

def ops (s : WriterSession P) : List WriterOp := s.calls.flatMap WriterCall.ops ++ [.dispose]

/-- The writer that is created after `k` others; it has handed out no span. -/
def start (encoder : TxEncoder) (k : ℕ) (s : WriterSession P) : TxWriter × Span :=
  (encoder.writer k s.rented, ⟨0, 0⟩)

def message (s : WriterSession P) : Message P := .ofBytes P (written s.calls) s.fits

/-- The package of a session of the writer that is created after `k` others. -/
def sent (encoder : TxEncoder) (k : ℕ) (s : WriterSession P) : Sent P where
  sender := encoder.senderId &&& 0x7
  serial := (encoder.currentPackageId + UInt32.ofNat (k + 1)).toUInt8
  sender_lt := senderId_and_lt encoder.senderId
  package := s.message.stream

/-- The blocks of a session. -/
theorem run (s : WriterSession P) {encoder : TxEncoder}
    (hconfig : encoder.config = Config.ofPayload P) {k : ℕ}
    (hlegal : TxWriter.Legal encoder.config (encoder.writer k s.rented) s.calls) :
    ∃ w outs, Machine.run (TxWriter.op encoder.config) (s.start encoder k) s.ops =
        .ok (w, outs) ∧
      s.message.stream.AreFrames (s.sent encoder k).sender (s.sent encoder k).serial
        (List.range (s.message.stream.full + 1)) outs.flatten := by
  have hP := s.message.capacity_pos
  have hcap := s.message.capacity_le
  have hpend : TxWriter.Pending P
      ⟨encoder.senderId, (encoder.currentPackageId + UInt32.ofNat (k + 1)).toUInt8, 0⟩ [] 0 0
      (encoder.writer k s.rented) := by
    rw [TxEncoder.writer_eq]
    exact ⟨⟨by simp, Nat.zero_le _, rfl, by simp [Coordinate.slice], s.room,
      fun k hk => absurd hk (Nat.not_lt_zero k)⟩, .nil⟩
  have hnone : (encoder.writer k s.rented).emitted = [] := by rw [TxEncoder.writer_eq]
  rw [hconfig] at hlegal ⊢
  obtain ⟨w, spans, q, r, hcalls, hr, hpending⟩ := hpend.run_fitting hcap hP hlegal s.fitting
  obtain ⟨span, outs, hrun⟩ := TxWriter.run_ops hcalls ⟨0, 0⟩
  have hemitted := TxWriter.emitted_of_run hrun
  rw [hnone, List.nil_append] at hemitted
  refine ⟨_, outs, hrun, ?_⟩
  rw [hemitted]
  exact (show TxWriter.Pending P _ s.message.data q r w from hpending).areFrames hr

end WriterSession

section Delivery

variable {encoder : TxEncoder} {n : ℕ} {sessions : Fin n → WriterSession P}

/-- The numbers of the packages, which do not wrap. -/
theorem sent_serial_toNat (hids : encoder.currentPackageId.toNat % 256 + n ≤ 255) (k : Fin n) :
    ((sessions k).sent encoder k).serial.toNat =
      encoder.currentPackageId.toNat % 256 + k.val + 1 := by
  have hk := k.isLt
  simp only [WriterSession.sent, UInt32.toNat_toUInt8, UInt32.toNat_add, UInt32.toNat_ofNat']
  omega

/-- The blocks of all writers as they arrive: the `i`-th block of a writer is
slice `i` of its package. -/
def blockArrivals (blocks : List (Fin n × List UInt8)) : List (Arrival (Fin n)) :=
  (number (fun _ => 0) blocks).map fun e => ⟨e.1, e.2.1, e.2.2⟩

theorem map_blockArrivals (blocks : List (Fin n × List UInt8)) :
    (blockArrivals blocks).map Arrival.frame = blocks.map Prod.snd := by
  have h := congrArg (List.map Prod.snd) (map_number (fun _ => 0) blocks)
  rw [List.map_map] at h
  rw [blockArrivals, List.map_map, ← h]
  rfl

theorem slicesOf_blockArrivals (blocks : List (Fin n × List UInt8)) (k : Fin n) :
    slicesOf k (blockArrivals blocks) = List.range (valuesOf k blocks).length := by
  rw [List.range_eq_range', ← numbersOf_number (fun _ => 0) blocks k, slicesOf, blockArrivals,
    List.filter_map, List.map_map]
  rfl

theorem blockArrivals_of {blocks : List (Fin n × List UInt8)}
    (h : ∀ k : Fin n, ((sessions k).sent encoder k).package.AreFrames
      ((sessions k).sent encoder k).sender ((sessions k).sent encoder k).serial
      (List.range (((sessions k).sent encoder k).package.full + 1)) (valuesOf k blocks)) :
    ∀ a ∈ blockArrivals blocks, a.Of fun k => (sessions k).sent encoder k := by
  intro a ha
  obtain ⟨e, he, rfl⟩ := List.mem_map.mp ha
  obtain ⟨-, hget⟩ := getElem?_of_mem_number he
  obtain ⟨hlt, hat⟩ := List.getElem?_eq_some_iff.mp hget
  have hlength := (h e.1).length_eq
  have hframe := (List.forall₂_iff_get.mp (h e.1)).2 (e.2.1 - 0) (hlength ▸ hlt) hlt
  simp only [List.get_eq_getElem, List.getElem_range, hat] at hframe
  exact hframe

/-- **Writers at the same time.**  However the steps with the writers of an
encoder are mixed, the decoder hands over what was written to each of them,
once, and nothing else. -/
theorem writers_delivered (hconfig : encoder.config = Config.ofPayload P)
    (hids : encoder.currentPackageId.toNat % 256 + n ≤ 255)
    (hlegal : ∀ k : Fin n, TxWriter.Legal encoder.config (encoder.writer k (sessions k).rented)
      (sessions k).calls)
    {ops : List (Fin n × WriterOp)} (hops : ∀ k : Fin n, valuesOf k ops = (sessions k).ops)
    (hlag : ops.Pairwise fun a b => a.1.val ≤ b.1.val + 127) {d : Decoder} {c : Coordinator}
    (hc : d.Initial c) :
    ∃ ws outs, Machine.run (writersStep encoder.config)
        (fun k : Fin n => (sessions k).start encoder k) ops = .ok (ws, outs) ∧
      ∃ c' os, ∃ order : List (Fin n),
        Machine.run (d.feed (Config.ofPayload P)) c outs.flatten = .ok (c', os) ∧
        handed os = order.map (fun k => written (sessions k).calls) ∧
        order.Nodup ∧ ∀ k, k ∈ order := by
  -- each writer on its own
  have hone : ∀ k : Fin n, ∃ w outs,
      Machine.run (fun w (i : Fin n × WriterOp) => TxWriter.op encoder.config w i.2)
        ((sessions k).start encoder k) (ops.filter fun i => i.1 = k) = .ok (w, outs) ∧
        (sessions k).message.stream.AreFrames ((sessions k).sent encoder k).sender
          ((sessions k).sent encoder k).serial
          (List.range ((sessions k).message.stream.full + 1)) outs.flatten := by
    intro k
    obtain ⟨w, outs, hrun, hframes⟩ := (sessions k).run hconfig (hlegal k)
    rw [← hops k, valuesOf, Machine.run_map] at hrun
    exact ⟨w, outs, hrun, hframes⟩
  have hlift : ∀ (ws : Fin n → TxWriter × Span) (i : Fin n × WriterOp)
      (r : (TxWriter × Span) × List (List UInt8)),
      TxWriter.op encoder.config (ws i.1) i.2 = .ok r →
      ∃ r', writersStep encoder.config ws i = .ok r' :=
    fun ws i r h => ⟨_, by rw [writersStep, h, Machine.ok_bind]⟩
  obtain ⟨⟨ws, outs⟩, hrun⟩ := (writersStep_keyed.run_ok_iff_filter hlift).mpr fun k => by
    obtain ⟨w, outs, hown, -⟩ := hone k
    exact ⟨(w, outs), hown⟩
  refine ⟨ws, outs, hrun, ?_⟩
  have hlength := Machine.length_of_run hrun
  have hframes : ∀ k : Fin n, ((sessions k).sent encoder k).package.AreFrames
      ((sessions k).sent encoder k).sender ((sessions k).sent encoder k).serial
      (List.range (((sessions k).sent encoder k).package.full + 1))
      (valuesOf k (taggedBlocks ops outs)) := by
    intro k
    obtain ⟨w, outs', hown, hframes⟩ := hone k
    have hfilter := writersStep_keyed.run_filter k hrun
    obtain ⟨-, houtputs⟩ := Prod.mk.inj (Except.ok.inj (hfilter.symm.trans hown))
    rw [valuesOf_taggedBlocks, houtputs]
    exact hframes
  have hkey : Function.Injective fun k : Fin n => ((sessions k).sent encoder k).key := by
    intro k k' h
    have hserial := congrArg UInt8.toNat (congrArg Prod.snd h)
    simp only [Sent.key, sent_serial_toNat hids] at hserial
    exact Fin.ext (by omega)
  have hcalm : Calm (fun k : Fin n => (sessions k).sent encoder k)
      (blockArrivals (taggedBlocks ops outs)) := by
    have hblocks := pairwise_taggedBlocks (R := fun k l : Fin n => k.val ≤ l.val + 127)
      hlength (fun _ => by omega) hlag
    rw [Calm, blockArrivals, List.pairwise_map]
    rw [← map_number (fun _ => 0) (taggedBlocks ops outs), List.pairwise_map] at hblocks
    refine hblocks.imp fun {a b} hab _ => ?_
    rw [sent_serial_toNat hids, sent_serial_toNat hids]
    have hval : a.1.val ≤ b.1.val + 127 := hab
    show encoder.currentPackageId.toNat % 256 + a.1.val + 1 ≤
      encoder.currentPackageId.toNat % 256 + b.1.val + 1 + 127
    omega
  have hslices : ∀ k : Fin n, slicesOf k (blockArrivals (taggedBlocks ops outs)) =
      List.range (((sessions k).sent encoder k).package.full + 1) := by
    intro k
    rw [slicesOf_blockArrivals, ← (hframes k).length_eq, List.length_range]
  obtain ⟨c', os, order, hfeed, hhanded, hnodup, hall⟩ :=
    decoder_delivers_each_once hkey d hc (blockArrivals_of hframes) hcalm
      (fun k => by
        rw [hslices k]
        exact fun i hi => List.mem_range.mpr hi)
      fun k => not_twice_of_nodup (Nat.succ_pos _) (by rw [hslices k]; exact List.nodup_range)
  rw [map_blockArrivals, map_taggedBlocks hlength] at hfeed
  exact ⟨c', os, order, hfeed, hhanded, hnodup, hall⟩

/-- Two writers in slices of three bytes. -/
def twoSessions : Fin 2 → WriterSession 3
  | 0 => ⟨List.replicate 7 0, [⟨.getSpan, 0, [1, 2], [9]⟩, ⟨.getMemory, 1, [3], []⟩,
      ⟨.getSpan, 3, [4], []⟩], by decide, by decide, by decide⟩
  | 1 => ⟨List.replicate 9 0, [⟨.getSpan, 2, [5], []⟩], by decide, by decide, by decide⟩

/-- The second writer is filled and disposed while the first one has a span
that nothing was written to yet. -/
def twoOps : List (Fin 2 × WriterOp) :=
  [(0, .request .getSpan 0), (1, .request .getSpan 2), (1, .fill [5]), (0, .fill [1, 2, 9]),
    (1, .advance 1), (0, .advance 2), (0, .request .getMemory 1), (1, .dispose), (0, .fill [3]),
    (0, .advance 1), (0, .request .getSpan 3), (0, .fill [4]), (0, .advance 1), (0, .dispose)]

theorem writers_delivered_two :
    ∃ ws outs, Machine.run (writersStep (TxEncoder.mk 7 1 0).config)
        (fun k : Fin 2 => (twoSessions k).start (TxEncoder.mk 7 1 0) k) twoOps =
          .ok (ws, outs) ∧
      ∃ c' os, ∃ order : List (Fin 2),
        Machine.run (Decoder.cpp.feed (Config.ofPayload 3)) (.fresh fun _ => ⟨200, 7⟩)
          outs.flatten = .ok (c', os) ∧
        handed os = order.map (fun k => written (twoSessions k).calls) ∧
        order.Nodup ∧ ∀ k, k ∈ order :=
  writers_delivered rfl (by decide) (by decide +kernel)
    (by decide +kernel) (by decide) ⟨_, rfl⟩

end Delivery

end CustomData
