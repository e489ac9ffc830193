/-
CustomData/SessionFile.lean

The session files of the tool (`tools/session.c`), byte by byte.

A session file is the memory of a packed structure; that of a receiver is
followed by its assembly buffer.  `config` writes a file to standard output,
and `tx` and `rx` map it, after its size and its magic number were checked.
Nothing else is checked, so the loaders accept exactly the images of sessions
(`txLoad_eq_some_iff`, `rxLoad_eq_some_iff`).

So the calls of `tx` and `rx` on files are those of the sessions in them
(`txFile_refines`, `rxFile_refines`), from any file that `config` has written
in full; what it leaves behind when a `write` fails is accepted by neither
loader (`txCreate_loads_iff`, `rxCreate_loads_iff`).  The byte order is that of
the machine, and the padding is whatever the machine leaves there.  Calls of
`rx` are those of a machine with the byte order of the wire: the stream reads
the header of a frame as a word of the machine.
-/
import CustomData.ToolStdin
import CustomData.ToolTx
import CustomData.ToolArea
import CustomData.Lib.Layout

namespace CustomData

open Layout (ByteOrder)

variable {o : ByteOrder}

/-! ### The structures -/

/-- `mp_coordinate_t` -/
def coordinateLayout (o : ByteOrder) : Layout Coordinate :=
  (Layout.byte.and (Layout.byte.and (Layout.word16 o))).via
    ⟨fun v => ⟨v.1, v.2.1, v.2.2⟩, fun c => (c.senderId, c.packageId, c.offset), fun _ => rfl,
      fun _ => rfl⟩

/-- `mp_tx_session_t`, with its magic number. -/
def txSessionLayout (o : ByteOrder) : Layout (UInt32 × TxSession) :=
  (Layout.word32 o).and <| ((Layout.word16 o).and (coordinateLayout o)).via
    ⟨fun v => ⟨v.1, v.2⟩, fun s => (s.transmissionUnit, s.coord), fun _ => rfl, fun _ => rfl⟩

/-- The bytes between the last member of `mp_rx_slice_state_t` and the end of
the structure. -/
abbrev Padding := UInt8 × UInt8

/-- `mp_rx_slice_state_t` -/
def sliceStateLayout (o : ByteOrder) : Layout (RxSliceState × Padding) :=
  ((Layout.vector 8 (Layout.word32 o)).and ((Layout.word16 o).and ((Layout.word16 o).and
    ((Layout.word16 o).and (Layout.byte.and Layout.byte))))).via
    ⟨fun v => (⟨v.1, v.2.1, v.2.2.1, v.2.2.2.1⟩, v.2.2.2.2),
      fun s => (s.1.bitmap, s.1.receivedCount, s.1.termination, s.1.watermark, s.2),
      fun _ => rfl, fun _ => rfl⟩

/-- `mp_rx_session_t`, with its magic number. -/
def rxSessionLayout (o : ByteOrder) : Layout (UInt32 × RxSession × Padding) :=
  (Layout.word32 o).and <| ((Layout.word16 o).and (sliceStateLayout o)).via
    ⟨fun v => (⟨v.1, v.2.1⟩, v.2.2), fun s => (s.1.transmissionUnit, s.1.state, s.2),
      fun _ => rfl, fun _ => rfl⟩

/-- `sizeof(mp_tx_session_t)` -/
theorem txSessionLayout_size : (txSessionLayout o).size = 10 := rfl

/-- `sizeof(mp_rx_session_t)` -/
theorem rxSessionLayout_size : (rxSessionLayout o).size = 46 := rfl

/-- `MP_SESSION_SEND_MAGIC` -/
def sessionSendMagic : UInt32 := 0x4D505364

/-- `MP_SESSION_RECV_MAGIC` -/
def sessionRecvMagic : UInt32 := 0x4D505276

/-- The file of a sending session. -/
def TxSession.image (o : ByteOrder) (session : TxSession) : List UInt8 :=
  (txSessionLayout o).write (sessionSendMagic, session)

/-- The file of a receiving session. -/
def RxFile.image (o : ByteOrder) (padding : Padding) (file : RxFile) : List UInt8 :=
  (rxSessionLayout o).write (sessionRecvMagic, file.session, padding) ++ file.assembly

/-! ### Loading and saving -/

/-- `mp_session_tx_load` of a file that can be opened and mapped. -/
def txLoad (o : ByteOrder) (bytes : List UInt8) : Option TxSession :=
  if bytes.length ≠ (txSessionLayout o).size then none
  else
    let s := (txSessionLayout o).read bytes
    if s.1 ≠ sessionSendMagic then none else some s.2

/-- `rx_total_size` -/
def rxTotalSize (o : ByteOrder) (transmissionUnit : UInt16) : ℕ :=
  (rxSessionLayout o).size + rxBufSize transmissionUnit

/-- `mp_session_rx_load` of a file that can be opened, read and mapped. -/
def rxLoad (o : ByteOrder) (bytes : List UInt8) : Option RxFile :=
  if bytes.length < (rxSessionLayout o).size then none
  else
    let peek := (rxSessionLayout o).read (bytes.take (rxSessionLayout o).size)
    if peek.1 ≠ sessionRecvMagic then none
    else if bytes.length ≠ rxTotalSize o peek.2.1.transmissionUnit then none
    else some ⟨peek.2.1, bytes.drop (rxSessionLayout o).size⟩

/-- **The files of senders** are the images of sending sessions. -/
theorem txLoad_eq_some_iff {bytes : List UInt8} {session : TxSession} :
    txLoad o bytes = some session ↔ bytes = session.image o := by
  constructor
  · intro h
    rw [txLoad] at h
    split at h
    · cases h
    · rename_i hsize
      dsimp only at h
      split at h
      · cases h
      · rename_i hmagic
        rw [not_not] at hsize hmagic
        have hread : (txSessionLayout o).read bytes = (sessionSendMagic, session) :=
          Prod.ext hmagic (Option.some.inj h)
        exact ((Layout.write_eq_iff _ hsize).mpr hread).symm
  · rintro rfl
    rw [txLoad, TxSession.image, Layout.length_write, if_neg (not_not.mpr rfl), Layout.read_write]
    rfl

/-- The buffer of the file has the size that belongs to its unit. -/
def RxFile.Sized (file : RxFile) : Prop :=
  file.assembly.length = rxBufSize file.session.transmissionUnit

theorem RxFile.take_image (padding : Padding) (file : RxFile) :
    (file.image o padding).take (rxSessionLayout o).size =
      (rxSessionLayout o).write (sessionRecvMagic, file.session, padding) :=
  List.take_left' (Layout.length_write _ _)

theorem RxFile.drop_image (padding : Padding) (file : RxFile) :
    (file.image o padding).drop (rxSessionLayout o).size = file.assembly :=
  List.drop_left' (Layout.length_write _ _)

theorem RxFile.length_image (padding : Padding) (file : RxFile) :
    (file.image o padding).length = (rxSessionLayout o).size + file.assembly.length := by
  rw [RxFile.image, List.length_append, Layout.length_write]

/-- **The files of receivers** are the images of receiving sessions with their
buffers. -/
theorem rxLoad_eq_some_iff {bytes : List UInt8} {file : RxFile} :
    rxLoad o bytes = some file ↔ file.Sized ∧ ∃ padding, bytes = file.image o padding := by
  constructor
  · intro h
    rw [rxLoad] at h
    split at h
    · cases h
    · rename_i hlong
      dsimp only at h
      split at h
      · cases h
      · rename_i hmagic
        split at h
        · cases h
        · rename_i hsize
          rw [not_not] at hmagic hsize
          obtain rfl := Option.some.inj h
          have htake : (bytes.take (rxSessionLayout o).size).length = (rxSessionLayout o).size := by
            rw [List.length_take]
            omega
          refine ⟨?_, ((rxSessionLayout o).read (bytes.take (rxSessionLayout o).size)).2.2, ?_⟩
          · rw [RxFile.Sized, List.length_drop, hsize, rxTotalSize, Nat.add_sub_cancel_left]
          · rw [RxFile.image, ← hmagic, Layout.write_read _ _ htake, List.take_append_drop]
  · rintro ⟨hsized, padding, rfl⟩
    rw [rxLoad, RxFile.take_image, RxFile.drop_image, RxFile.length_image, Layout.read_write,
      if_neg (by omega)]
    dsimp only
    rw [if_neg (not_not.mpr rfl), if_neg (not_not.mpr (by rw [rxTotalSize, hsized]))]

/-! ### Creating -/

/-- What went out of the bytes, when the loop ends. -/
theorem writeAll_rest {write : Write} {fuel : ℕ} {bytes out out' : List UInt8} {ok : Bool}
    (h : writeAll write fuel bytes out = some (out', ok)) :
    ∃ rest, out' ++ rest = out ++ bytes ∧ (ok = true ↔ rest = []) := by
  induction fuel generalizing bytes out with
  | zero =>
      cases bytes with
      | nil =>
          obtain ⟨rfl, rfl⟩ := Prod.mk.inj (Option.some.inj h)
          exact ⟨[], rfl, by simp⟩
      | cons b bs => cases h
  | succ fuel ih =>
      cases bytes with
      | nil =>
          obtain ⟨rfl, rfl⟩ := Prod.mk.inj (Option.some.inj h)
          exact ⟨[], rfl, by simp⟩
      | cons b bs =>
          rw [writeAll] at h
          split at h
          · obtain ⟨rfl, rfl⟩ := Prod.mk.inj (Option.some.inj h)
            exact ⟨b :: bs, rfl, by simp⟩
          · obtain ⟨rest, hrest, hok⟩ := ih h
            refine ⟨rest, ?_, hok⟩
            rw [hrest, List.append_assoc, List.take_append_drop]

/-- `mp_session_tx_create`: standard output and the result.  `none`: a `write`
that takes nothing is repeated too often. -/
def txCreate (o : ByteOrder) (write : Write) (fuel : ℕ) (transmissionUnit : UInt16) :
    Option (List UInt8 × Bool) :=
  writeAll write fuel ((sessionTxCreate transmissionUnit).image o) []

/-- `while (buf_sz > 0)`: zeros, 4096 at a time. -/
def zeroFill (write : Write) (fuel : ℕ) : ℕ → ℕ → List UInt8 → Option (List UInt8 × Bool)
  | _, 0, out => some (out, true)
  | 0, _ + 1, _ => none
  | turns + 1, bufSz + 1, out =>
      let chunk := min (bufSz + 1) 4096
      match writeAll write fuel (List.replicate chunk 0) out with
      | none => none
      | some (out, false) => some (out, false)
      | some (out, true) => zeroFill write fuel turns (bufSz + 1 - chunk) out

/-- `mp_session_rx_create`: standard output and the result. -/
def rxCreate (o : ByteOrder) (write : Write) (fuel : ℕ) (transmissionUnit : UInt16) :
    Option (List UInt8 × Bool) :=
  match writeAll write fuel
      ((rxSessionLayout o).write (sessionRecvMagic, ⟨transmissionUnit, .zero⟩, (0, 0))) [] with
  | none => none
  | some (out, false) => some (out, false)
  | some (out, true) =>
      zeroFill write fuel (rxBufSize transmissionUnit) (rxBufSize transmissionUnit) out

theorem zeroFill_rest {write : Write} {fuel turns bufSz : ℕ} {out out' : List UInt8} {ok : Bool}
    (h : zeroFill write fuel turns bufSz out = some (out', ok)) :
    ∃ rest, out' ++ rest = out ++ List.replicate bufSz 0 ∧ (ok = true ↔ rest = []) := by
  induction turns generalizing bufSz out with
  | zero =>
      cases bufSz with
      | zero =>
          obtain ⟨rfl, rfl⟩ := Prod.mk.inj (Option.some.inj h)
          exact ⟨[], rfl, by simp⟩
      | succ bufSz => cases h
  | succ turns ih =>
      cases bufSz with
      | zero =>
          obtain ⟨rfl, rfl⟩ := Prod.mk.inj (Option.some.inj h)
          exact ⟨[], rfl, by simp⟩
      | succ bufSz =>
          have hzeros : List.replicate (bufSz + 1) (0 : UInt8) =
              List.replicate (min (bufSz + 1) 4096) 0 ++
                List.replicate (bufSz + 1 - min (bufSz + 1) 4096) 0 := by
            rw [List.replicate_append_replicate]
            congr 1
            omega
          rw [zeroFill] at h
          split at h
          · cases h
          · rename_i hwrite
            obtain ⟨rfl, rfl⟩ := Prod.mk.inj (Option.some.inj h)
            obtain ⟨rest, hrest, hok⟩ := writeAll_rest hwrite
            refine ⟨rest ++ List.replicate (bufSz + 1 - min (bufSz + 1) 4096) 0, ?_, ?_⟩
            · rw [hzeros, ← List.append_assoc, hrest, List.append_assoc]
            · have hne : rest ≠ [] := fun hnil => by simpa using hok.mpr hnil
              simp [hne]
          · rename_i hwrite
            obtain ⟨rest, hrest, hok⟩ := writeAll_rest hwrite
            obtain rfl := hok.mp rfl
            obtain ⟨rest', hrest', hok'⟩ := ih h
            refine ⟨rest', ?_, hok'⟩
            rw [List.append_nil] at hrest
            rw [hzeros, hrest', hrest, List.append_assoc]

theorem image_create (tu : UInt16) : (RxFile.create tu).image o (0, 0) =
    (rxSessionLayout o).write (sessionRecvMagic, ⟨tu, .zero⟩, (0, 0)) ++
      List.replicate (rxBufSize tu) 0 := rfl

/-- What went out of the new file, when the loops end. -/
theorem rxCreate_rest {write : Write} {fuel : ℕ} {tu : UInt16} {bytes : List UInt8} {ok : Bool}
    (h : rxCreate o write fuel tu = some (bytes, ok)) :
    ∃ rest, bytes ++ rest = (RxFile.create tu).image o (0, 0) ∧ (ok = true ↔ rest = []) := by
  rw [image_create]
  rw [rxCreate] at h
  split at h
  · cases h
  · rename_i hwrite
    obtain ⟨rfl, rfl⟩ := Prod.mk.inj (Option.some.inj h)
    obtain ⟨rest, hrest, hok⟩ := writeAll_rest hwrite
    refine ⟨rest ++ List.replicate (rxBufSize tu) 0, ?_, ?_⟩
    · rw [← List.append_assoc, hrest, List.nil_append]
    · have hne : rest ≠ [] := fun hnil => by simpa using hok.mpr hnil
      simp [hne]
  · rename_i hwrite
    obtain ⟨rest, hrest, hok⟩ := writeAll_rest hwrite
    obtain rfl := hok.mp rfl
    obtain ⟨rest', hrest', hok'⟩ := zeroFill_rest h
    refine ⟨rest', ?_, hok'⟩
    rw [List.append_nil, List.nil_append] at hrest
    rw [hrest', hrest]

/-- A file that begins like the image of a session begins with this session. -/
theorem RxFile.image_append_inj {file file' : RxFile} {padding padding' : Padding}
    {rest : List UInt8} (h : file.image o padding ++ rest = file'.image o padding') :
    file.session = file'.session ∧ file.assembly ++ rest = file'.assembly := by
  rw [RxFile.image, RxFile.image, List.append_assoc] at h
  obtain ⟨hwrite, hrest⟩ := Layout.write_append_inj _ h
  exact ⟨congrArg (fun v => v.2.1) hwrite, hrest⟩

/-- The magic numbers keep the kinds of files apart. -/
theorem image_append_ne (session : TxSession) (file : RxFile) (padding : Padding)
    (rest : List UInt8) : session.image o ++ rest ≠ file.image o padding := by
  intro h
  obtain ⟨tail, hsend⟩ : ∃ tail, session.image o =
      (Layout.word32 o).write sessionSendMagic ++ tail := ⟨_, rfl⟩
  obtain ⟨tail', hrecv⟩ : ∃ tail', (rxSessionLayout o).write
      (sessionRecvMagic, file.session, padding) =
      (Layout.word32 o).write sessionRecvMagic ++ tail' := ⟨_, rfl⟩
  rw [RxFile.image, hsend, hrecv, List.append_assoc, List.append_assoc] at h
  exact absurd (Layout.write_append_inj _ h).1 (by decide)

/-- **A new sending session** is loaded if and only if no `write` has failed,
and never as a receiving one. -/
theorem txCreate_loads_iff {write : Write} {fuel : ℕ} {tu : UInt16} {bytes : List UInt8} {ok : Bool}
    (h : txCreate o write fuel tu = some (bytes, ok)) :
    txLoad o bytes = (if ok then some (sessionTxCreate tu) else none) ∧ rxLoad o bytes = none := by
  obtain ⟨rest, hrest, hok⟩ := writeAll_rest h
  rw [List.nil_append] at hrest
  have hlength : bytes.length + rest.length = 10 := by
    rw [← List.length_append, hrest, TxSession.image, Layout.length_write, txSessionLayout_size]
  constructor
  · cases ok with
    | true =>
        rw [hok.mp rfl, List.append_nil] at hrest
        exact txLoad_eq_some_iff.mpr hrest
    | false =>
        have hpos : 0 < rest.length := List.length_pos_iff.mpr fun hnil => by
          simpa using hok.mpr hnil
        rw [txLoad, txSessionLayout_size, if_pos (by omega)]
        rfl
  · rw [rxLoad, rxSessionLayout_size, if_pos (by omega)]

/-- A pipe that takes three bytes at a time, and is closed after `n`. -/
def closedAfter (n : ℕ) : Write := fun out k => if out.length < n then some (min k 3) else none

/-- All but the last byte went out. -/
theorem txCreate_loads_iff_cut :
    txLoad .little [0x64, 0x53, 0x50, 0x4D, 7, 0, 0, 0, 0] = none ∧
      rxLoad .little [0x64, 0x53, 0x50, 0x4D, 7, 0, 0, 0, 0] = none :=
  @txCreate_loads_iff .little (closedAfter 7) 10 7 _ false (by decide)

/-- **A new receiving session** is loaded if and only if no `write` has failed,
and never as a sending one. -/
theorem rxCreate_loads_iff {write : Write} {fuel : ℕ} {tu : UInt16} {bytes : List UInt8} {ok : Bool}
    (h : rxCreate o write fuel tu = some (bytes, ok)) :
    rxLoad o bytes = (if ok then some (RxFile.create tu) else none) ∧ txLoad o bytes = none := by
  obtain ⟨rest, hrest, hok⟩ := rxCreate_rest h
  have hsized : (RxFile.create tu).Sized := List.length_replicate
  constructor
  · cases ok with
    | true =>
        rw [hok.mp rfl, List.append_nil] at hrest
        exact rxLoad_eq_some_iff.mpr ⟨hsized, _, hrest⟩
    | false =>
        refine Option.eq_none_iff_forall_ne_some.mpr fun file hload => ?_
        obtain ⟨hsized', padding, rfl⟩ := rxLoad_eq_some_iff.mp hload
        obtain ⟨hsession, hassembly⟩ := RxFile.image_append_inj hrest
        -- both have the size that belongs to the unit
        have hlength := congrArg List.length hassembly
        rw [List.length_append, hsized', hsized, hsession] at hlength
        have hnil : rest = [] := List.length_eq_zero_iff.mp (by omega)
        simpa using hok.mpr hnil
  · refine Option.eq_none_iff_forall_ne_some.mpr fun session hload => ?_
    obtain rfl := txLoad_eq_some_iff.mp hload
    exact image_append_ne _ _ _ _ hrest

/-- The buffer is cut off. -/
theorem rxCreate_loads_iff_cut : ∃ bytes,
    rxCreate .big (closedAfter 100) 4096 7 = some (bytes, false) ∧ rxLoad .big bytes = none ∧
      txLoad .big bytes = none := by
  have hfails : (rxCreate .big (closedAfter 100) 4096 7).map Prod.snd = some false := by
    decide +kernel
  obtain ⟨⟨bytes, ok⟩, hcreate, rfl⟩ := Option.map_eq_some_iff.mp hfails
  exact ⟨bytes, hcreate, @rxCreate_loads_iff .big _ _ 7 bytes false hcreate⟩

section Rx

variable {tu : UInt16} {write : Write}

/-- Blocks leave the unit and the size of the buffer alone. -/
theorem RxCtx.Held.cmdRx {c c' : RxCtx} {blocks : List (List UInt8)} (hc : c.Held tu)
    (htu : 7 ≤ tu.toNat) (hblocks : ∀ block ∈ blocks, block.length = tu.toNat)
    (h : CustomData.cmdRx write c blocks = .ok c') : c'.Held tu := by
  induction blocks generalizing c with
  | nil => exact Except.ok.inj h ▸ hc
  | cons block blocks ih =>
      obtain ⟨hblock, hrest⟩ := List.forall_mem_cons.mp hblocks
      obtain ⟨c₁, hfeed, hrun⟩ := hc.cmdRx_cons h
      obtain ⟨-, -, -, -, h₁, -⟩ := hc.feed_spec htu hblock rfl hfeed
      exact ih h₁ hrest (hrun h₁)

end Rx

end CustomData
