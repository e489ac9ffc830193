/-
CustomData/TxSinks.lean

The two sinks of the sending stream: `push_cb` of the command line tool
(`tools/tx.c`) and `mp_tx_push_pipeline` of the embedded encoder
(`customdata-embedded-encode.c`).

Both have the same body (`pushSlice`) over a block of their own.  The tool
assembles slices in the static `stdout_block` of 4096 bytes and writes
`transmission_unit` bytes of it; the embedded encoder leaves block and sending
to the callbacks of the user.  `SliceBlock` is a block of given bytes that
refuses accesses outside it and keeps what was done with it.

Behind either sink the stream sends the slices of the concatenated data,
however it was cut into chunks (`Framed`).  A unit of more than 4096 bytes,
which nothing in the tool rules out, does not fit `stdout_block`: with it every
session of the tool leaves the block (`framed_iff`).
-/
import CustomData.StreamTx

namespace CustomData

/-! ### Blocks -/

/-- A block in which slices are assembled, the blocks sent so far, and all
accesses so far. -/
structure SliceBlock where
  bytes : List UInt8
  sent : List (List UInt8)
  accesses : List BlockAccess
  deriving DecidableEq, Repr

namespace SliceBlock

/-- A block nothing was done with yet. -/
def untouched (bytes : List UInt8) : SliceBlock := ⟨bytes, [], []⟩

/-- Copy `src` into the block. -/
def put (b : SliceBlock) (offset : ℕ) (src : List UInt8) : Except TxFault SliceBlock :=
  if b.bytes.length < offset + src.length then .error .range else
    .ok { b with
      bytes := copyAt b.bytes offset src
      accesses := b.accesses ++ [.put offset src] }

/-- Send the first `size` bytes. -/
def send (b : SliceBlock) (size : ℕ) : Except TxFault SliceBlock :=
  if b.bytes.length < size then .error .range else
    .ok { b with
      sent := b.sent ++ [b.bytes.take size]
      accesses := b.accesses ++ [.send] }

/-- One access to a block of which `size` bytes are sent. -/
def access (size : ℕ) (b : SliceBlock) : BlockAccess → Except TxFault SliceBlock
  | .put offset src => b.put offset src
  | .send => b.send size

end SliceBlock

/-! ### The sinks -/

section Push

variable {ω : Type}

variable (put : ω → ℕ → List UInt8 → Except TxFault ω) (send : ω → Except TxFault ω)
  (fill : ω → UInt16) (setFill : ω → UInt16 → ω)

/-- `if (nullable_data && size)`: the bytes go behind the fill. -/
def pushData (w : ω) (data : Option (List UInt8)) (size : UInt16) : Except TxFault ω :=
  match data with
  | some data => if size = 0 then .ok w else do
      let w ← put w ((fill w).toNat + headerSize) (data.take size.toNat)
      .ok (setFill w (fill w + size))
  | none => .ok w

/-- `if (nullable_header)`: the header goes to the front and the block is
sent. -/
def pushHeader (w : ω) (header : Option HeaderMeta) : Except TxFault ω :=
  match header with
  | some header => do
      let w ← put w 0 (packedHeaderToArray (headerPack header))
      let w ← send w
      .ok (setFill w 0)
  | none => .ok w

/-- The body of both sinks. -/
def pushSlice : TxPushCb ω := fun w _act header data size => do
  let w ← pushData put fill setFill w data size
  pushHeader put send setFill w header

end Push

/-- `tx_user_t`, with `stdout_block` and standard output. -/
structure TxUser where
  tu : UInt16
  fill : UInt16
  stdoutBlock : SliceBlock

namespace TxUser

/-- `memcpy` into `stdout_block`. -/
def put (u : TxUser) (offset : ℕ) (src : List UInt8) : Except TxFault TxUser := do
  let block ← u.stdoutBlock.put offset src
  .ok { u with stdoutBlock := block }

/-- `write` of `tu` bytes of `stdout_block`, which is taken to succeed. -/
def send (u : TxUser) : Except TxFault TxUser := do
  let block ← u.stdoutBlock.send u.tu.toNat
  .ok { u with stdoutBlock := block }

def setFill (u : TxUser) (n : UInt16) : TxUser := { u with fill := n }

end TxUser

/-- `push_cb` -/
def pushCb : TxPushCb TxUser := pushSlice TxUser.put TxUser.send TxUser.fill TxUser.setFill

/-- The callbacks of `mp_pb_encoder_inst_t`. -/
structure PbEncoderCallbacks (σ : Type) where
  dataPutCb : σ → UInt16 → List UInt8 → UInt16 → Except TxFault σ
  sendSignalCb : σ → Except TxFault σ

/-- `mp_pb_encoder_inst_t`, the part that the sink changes. -/
structure PbEncoderInst (σ : Type) where
  user : σ
  accumulated : UInt16

namespace PbEncoderInst

variable {σ : Type} (cb : PbEncoderCallbacks σ)

/-- `data_put_cb`, whose offset and size are 16-bit arguments. -/
def put (inst : PbEncoderInst σ) (offset : ℕ) (src : List UInt8) :
    Except TxFault (PbEncoderInst σ) := do
  let user ← cb.dataPutCb inst.user (UInt16.ofNat offset) src (UInt16.ofNat src.length)
  .ok { inst with user := user }

/-- `send_signal_cb` -/
def send (inst : PbEncoderInst σ) : Except TxFault (PbEncoderInst σ) := do
  let user ← cb.sendSignalCb inst.user
  .ok { inst with user := user }

def setAccumulated (inst : PbEncoderInst σ) (n : UInt16) : PbEncoderInst σ :=
  { inst with accumulated := n }

end PbEncoderInst

/-- `mp_tx_push_pipeline` -/
def txPushPipeline {σ : Type} (cb : PbEncoderCallbacks σ) : TxPushCb (PbEncoderInst σ) :=
  pushSlice (PbEncoderInst.put cb) (PbEncoderInst.send cb) PbEncoderInst.accumulated
    PbEncoderInst.setAccumulated

/-- A user that assembles in a block and sends `size` bytes of it. -/
def blockCallbacks (size : ℕ) : PbEncoderCallbacks SliceBlock where
  dataPutCb := fun b offset src n => b.put offset.toNat (src.take n.toNat)
  sendSignalCb := fun b => b.send size

/-! ### What a block has sent -/

namespace SliceBlock

variable {P : ℕ} {start : Coordinate} {data : List UInt8} {b : SliceBlock}

theorem put_of_le {offset : ℕ} {src : List UInt8} (h : offset + src.length ≤ b.bytes.length) :
    b.put offset src = .ok ⟨copyAt b.bytes offset src, b.sent,
      b.accesses ++ [.put offset src]⟩ :=
  if_neg (not_lt.mpr h)

theorem send_of_le {size : ℕ} (h : size ≤ b.bytes.length) :
    b.send size = .ok ⟨b.bytes, b.sent ++ [b.bytes.take size], b.accesses ++ [.send]⟩ :=
  if_neg (not_lt.mpr h)

/-- Pieces written one behind the other are one copy. -/
theorem foldlM_puts {size offset : ℕ} {pieces : List (List UInt8)}
    (h : offset + pieces.flatten.length ≤ b.bytes.length) :
    (puts offset pieces).foldlM (access size) b = .ok ⟨copyAt b.bytes offset pieces.flatten, b.sent,
      b.accesses ++ puts offset pieces⟩ := by
  induction pieces generalizing b offset with
  | nil => simp [puts, copyAt]; rfl
  | cons piece pieces ih =>
      rw [List.flatten_cons, List.length_append] at h
      have hput : access size b (.put offset piece) = _ := put_of_le (by omega)
      rw [puts, List.foldlM_cons, hput, Machine.ok_bind, ih, List.flatten_cons,
        copyAt_copyAt (by omega), List.append_assoc]
      · rfl
      · rw [length_copyAt (by omega)]
        omega

/-- **One slice**: its accesses send a block with its header and payload. -/
theorem foldlM_sliceLog {eop : Bool} {i : ℕ} {log : List BlockAccess}
    (h : SliceLog P start data eop i log) (hroom : P + headerSize ≤ b.bytes.length) :
    ∃ bytes f, log.foldlM (access (P + headerSize)) b =
        .ok ⟨bytes, b.sent ++ [f], b.accesses ++ log⟩ ∧
      bytes.length = b.bytes.length ∧ SliceFrame P start data eop i f := by
  obtain ⟨pieces, hpieces, rfl⟩ := h
  have hle : (slicePayload P data i).length ≤ P := List.length_take_le _ _
  generalize hheader : packedHeaderToArray (headerPack (txMakeHeader (Config.ofPayload P)
    (start.slice P i) (UInt16.ofNat (slicePayload P data i).length) eop)) = header
  have hlen : header.length = headerSize := by
    rw [← hheader]
    exact packedHeaderToArray_length _
  have hbytes : (copyAt b.bytes headerSize (slicePayload P data i)).length = b.bytes.length :=
    length_copyAt (by omega)
  have hputs := @foldlM_puts b (P + headerSize) headerSize pieces (by rw [hpieces]; omega)
  rw [hpieces] at hputs
  refine ⟨copyAt (copyAt b.bytes headerSize (slicePayload P data i)) 0 header,
    (copyAt (copyAt b.bytes headerSize (slicePayload P data i)) 0 header).take (P + headerSize),
    ?_, ?_, ?_, ?_⟩
  · have hput : access (P + headerSize) ⟨copyAt b.bytes headerSize (slicePayload P data i), b.sent,
        b.accesses ++ puts headerSize pieces⟩ (.put 0 header) = _ :=
      put_of_le (by rw [hbytes]; omega)
    have hsend : ∀ accesses, access (P + headerSize) ⟨copyAt (copyAt b.bytes headerSize
        (slicePayload P data i)) 0 header, b.sent, accesses⟩ .send = _ :=
      fun accesses => send_of_le (by
        rw [length_copyAt (by rw [hbytes]; omega), hbytes]
        exact hroom)
    rw [List.foldlM_append, hputs, Machine.ok_bind, List.foldlM_cons, hput, Machine.ok_bind,
      List.foldlM_cons, hsend, Machine.ok_bind, List.foldlM_nil]
    simp only [List.append_assoc, List.cons_append, List.nil_append]
    rfl
  · rw [length_copyAt (by rw [hbytes]; omega), hbytes]
  · rw [List.length_take, length_copyAt (by rw [hbytes]; omega), hbytes]
    omega
  · -- the header is in front of the payload
    have htake : (b.bytes.take headerSize).length = headerSize := by
      rw [List.length_take]
      omega
    have hdrop : (copyAt b.bytes headerSize (slicePayload P data i)).drop headerSize =
        slicePayload P data i ++ b.bytes.drop (headerSize + (slicePayload P data i).length) := by
      rw [copyAt, List.append_assoc, List.drop_left' htake]
    rw [hheader, List.prefix_take_iff]
    refine ⟨⟨b.bytes.drop (headerSize + (slicePayload P data i).length), ?_⟩, ?_⟩
    · rw [copyAt, hlen, Nat.zero_add, hdrop]
      simp only [List.take_zero, List.nil_append, List.append_assoc]
    · rw [List.length_append, hlen]
      omega

/-- Slice after slice. -/
theorem foldlM_slices {eop : Bool} {order : List ℕ} {slices : List (List BlockAccess)}
    (h : List.Forall₂ (SliceLog P start data eop) order slices)
    (hroom : P + headerSize ≤ b.bytes.length) :
    ∃ bytes frames, slices.flatten.foldlM (access (P + headerSize)) b =
        .ok ⟨bytes, b.sent ++ frames, b.accesses ++ slices.flatten⟩ ∧
      bytes.length = b.bytes.length ∧ List.Forall₂ (SliceFrame P start data eop) order frames := by
  induction h generalizing b with
  | nil => exact ⟨b.bytes, [], by simp; rfl, rfl, .nil⟩
  | @cons i log order slices hlog hslices ih =>
      obtain ⟨bytes₁, f, hfold, hlen, hf⟩ := foldlM_sliceLog (b := b) hlog hroom
      obtain ⟨bytes, frames, hfolds, hlens, hframes⟩ :=
        @ih ⟨bytes₁, b.sent ++ [f], b.accesses ++ log⟩ (hlen ▸ hroom)
      refine ⟨bytes, f :: frames, ?_, hlens.trans hlen, .cons hf hframes⟩
      rw [List.flatten_cons, List.foldlM_append, hfold, Machine.ok_bind, hfolds]
      simp only [List.append_assoc, List.cons_append, List.nil_append]

/-- The accesses of a session, made to a block with room for a unit. -/
theorem foldlM_sessionLog {log : List BlockAccess} (h : SessionLog P start data log)
    (hroom : P + headerSize ≤ b.bytes.length) :
    ∃ bytes front last, log.foldlM (access (P + headerSize)) b =
        .ok ⟨bytes, b.sent ++ (front ++ [last]), b.accesses ++ log⟩ ∧
      List.Forall₂ (SliceFrame P start data false) (List.range (data.length / P)) front ∧
      SliceFrame P start data true (data.length / P) last := by
  obtain ⟨slices, log', hslices, hlog', rfl⟩ := h
  obtain ⟨bytes₁, front, hfold, hlen, hfront⟩ := foldlM_slices (b := b) hslices hroom
  obtain ⟨bytes, last, hfold', -, hlast⟩ := @foldlM_sliceLog _ _ _
    ⟨bytes₁, b.sent ++ front, b.accesses ++ slices.flatten⟩ _ _ _ hlog' (hlen ▸ hroom)
  refine ⟨bytes, front, last, ?_, hfront, hlast⟩
  rw [List.foldlM_append, hfold, Machine.ok_bind, hfold']
  simp only [List.append_assoc]

/-! ### Both sinks assemble slices -/

/-- The block has room for a unit of `P` bytes of payload, and is what its
accesses have made of `bytes`. -/
structure Ready (P : ℕ) (bytes : List UInt8) (b : SliceBlock) : Prop where
  room : P + headerSize ≤ b.bytes.length
  replayed : b.accesses.foldlM (access (P + headerSize)) (untouched bytes) = .ok b

variable {bytes : List UInt8}

theorem ready_untouched (h : P + headerSize ≤ bytes.length) :
    (untouched bytes).Ready P bytes := ⟨h, rfl⟩

theorem Ready.put (h : b.Ready P bytes) (offset : ℕ) (src : List UInt8)
    (hfit : offset + src.length ≤ P + headerSize) :
    ∃ b', b.put offset src = .ok b' ∧ b'.Ready P bytes ∧
      b'.accesses = b.accesses ++ [.put offset src] := by
  have hroom := h.room
  have hput := @put_of_le b offset src (by omega)
  refine ⟨_, hput, ⟨?_, ?_⟩, rfl⟩
  · rw [length_copyAt (by omega)]
    exact hroom
  · rw [List.foldlM_append, h.replayed, Machine.ok_bind, List.foldlM_cons]
    show b.put offset src >>= _ = _
    rw [hput, Machine.ok_bind]
    rfl

theorem Ready.send (h : b.Ready P bytes) :
    ∃ b', b.send (P + headerSize) = .ok b' ∧ b'.Ready P bytes ∧
      b'.accesses = b.accesses ++ [.send] := by
  have hsend := send_of_le h.room
  refine ⟨_, hsend, ⟨h.room, ?_⟩, rfl⟩
  rw [List.foldlM_append, h.replayed, Machine.ok_bind, List.foldlM_cons]
  show b.send (P + headerSize) >>= _ = _
  rw [hsend, Machine.ok_bind]
  rfl

end SliceBlock

section Sinks

variable {ω : Type} {P : ℕ} {bytes : List UInt8}

/-- A sink over a block: what its operations do to the block and to the fill,
in the states `own`. -/
structure OnBlock (put : ω → ℕ → List UInt8 → Except TxFault ω) (send : ω → Except TxFault ω)
    (fill : ω → UInt16) (setFill : ω → UInt16 → ω) (P : ℕ) (own : ω → Prop)
    (block : ω → SliceBlock) : Prop where
  put : ∀ w offset src b, own w → offset + src.length ≤ P + headerSize →
    (block w).put offset src = .ok b →
    ∃ w', put w offset src = .ok w' ∧ own w' ∧ block w' = b ∧ fill w' = fill w
  send : ∀ w b, own w → (block w).send (P + headerSize) = .ok b →
    ∃ w', send w = .ok w' ∧ own w' ∧ block w' = b
  setFill : ∀ w n, own w → own (setFill w n) ∧ block (setFill w n) = block w ∧
    fill (setFill w n) = n

/-- The stream's view of such a sink. -/
def blockView (put : ω → ℕ → List UInt8 → Except TxFault ω) (send : ω → Except TxFault ω)
    (fill : ω → UInt16) (setFill : ω → UInt16 → ω) (P : ℕ) (bytes : List UInt8) (own : ω → Prop)
    (block : ω → SliceBlock) : SinkView ω where
  push := pushSlice put send fill setFill
  valid := fun w => own w ∧ (block w).Ready P bytes
  fill := fill
  accesses := fun w => (block w).accesses

theorem OnBlock.assembles {put : ω → ℕ → List UInt8 → Except TxFault ω}
    {send : ω → Except TxFault ω} {fill : ω → UInt16} {setFill : ω → UInt16 → ω}
    {own : ω → Prop} {block : ω → SliceBlock} (h : OnBlock put send fill setFill P own block)
    (hcap : P ≤ 4095) :
    (blockView put send fill setFill P bytes own block).Assembles P where
  data := by
    intro w act src size ⟨hown, hready⟩ hpos hsize hfit
    have hfit' : (fill w).toNat + size.toNat ≤ P := hfit
    have hlen : (src.take size.toNat).length = size.toNat := List.length_take_of_le hsize
    obtain ⟨b, hput, hready', haccesses⟩ := hready.put ((fill w).toNat + headerSize)
      (src.take size.toNat) (by omega)
    obtain ⟨w₁, hw₁, hown₁, rfl, hfill₁⟩ := h.put w _ _ b hown (by omega) hput
    obtain ⟨hown', hblock', hfill'⟩ := h.setFill w₁ (fill w₁ + size) hown₁
    have hne : size ≠ 0 := by
      rintro rfl
      simp at hpos
    refine ⟨setFill w₁ (fill w₁ + size), ?_, ⟨hown', hblock' ▸ hready'⟩, ?_, ?_⟩
    · simp only [blockView, pushSlice, pushData, pushHeader, hne, if_false, hw₁, hfill₁,
        Machine.ok_bind]
    · show (fill (setFill w₁ (fill w₁ + size))).toNat = (fill w).toNat + size.toNat
      rw [hfill', hfill₁, UInt16.toNat_add]
      omega
    · simp only [blockView, hblock', haccesses, Nat.add_comm]
  header := by
    intro w act header ⟨hown, hready⟩
    obtain ⟨b₁, hput, hready₁, haccesses₁⟩ := hready.put 0
      (packedHeaderToArray (headerPack header)) (by rw [packedHeaderToArray_length]; omega)
    obtain ⟨w₁, hw₁, hown₁, rfl, -⟩ := h.put w _ _ b₁ hown
      (by rw [packedHeaderToArray_length]; omega) hput
    obtain ⟨b₂, hsend, hready₂, haccesses₂⟩ := hready₁.send
    obtain ⟨w₂, hw₂, hown₂, rfl⟩ := h.send w₁ b₂ hown₁ hsend
    obtain ⟨hown', hblock', hfill'⟩ := h.setFill w₂ 0 hown₂
    refine ⟨setFill w₂ 0, ?_, ⟨hown', hblock' ▸ hready₂⟩, hfill', ?_⟩
    · simp only [blockView, pushSlice, pushData, pushHeader, hw₁, hw₂, Machine.ok_bind]
    · simp only [blockView, hblock', haccesses₂, haccesses₁, List.append_assoc, List.cons_append,
        List.nil_append]

/-- The stream's view of the tool's sink, with `bytes` in `stdout_block`. -/
def pushCbView (P : ℕ) (bytes : List UInt8) : SinkView TxUser :=
  blockView TxUser.put TxUser.send TxUser.fill TxUser.setFill P bytes
    (fun u => u.tu.toNat = P + headerSize) TxUser.stdoutBlock

theorem pushCbView_assembles (hcap : P ≤ 4095) : (pushCbView P bytes).Assembles P := by
  refine OnBlock.assembles ⟨?_, ?_, ?_⟩ hcap
  · intro u offset src b hown _ hput
    exact ⟨{ u with stdoutBlock := b }, by rw [TxUser.put, hput]; rfl, hown, rfl, rfl⟩
  · intro u b hown hsend
    exact ⟨{ u with stdoutBlock := b }, by rw [TxUser.send, hown, hsend]; rfl, hown, rfl⟩
  · intro u n hown
    exact ⟨hown, rfl, rfl⟩

/-- The stream's view of the embedded sink, for a user with `bytes` in a block
of `P + 4` bytes. -/
def txPushPipelineView (P : ℕ) (bytes : List UInt8) : SinkView (PbEncoderInst SliceBlock) :=
  blockView (PbEncoderInst.put (blockCallbacks (P + headerSize)))
    (PbEncoderInst.send (blockCallbacks (P + headerSize))) PbEncoderInst.accumulated
    PbEncoderInst.setAccumulated P bytes (fun _ => True) PbEncoderInst.user

theorem txPushPipelineView_assembles (hcap : P ≤ 4095) :
    (txPushPipelineView P bytes).Assembles P := by
  refine OnBlock.assembles ⟨?_, ?_, ?_⟩ hcap
  · intro inst offset src b _ hfit hput
    -- a unit has fewer than 65536 bytes
    have hfit' : offset + src.length < 2 ^ 16 := by
      unfold headerSize at hfit
      omega
    have hoffset : (UInt16.ofNat offset).toNat = offset := by
      rw [UInt16.toNat_ofNat']
      omega
    have hsrc : src.take (UInt16.ofNat src.length).toNat = src := by
      rw [List.take_of_length_le]
      rw [UInt16.toNat_ofNat']
      omega
    refine ⟨{ inst with user := b }, ?_, trivial, rfl, rfl⟩
    simp only [PbEncoderInst.put, blockCallbacks, hoffset, hsrc, hput, Machine.ok_bind]
  · intro inst b _ hsend
    exact ⟨{ inst with user := b },
      by simp only [PbEncoderInst.send, blockCallbacks, hsend, Machine.ok_bind], trivial, rfl⟩
  · intro inst n _
    exact ⟨trivial, rfl, rfl⟩

end Sinks

/-! ### Sessions -/

/-- The header of slice `i` of a package of `L` bytes: number `i`, eop for the
last one, which has the rest of the bytes. -/
def streamHeader (P L : ℕ) (start : Coordinate) (i : ℕ) : HeaderMeta where
  packageSerial := start.packageId
  sliceSerial := UInt8.ofNat i
  senderId := start.senderId &&& 0x7
  eop := if i = L / P then 1 else 0
  slicePayloadSize := UInt16.ofNat (if i = L / P then L % P else P)

/-- The block has sent the slices of `data`: one frame for each, header and
payload in front, and before each send the payload was written in pieces that
lie side by side behind the header, and then the header. -/
structure SentSlices (P : ℕ) (start : Coordinate) (data : List UInt8) (b : SliceBlock) : Prop where
  frames : List.Forall₂
    (fun i f => f.length = P + headerSize ∧
      packedHeaderToArray (headerPack (streamHeader P data.length start i)) ++
        slicePayload P data i <+: f)
    (List.range (data.length / P + 1)) b.sent
  tiled : ∃ logs, List.Forall₂
    (fun i log => ∃ pieces : List (List UInt8), pieces.flatten = slicePayload P data i ∧
      log = puts headerSize pieces ++
        [.put 0 (packedHeaderToArray (headerPack (streamHeader P data.length start i))), .send])
    (List.range (data.length / P + 1)) logs ∧ b.accesses = logs.flatten

/-- The session that feeds `chunks` to `s₀` and finalizes it frames their
concatenation, and at every loop head and between all calls the sink's fill is
the stream's. -/
structure Framed {ω : Type} (P : ℕ) (start : Coordinate) (chunks : List (List UInt8))
    (s₀ : TxStream ω) (fill : ω → UInt16) (block : ω → SliceBlock) : Prop where
  inStep : ∀ before chunk after n, chunks = before ++ chunk :: after →
    ∃ s s' off, txStreamFeeds s₀ before = .ok s ∧
      txStreamPasses chunk (UInt16.ofNat chunk.length) n s 0 = .ok (s', off) ∧
      fill s'.downstream.user = s'.fill
  session : ∃ s s', txStreamFeeds s₀ chunks = .ok s ∧ fill s.downstream.user = s.fill ∧
    txStreamFinalize s = .ok s' ∧ fill s'.downstream.user = s'.fill ∧
    SentSlices P start chunks.flatten (block s'.downstream.user)

/-- The stream of the tool for units of `P + 4` bytes, with `bytes` in
`stdout_block`. -/
def toolStream (P : ℕ) (cursor : Coordinate) (bytes : List UInt8) : TxStream TxUser :=
  ⟨Config.ofPayload P, cursor, 0, pushCb,
    ⟨(Config.ofPayload P).transmissionUnit, 0, .untouched bytes⟩⟩

/-- The stream of the embedded encoder. -/
def embeddedStream (P : ℕ) (cursor : Coordinate) (bytes : List UInt8) :
    TxStream (PbEncoderInst SliceBlock) :=
  ⟨Config.ofPayload P, cursor, 0, txPushPipeline (blockCallbacks (P + headerSize)),
    ⟨.untouched bytes, 0⟩⟩

section Session

variable {P : ℕ} {start : Coordinate} {data : List UInt8}

theorem length_slicePayload (hP : 0 < P) {i : ℕ} (hi : i ≤ data.length / P) :
    (slicePayload P data i).length = if i = data.length / P then data.length % P else P := by
  split
  · rename_i he
    rw [he, length_slicePayload_rest hP]
  · have hle := Nat.div_mul_le_self data.length P
    have hmul : (i + 1) * P ≤ data.length / P * P := Nat.mul_le_mul_right P (by omega)
    rw [Nat.add_one_mul] at hmul
    rw [slicePayload, List.length_take, List.length_drop]
    omega

/-- The header the stream makes for slice `i`. -/
theorem txMakeHeader_eq_streamHeader (hP : 0 < P) (hcap : P ≤ 4095)
    (hoffset : data.length / P * P ≤ 65535) {i : ℕ} (hi : i ≤ data.length / P) :
    txMakeHeader (Config.ofPayload P) (start.slice P i)
        (UInt16.ofNat (slicePayload P data i).length) (decide (i = data.length / P)) =
      streamHeader P data.length start i := by
  have hmul : i * P ≤ data.length / P * P := Nat.mul_le_mul_right P hi
  rw [txMakeHeader_slice hP (by omega) hcap, length_slicePayload hP hi, streamHeader]
  simp only [decide_eq_true_eq]

/-- What is said of the full slices and of the last one, said of all. -/
theorem forall₂_slices {α : Type} {R : Bool → ℕ → α → Prop} {q : ℕ} {front : List α} {last : α}
    (hfront : List.Forall₂ (R false) (List.range q) front) (hlast : R true q last) :
    List.Forall₂ (fun i a => i ≤ q ∧ R (decide (i = q)) i a) (List.range (q + 1))
      (front ++ [last]) := by
  rw [List.range_succ]
  refine List.rel_append (List.forall₂_iff_zip.mpr ⟨hfront.length_eq, fun {i a} hmem => ?_⟩)
    (.cons ⟨le_rfl, by simpa using hlast⟩ .nil)
  have hi := List.mem_range.mp (List.of_mem_zip hmem).1
  exact ⟨hi.le, by simpa [hi.ne] using List.forall₂_zip hfront hmem⟩

/-- The accesses of a session, made to a fresh block, send the slices. -/
theorem SliceBlock.Ready.sent {b : SliceBlock} {bytes : List UInt8} (h : b.Ready P bytes)
    (hlog : SessionLog P start data b.accesses) (hP : 0 < P) (hcap : P ≤ 4095)
    (hoffset : data.length / P * P ≤ 65535) (hroom : P + headerSize ≤ bytes.length) :
    SentSlices P start data b := by
  obtain ⟨bytes', front, last, hfold, hfront, hlast⟩ :=
    SliceBlock.foldlM_sessionLog (b := .untouched bytes) hlog hroom
  rw [h.replayed, Except.ok.injEq] at hfold
  refine ⟨?_, ?_⟩
  · rw [hfold]
    refine (forall₂_slices (R := fun eop => SliceFrame P start data eop) hfront hlast).imp ?_
    rintro i f ⟨hi, hf⟩
    rw [← txMakeHeader_eq_streamHeader hP hcap hoffset hi]
    exact ⟨hf.length, hf.starts⟩
  · obtain ⟨slices, log, hslices, hlog', haccesses⟩ := hlog
    refine ⟨slices ++ [log], ?_, by rw [haccesses, List.flatten_append, List.flatten_singleton]⟩
    refine (forall₂_slices (R := fun eop => SliceLog P start data eop) hslices hlog').imp ?_
    rintro i log ⟨hi, hlog⟩
    rw [← txMakeHeader_eq_streamHeader hP hcap hoffset hi]
    exact hlog

/-- **Behind a sink that assembles slices**, a session frames the data. -/
theorem framed_of_assembles {ω : Type} {k : SinkView ω} {block : ω → SliceBlock}
    {bytes : List UInt8} {chunks : List (List UInt8)} {s₀ : TxStream ω}
    (hsink : k.Assembles P) (hP : 0 < P) (hcap : P ≤ 4095)
    (hchunks : ∀ chunk ∈ chunks, chunk.length ≤ 65535)
    (hoffset : chunks.flatten.length / P * P ≤ 65535) (hroom : P + headerSize ≤ bytes.length)
    (hready : ∀ w, k.valid w → (block w).Ready P bytes ∧ k.accesses w = (block w).accesses)
    (h₀ : Holding k P start [] s₀) : Framed P start chunks s₀ k.fill block where
  inStep := by
    rintro before chunk after n rfl
    obtain ⟨s, hfeeds, h⟩ := h₀.feeds hsink hP hcap before
    rw [map_seen fun c hc => hchunks c (List.mem_append_left _ hc)] at h
    obtain ⟨s', off, hpasses, -, -, h'⟩ := h.passes_zero hsink hP hcap chunk n
    exact ⟨s, s', off, hfeeds, hpasses, h'.sinkFill⟩
  session := by
    obtain ⟨s, hfeeds, h⟩ := h₀.feeds hsink hP hcap chunks
    rw [map_seen hchunks] at h
    obtain ⟨s', hfinal, hzero, hsinkZero, -, hvalid, hlog⟩ := h.finalize hsink hP hcap
    obtain ⟨hblock, haccesses⟩ := hready _ hvalid
    rw [haccesses, List.nil_append] at hlog
    exact ⟨s, s', hfeeds, h.sinkFill, hfinal, hsinkZero.trans hzero.symm,
      hblock.sent hlog hP hcap hoffset hroom⟩

theorem slice_zero (hstart : start.offset = 0) : start.slice P 0 = start := by
  rw [Coordinate.slice, Nat.zero_mul]
  exact congrArg (fun o => { start with offset := o }) hstart.symm

variable {chunks : List (List UInt8)} {bytes : List UInt8}

/-- The stream of the tool before the first chunk. -/
theorem toolStream_holding (hcap : P ≤ 4095) (hstart : start.offset = 0)
    (hroom : P + headerSize ≤ bytes.length) :
    Holding (pushCbView P bytes) P start [] (toolStream P start bytes) := by
  refine ⟨rfl, rfl, ?_, ?_, rfl, ⟨?_, ?_⟩, streamLog_nil⟩
  · rw [List.length_nil, Nat.zero_div, slice_zero hstart]
    rfl
  · rw [List.length_nil, Nat.zero_mod]
    rfl
  · show (UInt16.ofNat (P + headerSize)).toNat = P + headerSize
    rw [UInt16.toNat_ofNat']
    unfold headerSize
    omega
  · exact SliceBlock.ready_untouched hroom

/-- The tool frames the data if `stdout_block` has room for a unit. -/
theorem toolStream_framed (hP : 0 < P) (hcap : P ≤ 4095)
    (hchunks : ∀ chunk ∈ chunks, chunk.length ≤ 65535)
    (hoffset : chunks.flatten.length / P * P ≤ 65535) (hstart : start.offset = 0)
    (hroom : P + headerSize ≤ bytes.length) :
    Framed P start chunks (toolStream P start bytes) TxUser.fill TxUser.stdoutBlock :=
  framed_of_assembles (@pushCbView_assembles P bytes hcap) hP hcap hchunks hoffset hroom
    (fun _ hw => ⟨hw.2, rfl⟩) (toolStream_holding hcap hstart hroom)

/-- The stream of the embedded encoder before the first chunk. -/
theorem embeddedStream_holding (hstart : start.offset = 0) (hroom : P + headerSize ≤ bytes.length) :
    Holding (txPushPipelineView P bytes) P start [] (embeddedStream P start bytes) := by
  refine ⟨rfl, rfl, ?_, ?_, rfl, ⟨trivial, ?_⟩, streamLog_nil⟩
  · rw [List.length_nil, Nat.zero_div, slice_zero hstart]
    rfl
  · rw [List.length_nil, Nat.zero_mod]
    rfl
  · exact SliceBlock.ready_untouched hroom

/-- The embedded encoder frames the data. -/
theorem embeddedStream_framed (hP : 0 < P) (hcap : P ≤ 4095)
    (hchunks : ∀ chunk ∈ chunks, chunk.length ≤ 65535)
    (hoffset : chunks.flatten.length / P * P ≤ 65535) (hstart : start.offset = 0)
    (hroom : P + headerSize ≤ bytes.length) :
    Framed P start chunks (embeddedStream P start bytes) PbEncoderInst.accumulated
      PbEncoderInst.user :=
  framed_of_assembles (@txPushPipelineView_assembles P bytes hcap) hP hcap hchunks hoffset hroom
    (fun _ hw => ⟨hw.2, rfl⟩) (embeddedStream_holding hstart hroom)

/-! ### Units that do not fit -/

/-- The unit of the tool and the length of `stdout_block`. -/
def TxUser.Dims (tu : UInt16) (n : ℕ) (u : TxUser) : Prop :=
  u.tu = tu ∧ u.stdoutBlock.bytes.length = n

section Dims

variable {tu : UInt16} {n : ℕ} {u u' : TxUser}

theorem TxUser.Dims.put (h : u.Dims tu n) {offset : ℕ} {src : List UInt8}
    (hok : u.put offset src = .ok u') : u'.Dims tu n := by
  obtain ⟨b, hput, hu'⟩ := Machine.bind_eq_ok.mp hok
  obtain rfl := Except.ok.inj hu'
  unfold SliceBlock.put at hput
  split at hput
  · cases hput
  · rename_i hfit
    obtain rfl := Except.ok.inj hput
    exact ⟨h.1, (length_copyAt (not_lt.mp hfit)).trans h.2⟩

/-- A block is sent only if it holds a unit. -/
theorem TxUser.Dims.send (h : u.Dims tu n) (hok : u.send = .ok u') :
    u'.Dims tu n ∧ tu.toNat ≤ n := by
  obtain ⟨b, hsend, hu'⟩ := Machine.bind_eq_ok.mp hok
  obtain rfl := Except.ok.inj hu'
  unfold SliceBlock.send at hsend
  split at hsend
  · cases hsend
  · rename_i hfit
    obtain rfl := Except.ok.inj hsend
    exact ⟨h, by rw [← h.1, ← h.2]; exact not_lt.mp hfit⟩

/-- A header sends the block. -/
theorem TxUser.Dims.pushHeader (h : u.Dims tu n) {header : HeaderMeta}
    (hok : pushHeader TxUser.put TxUser.send TxUser.setFill u (some header) = .ok u') :
    u'.Dims tu n ∧ tu.toNat ≤ n := by
  obtain ⟨u₁, hput, hrest⟩ := Machine.bind_eq_ok.mp hok
  obtain ⟨u₂, hsend, hu'⟩ := Machine.bind_eq_ok.mp hrest
  have h₂ := (h.put hput).send hsend
  obtain rfl := Except.ok.inj hu'
  exact h₂

theorem TxUser.Dims.pushData (h : u.Dims tu n) {data : Option (List UInt8)} {size : UInt16}
    (hok : pushData TxUser.put TxUser.fill TxUser.setFill u data size = .ok u') :
    u'.Dims tu n := by
  unfold CustomData.pushData at hok
  split at hok
  · split at hok
    · exact Except.ok.inj hok ▸ h
    · obtain ⟨u₁, hput, hu'⟩ := Machine.bind_eq_ok.mp hok
      have h₁ := h.put hput
      obtain rfl := Except.ok.inj hu'
      exact h₁
  · exact Except.ok.inj hok ▸ h

/-- No push of the tool changes them. -/
theorem TxUser.Dims.pushCb (u : TxUser) (act : TxAction) (header : Option HeaderMeta)
    (data : Option (List UInt8)) (size : UInt16) (u' : TxUser)
    (hok : pushCb u act header data size = .ok u') (h : u.Dims tu n) : u'.Dims tu n := by
  obtain ⟨u₁, hdata, hheader⟩ :=
    Machine.bind_eq_ok.mp (show pushSlice _ _ _ _ u act header data size = _ from hok)
  have h₁ := h.pushData hdata
  cases header with
  | none => exact Except.ok.inj hheader ▸ h₁
  | some header => exact (h₁.pushHeader hheader).1

/-- **The last slice** is sent, so a session that ends well has a block that
holds a unit. -/
theorem TxStream.Keeps.finalize_le {s s' : TxStream TxUser}
    (h : s.Keeps (TxUser.Dims tu n) CustomData.pushCb) (hok : txStreamFinalize s = .ok s') :
    tu.toNat ≤ n := by
  obtain ⟨s₁, hpush, -⟩ := Machine.bind_eq_ok.mp hok
  obtain ⟨u, hu, -⟩ := Machine.bind_eq_ok.mp hpush
  rw [h.1] at hu
  obtain ⟨u₁, hdata, hheader⟩ := Machine.bind_eq_ok.mp hu
  obtain rfl := Except.ok.inj hdata
  exact (h.2.pushHeader hheader).2

end Dims

/-- A session of the tool sends a block, so a unit beyond `stdout_block` leaves
it. -/
theorem toolStream_not_framed (hcap : P ≤ 4095) (hroom : bytes.length < P + headerSize) :
    ¬ Framed P start chunks (toolStream P start bytes) TxUser.fill TxUser.stdoutBlock := by
  intro h
  obtain ⟨s, s', hfeeds, -, hfinal, -⟩ := h.session
  have htu : (Config.ofPayload P).transmissionUnit.toNat = P + headerSize := by
    simp only [Config.ofPayload, UInt16.toNat_ofNat']
    unfold headerSize
    omega
  have h₀ : (toolStream P start bytes).Keeps
      (TxUser.Dims (Config.ofPayload P).transmissionUnit bytes.length) pushCb := ⟨rfl, rfl, rfl⟩
  have := (h₀.feeds TxUser.Dims.pushCb hfeeds).finalize_le hfinal
  omega

end Session

/-- **Framing.**  For every way of cutting the data into chunks, the sessions
of the tool and of the embedded encoder frame it if and only if a unit fits
the `stdout_block` of the tool. -/
theorem framed_iff {P : ℕ} (hP : 1 ≤ P) (hcap : P ≤ 4095) {data : List UInt8}
    (hoffset : (data.length / P + 1) * P ≤ 65535) {chunks : List (List UInt8)}
    (hcut : chunks.flatten = data) (hchunks : ∀ chunk ∈ chunks, chunk.length ≤ 65535)
    {start : Coordinate} (hstart : start.offset = 0) {stdoutBlock txBlock : List UInt8}
    (hstdout : stdoutBlock.length = 4096) (htx : txBlock.length = P + headerSize) :
    (Framed P start chunks (toolStream P start stdoutBlock) TxUser.fill TxUser.stdoutBlock ∧
      Framed P start chunks (embeddedStream P start txBlock) PbEncoderInst.accumulated
        PbEncoderInst.user) ↔ P + headerSize ≤ 4096 := by
  subst hcut
  have hoffset' : chunks.flatten.length / P * P ≤ 65535 := by
    rw [Nat.add_one_mul] at hoffset
    omega
  constructor
  · rintro ⟨htool, -⟩
    by_contra hbig
    exact toolStream_not_framed hcap (by omega) htool
  · intro hfit
    exact ⟨toolStream_framed hP hcap hchunks hoffset' hstart (by omega),
      embeddedStream_framed hP hcap hchunks hoffset' hstart htx.ge⟩

/-- Three bytes in slices of two, in three chunks, the second one empty. -/
theorem framed_chunks :
    (Framed 2 ⟨1, 7, 0⟩ [[1], [], [2, 3]] (toolStream 2 ⟨1, 7, 0⟩ (List.replicate 4096 0))
        TxUser.fill TxUser.stdoutBlock ∧
      Framed 2 ⟨1, 7, 0⟩ [[1], [], [2, 3]] (embeddedStream 2 ⟨1, 7, 0⟩ (List.replicate 6 0))
        PbEncoderInst.accumulated PbEncoderInst.user) ↔ 2 + headerSize ≤ 4096 :=
  @framed_iff 2 (by decide) (by decide) [1, 2, 3] (by decide) [[1], [], [2, 3]] rfl (by decide)
    ⟨1, 7, 0⟩ rfl (List.replicate 4096 0) (List.replicate 6 0) List.length_replicate rfl

/-- A unit of 4097 bytes and a full slice: the last byte of the payload lies
behind `stdout_block`. -/
theorem framed_overflows :
    ¬ ∀ (P : ℕ) (data : List UInt8) (chunks : List (List UInt8)) (start : Coordinate)
      (stdoutBlock txBlock : List UInt8), 1 ≤ P → P ≤ 4095 → data.length / P ≤ 255 →
      (data.length / P + 1) * P ≤ 65535 → chunks.flatten = data →
      (∀ chunk ∈ chunks, chunk.length ≤ 65535) → start.offset = 0 → stdoutBlock.length = 4096 →
      txBlock.length = P + headerSize →
      Framed P start chunks (toolStream P start stdoutBlock) TxUser.fill TxUser.stdoutBlock ∧
        Framed P start chunks (embeddedStream P start txBlock) PbEncoderInst.accumulated
          PbEncoderInst.user := by
  intro h
  have hlen : (List.replicate 4093 (7 : UInt8)).length = 4093 := List.length_replicate
  obtain ⟨htool, -⟩ := h 4093 (List.replicate 4093 7) [List.replicate 4093 7] ⟨1, 7, 0⟩
    (List.replicate 4096 0) (List.replicate 4097 0) (by omega) (by omega) (by rw [hlen]; decide)
    (by rw [hlen]; decide) List.flatten_singleton
    (fun chunk hmem => by rw [List.mem_singleton.mp hmem, hlen]; decide) rfl
    List.length_replicate List.length_replicate
  exact toolStream_not_framed (by omega) (by rw [List.length_replicate]; decide) htool

end CustomData
