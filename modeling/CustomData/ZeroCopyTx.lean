/-
CustomData/ZeroCopyTx.lean

The C++ sender (`customdata-protobuf-tx.cpp`): a `ZeroCopyOutputStream` that
hands out one buffer again and again.

The stream learns how full a buffer is only afterwards: the next `Next` takes
it as full, `finalize` takes off what `BackUp` gave back.  So every slice is
committed one call late, out of the buffer the client is about to write into.

`Open done s` describes the stream while its client writes: the slices `done`
are committed, the one in the buffer is not.  Filling the buffer and asking for
it again appends to `done` (`Open.next`), and `finalize` commits the last one
with eop (`Open.finalize`).  What the observer sees of a whole run is then the
frames of the bytes written (`push_frames`), and these are the frames of a
package (`Client.areFrames`).
-/
import CustomData.Tx
import CustomData.Coordinator

namespace CustomData

/-- `TxEncoderCore`.  What the observer is given is a result of `push`. -/
structure TxEncoderCore where
  senderId : UInt8
  tu : UInt16
  currentPackageId : UInt8
  deriving DecidableEq, Repr

namespace TxEncoderCore

/-! ### The stream -/

/-- The class `TxStream`, with the blocks the observer was given so far. -/
structure TxStream where
  config : Config
  cursor : Coordinate
  hdrBuf : List UInt8
  payloadBuf : List UInt8
  accumulated : ℤ
  written : ℤ
  nextCalled : Bool
  observed : List (List UInt8)
  deriving DecidableEq, Repr

/-- What a client does: it asks for the buffer, writes into it, and gives back
its end. -/
inductive ClientCall
  | next
  | write (pos : ℕ) (bytes : List UInt8)
  | backUp (count : ℤ)
  deriving DecidableEq, Repr

namespace TxStream

/-- The constructor of `TxStream`. -/
def create (config : Config) (coord : Coordinate) (buffer : List UInt8) : TxStream :=
  ⟨config, coord, buffer.take headerSize, buffer.drop headerSize, 0, 0, false, []⟩

/-- `commit_slice`.  The observer is given both buffers, which lie side by
side. -/
def commitSlice (s : TxStream) (eop : Bool) (size : ℤ) : TxStream :=
  let slice := txPrepare s.config s.cursor (UInt16.ofInt size) eop
  let hdrBuf := copyAt s.hdrBuf 0 (packedHeaderToArray (headerPack slice.header))
  { s with
    hdrBuf := hdrBuf
    observed := s.observed ++ [hdrBuf ++ s.payloadBuf]
    cursor := slice.next
    accumulated := s.accumulated + size }

/-- `Next`.  It hands out the whole payload buffer and returns true. -/
def next (s : TxStream) : TxStream :=
  let s := if s.nextCalled then s.commitSlice false s.payloadBuf.length else s
  { s with nextCalled := true, written := 0 }

/-- `BackUp` -/
def backUp (s : TxStream) (count : ℤ) : TxStream :=
  { s with written := s.payloadBuf.length - count }

/-- `ByteCount` -/
def byteCount (s : TxStream) : ℤ := s.accumulated

/-- `finalize` -/
def finalize (s : TxStream) : TxStream :=
  if s.nextCalled then
    let size := if s.written > 0 then s.written else s.payloadBuf.length
    s.commitSlice true size
  else s

/-- One call of a client. -/
def call (s : TxStream) : ClientCall → TxStream
  | .next => s.next
  | .write pos bytes => { s with payloadBuf := copyAt s.payloadBuf pos bytes }
  | .backUp count => s.backUp count

end TxStream

/-- `Push`, for a message whose `SerializeToZeroCopyStream` makes `calls` and
returns `ok`.  The results are the encoder, the blocks the observer was given,
and `ok`. -/
def push (e : TxEncoderCore) (calls : List ClientCall) (ok : Bool) (buffer : List UInt8) :
    TxEncoderCore × List (List UInt8) × Bool :=
  let stream := TxStream.create ⟨e.tu⟩ ⟨e.senderId, e.currentPackageId, 0⟩ buffer
  let stream := calls.foldl TxStream.call stream
  let stream := if ok then stream.finalize else stream
  ({ e with currentPackageId := e.currentPackageId + 1 }, stream.observed, ok)

/-! ### Clients that fill their buffers -/

/-- Writes into a buffer, one after the other. -/
def writeAll (buf : List UInt8) (writes : List (ℕ × List UInt8)) : List UInt8 :=
  writes.foldl (fun buf w => copyAt buf w.1 w.2) buf

/-- Writes into a buffer of `P` bytes that settle its first `len` bytes,
whatever was in it before. -/
structure Fill (P len : ℕ) where
  writes : List (ℕ × List UInt8)
  bytes : List UInt8
  inside : ∀ w ∈ writes, w.1 + w.2.length ≤ P
  length : bytes.length = len
  fills : ∀ old : List UInt8, old.length = P → (writeAll old writes).take len = bytes

/-- The calls that make these writes. -/
def Fill.calls {P len : ℕ} (b : Fill P len) : List ClientCall :=
  b.writes.map fun w => .write w.1 w.2

/-- A client that fills every buffer, except for the last `count` bytes of the
last one, which it gives back if there are any. -/
structure Client (P : ℕ) where
  full : List (Fill P P)
  count : ℕ
  count_lt : count < P
  last : Fill P (P - count)

theorem length_flatten_of_forall {P : ℕ} {L : List (List UInt8)} (hL : ∀ b ∈ L, b.length = P) :
    L.flatten.length = L.length * P := by
  rw [List.length_flatten, List.map_congr_left hL, List.map_const', List.sum_replicate, smul_eq_mul]

namespace Client

variable {P : ℕ} (c : Client P)

/-- A full buffer is followed by another `Next`. -/
def calls : List ClientCall :=
  .next :: c.full.flatMap (fun b => b.calls ++ [.next]) ++ c.last.calls ++
    if c.count = 0 then [] else [.backUp c.count]

/-- How often `Next` is called. -/
def buffers : ℕ := c.full.length + 1

/-- The full buffers are full. -/
theorem length_of_mem : ∀ b ∈ c.full.map Fill.bytes, b.length = P := by
  simp only [List.mem_map]
  rintro b ⟨fill, -, rfl⟩
  exact fill.length

/-- The bytes written. -/
def bytes : List UInt8 := (c.full.map Fill.bytes).flatten ++ c.last.bytes

theorem length_bytes : c.bytes.length = c.full.length * P + (P - c.count) := by
  rw [bytes, List.length_append, length_flatten_of_forall c.length_of_mem, List.length_map,
    c.last.length]

/-- The header of the slice from buffer `i`. -/
def header (senderId packageId : UInt8) (i : ℕ) : HeaderMeta where
  packageSerial := packageId
  sliceSerial := UInt8.ofNat i
  senderId := senderId &&& 0x7
  eop := if i + 1 = c.buffers then 1 else 0
  slicePayloadSize := UInt16.ofNat (if i + 1 = c.buffers then P - c.count else P)

end Client

/-- The payload region of a block, as its header has it. -/
def payloadRegion (f : List UInt8) : List UInt8 :=
  (f.drop headerSize).take (headerUnpack (arrayToPackedHeader f)).slicePayloadSize.toNat

/-- The blocks are the frames of the bytes the client wrote: one for every
buffer, with its number. -/
structure FramesOf {P : ℕ} (c : Client P) (senderId packageId : UInt8)
    (frames : List (List UInt8)) : Prop where
  count : frames.length = c.buffers
  unit : ∀ f ∈ frames, f.length = P + headerSize
  header : ∀ i f, frames[i]? = some f →
    headerUnpack (arrayToPackedHeader f) = c.header senderId packageId i
  serial : ∀ i f, frames[i]? = some f →
    (headerUnpack (arrayToPackedHeader f)).sliceSerial.toNat = i
  bytes : frames.flatMap payloadRegion = c.bytes

/-! ### One buffer -/

section Buffer

variable {P : ℕ} {start : Coordinate} {s : TxStream} {done : List (List UInt8)}

/-- The block for slice `i`. -/
def block (P : ℕ) (start : Coordinate) (i size : ℕ) (eop : Bool) (payload : List UInt8) :
    List UInt8 :=
  packedHeaderToArray (headerPack (txMakeHeader (Config.ofPayload P) (start.slice P i)
    (UInt16.ofNat size) eop)) ++ payload

/-- The blocks of full slices. -/
def blocks (P : ℕ) (start : Coordinate) (done : List (List UInt8)) : List (List UInt8) :=
  done.mapIdx fun i bytes => block P start i P false bytes

theorem blocks_concat (bytes : List UInt8) :
    blocks P start (done ++ [bytes]) =
      blocks P start done ++ [block P start done.length P false bytes] := List.mapIdx_concat

/-- The buffer is handed out; the full slices `done` are committed. -/
structure Open (P : ℕ) (start : Coordinate) (done : List (List UInt8)) (s : TxStream) : Prop where
  config : s.config = Config.ofPayload P
  cursor : s.cursor = start.slice P done.length
  hdrBuf : s.hdrBuf.length = headerSize
  payloadBuf : s.payloadBuf.length = P
  accumulated : s.accumulated = done.length * P
  written : s.written = 0
  nextCalled : s.nextCalled = true
  observed : s.observed = blocks P start done

theorem copyAt_zero {old new : List UInt8} (h : new.length = old.length) :
    copyAt old 0 new = new := by
  rw [copyAt, List.take_zero, List.nil_append, Nat.zero_add,
    List.drop_eq_nil_of_le h.ge, List.append_nil]

/-- Committing a slice of an open stream. -/
theorem Open.commitSlice (h : Open P start done s) (hcap : P ≤ 4095) (eop : Bool) (size : ℕ) :
    s.commitSlice eop size =
      { s with
        hdrBuf := packedHeaderToArray (headerPack (txMakeHeader (Config.ofPayload P)
          (start.slice P done.length) (UInt16.ofNat size) eop))
        observed := blocks P start done ++
          [block P start done.length size eop s.payloadBuf]
        cursor := start.slice P (done.length + 1)
        accumulated := done.length * P + size } := by
  have hsize : UInt16.ofInt size = UInt16.ofNat size := by
    rw [UInt16.ofInt]
    apply UInt16.toNat_inj.mp
    simp only [UInt16.toNat_ofNat']
    omega
  simp only [TxStream.commitSlice, txPrepare, h.config, h.cursor, txAdvance_slice hcap, hsize,
    h.accumulated, h.observed, block]
  rw [copyAt_zero (by rw [packedHeaderToArray_length, h.hdrBuf])]

/-- **The next buffer**: the one before was full. -/
theorem Open.next (h : Open P start done s) (hcap : P ≤ 4095) :
    Open P start (done ++ [s.payloadBuf]) s.next := by
  have hcommit := h.commitSlice hcap false P
  rw [TxStream.next, if_pos h.nextCalled, h.payloadBuf, hcommit]
  refine ⟨h.config, ?_, packedHeaderToArray_length _, h.payloadBuf, ?_, rfl, rfl, ?_⟩
  · rw [List.length_append, List.length_singleton]
  · rw [List.length_append, List.length_singleton]
    push_cast
    ring
  · exact (blocks_concat s.payloadBuf).symm

/-- The first buffer. -/
theorem open_create {buffer : List UInt8} (hbuffer : buffer.length = P + headerSize)
    (hstart : start.offset = 0) :
    Open P start [] ((TxStream.create (Config.ofPayload P) start buffer).call .next) := by
  refine ⟨rfl, ?_, ?_, ?_, ?_, rfl, rfl, rfl⟩
  · show start = start.slice P 0
    rw [Coordinate.slice, Nat.zero_mul]
    exact congrArg (fun o => { start with offset := o }) hstart
  · show (buffer.take headerSize).length = headerSize
    rw [List.length_take]
    omega
  · show (buffer.drop headerSize).length = P
    rw [List.length_drop]
    omega
  · show (0 : ℤ) = ([] : List (List UInt8)).length * P
    simp

theorem length_writeAll {old : List UInt8} {writes : List (ℕ × List UInt8)}
    (hold : old.length = P) (h : ∀ w ∈ writes, w.1 + w.2.length ≤ P) :
    (writeAll old writes).length = P := by
  induction writes generalizing old with
  | nil => exact hold
  | cons w writes ih =>
      obtain ⟨hw, hwrites⟩ := List.forall_mem_cons.mp h
      exact ih ((length_copyAt (by rw [hold]; exact hw)).trans hold) hwrites

theorem foldl_calls {len : ℕ} (b : Fill P len) (s : TxStream) :
    b.calls.foldl TxStream.call s = { s with payloadBuf := writeAll s.payloadBuf b.writes } := by
  rw [Fill.calls, writeAll]
  generalize b.writes = writes
  induction writes generalizing s with
  | nil => rfl
  | cons w writes ih => exact ih _

/-- Writing into the buffer changes nothing else. -/
theorem Open.write (h : Open P start done s) {buf : List UInt8} (hbuf : buf.length = P) :
    Open P start done { s with payloadBuf := buf } :=
  ⟨h.config, h.cursor, h.hdrBuf, hbuf, h.accumulated, h.written, h.nextCalled, h.observed⟩

/-- A buffer that is filled and asked for again. -/
theorem Open.fill (h : Open P start done s) (hcap : P ≤ 4095) (b : Fill P P) :
    Open P start (done ++ [b.bytes]) ((b.calls ++ [ClientCall.next]).foldl TxStream.call s) := by
  have hlen := length_writeAll h.payloadBuf b.inside
  have hfills := b.fills _ h.payloadBuf
  rw [List.take_of_length_le hlen.le] at hfills
  have hopen := (h.write hlen).next hcap
  rw [List.foldl_append, foldl_calls, ← hfills]
  exact hopen

/-- **All full buffers**, one after the other. -/
theorem Open.fills (h : Open P start done s) (hcap : P ≤ 4095) (full : List (Fill P P)) :
    Open P start (done ++ full.map Fill.bytes)
      ((full.flatMap fun b => b.calls ++ [ClientCall.next]).foldl TxStream.call s) := by
  induction full generalizing done s with
  | nil => simpa using h
  | cons b full ih =>
      have hnext := ih (h.fill hcap b)
      rw [List.append_assoc] at hnext
      rw [List.flatMap_cons, List.foldl_append]
      exact hnext

/-- **The last buffer**, with what is given back. -/
theorem Open.finalize (h : Open P start done s) (hcap : P ≤ 4095) {count : ℕ} (hcount : count < P) :
    ∃ s', (((if count = 0 then [] else [.backUp count]) : List ClientCall).foldl TxStream.call
        s).finalize = s' ∧
      s'.observed = blocks P start done ++
        [block P start done.length (P - count) true s.payloadBuf] ∧
      s'.byteCount = done.length * P + (P - count : ℕ) := by
  have hcommit := h.commitSlice hcap true (P - count)
  have hobserved := congrArg TxStream.observed hcommit
  have hbytes := congrArg TxStream.byteCount hcommit
  by_cases hz : count = 0
  · rw [if_pos hz, List.foldl_nil, TxStream.finalize, if_pos h.nextCalled, h.written,
      if_neg (by simp), h.payloadBuf]
    rw [hz, Nat.sub_zero] at hobserved hbytes ⊢
    exact ⟨_, rfl, hobserved, hbytes⟩
  · have hwritten : ((P : ℤ) - count) = ((P - count : ℕ) : ℤ) := by omega
    rw [if_neg hz, List.foldl_cons, List.foldl_nil]
    simp only [TxStream.call, TxStream.backUp, TxStream.finalize, h.nextCalled, if_true,
      h.payloadBuf, hwritten]
    rw [if_pos (by omega)]
    exact ⟨_, rfl, hobserved, hbytes⟩

/-- **A whole run**: a block for every buffer, as it stood when it was
committed, and `ByteCount` is the number of bytes written. -/
theorem Client.run (c : Client P) (hcap : P ≤ 4095) {buffer : List UInt8}
    (hbuffer : buffer.length = P + headerSize) (hstart : start.offset = 0) :
    ∃ s' : TxStream, ∃ buf : List UInt8, buf.length = P ∧
      buf.take (P - c.count) = c.last.bytes ∧
      (c.calls.foldl TxStream.call
        (TxStream.create (Config.ofPayload P) start buffer)).finalize = s' ∧
      s'.observed = blocks P start (c.full.map Fill.bytes) ++
        [block P start c.full.length (P - c.count) true buf] ∧
      s'.byteCount = c.bytes.length := by
  have hfull := (open_create hbuffer hstart).fills hcap c.full
  rw [List.nil_append] at hfull
  simp only [Client.calls, List.foldl_append, List.foldl_cons, foldl_calls]
  generalize (c.full.flatMap fun b => b.calls ++ [ClientCall.next]).foldl TxStream.call
    ((TxStream.create (Config.ofPayload P) start buffer).call .next) = s at hfull ⊢
  have hlen := length_writeAll hfull.payloadBuf c.last.inside
  obtain ⟨s', hs', hobserved, hbytes⟩ := (hfull.write hlen).finalize hcap c.count_lt
  rw [List.length_map] at hobserved hbytes
  refine ⟨s', writeAll s.payloadBuf c.last.writes, hlen, c.last.fills _ hfull.payloadBuf, hs',
    hobserved, ?_⟩
  rw [hbytes, c.length_bytes]
  push_cast
  rfl

end Buffer

/-! ### The frames of a run -/

section Frames

variable {P : ℕ} {start : Coordinate}

/-- A block is read as it was made. -/
theorem headerUnpack_block (hcap : P ≤ 4095) {size : ℕ} (hsize : size ≤ P) (i : ℕ) (eop : Bool)
    (payload : List UInt8) :
    headerUnpack (arrayToPackedHeader (block P start i size eop payload)) =
      txMakeHeader (Config.ofPayload P) (start.slice P i) (UInt16.ofNat size) eop := by
  refine headerUnpack_wire ⟨senderId_and_lt _, ?_, ?_⟩ payload
  · simp only [txMakeHeader]
    split <;> decide
  · simp only [txMakeHeader, UInt16.toNat_ofNat']
    omega

theorem payloadRegion_block (hcap : P ≤ 4095) {size : ℕ} (hsize : size ≤ P) (i : ℕ) (eop : Bool)
    (payload : List UInt8) :
    payloadRegion (block P start i size eop payload) = payload.take size := by
  rw [payloadRegion, headerUnpack_block hcap hsize, block,
    List.drop_left' (packedHeaderToArray_length _)]
  simp only [txMakeHeader, UInt16.toNat_ofNat']
  rw [Nat.mod_eq_of_lt (by omega)]

theorem length_block (i size : ℕ) (eop : Bool) (payload : List UInt8) :
    (block P start i size eop payload).length = payload.length + headerSize := by
  rw [block, List.length_append, packedHeaderToArray_length, Nat.add_comm]

/-- The payload regions of full slices give their bytes back. -/
theorem flatMap_blocks (hcap : P ≤ 4095) {done : List (List UInt8)}
    (hdone : ∀ bytes ∈ done, bytes.length = P) :
    (blocks P start done).flatMap payloadRegion = done.flatten := by
  induction done using List.reverseRecOn with
  | nil => rfl
  | append_singleton done bytes ih =>
      have hlen : bytes.length = P := hdone bytes (by simp)
      rw [blocks_concat, List.flatMap_append, ih fun b hb => hdone b (List.mem_append_left _ hb),
        List.flatMap_singleton, payloadRegion_block hcap le_rfl, List.take_of_length_le hlen.le,
        List.flatten_append, List.flatten_singleton]

/-- Block `i` of a run. -/
theorem getElem?_run (c : Client P) (buf : List UInt8) {i : ℕ} {f : List UInt8}
    (h : (blocks P start (c.full.map Fill.bytes) ++
      [block P start c.full.length (P - c.count) true buf])[i]? = some f) :
    (∃ b, c.full[i]? = some b ∧ f = block P start i P false b.bytes) ∨
      i = c.full.length ∧ f = block P start i (P - c.count) true buf := by
  have hlen : (blocks P start (c.full.map Fill.bytes)).length = c.full.length := by
    rw [blocks, List.length_mapIdx, List.length_map]
  rcases Nat.lt_or_ge i c.full.length with hi | hi
  · rw [List.getElem?_append_left (by rw [hlen]; exact hi), blocks, List.getElem?_mapIdx,
      List.getElem?_map, List.getElem?_eq_getElem hi] at h
    exact Or.inl ⟨c.full[i], List.getElem?_eq_getElem hi, (Option.some.inj h).symm⟩
  · rw [List.getElem?_append_right (by rw [hlen]; exact hi), hlen] at h
    obtain ⟨hi', rfl⟩ := List.getElem?_eq_some_iff.mp h
    obtain rfl : i = c.full.length := by
      rw [List.length_singleton] at hi'
      omega
    exact Or.inr ⟨rfl, by simp⟩

/-- The header of block `i`. -/
theorem Client.headerUnpack_eq (c : Client P) (hcap : P ≤ 4095) (hoff : c.buffers * P ≤ 65535)
    {buf : List UInt8} {i : ℕ} {f : List UInt8}
    (hf : (blocks P start (c.full.map Fill.bytes) ++
      [block P start c.full.length (P - c.count) true buf])[i]? = some f) :
    headerUnpack (arrayToPackedHeader f) = c.header start.senderId start.packageId i := by
  have hP := c.count_lt
  have hi : i * P ≤ c.full.length * P → i * P ≤ 65535 := by
    unfold Client.buffers at hoff
    rw [Nat.add_one_mul] at hoff
    omega
  rcases getElem?_run c buf hf with ⟨b, hb, rfl⟩ | ⟨rfl, rfl⟩
  · have hlt := (List.getElem?_eq_some_iff.mp hb).1
    have hne : i + 1 ≠ c.buffers := by
      unfold Client.buffers
      omega
    rw [headerUnpack_block hcap le_rfl,
      txMakeHeader_slice (by omega) (hi (Nat.mul_le_mul_right P hlt.le)) hcap]
    simp only [Client.header, hne, if_false, Bool.false_eq_true]
  · rw [headerUnpack_block hcap (Nat.sub_le _ _), txMakeHeader_slice (by omega) (hi le_rfl) hcap]
    simp only [Client.header, Client.buffers, if_true]

theorem Client.framesOf (c : Client P) (hcap : P ≤ 4095) (hn : c.buffers ≤ 256)
    (hoff : c.buffers * P ≤ 65535) {buf : List UInt8} (hbuf : buf.length = P)
    (hlast : buf.take (P - c.count) = c.last.bytes) :
    FramesOf c start.senderId start.packageId
      (blocks P start (c.full.map Fill.bytes) ++
        [block P start c.full.length (P - c.count) true buf]) where
  count := by
    rw [List.length_append, List.length_singleton, blocks, List.length_mapIdx, List.length_map]
    rfl
  unit := by
    intro f hf
    obtain ⟨i, hi⟩ := List.mem_iff_getElem?.mp hf
    rcases getElem?_run c buf hi with ⟨b, -, rfl⟩ | ⟨-, rfl⟩
    · rw [length_block, b.length]
    · rw [length_block, hbuf]
  header := fun i f hf => c.headerUnpack_eq hcap hoff hf
  serial := by
    intro i f hf
    have hi : i < c.buffers := by
      rcases getElem?_run c buf hf with ⟨b, hb, -⟩ | ⟨rfl, -⟩
      · exact (List.getElem?_eq_some_iff.mp hb).1.trans (Nat.lt_succ_self _)
      · exact Nat.lt_succ_self _
    rw [c.headerUnpack_eq hcap hoff hf, Client.header, UInt8.toNat_ofNat']
    exact Nat.mod_eq_of_lt (by omega)
  bytes := by
    rw [List.flatMap_append, flatMap_blocks hcap, List.flatMap_singleton,
      payloadRegion_block hcap (Nat.sub_le _ _), hlast]
    · rfl
    · exact c.length_of_mem

end Frames

/-- What `Push` makes of such a client. -/
theorem Client.push_eq {P : ℕ} (c : Client P) (hcap : P ≤ 4095) {e : TxEncoderCore}
    (htu : e.tu = UInt16.ofNat (P + headerSize)) {buffer : List UInt8}
    (hbuffer : buffer.length = P + headerSize) :
    ∃ buf : List UInt8, buf.length = P ∧ buf.take (P - c.count) = c.last.bytes ∧
      (e.push c.calls true buffer).2.1 =
        blocks P ⟨e.senderId, e.currentPackageId, 0⟩ (c.full.map Fill.bytes) ++
          [block P ⟨e.senderId, e.currentPackageId, 0⟩ c.full.length (P - c.count) true buf] := by
  have hconfig : (⟨e.tu⟩ : Config) = Config.ofPayload P := by rw [htu, Config.ofPayload]
  obtain ⟨s', buf, hbuf, hlast, hs', hobserved, -⟩ :=
    @Client.run P ⟨e.senderId, e.currentPackageId, 0⟩ c hcap buffer hbuffer rfl
  refine ⟨buf, hbuf, hlast, ?_⟩
  rw [← hobserved, ← hs']
  simp only [push, hconfig, if_true]

/-- **Framing of the C++ sender.**  The blocks that `Push` gives to the
observer are the frames of the bytes its client wrote, and a client that never
asks for the buffer causes none. -/
theorem push_frames {P : ℕ} (hcap : P ≤ 4095) {e : TxEncoderCore}
    (htu : e.tu = UInt16.ofNat (P + headerSize)) {buffer : List UInt8}
    (hbuffer : buffer.length = P + headerSize) :
    (∀ c : Client P, c.buffers ≤ 256 → c.buffers * P ≤ 65535 →
      FramesOf c e.senderId e.currentPackageId (e.push c.calls true buffer).2.1) ∧
      (e.push [] true buffer).2.1 = [] := by
  refine ⟨fun c hn hoff => ?_, rfl⟩
  obtain ⟨buf, hbuf, hlast, hrun⟩ := c.push_eq hcap htu hbuffer
  rw [hrun]
  exact @Client.framesOf P ⟨e.senderId, e.currentPackageId, 0⟩ c hcap hn hoff buf hbuf hlast

/-- Three bytes: a buffer that is filled from behind, and half of another
one. -/
def threeBytes : Client 2 where
  full := [{
    writes := [(1, [2]), (0, [1])]
    bytes := [1, 2]
    inside := by decide
    length := rfl
    fills := by
      intro old hold
      obtain ⟨a, b, rfl⟩ := List.length_eq_two.mp hold
      rfl }]
  count := 1
  count_lt := by decide
  last := {
    writes := [(0, [3])]
    bytes := [3]
    inside := by decide
    length := rfl
    fills := by
      intro old hold
      obtain ⟨a, b, rfl⟩ := List.length_eq_two.mp hold
      rfl }

theorem push_frames_threeBytes :
    FramesOf threeBytes 1 9
        ((⟨1, 6, 9⟩ : TxEncoderCore).push threeBytes.calls true (List.replicate 6 0)).2.1 ∧
      ((⟨1, 6, 9⟩ : TxEncoderCore).push [] true (List.replicate 6 0)).2.1 = [] := by
  have h := push_frames (show 2 ≤ 4095 by decide)
    (show (⟨1, 6, 9⟩ : TxEncoderCore).tu = UInt16.ofNat (2 + headerSize) from rfl)
    (show (List.replicate 6 (0 : UInt8)).length = 2 + headerSize from List.length_replicate)
  exact ⟨h.1 threeBytes (by decide) (by decide), h.2⟩

/-- The blocks of `threeBytes`: the second one still has a byte of the first
one in it. -/
example : ((⟨1, 6, 9⟩ : TxEncoderCore).push threeBytes.calls true (List.replicate 6 0)).2.1 =
    [[9, 0, 33, 0, 1, 2], [9, 1, 25, 0, 3, 2]] := by decide +kernel

/-! ### The frames as a package -/

section Package

variable {P : ℕ}

/-- Cutting a concatenation of blocks of one length where it was joined. -/
theorem take_drop_flatten {L : List (List UInt8)} (hL : ∀ b ∈ L, b.length = P)
    (rest : List UInt8) {i : ℕ} {b : List UInt8} (h : L[i]? = some b) :
    ((L.flatten ++ rest).drop (i * P)).take P = b := by
  induction L generalizing i with
  | nil => simp at h
  | cons a L ih =>
      obtain ⟨ha, hL⟩ := List.forall_mem_cons.mp hL
      cases i with
      | zero =>
          obtain rfl : a = b := by simpa using h
          rw [Nat.zero_mul, List.drop_zero, List.flatten_cons, List.append_assoc,
            List.take_left' ha]
      | succ i =>
          rw [Nat.succ_mul, Nat.add_comm, ← List.drop_drop, List.flatten_cons, List.append_assoc,
            List.drop_left' ha]
          exact ih hL (by simpa using h)

namespace Client

variable (c : Client P)

/-- The package of the bytes written. -/
def package (hcap : P ≤ 4095) (hn : c.buffers ≤ 256) (hoff : c.buffers * P ≤ 65535) :
    Package P where
  data := c.bytes
  full := c.full.length
  capacity_le := hcap
  full_le := Nat.le_of_lt_succ hn
  offset_le := hoff
  nonempty := by
    have := c.count_lt
    rw [c.length_bytes]
    omega
  lower := by
    rw [c.length_bytes]
    omega
  upper := by
    rw [c.length_bytes, Nat.add_one_mul]
    omega

/-- A block that has the header and the payload of a slice in front. -/
theorem isFrame_block (hcap : P ≤ 4095) {p : Package P} {start : Coordinate} {i size : ℕ}
    {eop : Bool} {buf : List UInt8} (hi : i ≤ p.full) (hbuf : buf.length = P)
    (hsize : p.size i = size) (heop : eop = decide (i = p.full))
    (hpayload : p.payload i = buf.take size) :
    p.IsFrame (start.senderId &&& 0x7) start.packageId i (block P start i size eop buf) where
  slice_le := hi
  length := by rw [length_block, hbuf]
  starts := by
    have hoff := p.offset_le_of_le hi
    have hlen := p.length_le
    rw [block, txMakeHeader_slice p.capacity_pos (by omega) hcap, heop, hpayload, Package.header,
      hsize]
    simp only [decide_eq_true_eq]
    exact (List.prefix_append_right_inj _).mpr (List.take_prefix _ _)

/-- **The frames of a package**: the receivers take what `Push` sends for what
it is. -/
theorem areFrames (hcap : P ≤ 4095) (hn : c.buffers ≤ 256) (hoff : c.buffers * P ≤ 65535)
    {e : TxEncoderCore} (htu : e.tu = UInt16.ofNat (P + headerSize)) {buffer : List UInt8}
    (hbuffer : buffer.length = P + headerSize) :
    (c.package hcap hn hoff).AreFrames (e.senderId &&& 0x7) e.currentPackageId
      (List.range c.buffers) (e.push c.calls true buffer).2.1 := by
  obtain ⟨buf, hbuf, hlast, hrun⟩ := c.push_eq hcap htu hbuffer
  have hcount : (e.push c.calls true buffer).2.1.length = c.buffers := by
    rw [hrun]
    exact (@framesOf P ⟨e.senderId, e.currentPackageId, 0⟩ c hcap hn hoff buf hbuf hlast).count
  apply List.forall₂_of_length_eq_of_get (by rw [List.length_range, hcount])
  intro i h₁ h₂
  have hf := List.getElem?_eq_getElem h₂
  simp only [List.get_eq_getElem, List.getElem_range]
  generalize (e.push c.calls true buffer).2.1[i] = f at hf ⊢
  rw [hrun] at hf
  rcases getElem?_run c buf hf with ⟨b, hb, rfl⟩ | ⟨rfl, rfl⟩
  · have hlt := (List.getElem?_eq_some_iff.mp hb).1
    have hpayload : (c.package hcap hn hoff).payload i = b.bytes :=
      take_drop_flatten c.length_of_mem c.last.bytes (by rw [List.getElem?_map, hb]; rfl)
    refine @isFrame_block P hcap (c.package hcap hn hoff) ⟨e.senderId, e.currentPackageId, 0⟩ i P
      false b.bytes hlt.le b.length (Package.size_of_lt _ hlt) ?_ ?_
    · exact (decide_eq_false (Nat.ne_of_lt hlt)).symm
    · rw [hpayload, List.take_of_length_le b.length.le]
  · have hdata : (c.package hcap hn hoff).data = c.bytes := rfl
    have hfull : (c.package hcap hn hoff).full = c.full.length := rfl
    have hsize : (c.package hcap hn hoff).size c.full.length = P - c.count := by
      have h := (c.package hcap hn hoff).size_full
      rw [hdata, hfull, c.length_bytes] at h
      omega
    have hpayload : (c.package hcap hn hoff).payload c.full.length = c.last.bytes := by
      have hfront : (c.full.map Fill.bytes).flatten.length = c.full.length * P := by
        rw [length_flatten_of_forall c.length_of_mem, List.length_map]
      rw [Package.payload, hdata, bytes, List.drop_left' hfront,
        List.take_of_length_le (by rw [c.last.length]; omega)]
    exact @isFrame_block P hcap (c.package hcap hn hoff) ⟨e.senderId, e.currentPackageId, 0⟩ _ _
      true buf le_rfl hbuf hsize (decide_eq_true rfl).symm (hpayload.trans hlast.symm)

end Client

end Package

end TxEncoderCore

end CustomData
