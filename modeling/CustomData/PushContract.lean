/-
CustomData/PushContract.lean

The contract of the C++ encoder, for every buffer it permits.

`Push` asks for a buffer of at least `tu` bytes, and promises its observer
frames of `tu` bytes.  But slices are cut to the buffer: the client is handed
all of it behind the header, and a frame is as long as the buffer is, while
offsets and numbers follow `tu`.  A buffer of exactly `tu` bytes keeps the
contract, and a longer one breaks it with the first frame
(`push_contract_iff`); only a message that asks for no buffer, and is sent in no
frames, does not care.
-/
import CustomData.RoundTrip
import CustomData.ZeroCopyTx

namespace CustomData

namespace TxEncoderCore

/-! ### The contract -/

/-- A message as protobuf serializes it into buffers of `n` bytes; one without
any bytes does not ask for a buffer. -/
abbrev Serialized (n : ℕ) : Type := Option (Client n)

namespace Serialized

variable {n : ℕ}

/-- What `SerializeToZeroCopyStream` does. -/
def calls : Serialized n → List ClientCall
  | none => []
  | some c => c.calls

/-- The serialized bytes. -/
def bytes : Serialized n → List UInt8
  | none => []
  | some c => c.bytes

/-- The packages that carry them. -/
def packages : Serialized n → List (List UInt8)
  | none => []
  | some c => [c.bytes]

end Serialized

/-- What `Push` promises of its frames, for units of `tu` bytes: they have
`tu` bytes and say so in their headers, and if the message is not too long for
the offsets and numbers of its slices, a fresh decoder hands it over. -/
structure Contract (tu : UInt16) {n : ℕ} (m : Serialized n) (frames : List (List UInt8)) :
    Prop where
  unit : ∀ f ∈ frames, f.length = tu.toNat
  size : ∀ f ∈ frames,
    (headerUnpack (arrayToPackedHeader f)).slicePayloadSize.toNat ≤ tu.toNat - headerSize
  decoded : m.bytes.length / (tu.toNat - headerSize) ≤ 255 →
    (m.bytes.length / (tu.toNat - headerSize) + 1) * (tu.toNat - headerSize) ≤ 65535 →
    ∀ c, Decoder.cpp.Initial c →
      ∃ c' os, Machine.run (CustomData.push ⟨tu⟩) c frames = .ok (c', os) ∧ handed os = m.packages

/-! ### Frames are as long as the buffer -/

section Shape

variable {n : ℕ} {s : TxStream}

/-- Both buffers have their sizes, and so has every frame. -/
structure Shaped (n : ℕ) (s : TxStream) : Prop where
  hdrBuf : s.hdrBuf.length = headerSize
  payloadBuf : s.payloadBuf.length = n
  observed : ∀ f ∈ s.observed, f.length = n + headerSize

/-- A call that writes into the buffer it was handed. -/
def ClientCall.Inside (n : ℕ) : ClientCall → Prop
  | .write pos bytes => pos + bytes.length ≤ n
  | _ => True

theorem shaped_create {buffer : List UInt8} (h : buffer.length = n + headerSize) (config : Config)
    (start : Coordinate) : Shaped n (TxStream.create config start buffer) where
  hdrBuf := by
    rw [TxStream.create, List.length_take, h]
    omega
  payloadBuf := by
    rw [TxStream.create, List.length_drop, h, Nat.add_sub_cancel]
  observed := by simp [TxStream.create]

/-- A committed slice is a frame. -/
theorem Shaped.commitSlice (h : Shaped n s) (eop : Bool) (size : ℤ) :
    Shaped n (s.commitSlice eop size) ∧
      ∃ f ∈ (s.commitSlice eop size).observed, f.length = n + headerSize := by
  have hhdr : ∀ packed, (copyAt s.hdrBuf 0 (packedHeaderToArray packed)).length = headerSize := by
    intro packed
    rw [length_copyAt (by rw [packedHeaderToArray_length, h.hdrBuf, Nat.zero_add]), h.hdrBuf]
  have hlen : ∀ packed, (copyAt s.hdrBuf 0 (packedHeaderToArray packed) ++ s.payloadBuf).length =
      n + headerSize := by
    intro packed
    rw [List.length_append, hhdr, h.payloadBuf, Nat.add_comm]
  refine ⟨⟨hhdr _, h.payloadBuf, fun f hf => ?_⟩,
    _, List.mem_append_right _ (List.mem_singleton.mpr rfl), hlen _⟩
  rcases List.mem_append.mp hf with hf | hf
  · exact h.observed f hf
  · rw [List.mem_singleton.mp hf]
    exact hlen _

theorem Shaped.call (h : Shaped n s) {a : ClientCall} (ha : a.Inside n) : Shaped n (s.call a) := by
  cases a with
  | next =>
      show Shaped n s.next
      unfold TxStream.next
      split
      · have h' := (h.commitSlice false s.payloadBuf.length).1
        exact ⟨h'.hdrBuf, h'.payloadBuf, h'.observed⟩
      · exact ⟨h.hdrBuf, h.payloadBuf, h.observed⟩
  | write pos bytes =>
      refine ⟨h.hdrBuf, ?_, h.observed⟩
      show (copyAt s.payloadBuf pos bytes).length = n
      rw [length_copyAt (by rw [h.payloadBuf]; exact ha), h.payloadBuf]
  | backUp count => exact ⟨h.hdrBuf, h.payloadBuf, h.observed⟩

/-- A buffer that was handed out stays handed out. -/
theorem TxStream.nextCalled_call (s : TxStream) {a : ClientCall} (h : s.nextCalled = true) :
    (s.call a).nextCalled = true := by
  cases a with
  | next => rfl
  | write => exact h
  | backUp => exact h

/-- Call after call. -/
theorem Shaped.calls (h : Shaped n s) {calls : List ClientCall} (hin : ∀ a ∈ calls, a.Inside n)
    (hnext : s.nextCalled = true) :
    Shaped n (calls.foldl TxStream.call s) ∧ (calls.foldl TxStream.call s).nextCalled = true := by
  induction calls generalizing s with
  | nil => exact ⟨h, hnext⟩
  | cons a calls ih =>
      obtain ⟨ha, hin⟩ := List.forall_mem_cons.mp hin
      exact ih (h.call ha) hin (s.nextCalled_call hnext)

theorem Fill.inside_of_mem {P len : ℕ} (b : Fill P len) : ∀ a ∈ b.calls, a.Inside P := by
  simp only [Fill.calls, List.mem_map]
  rintro a ⟨w, hw, rfl⟩
  exact b.inside w hw

theorem Client.inside_of_mem (c : Client n) : ∀ a ∈ c.calls, a.Inside n := by
  simp only [Client.calls, List.mem_append, List.mem_cons, List.mem_flatMap, List.not_mem_nil,
    or_false]
  rintro a (((rfl | ⟨b, -, ha | rfl⟩) | ha) | ha)
  · trivial
  · exact b.inside_of_mem a ha
  · trivial
  · exact c.last.inside_of_mem a ha
  · split at ha
    · cases ha
    · rw [List.mem_singleton.mp ha]
      trivial

/-- **A client causes a frame**, as long as the buffer. -/
theorem Client.exists_frame (c : Client n) (e : TxEncoderCore) {buffer : List UInt8}
    (hbuffer : buffer.length = n + headerSize) :
    ∃ f ∈ (e.push c.calls true buffer).2.1, f.length = buffer.length := by
  obtain ⟨rest, hcalls⟩ : ∃ rest, c.calls = .next :: rest := ⟨_, rfl⟩
  have hin : ∀ a ∈ rest, a.Inside n := fun a ha =>
    c.inside_of_mem a (hcalls ▸ List.mem_cons_of_mem _ ha)
  have hfirst : Shaped n ((TxStream.create ⟨e.tu⟩ ⟨e.senderId, e.currentPackageId, 0⟩ buffer).call
      .next) := (shaped_create hbuffer _ _).call trivial
  obtain ⟨hshape, hnext⟩ := hfirst.calls hin rfl
  simp only [push, hcalls, List.foldl_cons, if_true, TxStream.finalize, hnext, hbuffer]
  exact (hshape.commitSlice true _).2

end Shape

/-! ### A buffer of one unit -/

section Unit

variable {P : ℕ} {start : Coordinate}

/-- No header of a run names more bytes than a slice has. -/
theorem slicePayloadSize_le (c : Client P) (hcap : P ≤ 4095) {buf f : List UInt8} {i : ℕ}
    (hf : (blocks P start (c.full.map Fill.bytes) ++
      [block P start c.full.length (P - c.count) true buf])[i]? = some f) :
    (headerUnpack (arrayToPackedHeader f)).slicePayloadSize.toNat ≤ P := by
  have hsize : ∀ size ≤ P, (UInt16.ofNat size).toNat ≤ P := by
    intro size hle
    rw [UInt16.toNat_ofNat', Nat.mod_eq_of_lt (by omega)]
    exact hle
  rcases getElem?_run c buf hf with ⟨b, -, rfl⟩ | ⟨-, rfl⟩
  · rw [headerUnpack_block hcap le_rfl]
    exact hsize P le_rfl
  · rw [headerUnpack_block hcap (Nat.sub_le _ _)]
    exact hsize _ (Nat.sub_le _ _)

/-- The length of a message limits the number of buffers it fills. -/
theorem Client.buffers_le (c : Client P) {q : ℕ} (hq : c.bytes.length / P ≤ q) :
    c.buffers ≤ q + 1 := by
  have hcount := c.count_lt
  have hle : c.full.length ≤ c.bytes.length / P := by
    rw [Nat.le_div_iff_mul_le (by omega), c.length_bytes]
    exact Nat.le_add_right _ _
  exact Nat.succ_le_succ (hle.trans hq)

/-- **A buffer of one unit** keeps the contract. -/
theorem Client.contract (c : Client P) (hcap : P ≤ 4095) {e : TxEncoderCore}
    (htu : e.tu = UInt16.ofNat (P + headerSize)) {buffer : List UInt8}
    (hbuffer : buffer.length = P + headerSize) :
    Contract e.tu (some c) (e.push c.calls true buffer).2.1 := by
  have hunit : e.tu.toNat = P + headerSize := by
    rw [htu, UInt16.toNat_ofNat']
    unfold headerSize
    omega
  have hpayload : e.tu.toNat - headerSize = P := by rw [hunit, Nat.add_sub_cancel]
  obtain ⟨buf, hbuf, -, hrun⟩ := c.push_eq hcap htu hbuffer
  refine ⟨fun f hf => ?_, fun f hf => ?_, fun hserial hoffset => ?_⟩
  · rw [hrun] at hf
    obtain ⟨i, hi⟩ := List.mem_iff_getElem?.mp hf
    rcases getElem?_run c buf hi with ⟨b, -, rfl⟩ | ⟨-, rfl⟩
    · rw [length_block, b.length, hunit]
    · rw [length_block, hbuf, hunit]
  · rw [hrun] at hf
    obtain ⟨i, hi⟩ := List.mem_iff_getElem?.mp hf
    rw [hpayload]
    exact slicePayloadSize_le c hcap hi
  · rw [hpayload] at hserial hoffset
    rintro c₀ ⟨m, rfl⟩
    have hn : c.buffers ≤ 256 := c.buffers_le hserial
    have hoff : c.buffers * P ≤ 65535 :=
      (Nat.mul_le_mul_right P (c.buffers_le le_rfl)).trans hoffset
    obtain ⟨c', os, hdecode, -, hhanded⟩ := run_fresh (c.package hcap hn hoff) (senderId_and_lt _)
      .cpp (c.areFrames hcap hn hoff htu hbuffer) m
    have hconfig : (⟨e.tu⟩ : Config) = Config.ofPayload P := by rw [htu, Config.ofPayload]
    rw [hconfig]
    exact ⟨c', os, hdecode, hhanded⟩

end Unit

/-- **The contract of `Push`**, for every buffer, permitted or not: it is kept
if and only if the buffer has exactly `tu` bytes, or the message asks for no
buffer. -/
theorem push_contract_iff {e : TxEncoderCore} (hlow : 5 ≤ e.tu.toNat) (hhigh : e.tu.toNat ≤ 4099)
    {n : ℕ} {buffer : List UInt8} (hbuffer : buffer.length = n + headerSize) (m : Serialized n) :
    Contract e.tu m (e.push m.calls true buffer).2.1 ↔
      buffer.length = e.tu.toNat ∨ m = none := by
  cases m with
  | none =>
      refine ⟨fun _ => Or.inr rfl, fun _ => ⟨by simp [push, Serialized.calls, TxStream.create,
        TxStream.finalize], by simp [push, Serialized.calls, TxStream.create, TxStream.finalize],
        fun _ _ c _ => ⟨c, [], rfl, rfl⟩⟩⟩
  | some c =>
      constructor
      · intro h
        obtain ⟨f, hf, hlen⟩ := c.exists_frame e hbuffer
        exact Or.inl (hlen.symm.trans (h.unit f hf))
      · rintro (hsame | hnone)
        · have htu : e.tu = UInt16.ofNat (n + headerSize) := by
            rw [← hbuffer, hsame, UInt16.ofNat_toNat]
          refine c.contract ?_ htu hbuffer
          unfold headerSize at hbuffer
          omega
        · cases hnone

/-- Three bytes in a buffer of one unit. -/
theorem push_contract_threeBytes :
    Contract (⟨1, 6, 9⟩ : TxEncoderCore).tu (some threeBytes)
        ((⟨1, 6, 9⟩ : TxEncoderCore).push (Serialized.calls (some threeBytes)) true
          (List.replicate 6 0)).2.1 ↔
      (List.replicate 6 (0 : UInt8)).length = (⟨1, 6, 9⟩ : TxEncoderCore).tu.toNat ∨
        some threeBytes = none :=
  push_contract_iff (by decide) (by decide) rfl (some threeBytes)

/-- One byte in a buffer of three. -/
def oneByte : Client 3 where
  full := []
  count := 2
  count_lt := by decide
  last := {
    writes := [(0, [5])]
    bytes := [5]
    inside := by decide
    length := rfl
    fills := by
      intro old hold
      obtain ⟨a, b, c, rfl⟩ := List.length_eq_three.mp hold
      rfl }

/-- A buffer of seven bytes for a unit of six: the observer is given seven. -/
theorem push_breaks_contract :
    ¬ ∀ (e : TxEncoderCore) (n : ℕ) (buffer : List UInt8) (m : Serialized n),
      5 ≤ e.tu.toNat → e.tu.toNat ≤ 4099 → buffer.length = n + headerSize →
      e.tu.toNat ≤ buffer.length → Contract e.tu m (e.push m.calls true buffer).2.1 := by
  intro h
  have hcontract := h ⟨1, 6, 9⟩ 3 (List.replicate 7 0) (some oneByte) (by decide) (by decide) rfl
    (by decide)
  obtain ⟨f, hf, hlen⟩ := oneByte.exists_frame ⟨1, 6, 9⟩
    (show (List.replicate 7 (0 : UInt8)).length = 3 + headerSize from rfl)
  exact absurd (hlen.symm.trans (hcontract.unit f hf)) (by decide)

end TxEncoderCore

end CustomData
