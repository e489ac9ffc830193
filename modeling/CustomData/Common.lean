/-
CustomData/Common.lean

The data models and pure operators that sender and receiver share
(`customdata-common.h`): configuration, coordinates, the wire header with its
packed form and its byte form, and the two conversions between a slice index
and an offset inside a package.

Machine integers are Lean's fixed-width types, so every cast of the source is
a cast here.  Beside each operator stands its value as a natural number; the
later modules reason with those values only.

The header codec is what the receivers rely on: the bytes a sender writes for
a header whose fields fit their bits are read back as that header
(`headerUnpack_wire`), and no bytes are read as anything else
(`headerCodec_bijection`).
-/
import Mathlib.Data.List.Basic
import Mathlib.Data.Nat.Bitwise
import Mathlib.Tactic.Ring

namespace CustomData

/-! ### Data models -/

/-- `mp_config_t` -/
structure Config where
  transmissionUnit : UInt16
  deriving DecidableEq, Repr

/-- `mp_coordinate_t`: where a byte of a package lives. -/
structure Coordinate where
  senderId : UInt8
  packageId : UInt8
  offset : UInt16
  deriving DecidableEq, Repr

/-- `mp_header_meta_t`: the wire header after parsing.  Only 3 bits of
`senderId` and 12 bits of `slicePayloadSize` travel. -/
@[ext] structure HeaderMeta where
  packageSerial : UInt8
  sliceSerial : UInt8
  senderId : UInt8
  eop : UInt8
  slicePayloadSize : UInt16
  deriving DecidableEq, Repr

/-- `MP_HEADER_SIZE` -/
def headerSize : ℕ := 4

/-- `MP_PACKAGE_ID_MAX` -/
def packageIdMax : ℕ := 255

/-! ### Header codec -/

/-- `mp_header_pack` -/
def headerPack (m : HeaderMeta) : UInt32 :=
  (m.packageSerial.toUInt32 <<< 0) |||
  (m.sliceSerial.toUInt32 <<< 8) |||
  ((m.senderId &&& 0x07).toUInt32 <<< 16) |||
  ((if m.eop = 1 then (1 : UInt32) else 0) <<< 19) |||
  ((m.slicePayloadSize &&& 0x0fff).toUInt32 <<< 20)

/-- `mp_header_unpack` -/
def headerUnpack (packed : UInt32) : HeaderMeta where
  packageSerial := (packed &&& 0xff).toUInt8
  sliceSerial := ((packed >>> 8) &&& 0xff).toUInt8
  senderId := ((packed >>> 16) &&& 0x07).toUInt8
  eop := ((packed >>> 19) &&& 0x01).toUInt8
  slicePayloadSize := ((packed >>> 20) &&& 0x0fff).toUInt16

/-- `MP_PACKED_HEADER_TO_ARRAY`: little-endian bytes. -/
def packedHeaderToArray (packed : UInt32) : List UInt8 :=
  [(packed >>> 0).toUInt8, (packed >>> 8).toUInt8, (packed >>> 16).toUInt8,
    (packed >>> 24).toUInt8]

/-- `MP_ARRAY_TO_PACKED_HEADER`: reads the first four bytes. -/
def arrayToPackedHeader (arr : List UInt8) : UInt32 :=
  ((arr.getD 0 0).toUInt32 <<< 0) |||
  ((arr.getD 1 0).toUInt32 <<< 8) |||
  ((arr.getD 2 0).toUInt32 <<< 16) |||
  ((arr.getD 3 0).toUInt32 <<< 24)

@[simp] theorem packedHeaderToArray_length (packed : UInt32) :
    (packedHeaderToArray packed).length = headerSize := rfl

/-- The fields fit the bits they travel in. -/
structure HeaderMeta.Fits (m : HeaderMeta) : Prop where
  senderId : m.senderId.toNat < 8
  eop : m.eop.toNat < 2
  slicePayloadSize : m.slicePayloadSize.toNat < 4096

/-- Two bit fields of a 32-bit word that do not overlap add up. -/
theorem or_shiftLeft_eq_add {a b k : ℕ} (ha : a < 2 ^ k) (hb : b * 2 ^ k < 2 ^ 32) :
    a ||| b <<< k % 2 ^ 32 = a + b * 2 ^ k := by
  rw [Nat.shiftLeft_eq, Nat.mod_eq_of_lt hb, Nat.mul_comm b, Nat.or_comm,
    ← Nat.two_pow_add_eq_or_of_lt ha]
  exact Nat.add_comm _ _

/-- The packed word as a number: five digits in a mixed radix. -/
theorem headerPack_toNat (m : HeaderMeta) :
    (headerPack m).toNat = m.packageSerial.toNat + m.sliceSerial.toNat * 2 ^ 8
      + m.senderId.toNat % 8 * 2 ^ 16 + (if m.eop = 1 then 1 else 0) * 2 ^ 19
      + m.slicePayloadSize.toNat % 4096 * 2 ^ 20 := by
  have hp := m.packageSerial.toNat_lt
  have hs := m.sliceSerial.toNat_lt
  have hid : (m.senderId &&& 0x07).toNat = m.senderId.toNat % 8 := by
    rw [UInt8.toNat_and]; exact Nat.and_two_pow_sub_one_eq_mod _ 3
  have hsz : (m.slicePayloadSize &&& 0x0fff).toNat = m.slicePayloadSize.toNat % 4096 := by
    rw [UInt16.toNat_and]; exact Nat.and_two_pow_sub_one_eq_mod _ 12
  have heop : (if m.eop = 1 then (1 : UInt32) else 0).toNat = if m.eop = 1 then 1 else 0 := by
    split <;> rfl
  have he : (if m.eop = 1 then 1 else 0) ≤ 1 := by split <;> omega
  simp only [headerPack, UInt32.toNat_or, UInt32.toNat_shiftLeft, UInt8.toNat_toUInt32,
    UInt16.toNat_toUInt32, hid, hsz, heop, UInt32.reduceToNat, Nat.reduceMod, Nat.shiftLeft_zero]
  generalize (if m.eop = 1 then 1 else 0) = e at he
  -- every field stays below its neighbour, so each `|||` is a `+`, from the inside out
  rw [Nat.mod_eq_of_lt (show m.packageSerial.toNat < 2 ^ 32 by omega),
    or_shiftLeft_eq_add (k := 8) hp (by omega),
    or_shiftLeft_eq_add (b := m.senderId.toNat % 8) (by omega) (by omega),
    or_shiftLeft_eq_add (b := e) (by omega) (by omega),
    or_shiftLeft_eq_add (by omega) (by omega)]

/-- The word read from four bytes as a number, least significant byte first. -/
theorem arrayToPackedHeader_toNat (a b c d : UInt8) (rest : List UInt8) :
    (arrayToPackedHeader (a :: b :: c :: d :: rest)).toNat =
      a.toNat + b.toNat * 2 ^ 8 + c.toNat * 2 ^ 16 + d.toNat * 2 ^ 24 := by
  have ha := a.toNat_lt
  have hb := b.toNat_lt
  have hc := c.toNat_lt
  have hd := d.toNat_lt
  simp only [arrayToPackedHeader, List.getD_cons_zero, List.getD_cons_succ, UInt32.toNat_or,
    UInt32.toNat_shiftLeft, UInt8.toNat_toUInt32, UInt32.reduceToNat, Nat.reduceMod,
    Nat.shiftLeft_zero]
  rw [Nat.mod_eq_of_lt (show a.toNat < 2 ^ 32 by omega),
    or_shiftLeft_eq_add (k := 8) ha (by omega),
    or_shiftLeft_eq_add (b := c.toNat) (by omega) (by omega),
    or_shiftLeft_eq_add (by omega) (by omega)]

/-- Reading back the bytes of a packed word. -/
theorem arrayToPackedHeader_packedHeaderToArray (w : UInt32) (rest : List UInt8) :
    arrayToPackedHeader (packedHeaderToArray w ++ rest) = w := by
  have hw := w.toNat_lt
  apply UInt32.toNat_inj.mp
  simp only [packedHeaderToArray, List.cons_append, List.nil_append]
  rw [arrayToPackedHeader_toNat]
  simp only [UInt32.toNat_toUInt8, UInt32.toNat_shiftRight, UInt32.reduceToNat, Nat.reduceMod,
    Nat.shiftRight_eq_div_pow]
  omega

/-- The fields of an unpacked word as numbers. -/
theorem headerUnpack_toNat (w : UInt32) :
    (headerUnpack w).packageSerial.toNat = w.toNat % 2 ^ 8 ∧
      (headerUnpack w).sliceSerial.toNat = w.toNat / 2 ^ 8 % 2 ^ 8 ∧
      (headerUnpack w).senderId.toNat = w.toNat / 2 ^ 16 % 8 ∧
      (headerUnpack w).eop.toNat = w.toNat / 2 ^ 19 % 2 ∧
      (headerUnpack w).slicePayloadSize.toNat = w.toNat / 2 ^ 20 % 4096 := by
  have h8 : ∀ x : ℕ, x &&& 255 = x % 256 := fun x => Nat.and_two_pow_sub_one_eq_mod x 8
  have h3 : ∀ x : ℕ, x &&& 7 = x % 8 := fun x => Nat.and_two_pow_sub_one_eq_mod x 3
  have h1 : ∀ x : ℕ, x &&& 1 = x % 2 := fun x => Nat.and_two_pow_sub_one_eq_mod x 1
  have h12 : ∀ x : ℕ, x &&& 4095 = x % 4096 := fun x => Nat.and_two_pow_sub_one_eq_mod x 12
  refine ⟨?_, ?_, ?_, ?_, ?_⟩ <;>
    simp only [headerUnpack, UInt32.toNat_toUInt8, UInt32.toNat_toUInt16, UInt32.toNat_and,
      UInt32.toNat_shiftRight, UInt32.reduceToNat, Nat.reduceMod, Nat.shiftRight_eq_div_pow,
      h8, h3, h1, h12] <;>
    omega

/-- An unpacked header always fits. -/
theorem headerUnpack_fits (w : UInt32) : (headerUnpack w).Fits := by
  obtain ⟨-, -, hid, heop, hsz⟩ := headerUnpack_toNat w
  exact ⟨by omega, by omega, by omega⟩

/-- The part of a header that travels: every field is cut to its own bits. -/
def HeaderMeta.onWire (m : HeaderMeta) : HeaderMeta where
  packageSerial := m.packageSerial
  sliceSerial := m.sliceSerial
  senderId := m.senderId &&& 0x07
  eop := if m.eop = 1 then 1 else 0
  slicePayloadSize := m.slicePayloadSize &&& 0x0fff

/-- The test of `meta.eop` reads a flag of one bit as it is. -/
theorem HeaderMeta.Fits.eop_eq {m : HeaderMeta} (hm : m.Fits) :
    (if m.eop = 1 then 1 else 0) = m.eop.toNat := by
  have heop := hm.eop
  rcases (show m.eop.toNat = 0 ∨ m.eop.toNat = 1 by omega) with h | h
  · rw [if_neg (by rintro h'; simp [h'] at h), h]
  · rw [if_pos (UInt8.toNat_inj.mp h), h]

theorem HeaderMeta.onWire_toNat (m : HeaderMeta) :
    m.onWire.senderId.toNat = m.senderId.toNat % 8 ∧
      m.onWire.eop.toNat = (if m.eop = 1 then 1 else 0) ∧
      m.onWire.slicePayloadSize.toNat = m.slicePayloadSize.toNat % 4096 := by
  refine ⟨?_, ?_, ?_⟩
  · show (m.senderId &&& 0x07).toNat = _
    rw [UInt8.toNat_and]
    exact Nat.and_two_pow_sub_one_eq_mod _ 3
  · show (if m.eop = 1 then (1 : UInt8) else 0).toNat = _
    split <;> rfl
  · show (m.slicePayloadSize &&& 0x0fff).toNat = _
    rw [UInt16.toNat_and]
    exact Nat.and_two_pow_sub_one_eq_mod _ 12

theorem HeaderMeta.Fits.onWire_eq {m : HeaderMeta} (hm : m.Fits) : m.onWire = m := by
  obtain ⟨hid, heop, hsz⟩ := m.onWire_toNat
  apply HeaderMeta.ext
  · rfl
  · rfl
  · exact UInt8.toNat_inj.mp (hid.trans (Nat.mod_eq_of_lt hm.senderId))
  · exact UInt8.toNat_inj.mp (heop.trans hm.eop_eq)
  · exact UInt16.toNat_inj.mp (hsz.trans (Nat.mod_eq_of_lt hm.slicePayloadSize))

/-- What a receiver reads of a header, whatever its fields are: no field
reaches into the bits of another. -/
theorem headerUnpack_headerPack_eq_onWire (m : HeaderMeta) :
    headerUnpack (headerPack m) = m.onWire := by
  have hw := headerPack_toNat m
  have hp := m.packageSerial.toNat_lt
  have hs := m.sliceSerial.toNat_lt
  have he : (if m.eop = 1 then 1 else 0) ≤ 1 := by split <;> omega
  obtain ⟨hid, heop, hsz⟩ := m.onWire_toNat
  obtain ⟨h₁, h₂, h₃, h₄, h₅⟩ := headerUnpack_toNat (headerPack m)
  rw [← heop] at hw he
  rw [hw] at h₁ h₂ h₃ h₄ h₅
  apply HeaderMeta.ext
  · exact UInt8.toNat_inj.mp (show _ = m.packageSerial.toNat by omega)
  · exact UInt8.toNat_inj.mp (show _ = m.sliceSerial.toNat by omega)
  · exact UInt8.toNat_inj.mp (by omega)
  · exact UInt8.toNat_inj.mp (by omega)
  · exact UInt16.toNat_inj.mp (by omega)

/-- A header that fits survives the trip through its packed form. -/
theorem headerUnpack_headerPack {m : HeaderMeta} (hm : m.Fits) :
    headerUnpack (headerPack m) = m :=
  (headerUnpack_headerPack_eq_onWire m).trans hm.onWire_eq

/-- Every word is the packed form of the header it is read as. -/
theorem headerPack_headerUnpack (w : UInt32) : headerPack (headerUnpack w) = w := by
  have hlt := w.toNat_lt
  obtain ⟨h₁, h₂, h₃, h₄, h₅⟩ := headerUnpack_toNat w
  apply UInt32.toNat_inj.mp
  rw [headerPack_toNat, (headerUnpack_fits w).eop_eq, h₁, h₂, h₃, h₄, h₅]
  omega

/-- Every four bytes are the bytes of the word they are read as. -/
theorem packedHeaderToArray_arrayToPackedHeader {arr : List UInt8}
    (h : arr.length = headerSize) : packedHeaderToArray (arrayToPackedHeader arr) = arr := by
  obtain ⟨a, b, c, d, rfl⟩ := List.length_eq_four.mp h
  have ha := a.toNat_lt
  have hb := b.toNat_lt
  have hc := c.toNat_lt
  have hd := d.toNat_lt
  have hw := arrayToPackedHeader_toNat a b c d []
  simp only [packedHeaderToArray, List.cons.injEq, and_true, ← UInt8.toNat_inj,
    UInt32.toNat_toUInt8, UInt32.toNat_shiftRight, UInt32.reduceToNat, Nat.reduceMod,
    Nat.shiftRight_eq_div_pow, hw]
  omega

/-- **The header codec is a bijection** between words and the headers whose
fields fit, and between words and four bytes; a field that does not fit is cut
to its own bits and leaves the others alone. -/
theorem headerCodec_bijection :
    (∀ m : HeaderMeta, m.Fits → headerUnpack (headerPack m) = m) ∧
      (∀ w : UInt32, headerPack (headerUnpack w) = w) ∧
      (∀ w : UInt32, arrayToPackedHeader (packedHeaderToArray w) = w) ∧
      (∀ arr : List UInt8, arr.length = headerSize →
        packedHeaderToArray (arrayToPackedHeader arr) = arr) ∧
      ∀ m : HeaderMeta, headerUnpack (headerPack m) =
        { packageSerial := m.packageSerial
          sliceSerial := m.sliceSerial
          senderId := m.senderId &&& 0x07
          eop := if m.eop = 1 then 1 else 0
          slicePayloadSize := m.slicePayloadSize &&& 0x0fff } := by
  refine ⟨fun m hm => headerUnpack_headerPack hm, headerPack_headerUnpack, ?_,
    fun arr h => packedHeaderToArray_arrayToPackedHeader h, headerUnpack_headerPack_eq_onWire⟩
  intro w
  have h := arrayToPackedHeader_packedHeaderToArray w []
  rwa [List.append_nil] at h

/-- The last slice of a package, and the bytes its header travels as. -/
theorem headerCodec_bijection_eop :
    headerUnpack (headerPack ⟨7, 2, 3, 1, 100⟩) = ⟨7, 2, 3, 1, 100⟩ ∧
      packedHeaderToArray (arrayToPackedHeader [7, 2, 0x4b, 6]) = [7, 2, 0x4b, 6] :=
  ⟨headerCodec_bijection.1 _ ⟨by decide, by decide, by decide⟩,
    headerCodec_bijection.2.2.2.1 _ rfl⟩

/-- **The header codec.**  What a receiver reads from the front of a frame is
the header the sender wrote there. -/
theorem headerUnpack_wire {m : HeaderMeta} (hm : m.Fits) (rest : List UInt8) :
    headerUnpack (arrayToPackedHeader (packedHeaderToArray (headerPack m) ++ rest)) = m := by
  rw [arrayToPackedHeader_packedHeaderToArray, headerUnpack_headerPack hm]

/-! ### Derived operators -/

/-- `mp_max_payload`: the payload capacity of one slice. -/
def maxPayload (config : Config) : UInt16 := config.transmissionUnit - 4

/-- `mp_slice_idx_to_offset` -/
def sliceIdxToOffset (sliceIdx : UInt8) (maxPayload : UInt16) : UInt16 :=
  UInt16.ofNat (sliceIdx.toNat * maxPayload.toNat)

/-- `mp_offset_to_slice_idx` -/
def offsetToSliceIdx (offset maxPayload : UInt16) : UInt8 := (offset / maxPayload).toUInt8

theorem sliceIdxToOffset_toNat (i : UInt8) (P : UInt16) :
    (sliceIdxToOffset i P).toNat = i.toNat * P.toNat % 2 ^ 16 := by
  simp [sliceIdxToOffset]

theorem offsetToSliceIdx_toNat (o P : UInt16) :
    (offsetToSliceIdx o P).toNat = o.toNat / P.toNat % 2 ^ 8 := by
  simp [offsetToSliceIdx]

/-- The configuration whose slices carry `P` bytes. -/
def Config.ofPayload (P : ℕ) : Config := ⟨UInt16.ofNat (P + headerSize)⟩

/-- A header cannot carry sizes beyond `4095`. -/
theorem maxPayload_ofPayload {P : ℕ} (hP : P ≤ 4095) :
    (maxPayload (Config.ofPayload P)).toNat = P := by
  simp only [maxPayload, Config.ofPayload, headerSize, UInt16.toNat_sub, UInt16.toNat_ofNat',
    UInt16.reduceToNat]
  omega

end CustomData
