/-
CustomData/Package.lean

Packages as the senders cut them, and their frames on the wire.

`Message P` is a byte string a sender may send with slices of `P` bytes: not
empty, with slice numbers that fit 8 bits and offsets that fit 16 bits.  There
are two ways to cut it.  `mp_tx_stream_feed` and `mp_tx_stream_finalize` send
every full slice without eop and then one eop slice with the rest, which may
be empty; the C++ `TxStream` sets eop on the last slice, which may be full.

`Package P` covers both: `full` slices of `P` bytes, then one eop slice with
the remaining bytes, none to `P` of them.  Its fields carry what makes it
legal, so everything below is stated for packages and needs no side
conditions.

A frame of a package is any block of `P + 4` bytes that starts with the header
and the payload of one of its slices (`Package.IsFrame`); what fills the block
up is arbitrary.
-/
import CustomData.Rx
import Mathlib.Data.Finset.Card
import Mathlib.Data.Finset.Range
import Mathlib.Data.Finset.Dedup
import Mathlib.Tactic.Linarith

namespace CustomData

/-- A byte string in the range a sender can frame with `P`-byte slices. -/
structure Message (P : ℕ) where
  data : List UInt8
  capacity_pos : 1 ≤ P
  capacity_le : P ≤ 4095
  nonempty : data ≠ []
  serial_le : data.length / P ≤ 255
  offset_le : (data.length / P + 1) * P ≤ 65535

/-- Whether a sender can frame `data` with `P`-byte slices. -/
def Message.fits (P : ℕ) (data : List UInt8) : Bool :=
  decide (1 ≤ P ∧ P ≤ 4095 ∧ data ≠ [] ∧ data.length / P ≤ 255 ∧
    (data.length / P + 1) * P ≤ 65535)

/-- The message of bytes in range, which `fits` evaluates. -/
def Message.ofBytes (P : ℕ) (data : List UInt8) (h : Message.fits P data = true) : Message P where
  data := data
  capacity_pos := (of_decide_eq_true h).1
  capacity_le := (of_decide_eq_true h).2.1
  nonempty := (of_decide_eq_true h).2.2.1
  serial_le := (of_decide_eq_true h).2.2.2.1
  offset_le := (of_decide_eq_true h).2.2.2.2

theorem sender_one_lt : (1 : UInt8).toNat < 8 := by decide

/-- A package: `full` slices of `P` bytes without eop, then one eop slice with
the rest of the data. -/
structure Package (P : ℕ) where
  data : List UInt8
  full : ℕ
  capacity_le : P ≤ 4095
  full_le : full ≤ 255
  offset_le : (full + 1) * P ≤ 65535
  nonempty : 0 < data.length
  lower : full * P ≤ data.length
  upper : data.length ≤ (full + 1) * P

variable {P : ℕ}

/-! ### The two framings -/

/-- As `mp_tx_stream_feed` and `mp_tx_stream_finalize` cut a message. -/
def Message.stream (m : Message P) : Package P where
  data := m.data
  full := m.data.length / P
  capacity_le := m.capacity_le
  full_le := m.serial_le
  offset_le := m.offset_le
  nonempty := List.length_pos_iff.mpr m.nonempty
  lower := Nat.div_mul_le_self _ _
  upper := by
    have := Nat.lt_div_mul_add (a := m.data.length) m.capacity_pos
    linarith [Nat.add_one_mul (m.data.length / P) P]

/-- As the C++ `TxStream` cuts a message: the last slice is never empty. -/
def Message.zeroCopy (m : Message P) : Package P where
  data := m.data
  full := (m.data.length - 1) / P
  capacity_le := m.capacity_le
  full_le := (Nat.div_le_div_right (Nat.sub_le _ 1)).trans m.serial_le
  offset_le := by
    refine le_trans (Nat.mul_le_mul_right P ?_) m.offset_le
    exact Nat.add_le_add_right (Nat.div_le_div_right (Nat.sub_le _ 1)) 1
  nonempty := List.length_pos_iff.mpr m.nonempty
  lower := (Nat.div_mul_le_self _ _).trans (Nat.sub_le _ 1)
  upper := by
    have hpos := List.length_pos_iff.mpr m.nonempty
    have := Nat.lt_div_mul_add (a := m.data.length - 1) m.capacity_pos
    have := Nat.add_one_mul ((m.data.length - 1) / P) P
    omega

/-- The two senders. -/
inductive Framing
  | stream | zeroCopy
  deriving DecidableEq, Repr

/-- The package a sender makes of a message. -/
def Message.cut (m : Message P) : Framing → Package P
  | .stream => m.stream
  | .zeroCopy => m.zeroCopy

@[simp] theorem Message.cut_data (m : Message P) (fr : Framing) : (m.cut fr).data = m.data := by
  cases fr <;> rfl

namespace Package

variable (p : Package P)

/-! ### Slices -/

/-- Payload size of slice `i`. -/
def size (i : ℕ) : ℕ := min P (p.data.length - i * P)

/-- Payload of slice `i`. -/
def payload (i : ℕ) : List UInt8 := (p.data.drop (i * P)).take P

/-- Slice `i` counts as received data: every slice but an empty eop slice. -/
def Counted (i : ℕ) : Prop := i < p.full ∨ 0 < p.size i

instance (i : ℕ) : Decidable (p.Counted i) := by
  unfold Counted; infer_instance

/-- Header of slice `i`. -/
def header (sender serial : UInt8) (i : ℕ) : HeaderMeta where
  packageSerial := serial
  sliceSerial := UInt8.ofNat i
  senderId := sender
  eop := if i = p.full then 1 else 0
  slicePayloadSize := UInt16.ofNat (p.size i)

include p in
theorem capacity_pos : 0 < P := by
  rcases Nat.eq_zero_or_pos P with rfl | h
  · have := p.nonempty; have := p.upper; omega
  · exact h

theorem length_le : p.data.length ≤ 65535 := p.upper.trans p.offset_le

@[simp] theorem length_payload (i : ℕ) : (p.payload i).length = p.size i := by
  simp [payload, size]

theorem size_le (i : ℕ) : p.size i ≤ P := Nat.min_le_left _ _

/-- A slice before the last one ends inside the data. -/
theorem slice_end_le {i : ℕ} (h : i < p.full) : i * P + P ≤ p.data.length := by
  have hmul : (i + 1) * P ≤ p.full * P := Nat.mul_le_mul_right P h
  have := p.lower
  linarith [Nat.add_one_mul i P]

theorem size_of_lt {i : ℕ} (h : i < p.full) : p.size i = P := by
  have := p.slice_end_le h
  simp only [size]; omega

theorem size_full : p.full * P + p.size p.full = p.data.length := by
  have hl := p.lower
  have hu := p.upper
  have := Nat.add_one_mul p.full P
  simp only [size]; omega

/-- A slice ends inside the data. -/
theorem offset_add_size_le {i : ℕ} (h : i ≤ p.full) : i * P + p.size i ≤ p.data.length := by
  rcases h.lt_or_eq with hlt | rfl
  · rw [p.size_of_lt hlt]
    exact p.slice_end_le hlt
  · exact p.size_full.le

theorem offset_le_of_le {i : ℕ} (h : i ≤ p.full) : i * P ≤ p.data.length :=
  (Nat.le_add_right _ _).trans (p.offset_add_size_le h)

/-- Every byte of the data lies in a slice. -/
theorem div_le_full {j : ℕ} (h : j < p.data.length) : j / P ≤ p.full := by
  have hlt : j < (p.full + 1) * P := h.trans_le p.upper
  exact Nat.lt_succ_iff.mp (Nat.div_lt_of_lt_mul (by rwa [Nat.mul_comm]))

theorem counted_of_lt {i : ℕ} (h : i < p.full) : p.Counted i := Or.inl h

/-! ### The number of counted slices -/

/-- How many slices count as received data. -/
def need : ℕ := ((Finset.range (p.full + 1)).filter p.Counted).card

theorem need_of_counted (h : p.Counted p.full) : p.need = p.full + 1 := by
  have hall : (Finset.range (p.full + 1)).filter p.Counted = Finset.range (p.full + 1) := by
    apply Finset.filter_true_of_mem
    intro i hi
    rcases (Nat.lt_succ_iff.mp (Finset.mem_range.mp hi)).lt_or_eq with hlt | rfl
    · exact p.counted_of_lt hlt
    · exact h
  rw [need, hall, Finset.card_range]

theorem need_of_not_counted (h : ¬ p.Counted p.full) : p.need = p.full := by
  have hall : (Finset.range (p.full + 1)).filter p.Counted = Finset.range p.full := by
    ext i
    simp only [Finset.mem_filter, Finset.mem_range]
    constructor
    · rintro ⟨hi, hc⟩
      rcases (Nat.lt_succ_iff.mp hi).lt_or_eq with hlt | rfl
      · exact hlt
      · exact absurd hc h
    · intro hi
      exact ⟨by omega, p.counted_of_lt hi⟩
  rw [need, hall, Finset.card_range]

/-- The counted slices are as many as the data needs. -/
theorem need_eq : p.need = (p.data.length + P - 1) / P := by
  have hP := p.capacity_pos
  have hsz := p.size_full
  have hle := p.size_le p.full
  have hfull := Nat.add_one_mul p.full P
  by_cases h : p.Counted p.full
  · rw [p.need_of_counted h]
    have hpos : 0 < p.size p.full := h.resolve_left (lt_irrefl _)
    refine (Nat.div_eq_of_lt_le ?_ ?_).symm
    · omega
    · have := Nat.add_one_mul (p.full + 1) P
      omega
  · rw [p.need_of_not_counted h]
    have hzero : p.size p.full = 0 := by
      by_contra hne
      exact h (Or.inr (Nat.pos_of_ne_zero hne))
    refine (Nat.div_eq_of_lt_le ?_ ?_).symm <;> omega

theorem need_le : p.need ≤ 256 := by
  have := p.full_le
  by_cases h : p.Counted p.full
  · rw [p.need_of_counted h]; omega
  · rw [p.need_of_not_counted h]; omega

/-! ### Frames on the wire -/

/-- Coordinate of slice `i`. -/
def coord (_p : Package P) (sender serial : UInt8) (i : ℕ) : Coordinate :=
  ⟨sender, serial, UInt16.ofNat (i * P)⟩

/-- `f` is a frame of slice `i`: header, payload, and anything up to the size
of a transmission unit. -/
structure IsFrame (sender serial : UInt8) (i : ℕ) (f : List UInt8) : Prop where
  slice_le : i ≤ p.full
  length : f.length = P + headerSize
  starts : packedHeaderToArray (headerPack (p.header sender serial i)) ++ p.payload i <+: f

/-- The frame of slice `i`, filled up with zeros. -/
def frame (sender serial : UInt8) (i : ℕ) : List UInt8 :=
  packedHeaderToArray (headerPack (p.header sender serial i)) ++ p.payload i ++
    List.replicate (P - p.size i) 0

theorem isFrame_frame (sender serial : UInt8) {i : ℕ} (hi : i ≤ p.full) :
    p.IsFrame sender serial i (p.frame sender serial i) where
  slice_le := hi
  length := by
    have := p.size_le i
    simp only [frame, List.length_append, packedHeaderToArray_length, p.length_payload,
      List.length_replicate]
    omega
  starts := List.prefix_append _ _

variable {p} {sender serial : UInt8} {i : ℕ} {f : List UInt8}

theorem header_fits (hs : sender.toNat < 8) : (p.header sender serial i).Fits := by
  refine ⟨hs, ?_, ?_⟩
  · simp only [header]
    split <;> decide
  · have := p.size_le i
    have := p.capacity_le
    simp only [header, UInt16.toNat_ofNat']
    omega

/-- A receiver reads the header the sender wrote. -/
theorem IsFrame.headerUnpack_eq (hf : p.IsFrame sender serial i f) (hs : sender.toNat < 8) :
    headerUnpack (arrayToPackedHeader f) = p.header sender serial i := by
  obtain ⟨pad, rfl⟩ := hf.starts
  rw [List.append_assoc, headerUnpack_wire (header_fits hs)]

/-- The bytes behind the header start with the payload. -/
theorem IsFrame.take_drop_eq (hf : p.IsFrame sender serial i f) :
    (f.drop headerSize).take (p.size i) = p.payload i := by
  obtain ⟨pad, rfl⟩ := hf.starts
  rw [List.append_assoc, List.drop_left' (packedHeaderToArray_length _),
    List.take_left' (p.length_payload i)]

/-- The frames of a sequence of slices. -/
abbrev AreFrames (p : Package P) (sender serial : UInt8) (order : List ℕ)
    (frames : List (List UInt8)) : Prop :=
  List.Forall₂ (p.IsFrame sender serial) order frames

theorem AreFrames.toFinset_subset {order : List ℕ} {frames : List (List UInt8)}
    (h : p.AreFrames sender serial order frames) :
    order.toFinset ⊆ Finset.range (p.full + 1) := by
  induction h with
  | nil => simp
  | cons hf _ ih =>
      rw [List.toFinset_cons]
      exact Finset.insert_subset (Finset.mem_range.mpr (Nat.lt_succ_iff.mpr hf.slice_le)) ih

theorem AreFrames.exists_of_mem {order : List ℕ} {frames : List (List UInt8)}
    (h : p.AreFrames sender serial order frames) :
    ∀ f ∈ frames, ∃ i, p.IsFrame sender serial i f := by
  induction h with
  | nil => simp
  | cons hf _ ih => exact List.forall_mem_cons.mpr ⟨⟨_, hf⟩, ih⟩

include p in
theorem maxPayload_config : (maxPayload (Config.ofPayload P)).toNat = P := by
  exact maxPayload_ofPayload p.capacity_le

/-- The coordinate a receiver rebuilds from the header. -/
theorem IsFrame.coordinate_eq (hf : p.IsFrame sender serial i f) :
    rxHeaderToCoordinate (Config.ofPayload P) (p.header sender serial i) =
      p.coord sender serial i := by
  have hi := hf.slice_le
  have hfull := p.full_le
  have hoff : sliceIdxToOffset (UInt8.ofNat i) (maxPayload (Config.ofPayload P)) =
      UInt16.ofNat (i * P) := by
    apply UInt16.toNat_inj.mp
    rw [sliceIdxToOffset_toNat, p.maxPayload_config, UInt8.toNat_ofNat', UInt16.toNat_ofNat',
      Nat.mod_eq_of_lt (show i < 2 ^ 8 by omega)]
  simp only [rxHeaderToCoordinate, header, coord, hoff]

theorem coord_offset_toNat (p : Package P) (hi : i ≤ p.full) :
    (p.coord sender serial i).offset.toNat = i * P := by
  have h₁ := p.offset_le_of_le hi
  have h₂ := p.length_le
  simp only [coord, UInt16.toNat_ofNat']
  omega

theorem header_size_toNat :
    (p.header sender serial i).slicePayloadSize.toNat = p.size i := by
  have := p.size_le i
  have := p.capacity_le
  simp only [header, UInt16.toNat_ofNat']
  omega

theorem header_eop : ((p.header sender serial i).eop != 0) = decide (i = p.full) := by
  by_cases h : i = p.full <;> simp [header, h]

end Package

/-- The eop slice of a stream carries the rest of the message. -/
theorem Message.stream_size_full (m : Message P) :
    m.stream.size m.stream.full = m.data.length % P := by
  have hsz := m.stream.size_full
  have hdiv := Nat.div_add_mod m.data.length P
  have hcomm := Nat.mul_comm (m.data.length / P) P
  have hfull : m.stream.full = m.data.length / P := rfl
  have hdata : m.stream.data = m.data := rfl
  rw [hdata] at hsz
  rw [hfull] at hsz ⊢
  omega

end CustomData
