/-
CustomData/Tx.lean

The pure operators of the senders (`customdata-tx.h`): every slice of a package
is described by its header, and the coordinate moves on by one full slice,
whatever the payload was.

A run of `mp_tx_prepare` calls is meant to number its slices one by one.  It
does as long as the 16-bit offset has not wrapped, and from the wrap on the
numbers start again at `0` (`prepares_numbered_iff`): at `P = 296` that is
slice 222.
-/
import CustomData.Package

namespace CustomData

/-- `mp_tx_slice_t` -/
structure TxSlice where
  header : HeaderMeta
  next : Coordinate
  deriving DecidableEq, Repr

/-- `mp_tx_advance` -/
def txAdvance (config : Config) (current : Coordinate) : Coordinate where
  senderId := current.senderId
  packageId := current.packageId
  offset := current.offset + maxPayload config

/-- `mp_tx_make_header` -/
def txMakeHeader (config : Config) (current : Coordinate) (payloadSize : UInt16) (eop : Bool) :
    HeaderMeta where
  packageSerial := current.packageId
  sliceSerial := offsetToSliceIdx current.offset (maxPayload config)
  senderId := current.senderId &&& 0x7
  eop := if eop then 1 else 0
  slicePayloadSize := payloadSize

/-- `mp_tx_prepare` -/
def txPrepare (config : Config) (current : Coordinate) (payloadSize : UInt16) (isFinal : Bool) :
    TxSlice where
  header := txMakeHeader config current payloadSize isFinal
  next := txAdvance config current

/-! ### The coordinates of a package -/

/-- The coordinate of slice `i` of the package that starts at `start`. -/
def Coordinate.slice (start : Coordinate) (P i : ℕ) : Coordinate :=
  { start with offset := UInt16.ofNat (i * P) }

variable {P : ℕ} {start : Coordinate} {i : ℕ}

theorem txAdvance_slice (hP : P ≤ 4095) :
    txAdvance (Config.ofPayload P) (start.slice P i) = start.slice P (i + 1) := by
  have hmax : maxPayload (Config.ofPayload P) = UInt16.ofNat P := by
    apply UInt16.toNat_inj.mp
    rw [maxPayload_ofPayload hP, UInt16.toNat_ofNat']
    omega
  simp only [txAdvance, Coordinate.slice, hmax, Nat.add_one_mul, UInt16.ofNat_add]

/-- The header of a slice, with its number and the low bits of the sender. -/
theorem txMakeHeader_slice (hP : 0 < P) (hoff : i * P ≤ 65535) (hcap : P ≤ 4095)
    (size : UInt16) (eop : Bool) :
    txMakeHeader (Config.ofPayload P) (start.slice P i) size eop =
      ⟨start.packageId, UInt8.ofNat i, start.senderId &&& 0x7, if eop then 1 else 0, size⟩ := by
  have hidx : offsetToSliceIdx (UInt16.ofNat (i * P)) (maxPayload (Config.ofPayload P)) =
      UInt8.ofNat i := by
    apply UInt8.toNat_inj.mp
    rw [offsetToSliceIdx_toNat, maxPayload_ofPayload hcap, UInt16.toNat_ofNat', UInt8.toNat_ofNat',
      Nat.mod_eq_of_lt (by omega : i * P < 2 ^ 16), Nat.mul_div_cancel _ hP]
  simp only [txMakeHeader, Coordinate.slice, hidx]

/-- A sender id is cut to the three bits that travel. -/
theorem senderId_and_lt (s : UInt8) : (s &&& 0x7).toNat < 8 := by
  have h : (s &&& 0x7).toNat = s.toNat % 8 := by
    rw [UInt8.toNat_and]
    exact Nat.and_two_pow_sub_one_eq_mod _ 3
  omega

/-! ### Runs of prepared slices -/

/-- Calls of `mp_tx_prepare`, each on the coordinate the last one returned. -/
def prepares (config : Config) : Coordinate → List (UInt16 × Bool) → List TxSlice
  | _, [] => []
  | current, (payloadSize, isFinal) :: calls =>
      let slice := txPrepare config current payloadSize isFinal
      slice :: prepares config slice.next calls

/-- The header carries the number `k` and the identity of the run. -/
structure TxSlice.Numbered (slice : TxSlice) (start : Coordinate) (k : ℕ) : Prop where
  sliceSerial : slice.header.sliceSerial.toNat = k
  packageSerial : slice.header.packageSerial = start.packageId
  senderId : slice.header.senderId = start.senderId &&& 0x7

/-- Call `k` of a run is made on the coordinate of slice `k`. -/
theorem prepares_slice (hP : P ≤ 4095) (calls : List (UInt16 × Bool)) :
    prepares (Config.ofPayload P) (start.slice P i) calls =
      calls.mapIdx fun k call =>
        txPrepare (Config.ofPayload P) (start.slice P (i + k)) call.1 call.2 := by
  induction calls generalizing i with
  | nil => rfl
  | cons call calls ih =>
      rw [List.mapIdx_cons, prepares]
      have hnext : (txPrepare (Config.ofPayload P) (start.slice P i) call.1 call.2).next =
          start.slice P (i + 1) := txAdvance_slice hP
      simp only [hnext, ih, Nat.add_zero, Nat.add_assoc, Nat.add_comm 1]

/-- The number in the header of slice `k`. -/
theorem txPrepare_slice_toNat (hP : P ≤ 4095) (k : ℕ) (size : UInt16) (eop : Bool) :
    (txPrepare (Config.ofPayload P) (start.slice P k) size eop).header.sliceSerial.toNat =
      k * P % 2 ^ 16 / P % 2 ^ 8 := by
  show (offsetToSliceIdx (UInt16.ofNat (k * P)) (maxPayload (Config.ofPayload P))).toNat = _
  rw [offsetToSliceIdx_toNat, maxPayload_ofPayload hP, UInt16.toNat_ofNat']

/-- The number is right until the offset wraps, and never again up to the
last serial. -/
theorem serial_eq_iff (hP : 0 < P) {k : ℕ} (hk : k ≤ 255) :
    k * P % 2 ^ 16 / P % 2 ^ 8 = k ↔ k * P ≤ 65535 := by
  constructor
  · -- a wrapped offset names a smaller slice
    intro heq
    by_contra hwrap
    have hlt : k * P % 2 ^ 16 / P < k :=
      Nat.div_lt_of_lt_mul (by rw [Nat.mul_comm P]; omega)
    rw [Nat.mod_eq_of_lt (by omega)] at heq
    omega
  · intro hle
    rw [Nat.mod_eq_of_lt (by omega : k * P < 2 ^ 16), Nat.mul_div_cancel _ hP]
    exact Nat.mod_eq_of_lt (by omega)

/-- The first slice behind the wrap has the number of the first slice. -/
theorem exists_serial_eq_zero (hP : 0 < P) (hcap : P ≤ 4095) {k : ℕ} (hwrap : 65535 < k * P) :
    ∃ j, 0 < j ∧ j ≤ k ∧ j * P % 2 ^ 16 / P % 2 ^ 8 = 0 := by
  have hdiv := Nat.div_add_mod' 65535 P
  have hmod := Nat.mod_lt 65535 hP
  have hnext := Nat.add_one_mul (65535 / P) P
  refine ⟨65535 / P + 1, Nat.succ_pos _, ?_, ?_⟩
  · exact (Nat.div_lt_iff_lt_mul hP).mpr hwrap
  · have hlt : (65535 / P + 1) * P % 2 ^ 16 < P := by omega
    rw [Nat.div_eq_of_lt hlt]
    rfl

theorem prepares_length (config : Config) (current : Coordinate)
    (calls : List (UInt16 × Bool)) : (prepares config current calls).length = calls.length := by
  induction calls generalizing current with
  | nil => rfl
  | cons call calls ih => rw [prepares, List.length_cons, List.length_cons, ih]

theorem prepares_getElem (hP : P ≤ 4095) (hstart : start.offset = 0)
    {calls : List (UInt16 × Bool)} {k : ℕ}
    (hk : k < (prepares (Config.ofPayload P) start calls).length) :
    ∃ size eop, (prepares (Config.ofPayload P) start calls)[k] =
      txPrepare (Config.ofPayload P) (start.slice P k) size eop := by
  have hzero : start.slice P 0 = start := by
    show { start with offset := UInt16.ofNat (0 * P) } = start
    rw [Nat.zero_mul, show UInt16.ofNat 0 = start.offset from hstart.symm]
  have h := @prepares_slice P start 0 hP calls
  rw [hzero] at h
  simp only [h, List.getElem_mapIdx, Nat.zero_add]
  exact ⟨_, _, rfl⟩

/-- The number in the header of call `k`; the identity is never lost. -/
theorem prepares_getElem_numbered (hP : P ≤ 4095) (hstart : start.offset = 0)
    {calls : List (UInt16 × Bool)} {k : ℕ}
    (hk : k < (prepares (Config.ofPayload P) start calls).length) :
    (prepares (Config.ofPayload P) start calls)[k].Numbered start
      (k * P % 2 ^ 16 / P % 2 ^ 8) := by
  obtain ⟨size, eop, hslice⟩ := prepares_getElem hP hstart hk
  rw [hslice]
  exact ⟨txPrepare_slice_toNat hP k size eop, rfl, rfl⟩

/-- Call `k` is numbered `k` exactly if its offset has not wrapped. -/
theorem prepares_getElem_numbered_iff (hP : 1 ≤ P) (hcap : P ≤ 4095) (hstart : start.offset = 0)
    {calls : List (UInt16 × Bool)} (hlen : calls.length ≤ 256) {k : ℕ}
    (hk : k < (prepares (Config.ofPayload P) start calls).length) :
    (prepares (Config.ofPayload P) start calls)[k].Numbered start k ↔ k * P ≤ 65535 := by
  have hlength := prepares_length (Config.ofPayload P) start calls
  have h := prepares_getElem_numbered hcap hstart hk
  rw [← serial_eq_iff hP (by omega : k ≤ 255)]
  exact ⟨fun hnum => h.sliceSerial.symm.trans hnum.sliceSerial, fun heq => by rwa [heq] at h⟩

/-- Every call of a run is numbered if the last one is. -/
theorem prepares_all_numbered_iff (hP : 1 ≤ P) (hcap : P ≤ 4095) (hstart : start.offset = 0)
    {calls : List (UInt16 × Bool)} (hlen : calls.length ≤ 256) :
    (∀ k (hk : k < (prepares (Config.ofPayload P) start calls).length),
      (prepares (Config.ofPayload P) start calls)[k].Numbered start k) ↔
        (calls.length - 1) * P ≤ 65535 := by
  have hlength := prepares_length (Config.ofPayload P) start calls
  constructor
  · intro h
    rcases Nat.eq_zero_or_pos calls.length with hnil | hpos
    · rw [hnil]
      omega
    · have hlast : calls.length - 1 < (prepares (Config.ofPayload P) start calls).length := by
        omega
      exact (prepares_getElem_numbered_iff hP hcap hstart hlen hlast).mp (h _ hlast)
  · intro h k hk
    apply (prepares_getElem_numbered_iff hP hcap hstart hlen hk).mpr
    exact (Nat.mul_le_mul_right P (by omega)).trans h

/-- The serials of a run are distinct exactly if its last offset has not
wrapped. -/
theorem prepares_nodup_iff (hP : 1 ≤ P) (hcap : P ≤ 4095) (hstart : start.offset = 0)
    {calls : List (UInt16 × Bool)} (hlen : calls.length ≤ 256) :
    ((prepares (Config.ofPayload P) start calls).map fun s => s.header.sliceSerial).Nodup ↔
      (calls.length - 1) * P ≤ 65535 := by
  have hlength := prepares_length (Config.ofPayload P) start calls
  constructor
  · -- behind the wrap, number 0 is there again
    intro hnodup
    by_contra hwrap
    have hpos : calls.length ≠ 0 := by
      rintro h
      rw [h] at hwrap
      omega
    obtain ⟨j, hj0, hj, hzero⟩ := exists_serial_eq_zero hP hcap (not_le.mp hwrap)
    have h0lt : 0 < (prepares (Config.ofPayload P) start calls).length := by omega
    have hjlt : j < (prepares (Config.ofPayload P) start calls).length := by omega
    have hsame : (prepares (Config.ofPayload P) start calls)[0].header.sliceSerial =
        (prepares (Config.ofPayload P) start calls)[j].header.sliceSerial := by
      apply UInt8.toNat_inj.mp
      rw [(prepares_getElem_numbered hcap hstart hjlt).sliceSerial, hzero,
        (prepares_getElem_numbered hcap hstart h0lt).sliceSerial, Nat.zero_mul]
      simp
    refine absurd (List.nodup_iff_getElem?_ne_getElem?.mp hnodup 0 j hj0 (by simpa using hjlt)) ?_
    simp [hsame, hjlt, h0lt]
  · -- numbered slices have the serials `0, 1, 2, …`
    intro h
    have hnum := (prepares_all_numbered_iff hP hcap hstart hlen).mpr h
    have hrange : ((prepares (Config.ofPayload P) start calls).map
        fun s => s.header.sliceSerial).map UInt8.toNat = List.range calls.length := by
      apply List.ext_getElem
      · simp [hlength]
      · intro k hk hk'
        rw [List.getElem_map, List.getElem_map, List.getElem_range]
        exact (hnum k (by simpa using hk)).sliceSerial
    exact List.Nodup.of_map _ (hrange ▸ List.nodup_range)

/-- **The numbering of a package.**  In a run of at most 256 calls, the header
of call `k` carries number `k` and the identity of the run exactly if `k * P`
fits the 16-bit offset.  So the whole run is numbered one by one exactly if
this holds for the last call, and otherwise the serials are not even distinct. -/
theorem prepares_numbered_iff (hP : 1 ≤ P) (hcap : P ≤ 4095) (hstart : start.offset = 0)
    {calls : List (UInt16 × Bool)} (hlen : calls.length ≤ 256) :
    (prepares (Config.ofPayload P) start calls).length = calls.length ∧
      (∀ k (hk : k < (prepares (Config.ofPayload P) start calls).length),
        (prepares (Config.ofPayload P) start calls)[k].Numbered start k ↔ k * P ≤ 65535) ∧
      ((∀ k (hk : k < (prepares (Config.ofPayload P) start calls).length),
        (prepares (Config.ofPayload P) start calls)[k].Numbered start k) ↔
          (calls.length - 1) * P ≤ 65535) ∧
      (((prepares (Config.ofPayload P) start calls).map fun s => s.header.sliceSerial).Nodup ↔
        (calls.length - 1) * P ≤ 65535) :=
  ⟨prepares_length _ _ _, fun _ hk => prepares_getElem_numbered_iff hP hcap hstart hlen hk,
    prepares_all_numbered_iff hP hcap hstart hlen, prepares_nodup_iff hP hcap hstart hlen⟩

/-- Three slices of two bytes. -/
theorem prepares_numbered_iff_three :
    let calls : List (UInt16 × Bool) := [(2, false), (2, false), (1, true)]
    (prepares (Config.ofPayload 2) ⟨3, 9, 0⟩ calls).length = calls.length ∧
      (∀ k (hk : k < (prepares (Config.ofPayload 2) ⟨3, 9, 0⟩ calls).length),
        (prepares (Config.ofPayload 2) ⟨3, 9, 0⟩ calls)[k].Numbered ⟨3, 9, 0⟩ k ↔
          k * 2 ≤ 65535) ∧
      ((∀ k (hk : k < (prepares (Config.ofPayload 2) ⟨3, 9, 0⟩ calls).length),
        (prepares (Config.ofPayload 2) ⟨3, 9, 0⟩ calls)[k].Numbered ⟨3, 9, 0⟩ k) ↔
          (calls.length - 1) * 2 ≤ 65535) ∧
      (((prepares (Config.ofPayload 2) ⟨3, 9, 0⟩ calls).map
        fun s => s.header.sliceSerial).Nodup ↔ (calls.length - 1) * 2 ≤ 65535) :=
  prepares_numbered_iff (by decide) (by decide) rfl (by decide)

/-- At the production unit of 300 bytes, slice 222 is not numbered 222. -/
theorem prepares_not_numbered :
    ¬ ∀ (P : ℕ) (start : Coordinate) (calls : List (UInt16 × Bool)), 1 ≤ P → P ≤ 4095 →
      start.offset = 0 → calls.length ≤ 256 →
      ∀ k (hk : k < (prepares (Config.ofPayload P) start calls).length),
        (prepares (Config.ofPayload P) start calls)[k].Numbered start k := by
  intro h
  have hlt : 222 < (prepares (Config.ofPayload 296) ⟨0, 0, 0⟩
      (List.replicate 223 (296, false))).length := by
    rw [prepares_length, List.length_replicate]
    omega
  have hnum := h 296 ⟨0, 0, 0⟩ (List.replicate 223 (296, false)) (by decide) (by decide) rfl
    (by rw [List.length_replicate]; omega) 222 hlt
  rw [prepares_getElem_numbered_iff (by decide) (by decide) rfl
    (by rw [List.length_replicate]; omega)] at hnum
  omega

end CustomData
