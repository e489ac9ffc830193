/-
CustomData/SlicePull.lean

The pull stream of the embedded decoder (`mp_pb_slice_pull_callback`).

nanopb reads a complete package through a callback that copies the requested
number of bytes slice by slice out of the user's payload store.  How a decoder
cuts its reads is not known here, so the stream is described by what it gives
for any of them: `pull.Offers data` says that reads of any sizes, as long as
they stay within the announced length, see the bytes of `data` in order.

`SlicePull.offers` reduces that to single bytes: byte `j` of the stream is
byte `j % P` of the slice at offset `j / P * P`.

Which bytes of the store a call touches is recorded beside what it returns:
`callbacks_package` says that calls on a complete package fill every buffer
and read no byte outside a slice.
-/
import CustomData.Common
import Mathlib.Tactic.Linarith

namespace CustomData

/-- `mp_pb_slice_pull_t`, with `payloadGet` for `coordinator->payload_get` on
the memory of the moment. -/
structure SlicePull where
  payloadGet : Coordinate → ℕ → UInt8
  baseCoord : Coordinate
  termination : UInt32
  maxPayload : UInt16
  consumed : UInt32

namespace SlicePull

/-! ### The callback -/

/-- One pass of the loop: what is copied out of the current slice when `count`
bytes are still to be read. -/
def copy (st : SlicePull) (count : ℕ) : List UInt8 × SlicePull :=
  let sliceIdx := offsetToSliceIdx st.consumed.toUInt16 st.maxPayload
  let sliceOff := sliceIdxToOffset sliceIdx st.maxPayload
  let src := st.payloadGet { st.baseCoord with offset := sliceOff }
  let posInSlice := st.consumed - sliceOff.toUInt32
  let avail := st.termination - st.consumed
  let chunk := st.maxPayload.toUInt32 - posInSlice
  let chunk := if chunk > avail then avail else chunk
  let take := if UInt32.ofNat count < chunk then UInt32.ofNat count else chunk
  ((List.range take.toNat).map fun k => src (posInSlice.toNat + k),
    { st with consumed := st.consumed + take })

/-- The `while (count > 0)` loop.  `none`: still running when the fuel is used
up. -/
def loop : ℕ → SlicePull → ℕ → Option (List UInt8 × SlicePull)
  | _, st, 0 => some ([], st)
  | 0, _, _ + 1 => none
  | fuel + 1, st, count + 1 =>
      let (bytes, st) := st.copy (count + 1)
      if st.consumed ≥ st.termination then some (bytes, st)
      else (loop fuel st (count + 1 - bytes.length)).map fun r => (bytes ++ r.1, r.2)

/-- `mp_pb_slice_pull_callback`; every pass copies a byte or ends the loop. -/
def pull (st : SlicePull) (count : ℕ) : Option (List UInt8 × SlicePull) := loop count st count

/-- Reads one after the other. -/
def pulls : SlicePull → List ℕ → Option (List UInt8)
  | _, [] => some []
  | st, count :: counts => do
      let (bytes, st) ← st.pull count
      let rest ← pulls st counts
      some (bytes ++ rest)

/-- The stream announces the length of `data`, and reads that stay within it
see `data`. -/
structure Offers (st : SlicePull) (data : List UInt8) : Prop where
  length : st.termination.toNat = data.length
  pulls : ∀ counts : List ℕ, counts.sum ≤ data.length →
    st.pulls counts = some (data.take counts.sum)

/-! ### What a call touches -/

/-- One `memcpy` of the callback: `count` bytes from byte `first` on of what
`payload_get` returns for `coordinate`. -/
structure Access where
  coordinate : Coordinate
  first : ℕ
  count : ℕ
  deriving DecidableEq

/-- The `memcpy` of one pass. -/
def access (st : SlicePull) (count : ℕ) : Access :=
  let sliceIdx := offsetToSliceIdx st.consumed.toUInt16 st.maxPayload
  let sliceOff := sliceIdxToOffset sliceIdx st.maxPayload
  let posInSlice := st.consumed - sliceOff.toUInt32
  let avail := st.termination - st.consumed
  let chunk := st.maxPayload.toUInt32 - posInSlice
  let chunk := if chunk > avail then avail else chunk
  let take := if UInt32.ofNat count < chunk then UInt32.ofNat count else chunk
  ⟨{ st.baseCoord with offset := sliceOff }, posInSlice.toNat, take.toNat⟩

/-- What a pass copies are the bytes it touches. -/
theorem copy_fst (st : SlicePull) (count : ℕ) :
    (st.copy count).1 = (List.range (st.access count).count).map fun k =>
      st.payloadGet (st.access count).coordinate ((st.access count).first + k) := rfl

/-- The `memcpy`s of the `while (count > 0)` loop. -/
def loopAccesses : ℕ → SlicePull → ℕ → List Access
  | _, _, 0 => []
  | 0, _, _ + 1 => []
  | fuel + 1, st, count + 1 =>
      let (bytes, next) := st.copy (count + 1)
      st.access (count + 1) ::
        if next.consumed ≥ next.termination then []
        else loopAccesses fuel next (count + 1 - bytes.length)

/-- What a call of `mp_pb_slice_pull_callback` returns and leaves in its
buffer, the bytes of the store it touches, and the stream after it. -/
structure Call where
  returned : Bool
  filled : List UInt8
  accesses : List Access
  next : SlicePull

/-- A call of `mp_pb_slice_pull_callback`, observed. -/
def callback (st : SlicePull) (count : ℕ) : Option Call :=
  (st.pull count).map fun r => ⟨true, r.1, loopAccesses count st count, r.2⟩

/-- Calls one after the other. -/
def callbacks : SlicePull → List ℕ → Option (List Call)
  | _, [] => some []
  | st, count :: counts => do
      let call ← st.callback count
      let rest ← callbacks call.next counts
      some (call :: rest)

/-- The bytes lie in one slice of the package and in front of its end. -/
def Access.Within (st : SlicePull) (r : Access) : Prop :=
  ∃ i : ℕ, r.coordinate =
      { st.baseCoord with offset := UInt16.ofNat (i * st.maxPayload.toNat) } ∧
    r.first + r.count ≤ st.maxPayload.toNat ∧
    i * st.maxPayload.toNat + r.first + r.count ≤ st.termination.toNat

/-! ### The bytes of the stream -/

/-- Byte `j` of the stream. -/
def byteAt (st : SlicePull) (j : ℕ) : UInt8 :=
  st.payloadGet { st.baseCoord with
    offset := UInt16.ofNat (j / st.maxPayload.toNat * st.maxPayload.toNat) }
    (j % st.maxPayload.toNat)

/-- The stream after `a` bytes. -/
def after (st : SlicePull) (a : ℕ) : SlicePull := { st with consumed := UInt32.ofNat a }

/-- A length and slice size for which no cast of the callback loses anything. -/
structure Fits (st : SlicePull) : Prop where
  maxPayload : 0 < st.maxPayload.toNat
  termination : st.termination.toNat ≤ 65535
  slices : st.termination.toNat ≤ 256 * st.maxPayload.toNat

variable {st : SlicePull} {a count fuel : ℕ}

/-- `n` bytes from `a` on lie in one slice. -/
theorem map_byteAt (st : SlicePull) {n : ℕ}
    (hn : a % st.maxPayload.toNat + n ≤ st.maxPayload.toNat) :
    (List.range' a n).map st.byteAt = (List.range n).map fun k =>
      st.payloadGet { st.baseCoord with
        offset := UInt16.ofNat (a / st.maxPayload.toNat * st.maxPayload.toNat) }
        (a % st.maxPayload.toNat + k) := by
  rw [List.range'_eq_map_range, List.map_map]
  apply List.map_congr_left
  intro k hk
  have hk := List.mem_range.mp hk
  have hmod := Nat.div_add_mod' a st.maxPayload.toNat
  have hP : 0 < st.maxPayload.toNat := by omega
  have hdiv : (a + k) / st.maxPayload.toNat = a / st.maxPayload.toNat := by
    apply Nat.div_eq_of_lt_le (by omega)
    have := Nat.add_one_mul (a / st.maxPayload.toNat) st.maxPayload.toNat
    omega
  have hrest := Nat.div_add_mod' (a + k) st.maxPayload.toNat
  rw [hdiv] at hrest
  simp only [Function.comp_apply, byteAt, hdiv]
  congr 1
  omega

/-- The offset of the slice that holds byte `a`. -/
theorem Fits.sliceOff (h : st.Fits) (ha : a < st.termination.toNat) :
    sliceIdxToOffset (offsetToSliceIdx (UInt32.ofNat a).toUInt16 st.maxPayload) st.maxPayload =
      UInt16.ofNat (a / st.maxPayload.toNat * st.maxPayload.toNat) := by
  have ht := h.termination
  have hs := h.slices
  have hidx : a / st.maxPayload.toNat < 256 := Nat.div_lt_of_lt_mul (by linarith)
  apply UInt16.toNat_inj.mp
  rw [sliceIdxToOffset_toNat, offsetToSliceIdx_toNat, UInt32.toNat_toUInt16, UInt32.toNat_ofNat',
    UInt16.toNat_ofNat', Nat.mod_eq_of_lt (by omega : a < 2 ^ 32),
    Nat.mod_eq_of_lt (by omega : a < 2 ^ 16), Nat.mod_eq_of_lt (show _ < 2 ^ 8 from hidx)]

/-- One pass touches what is asked for, up to the end of the slice that holds
byte `a`, and moves on behind it. -/
theorem access_eq (h : st.Fits) (hcount : 0 < count) (hle : a + count ≤ st.termination.toNat) :
    ∃ n, n = min count (st.maxPayload.toNat - a % st.maxPayload.toNat) ∧
      (st.after a).access count = ⟨{ st.baseCoord with
        offset := UInt16.ofNat (a / st.maxPayload.toNat * st.maxPayload.toNat) },
        a % st.maxPayload.toNat, n⟩ ∧
      ((st.after a).copy count).2 = st.after (a + n) := by
  have hsliceOff := h.sliceOff (show a < st.termination.toNat by omega)
  obtain ⟨hP, ht, -⟩ := h
  have hPlt := st.maxPayload.toNat_lt
  have hoff := Nat.div_mul_le_self a st.maxPayload.toNat
  have hmod := Nat.div_add_mod' a st.maxPayload.toNat
  have hmodlt := Nat.mod_lt a hP
  have hpos : (UInt32.ofNat a - (UInt16.ofNat (a / st.maxPayload.toNat *
      st.maxPayload.toNat)).toUInt32).toNat = a % st.maxPayload.toNat := by
    rw [UInt32.toNat_sub, UInt32.toNat_ofNat', UInt16.toNat_toUInt32, UInt16.toNat_ofNat']
    omega
  have havail : (st.termination - UInt32.ofNat a).toNat = st.termination.toNat - a := by
    rw [UInt32.toNat_sub, UInt32.toNat_ofNat']
    omega
  simp only [copy, access, after, hsliceOff]
  generalize UInt32.ofNat a - (UInt16.ofNat (a / st.maxPayload.toNat *
      st.maxPayload.toNat)).toUInt32 = pos at hpos
  generalize hav : st.termination - UInt32.ofNat a = avail at havail
  have hchunk : (st.maxPayload.toUInt32 - pos).toNat =
      st.maxPayload.toNat - a % st.maxPayload.toNat := by
    rw [UInt32.toNat_sub, hpos, UInt16.toNat_toUInt32]
    omega
  obtain ⟨take, htake⟩ : ∃ take, take =
      (if UInt32.ofNat count < (if st.maxPayload.toUInt32 - pos > avail then avail
        else st.maxPayload.toUInt32 - pos) then UInt32.ofNat count
      else if st.maxPayload.toUInt32 - pos > avail then avail
        else st.maxPayload.toUInt32 - pos) := ⟨_, rfl⟩
  have hn : take.toNat = min count (st.maxPayload.toNat - a % st.maxPayload.toNat) := by
    have hc : (UInt32.ofNat count).toNat = count := by
      rw [UInt32.toNat_ofNat']
      omega
    simp only [htake, gt_iff_lt, UInt32.lt_iff_toNat_lt, apply_ite UInt32.toNat, hc, havail, hchunk]
    split_ifs <;> omega
  rw [← htake]
  refine ⟨take.toNat, hn, by rw [hpos], ?_⟩
  rw [UInt32.ofNat_add, UInt32.ofNat_toNat]

/-- One pass copies at least one byte, and the right ones, all from the slice
that holds byte `a`. -/
theorem copy_eq (h : st.Fits) (hcount : 0 < count) (hle : a + count ≤ st.termination.toNat) :
    ∃ n, 0 < n ∧ n ≤ count ∧ a % st.maxPayload.toNat + n ≤ st.maxPayload.toNat ∧
      (st.after a).copy count = ((List.range' a n).map st.byteAt, st.after (a + n)) ∧
      (st.after a).access count = ⟨{ st.baseCoord with
        offset := UInt16.ofNat (a / st.maxPayload.toNat * st.maxPayload.toNat) },
        a % st.maxPayload.toNat, n⟩ := by
  obtain ⟨n, hn, haccess, hnext⟩ := access_eq h hcount hle
  have hmodlt := Nat.mod_lt a h.maxPayload
  have hslice : a % st.maxPayload.toNat + n ≤ st.maxPayload.toNat := by omega
  refine ⟨n, by omega, by omega, hslice, Prod.ext ?_ hnext, haccess⟩
  rw [copy_fst, haccess, st.map_byteAt hslice]
  rfl

/-- **One read** within the length gives the bytes in order. -/
theorem loop_eq (h : st.Fits) (hfuel : count ≤ fuel) (hle : a + count ≤ st.termination.toNat) :
    loop fuel (st.after a) count =
      some ((List.range' a count).map st.byteAt, st.after (a + count)) := by
  induction fuel generalizing a count with
  | zero =>
      obtain rfl : count = 0 := by omega
      rfl
  | succ fuel ih =>
      cases count with
      | zero => rfl
      | succ count =>
          obtain ⟨n, hpos, hn, -, hcopy, -⟩ := copy_eq h (Nat.succ_pos count) hle
          have hterm := st.termination.toNat_lt
          have hcons : (st.after (a + n)).consumed.toNat = a + n := by
            simp only [after, UInt32.toNat_ofNat']
            omega
          simp only [loop, hcopy, List.length_map, List.length_range']
          split
          · -- the end of the package ends the loop, and nothing was left to read
            rename_i hend
            rw [ge_iff_le, UInt32.le_iff_toNat_le, hcons] at hend
            have hend' : st.termination.toNat ≤ a + n := hend
            obtain rfl : n = count + 1 := by omega
            rfl
          · rw [ih (by omega) (by omega), Option.map_some]
            have hsplit : List.range' a (count + 1) =
                List.range' a n ++ List.range' (a + n) (count + 1 - n) := by
              rw [List.range'_append_1, Nat.add_sub_cancel' hn]
            rw [hsplit, List.map_append, show a + n + (count + 1 - n) = a + (count + 1) by omega]

/-- **One read** within the length stays inside the slices. -/
theorem within_of_mem_loopAccesses (h : st.Fits) (hle : a + count ≤ st.termination.toNat)
    {r : Access} (hr : r ∈ loopAccesses fuel (st.after a) count) : r.Within st := by
  induction fuel generalizing a count with
  | zero => rcases count with - | count <;> cases hr
  | succ fuel ih =>
      cases count with
      | zero => cases hr
      | succ count =>
          obtain ⟨n, -, hn, hslice, hcopy, haccess⟩ := copy_eq h (Nat.succ_pos count) hle
          simp only [loopAccesses, hcopy, List.length_map, List.length_range', List.mem_cons] at hr
          rcases hr with rfl | hr
          · have hmod := Nat.div_add_mod' a st.maxPayload.toNat
            rw [haccess]
            exact ⟨a / st.maxPayload.toNat, rfl, hslice, by dsimp only; omega⟩
          · split at hr
            · cases hr
            · exact ih (by omega) hr

theorem pulls_eq (h : st.Fits) {counts : List ℕ} (hle : a + counts.sum ≤ st.termination.toNat) :
    (st.after a).pulls counts = some ((List.range' a counts.sum).map st.byteAt) := by
  induction counts generalizing a with
  | nil => rfl
  | cons count counts ih =>
      rw [List.sum_cons] at hle ⊢
      simp only [pulls, pull]
      rw [loop_eq h le_rfl (by omega)]
      simp only [Option.bind_eq_bind, Option.bind_some]
      rw [ih (by omega), Option.bind_some, ← List.map_append, List.range'_append_1]

/-- Calls that stay within the length, observed: every buffer is filled, with
the bytes in order, from inside the slices. -/
theorem callbacks_eq (h : st.Fits) {counts : List ℕ}
    (hle : a + counts.sum ≤ st.termination.toNat) :
    ∃ calls, (st.after a).callbacks counts = some calls ∧
      calls.map (fun c => c.filled.length) = counts ∧
      calls.flatMap (fun c => c.filled) = (List.range' a counts.sum).map st.byteAt ∧
      ∀ c ∈ calls, c.returned = true ∧ ∀ r ∈ c.accesses, r.Within st := by
  induction counts generalizing a with
  | nil => exact ⟨[], rfl, rfl, rfl, by simp⟩
  | cons count counts ih =>
      rw [List.sum_cons] at hle
      have hpull : (st.after a).pull count =
          some ((List.range' a count).map st.byteAt, st.after (a + count)) :=
        loop_eq h le_rfl (by omega)
      obtain ⟨calls, hcalls, hlength, hfilled, hwithin⟩ := ih (a := a + count) (by omega)
      refine ⟨⟨true, (List.range' a count).map st.byteAt,
        loopAccesses count (st.after a) count, st.after (a + count)⟩ :: calls, ?_, ?_, ?_, ?_⟩
      · simp only [callbacks, callback, hpull, Option.map_some, Option.bind_eq_bind,
          Option.bind_some, hcalls]
      · simp only [List.map_cons, List.length_map, List.length_range', hlength]
      · rw [List.flatMap_cons, hfilled, List.sum_cons, ← List.range'_append_1, List.map_append]
      · intro c hc
        rcases List.mem_cons.mp hc with rfl | hc
        · exact ⟨rfl, fun r hr => within_of_mem_loopAccesses h (by omega) hr⟩
        · exact hwithin c hc

/-- The first `n` bytes of the stream, where it agrees with `data`. -/
theorem map_byteAt_eq_take {data : List UInt8} {n : ℕ} (hn : n ≤ data.length)
    (hbytes : ∀ j, j < data.length → data[j]? = some (st.byteAt j)) :
    (List.range' 0 n).map st.byteAt = data.take n := by
  apply List.ext_getElem?
  intro j
  rw [List.getElem?_take, List.getElem?_map]
  by_cases hj : j < n
  · rw [if_pos hj, List.getElem?_range' (by omega), hbytes j (by omega)]
    simp
  · rw [if_neg hj, List.getElem?_eq_none (by simpa using hj)]
    rfl

/-- A stream that has not been read. -/
theorem after_zero (hzero : st.consumed = 0) : st.after 0 = st := by
  show { st with consumed := 0 } = st
  rw [← hzero]

/-- **The stream offers** the bytes its callback finds. -/
theorem offers (h : st.Fits) (hzero : st.consumed = 0) {data : List UInt8}
    (hlength : st.termination.toNat = data.length)
    (hbytes : ∀ j, j < data.length → data[j]? = some (st.byteAt j)) : st.Offers data where
  length := hlength
  pulls := by
    intro counts hle
    rw [← after_zero hzero, pulls_eq h (by omega), map_byteAt_eq_take hle hbytes]

/-- **The pull stream is the package, however it is read.**  Over a store that
returns for the offset of slice `i` the bytes of slice `i`, calls whose counts
add up to no more than the length return `true`, fill their buffers with the
bytes of the package in order, and touch no byte outside a slice. -/
theorem callbacks_package {st : SlicePull} {data : List UInt8} {counts : List ℕ}
    (hP : 1 ≤ st.maxPayload.toNat) (hzero : st.consumed = 0)
    (hlength : st.termination.toNat = data.length) (hmax : data.length ≤ 65535)
    (hslices : data.length ≤ 256 * st.maxPayload.toNat)
    (hstore : ∀ i k : ℕ, k < st.maxPayload.toNat → i * st.maxPayload.toNat + k < data.length →
      data[i * st.maxPayload.toNat + k]? = some (st.payloadGet
        { st.baseCoord with offset := UInt16.ofNat (i * st.maxPayload.toNat) } k))
    (hsum : counts.sum ≤ data.length) :
    ∃ calls, st.callbacks counts = some calls ∧
      calls.map (fun c => c.filled.length) = counts ∧
      calls.flatMap (fun c => c.filled) = data.take counts.sum ∧
      ∀ c ∈ calls, c.returned = true ∧ ∀ r ∈ c.accesses, r.Within st := by
  have hfits : st.Fits := ⟨hP, by omega, by omega⟩
  have hle : 0 + counts.sum ≤ st.termination.toNat := by omega
  obtain ⟨calls, hcalls, hlen, hfilled, hwithin⟩ := callbacks_eq hfits hle
  rw [after_zero hzero] at hcalls
  refine ⟨calls, hcalls, hlen, hfilled.trans (map_byteAt_eq_take hsum fun j hj => ?_), hwithin⟩
  -- byte `j` is byte `j % P` of slice `j / P`
  have hmod := Nat.div_add_mod' j st.maxPayload.toNat
  have h := hstore (j / st.maxPayload.toNat) (j % st.maxPayload.toNat) (Nat.mod_lt j hP)
    (by omega)
  rwa [hmod] at h

/-- Five bytes in slices of three, one behind the other in the store. -/
def fiveBytes : SlicePull where
  payloadGet := fun c k => [10, 20, 30, 40, 50].getD (c.offset.toNat + k) 0
  baseCoord := ⟨1, 7, 0⟩
  termination := 5
  maxPayload := 3
  consumed := 0

/-- Two bytes, then the last of the first slice with the first of the second. -/
theorem callbacks_package_fiveBytes :
    ∃ calls, fiveBytes.callbacks [2, 2] = some calls ∧
      calls.map (fun c => c.filled.length) = [2, 2] ∧
      calls.flatMap (fun c => c.filled) = [10, 20, 30, 40, 50].take [2, 2].sum ∧
      ∀ c ∈ calls, c.returned = true ∧ ∀ r ∈ c.accesses, r.Within fiveBytes := by
  refine callbacks_package (by decide) rfl rfl (by decide) (by decide) (fun i k hk hlt => ?_)
    (by decide)
  have hoff : (UInt16.ofNat (i * fiveBytes.maxPayload.toNat)).toNat =
      i * fiveBytes.maxPayload.toNat := by
    rw [UInt16.toNat_ofNat']
    exact Nat.mod_eq_of_lt (Nat.lt_of_le_of_lt (Nat.le_add_right _ k)
      (Nat.lt_trans hlt (by decide)))
  show _ = some ([10, 20, 30, 40, 50].getD
    ((UInt16.ofNat (i * fiveBytes.maxPayload.toNat)).toNat + k) 0)
  rw [hoff, List.getD_eq_getElem?_getD, List.getElem?_eq_getElem hlt]
  rfl

end SlicePull

end CustomData
