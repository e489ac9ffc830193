/-
CustomData/Coordinator.lean

The slot table of the C++ and C# decoders (`Coordinator` in
`customdata-protobuf-rx.cpp`, `RxCoordinator.cs`).

A slot keeps the slice state and the bytes of one package serial of one
sender.  Serials are reused, so each sender has a generation: `gcHook` bumps
it when the serial jumps back by more than half its range, and every access to
a slot first resets a state that an older generation left there
(`gcClockHook`).  The reset is lazy, and it is guarded by `received_count > 0`.

Both languages keep the same table and the same hooks, so there is one model
of them.  An access that finds the slot at the generation of its sender
changes nothing (`Coordinator.access_of_gen`), which is why the repeated
accesses of the C++ decoder amount to one.
-/
import CustomData.Rx
import Mathlib.Logic.Function.Basic

namespace CustomData

/-! ### Slots -/

/-- `Slot`: C++ `data` and C# `Payload`, with a null array as the empty one. -/
structure Slot where
  state : RxSliceState
  data : List UInt8
  gen : UInt8
  deriving DecidableEq, Repr

/-- An element of `_sender_meta`. -/
@[ext] structure SenderMeta where
  pkg : UInt8
  gen : UInt8
  deriving DecidableEq, Repr

/-- A slot nothing was stored in. -/
def Slot.empty : Slot := ⟨.zero, [], 0⟩

/-- `gc_clock_hook`, on the slot. -/
def Slot.gcClockHook (slot : Slot) (senderMeta : SenderMeta) : Slot :=
  let slot := if slot.state.receivedCount > 0 && slot.gen != senderMeta.gen then
      { slot with state := .zero } else slot
  { slot with gen := senderMeta.gen }

/-- `gc_hook`, on the element of the sender. -/
def SenderMeta.gcHook (senderMeta : SenderMeta) (packageId : UInt8) : SenderMeta where
  pkg := packageId
  gen := if packageId.toNat + packageIdMax / 2 < senderMeta.pkg.toNat then senderMeta.gen + 1
    else senderMeta.gen

@[simp] theorem Slot.gcClockHook_gen (slot : Slot) (m : SenderMeta) :
    (slot.gcClockHook m).gen = m.gen := rfl

@[simp] theorem Slot.gcClockHook_data (slot : Slot) (m : SenderMeta) :
    (slot.gcClockHook m).data = slot.data := by
  simp only [gcClockHook]
  split <;> rfl

theorem Slot.gcClockHook_state (slot : Slot) (m : SenderMeta) :
    (slot.gcClockHook m).state =
      if slot.state.receivedCount.toNat ≠ 0 ∧ slot.gen ≠ m.gen then .zero else slot.state := by
  have hpos : slot.state.receivedCount > 0 ↔ slot.state.receivedCount.toNat ≠ 0 := by
    rw [gt_iff_lt, UInt16.lt_iff_toNat_lt, UInt16.toNat_zero, Nat.pos_iff_ne_zero]
  simp only [gcClockHook, Bool.and_eq_true, decide_eq_true_eq, bne_iff_ne, hpos]
  split <;> rfl

/-- The hook leaves a slot of the right generation alone. -/
theorem Slot.gcClockHook_of_gen {slot : Slot} {m : SenderMeta} (h : slot.gen = m.gen) :
    slot.gcClockHook m = slot := by
  cases slot
  simp_all [gcClockHook]

@[simp] theorem SenderMeta.gcHook_pkg (m : SenderMeta) (k : UInt8) : (m.gcHook k).pkg = k := rfl

/-- A serial that does not jump back keeps the generation. -/
theorem SenderMeta.gcHook_gen_of_le {m : SenderMeta} {k : UInt8}
    (h : m.pkg.toNat ≤ k.toNat + 127) : (m.gcHook k).gen = m.gen := by
  have hmax : packageIdMax / 2 = 127 := rfl
  exact if_neg (by rw [hmax]; omega)

/-- A serial that jumps back by more than half the range bumps it. -/
theorem SenderMeta.gcHook_gen_of_lt {m : SenderMeta} {k : UInt8}
    (h : k.toNat + 127 < m.pkg.toNat) : (m.gcHook k).gen = m.gen + 1 := by
  have hmax : packageIdMax / 2 = 127 := rfl
  exact if_pos (by rw [hmax]; exact h)

/-- The hook on the same serial again does nothing. -/
@[simp] theorem SenderMeta.gcHook_gcHook (m : SenderMeta) (k : UInt8) :
    (m.gcHook k).gcHook k = m.gcHook k :=
  SenderMeta.ext rfl (gcHook_gen_of_le (by simp))

/-! ### Buffers -/

/-- `resize(needed)` where the buffer is shorter: zeros are appended. -/
def growTo (data : List UInt8) (needed : ℕ) : List UInt8 :=
  data ++ List.replicate (needed - data.length) 0

/-- Copy `payload` over the bytes from `offset` on. -/
def copyAt (data : List UInt8) (offset : ℕ) (payload : List UInt8) : List UInt8 :=
  data.take offset ++ payload ++ data.drop (offset + payload.length)

/-- Grow the buffer as far as needed and copy. -/
def overwrite (data : List UInt8) (offset : ℕ) (payload : List UInt8) : List UInt8 :=
  copyAt (growTo data (offset + payload.length)) offset payload

theorem length_copyAt {data : List UInt8} {offset : ℕ} {payload : List UInt8}
    (h : offset + payload.length ≤ data.length) :
    (copyAt data offset payload).length = data.length := by
  simp only [copyAt, List.length_append, List.length_take, List.length_drop]
  omega

/-- Two copies side by side are one copy. -/
theorem copyAt_copyAt {data : List UInt8} {offset : ℕ} {p q : List UInt8}
    (h : offset + p.length + q.length ≤ data.length) :
    copyAt (copyAt data offset p) (offset + p.length) q = copyAt data offset (p ++ q) := by
  have hfront : (data.take offset ++ p).length = offset + p.length := by
    rw [List.length_append, List.length_take]
    omega
  rw [copyAt, copyAt, copyAt, List.take_left' hfront, List.drop_append, hfront,
    List.drop_eq_nil_of_le (by omega), List.nil_append, Nat.add_sub_cancel_left, List.drop_drop]
  simp only [List.append_assoc, List.length_append, Nat.add_assoc]

/-- Where the payload fits, nothing grows. -/
theorem overwrite_of_le {data : List UInt8} {offset : ℕ} {payload : List UInt8}
    (h : offset + payload.length ≤ data.length) :
    overwrite data offset payload = copyAt data offset payload := by
  rw [overwrite, growTo, Nat.sub_eq_zero_of_le h, List.replicate_zero, List.append_nil]

theorem overwrite_length (data : List UInt8) (offset : ℕ) (payload : List UInt8) :
    (overwrite data offset payload).length = max data.length (offset + payload.length) := by
  simp only [overwrite, copyAt, growTo, List.length_append, List.length_take, List.length_drop,
    List.length_replicate]
  omega

/-- Inside the window the payload is read back. -/
theorem overwrite_getElem?_of_mem {data : List UInt8} {offset : ℕ} {payload : List UInt8} {j : ℕ}
    (h₁ : offset ≤ j) (h₂ : j < offset + payload.length) :
    (overwrite data offset payload)[j]? = payload[j - offset]? := by
  have htake : ((growTo data (offset + payload.length)).take offset).length = offset := by
    simp only [growTo, List.length_take, List.length_append, List.length_replicate]
    omega
  rw [overwrite, copyAt, List.getElem?_append_left (by rw [List.length_append, htake]; omega),
    List.getElem?_append_right (by omega), htake]

/-- Outside the window the old bytes are, with zeros where the buffer grew. -/
theorem overwrite_getD_of_notMem {data : List UInt8} {offset : ℕ} {payload : List UInt8} {j : ℕ}
    (h : j < offset ∨ offset + payload.length ≤ j) :
    (overwrite data offset payload).getD j 0 = data.getD j 0 := by
  have hgrow : ∀ k, (growTo data (offset + payload.length)).getD k 0 = data.getD k 0 := by
    intro k
    simp only [growTo, List.getD_eq_getElem?_getD, List.getElem?_append]
    split
    · rfl
    · rename_i hk
      rw [List.getElem?_eq_none (l := data) (by omega), List.getElem?_replicate]
      split <;> rfl
  have htake : ((growTo data (offset + payload.length)).take offset).length = offset := by
    simp only [growTo, List.length_take, List.length_append, List.length_replicate]
    omega
  rw [← hgrow j, overwrite, copyAt]
  generalize growTo data (offset + payload.length) = grown at htake
  simp only [List.getD_eq_getElem?_getD]
  rcases h with hlt | hge
  · rw [List.append_assoc, List.getElem?_append_left (by omega), List.getElem?_take,
      if_pos hlt]
  · rw [List.getElem?_append_right (by rw [List.length_append]; omega), List.length_append, htake,
      List.getElem?_drop]
    congr 2
    omega

theorem overwrite_getElem?_of_notMem {data : List UInt8} {offset : ℕ} {payload : List UInt8}
    {j : ℕ} (h : j < offset ∨ offset + payload.length ≤ j) (hj : j < data.length) :
    (overwrite data offset payload)[j]? = data[j]? := by
  have hj' : j < (overwrite data offset payload).length := by
    rw [overwrite_length]; omega
  have : (overwrite data offset payload).getD j 0 = data.getD j 0 := overwrite_getD_of_notMem h
  rw [List.getD_eq_getElem _ _ hj, List.getD_eq_getElem _ _ hj'] at this
  rw [List.getElem?_eq_getElem hj, List.getElem?_eq_getElem hj', this]

/-! ### The table -/

/-- `Coordinator` / `RxCoordinator`.  The sender id travels in 3 bits, so only
the first `2 ^ 11` slots and the first 8 elements are ever used. -/
structure Coordinator where
  slots : ℕ → Slot
  senderMeta : UInt8 → SenderMeta

namespace Coordinator

/-- `(sender_id << MP_PACKAGE_ID_BITS) | package_id` -/
def slotIndex (senderId packageId : UInt8) : ℕ := senderId.toNat <<< 8 ||| packageId.toNat

/-- A new coordinator; the C++ constructor leaves `_sender_meta` unset. -/
def fresh (senderMeta : UInt8 → SenderMeta) : Coordinator := ⟨fun _ => .empty, senderMeta⟩

variable (c : Coordinator) (coord : Coordinate)

/-- The slot of a coordinate. -/
def slot : Slot := c.slots (slotIndex coord.senderId coord.packageId)

def setSlot (slot : Slot) : Coordinator :=
  { c with slots := Function.update c.slots (slotIndex coord.senderId coord.packageId) slot }

/-- `gc_hook` / `GcHook` -/
def gcHook (senderId packageId : UInt8) : Coordinator :=
  { c with
    senderMeta := Function.update c.senderMeta senderId
      ((c.senderMeta senderId).gcHook packageId) }

/-- `operator[]` / `this[]`: what an access does to the table. -/
def access : Coordinator :=
  c.setSlot coord ((c.slot coord).gcClockHook (c.senderMeta coord.senderId))

/-- `get_state` -/
def getState : Coordinator × RxSliceState :=
  let c := c.access coord
  (c, (c.slot coord).state)

/-- `set_state` -/
def setState (state : RxSliceState) : Coordinator :=
  let c := c.access coord
  c.setSlot coord { c.slot coord with state := state }

/-- `put_payload` -/
def putPayload (payload : List UInt8) : Coordinator :=
  if payload.isEmpty then c else
    let c := c.access coord
    let slot := c.slot coord
    c.setSlot coord { slot with data := overwrite slot.data coord.offset.toNat payload }

/-- `get_payload` -/
def getPayload : Coordinator × List UInt8 :=
  let c := c.access coord
  (c, (c.slot coord).data.drop coord.offset.toNat)

/-! ### Reading after writing -/

theorem slotIndex_eq (s k : UInt8) : slotIndex s k = s.toNat * 256 + k.toNat := by
  rw [slotIndex, ← Nat.shiftLeft_add_eq_or_of_lt (by simpa using k.toNat_lt), Nat.shiftLeft_eq]

/-- Different packages live in different slots. -/
theorem slotIndex_inj {s k s' k' : UInt8} :
    slotIndex s k = slotIndex s' k' ↔ s = s' ∧ k = k' := by
  have hk := k.toNat_lt
  have hk' := k'.toNat_lt
  rw [slotIndex_eq, slotIndex_eq, ← UInt8.toNat_inj, ← UInt8.toNat_inj]
  omega

@[simp] theorem slot_setSlot (sl : Slot) : (c.setSlot coord sl).slot coord = sl := by
  simp [slot, setSlot]

@[simp] theorem setSlot_senderMeta (sl : Slot) :
    (c.setSlot coord sl).senderMeta = c.senderMeta := rfl

@[simp] theorem setSlot_setSlot (sl sl' : Slot) :
    (c.setSlot coord sl).setSlot coord sl' = c.setSlot coord sl' := by
  simp [setSlot]

theorem setSlot_slot : c.setSlot coord (c.slot coord) = c := by
  simp [setSlot, slot]

/-- An access that finds the right generation changes nothing. -/
theorem access_of_gen {c : Coordinator} {coord : Coordinate}
    (h : (c.slot coord).gen = (c.senderMeta coord.senderId).gen) : c.access coord = c := by
  rw [access, Slot.gcClockHook_of_gen h, setSlot_slot]

/-! ### Accesses to a slot that is up to date -/

section UpToDate

variable {c : Coordinator} {coord : Coordinate} {sl : Slot}

theorem access_setSlot (h : sl.gen = (c.senderMeta coord.senderId).gen) :
    (c.setSlot coord sl).access coord = c.setSlot coord sl :=
  access_of_gen (by rw [slot_setSlot, setSlot_senderMeta, h])

theorem setState_setSlot (h : sl.gen = (c.senderMeta coord.senderId).gen)
    (state : RxSliceState) :
    (c.setSlot coord sl).setState coord state = c.setSlot coord { sl with state := state } := by
  simp only [setState, access_setSlot h, slot_setSlot, setSlot_setSlot]

theorem putPayload_setSlot (h : sl.gen = (c.senderMeta coord.senderId).gen)
    (payload : List UInt8) :
    (c.setSlot coord sl).putPayload coord payload = c.setSlot coord
      { sl with
        data := if payload.isEmpty then sl.data
          else overwrite sl.data coord.offset.toNat payload } := by
  simp only [putPayload, access_setSlot h, slot_setSlot, setSlot_setSlot]
  split <;> rfl

theorem getPayload_setSlot (h : sl.gen = (c.senderMeta coord.senderId).gen) :
    (c.setSlot coord sl).getPayload coord =
      (c.setSlot coord sl, sl.data.drop coord.offset.toNat) := by
  simp only [getPayload, access_setSlot h, slot_setSlot]

end UpToDate

end Coordinator

end CustomData
