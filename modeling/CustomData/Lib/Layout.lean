/-
CustomData/Lib/Layout.lean

How values lie in memory.

A `Layout` of a type says which bytes stand for its values: a fixed number of
them, and every string of that many bytes stands for one value.  The laws are
fields, so a layout that is put together from others is lawful by construction:
`and` puts two values one after the other, `vector` repeats a value, and `via`
renames.  Numbers lie in the byte order of the machine.
-/
import Mathlib.Data.List.Basic
import Mathlib.Algebra.Group.Nat.Defs
import Mathlib.Algebra.Order.Ring.Nat
import Mathlib.Logic.Equiv.Defs

namespace Layout

/-! ### Numbers -/

/-- The last `w` digits of `n` to the base 256, the lowest one first. -/
def digits : ℕ → ℕ → List UInt8
  | 0, _ => []
  | w + 1, n => UInt8.ofNat n :: digits w (n / 256)

/-- The number with these digits. -/
def number : List UInt8 → ℕ
  | [] => 0
  | b :: bs => b.toNat + 256 * number bs

@[simp] theorem length_digits (w n : ℕ) : (digits w n).length = w := by
  induction w generalizing n with
  | zero => rfl
  | succ w ih => rw [digits, List.length_cons, ih]

theorem number_digits (w n : ℕ) : number (digits w n) = n % 256 ^ w := by
  induction w generalizing n with
  | zero => rw [pow_zero, Nat.mod_one, digits, number]
  | succ w ih =>
      rw [digits, number, ih, pow_succ', Nat.mod_mul]
      rfl

theorem number_lt (bs : List UInt8) : number bs < 256 ^ bs.length := by
  induction bs with
  | nil => exact Nat.one_pos
  | cons b bs ih =>
      have hb := b.toNat_lt
      rw [number, List.length_cons, pow_succ']
      omega

theorem digits_number (bs : List UInt8) : digits bs.length (number bs) = bs := by
  induction bs with
  | nil => rfl
  | cons b bs ih =>
      have hb := b.toNat_lt
      have hhead : UInt8.ofNat (b.toNat + 256 * number bs) = b := by
        apply UInt8.toNat_inj.mp
        rw [UInt8.toNat_ofNat', Nat.add_mul_mod_self_left, Nat.mod_eq_of_lt hb]
      have htail : (b.toNat + 256 * number bs) / 256 = number bs := by omega
      rw [number, List.length_cons, digits, hhead, htail, ih]

/-- The byte order of a machine. -/
inductive ByteOrder
  | little | big
  deriving DecidableEq, Repr

/-- Digits in this order. -/
def ByteOrder.arrange : ByteOrder → List UInt8 → List UInt8
  | .little, bs => bs
  | .big, bs => bs.reverse

@[simp] theorem ByteOrder.length_arrange (o : ByteOrder) (bs : List UInt8) :
    (o.arrange bs).length = bs.length := by
  cases o with
  | little => rfl
  | big => exact List.length_reverse

@[simp] theorem ByteOrder.arrange_arrange (o : ByteOrder) (bs : List UInt8) :
    o.arrange (o.arrange bs) = bs := by
  cases o with
  | little => rfl
  | big => exact List.reverse_reverse bs

end Layout

/-! ### Layouts -/

/-- The bytes that stand for the values of a type: every value has its own
`size` bytes, and all strings of `size` bytes are used. -/
structure Layout (α : Type) where
  size : ℕ
  write : α → List UInt8
  read : List UInt8 → α
  length_write : ∀ a, (write a).length = size
  read_write : ∀ a, read (write a) = a
  write_read : ∀ bs, bs.length = size → write (read bs) = bs

namespace Layout

variable {α β : Type}

/-- What is read is what was written. -/
theorem write_eq_iff (l : Layout α) {a : α} {bs : List UInt8} (h : bs.length = l.size) :
    l.write a = bs ↔ l.read bs = a := by
  constructor
  · rintro rfl
    exact l.read_write a
  · rintro rfl
    exact l.write_read bs h

/-- What comes first can be told from what follows. -/
theorem write_append_inj (l : Layout α) {a b : α} {as bs : List UInt8}
    (h : l.write a ++ as = l.write b ++ bs) : a = b ∧ as = bs := by
  have hlength := (l.length_write a).trans (l.length_write b).symm
  obtain ⟨hwrite, hrest⟩ := List.append_inj h hlength
  have hread := congrArg l.read hwrite
  rw [l.read_write, l.read_write] at hread
  exact ⟨hread, hrest⟩

/-- One byte. -/
def byte : Layout UInt8 where
  size := 1
  write := fun b => [b]
  read := fun bs => bs.headD 0
  length_write := fun _ => rfl
  read_write := fun _ => rfl
  write_read := by
    intro bs h
    obtain ⟨b, rfl⟩ := List.length_eq_one_iff.mp h
    rfl

/-- The values under other names. -/
def via (l : Layout α) (e : α ≃ β) : Layout β where
  size := l.size
  write := fun b => l.write (e.symm b)
  read := fun bs => e (l.read bs)
  length_write := fun b => l.length_write _
  read_write := fun b => by rw [l.read_write, e.apply_symm_apply]
  write_read := fun bs h => by rw [e.symm_apply_apply, l.write_read bs h]

/-- A number of `w` bytes. -/
def word (o : ByteOrder) (w : ℕ) : Layout (Fin (256 ^ w)) where
  size := w
  write := fun n => o.arrange (digits w n.val)
  read := fun bs => ⟨number (o.arrange bs) % 256 ^ w, Nat.mod_lt _ (Nat.pow_pos (by decide))⟩
  length_write := fun n => by rw [o.length_arrange, length_digits]
  read_write := by
    intro n
    apply Fin.ext
    dsimp only
    rw [o.arrange_arrange, number_digits, Nat.mod_mod, Nat.mod_eq_of_lt n.isLt]
  write_read := by
    intro bs h
    have hlt := number_lt (o.arrange bs)
    have hdigits := digits_number (o.arrange bs)
    rw [o.length_arrange, h] at hlt hdigits
    dsimp only
    rw [Nat.mod_eq_of_lt hlt, hdigits, o.arrange_arrange]

/-- `uint16_t` -/
def word16 (o : ByteOrder) : Layout UInt16 :=
  (word o 2).via ⟨UInt16.ofFin, UInt16.toFin, fun _ => rfl, fun _ => rfl⟩

/-- `uint32_t` -/
def word32 (o : ByteOrder) : Layout UInt32 :=
  (word o 4).via ⟨UInt32.ofFin, UInt32.toFin, fun _ => rfl, fun _ => rfl⟩

/-- One value after the other. -/
def and (l : Layout α) (m : Layout β) : Layout (α × β) where
  size := l.size + m.size
  write := fun v => l.write v.1 ++ m.write v.2
  read := fun bs => (l.read (bs.take l.size), m.read (bs.drop l.size))
  length_write := fun v => by rw [List.length_append, l.length_write, m.length_write]
  read_write := by
    intro v
    rw [List.take_left' (l.length_write v.1), List.drop_left' (l.length_write v.1), l.read_write,
      m.read_write]
  write_read := by
    intro bs h
    rw [l.write_read _ (by rw [List.length_take]; omega),
      m.write_read _ (by rw [List.length_drop]; omega), List.take_append_drop]

/-- Read `n` values. -/
def readMany (l : Layout α) : ℕ → List UInt8 → List α
  | 0, _ => []
  | n + 1, bs => l.read (bs.take l.size) :: l.readMany n (bs.drop l.size)

theorem readMany_succ (l : Layout α) (n : ℕ) (bs : List UInt8) :
    l.readMany (n + 1) bs = l.read (bs.take l.size) :: l.readMany n (bs.drop l.size) := rfl

@[simp] theorem length_readMany (l : Layout α) (n : ℕ) (bs : List UInt8) :
    (l.readMany n bs).length = n := by
  induction n generalizing bs with
  | zero => rfl
  | succ n ih => rw [readMany_succ, List.length_cons, ih]

theorem length_flatMap_write (l : Layout α) (as : List α) :
    (as.flatMap l.write).length = as.length * l.size := by
  induction as with
  | nil => exact (Nat.zero_mul _).symm
  | cons a as ih =>
      rw [List.flatMap_cons, List.length_append, l.length_write, ih, List.length_cons,
        Nat.succ_mul, Nat.add_comm]

theorem readMany_flatMap_write (l : Layout α) (as : List α) :
    l.readMany as.length (as.flatMap l.write) = as := by
  induction as with
  | nil => rfl
  | cons a as ih =>
      rw [List.length_cons, readMany_succ, List.flatMap_cons, List.take_left' (l.length_write a),
        List.drop_left' (l.length_write a), l.read_write, ih]

theorem flatMap_write_readMany (l : Layout α) {n : ℕ} {bs : List UInt8}
    (h : bs.length = n * l.size) : (l.readMany n bs).flatMap l.write = bs := by
  induction n generalizing bs with
  | zero =>
      rw [Nat.zero_mul] at h
      rw [List.length_eq_zero_iff.mp h]
      rfl
  | succ n ih =>
      rw [Nat.succ_mul] at h
      rw [readMany_succ, List.flatMap_cons, l.write_read _ (by rw [List.length_take]; omega),
        ih (by rw [List.length_drop]; omega), List.take_append_drop]

/-- Values in a row. -/
def vector (n : ℕ) (l : Layout α) : Layout (Vector α n) where
  size := n * l.size
  write := fun v => v.toList.flatMap l.write
  read := fun bs => ⟨(l.readMany n bs).toArray, by simp⟩
  length_write := fun v => by rw [length_flatMap_write, Vector.length_toList]
  read_write := by
    intro v
    apply Vector.toList_inj.mp
    have h := l.readMany_flatMap_write v.toList
    rwa [Vector.length_toList] at h
  write_read := fun bs h => l.flatMap_write_readMany h

end Layout
