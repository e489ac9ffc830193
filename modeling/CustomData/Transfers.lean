/-
CustomData/Transfers.lean

A sender that sends package after package, and what arrives of each.

`Transfers P` is the situation of a lossy link that keeps the order: packages
with consecutive serials modulo 256, cut as `mp_tx_stream_feed` and
`mp_tx_stream_finalize` cut them, and for each the sublist of its slices that
arrive.  `AreFrames` says which frames these are on the wire.
-/
import CustomData.Package

namespace CustomData

variable {P : ℕ}

/-- The packages of one sender in sending order, and the slices of each that
arrive. -/
structure Transfers (P : ℕ) where
  sender : UInt8
  sender_lt : sender.toNat < 8
  first : UInt8
  message : ℕ → Message P
  got : ℕ → List ℕ
  got_sublist : ∀ n, (got n).Sublist (List.range ((message n).stream.full + 1))

namespace Transfers

variable (t : Transfers P)

/-- The `n`-th package. -/
def package (n : ℕ) : Package P := (t.message n).stream

/-- Its serial. -/
def serial (n : ℕ) : UInt8 := t.first + UInt8.ofNat n

/-- Every frame of the `n`-th package arrives. -/
def Whole (n : ℕ) : Prop := t.got n = List.range ((t.package n).full + 1)

instance (n : ℕ) : Decidable (t.Whole n) := by
  unfold Whole; infer_instance

/-- The frames that arrive, package by package. -/
def AreFrames (frames : ℕ → List (List UInt8)) : Prop :=
  ∀ n, (t.package n).AreFrames t.sender (t.serial n) (t.got n) (frames n)

variable {t}

theorem whole_iff (n : ℕ) :
    t.Whole n ↔ (t.got n).toFinset = Finset.range ((t.package n).full + 1) := by
  constructor
  · intro h
    rw [h]
    ext j
    simp
  · intro h
    have hnodup : (t.got n).Nodup := (t.got_sublist n).nodup List.nodup_range
    apply (t.got_sublist n).eq_of_length
    rw [← List.toFinset_card_of_nodup hnodup, h, Finset.card_range, List.length_range]
    rfl

/-- The frames of all packages, filled up with zeros. -/
def zeroFilled (t : Transfers P) (n : ℕ) : List (List UInt8) :=
  (t.got n).map ((t.package n).frame t.sender (t.serial n))

theorem areFrames_zeroFilled (t : Transfers P) : t.AreFrames t.zeroFilled := by
  intro n
  rw [zeroFilled, Package.AreFrames, List.forall₂_map_right_iff, List.forall₂_same]
  intro i hi
  have hmem := List.mem_range.mp ((t.got_sublist n).subset hi)
  exact (t.package n).isFrame_frame _ _ (Nat.lt_succ_iff.mp hmem)

end Transfers

end CustomData
