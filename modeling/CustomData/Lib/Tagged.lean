/-
CustomData/Lib/Tagged.lean

Lists whose items carry tags: the items of one tag (`valuesOf`), and the
numbers that the items of each tag get as they come (`number`).  However the
items of different tags are mixed, the items of one tag are numbered
`0, 1, 2, …` in their own order (`numbersOf_number`, `getElem?_of_mem_number`).
-/
import Mathlib.Data.List.Basic
import Mathlib.Logic.Function.Basic

namespace Tagged

variable {ι α : Type*} [DecidableEq ι]

/-- The items with the tag `k`. -/
def valuesOf (k : ι) (l : List (ι × α)) : List α := (l.filter fun e => e.1 = k).map Prod.snd

theorem valuesOf_append (k : ι) (l l' : List (ι × α)) :
    valuesOf k (l ++ l') = valuesOf k l ++ valuesOf k l' := by
  rw [valuesOf, List.filter_append, List.map_append]
  rfl

theorem valuesOf_cons (k : ι) (e : ι × α) (l : List (ι × α)) :
    valuesOf k (e :: l) = if e.1 = k then e.2 :: valuesOf k l else valuesOf k l := by
  by_cases h : e.1 = k <;> simp [valuesOf, h]

/-- Items that all have one tag. -/
theorem valuesOf_map_mk (k t : ι) (as : List α) :
    valuesOf k (as.map fun a => (t, a)) = if t = k then as else [] := by
  induction as with
  | nil => simp [valuesOf]
  | cons a as ih =>
      rw [List.map_cons, valuesOf_cons, ih]
      split <;> rfl

/-- Number the items of each tag as they come, from `count` on. -/
def number : (ι → ℕ) → List (ι × α) → List (ι × ℕ × α)
  | _, [] => []
  | count, e :: l =>
      (e.1, count e.1, e.2) :: number (Function.update count e.1 (count e.1 + 1)) l

/-- Without the numbers it is the list. -/
theorem map_number (count : ι → ℕ) (l : List (ι × α)) :
    (number count l).map (fun e => (e.1, e.2.2)) = l := by
  induction l generalizing count with
  | nil => rfl
  | cons e l ih => rw [number, List.map_cons, ih]

/-- The numbers with the tag `k`. -/
theorem numbersOf_number (count : ι → ℕ) (l : List (ι × α)) (k : ι) :
    ((number count l).filter fun e => e.1 = k).map (fun e => e.2.1) =
      List.range' (count k) (valuesOf k l).length := by
  induction l generalizing count with
  | nil => rfl
  | cons e l ih =>
      rw [number, valuesOf_cons]
      by_cases h : e.1 = k
      · subst h
        rw [List.filter_cons_of_pos (by simp), List.map_cons, ih, if_pos rfl, List.length_cons,
          List.range'_succ, Function.update_self]
      · rw [List.filter_cons_of_neg (by simpa using h), ih, if_neg h,
          Function.update_of_ne (Ne.symm h)]

/-- An item is found under its number among the items of its tag. -/
theorem getElem?_of_mem_number {count : ι → ℕ} {l : List (ι × α)} {e : ι × ℕ × α}
    (he : e ∈ number count l) :
    count e.1 ≤ e.2.1 ∧ (valuesOf e.1 l)[e.2.1 - count e.1]? = some e.2.2 := by
  induction l generalizing count with
  | nil => cases he
  | cons x l ih =>
      rw [number, List.mem_cons] at he
      rcases he with rfl | he
      · rw [valuesOf_cons, if_pos rfl]
        exact ⟨Nat.le_refl _, by simp⟩
      · obtain ⟨hle, hget⟩ := ih he
        rw [valuesOf_cons]
        by_cases h : x.1 = e.1
        · rw [← h, Function.update_self] at hle hget
          rw [if_pos h, ← h]
          refine ⟨by omega, ?_⟩
          obtain ⟨j, hj⟩ : ∃ j, e.2.1 - count x.1 = j + 1 := ⟨e.2.1 - count x.1 - 1, by omega⟩
          rw [hj, List.getElem?_cons_succ]
          rwa [show e.2.1 - (count x.1 + 1) = j by omega] at hget
        · rw [Function.update_of_ne (Ne.symm h)] at hle hget
          rw [if_neg h]
          exact ⟨hle, hget⟩

end Tagged
