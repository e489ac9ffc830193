/-
CustomData/Lib/Loop.lean

Loops with one exit test, and the orbits of a wrapping counter.

`runUntil stop next fuel x` iterates `next` from `x` until `stop` holds.  The
fuel is only there to make the definition structural: `runUntil_eq_some_iff`
says what a run that ends has computed, and for a periodic `next` one period
of fuel already decides whether the loop ends at all
(`runUntil_eq_none_iff_of_isPeriodicPt`).

The second half is the orbit of a counter that adds `p` modulo `m`.  Its
points are exactly one residue class modulo `gcd p m`
(`exists_add_mul_mod_eq_iff`), so the question "does the loop ever see a value
with this property" becomes a question about that class.
-/
import Mathlib.Dynamics.PeriodicPts.Defs
import Mathlib.Data.Int.GCD
import Mathlib.Data.Int.ModEq
import Mathlib.Tactic.Ring
import Mathlib.Tactic.LinearCombination

namespace Loop

variable {α : Type*} {stop : α → Bool} {next : α → α}

/-! ### Running until the exit test holds -/

/-- Iterate `next` until `stop` holds.  `none`: still running when the fuel is
used up. -/
def runUntil (stop : α → Bool) (next : α → α) : ℕ → α → Option α
  | 0, _ => none
  | fuel + 1, x => if stop x then some x else runUntil stop next fuel (next x)

@[simp] theorem runUntil_zero (x : α) : runUntil stop next 0 x = none := rfl

theorem runUntil_succ_of_stop {x : α} (fuel : ℕ) (h : stop x = true) :
    runUntil stop next (fuel + 1) x = some x := if_pos h

theorem runUntil_succ_of_not_stop {x : α} (fuel : ℕ) (h : stop x = false) :
    runUntil stop next (fuel + 1) x = runUntil stop next fuel (next x) := by
  have hfalse : ¬ stop x = true := by simp [h]
  exact if_neg hfalse

/-- A run that ends has stopped at the first iterate where the test holds. -/
theorem runUntil_eq_some_iff {fuel : ℕ} {x y : α} :
    runUntil stop next fuel x = some y ↔
      ∃ n < fuel, (∀ k < n, stop (next^[k] x) = false) ∧
        stop (next^[n] x) = true ∧ next^[n] x = y := by
  induction fuel generalizing x with
  | zero => simp
  | succ fuel ih =>
      rcases hx : stop x with - | -
      · rw [runUntil_succ_of_not_stop fuel hx, ih]
        constructor
        · rintro ⟨n, hn, hbefore, hstop, rfl⟩
          refine ⟨n + 1, by omega, ?_, hstop, rfl⟩
          intro k hk
          cases k with
          | zero => exact hx
          | succ k => exact hbefore k (by omega)
        · rintro ⟨n, hn, hbefore, hstop, rfl⟩
          cases n with
          | zero => simp [hx] at hstop
          | succ n =>
              exact ⟨n, by omega, fun k hk => hbefore (k + 1) (by omega), hstop, rfl⟩
      · rw [runUntil_succ_of_stop fuel hx, Option.some.injEq]
        constructor
        · rintro rfl
          exact ⟨0, by omega, by simp, hx, rfl⟩
        · rintro ⟨n, -, hbefore, -, rfl⟩
          cases n with
          | zero => rfl
          | succ n => simpa [hx] using hbefore 0 (by omega)

/-- Where the loop stops, when the first stopping iterate is known. -/
theorem runUntil_eq_of_first {fuel n : ℕ} {x : α} (hn : n < fuel)
    (hbefore : ∀ k < n, stop (next^[k] x) = false) (hstop : stop (next^[n] x) = true) :
    runUntil stop next fuel x = some (next^[n] x) :=
  runUntil_eq_some_iff.mpr ⟨n, hn, hbefore, hstop, rfl⟩

theorem runUntil_eq_none_iff {fuel : ℕ} {x : α} :
    runUntil stop next fuel x = none ↔ ∀ n < fuel, stop (next^[n] x) = false := by
  induction fuel generalizing x with
  | zero => simp
  | succ fuel ih =>
      rcases hx : stop x with - | -
      · rw [runUntil_succ_of_not_stop fuel hx, ih]
        constructor
        · intro h n hn
          cases n with
          | zero => exact hx
          | succ n => exact h n (by omega)
        · intro h n hn
          exact h (n + 1) (by omega)
      · rw [runUntil_succ_of_stop fuel hx]
        simp only [reduceCtorEq, false_iff, not_forall]
        exact ⟨0, by omega, by simp [hx]⟩

/-- A loop over a periodic orbit that has not stopped within one period never
stops: one period of fuel is as good as any. -/
theorem runUntil_eq_none_iff_of_isPeriodicPt {fuel : ℕ} {x : α} (hfuel : 0 < fuel)
    (hper : Function.IsPeriodicPt next fuel x) :
    runUntil stop next fuel x = none ↔ ∀ n, stop (next^[n] x) = false := by
  rw [runUntil_eq_none_iff]
  constructor
  · intro h n
    rw [← hper.iterate_mod_apply n]
    exact h _ (Nat.mod_lt n hfuel)
  · intro h n _
    exact h n

/-! ### The orbit of a wrapping counter -/

/-- **The orbit of a counter.**  Adding `p` over and over modulo `m` reaches
from `x` exactly the values congruent to `x` modulo `gcd p m`. -/
theorem exists_add_mul_mod_eq_iff {m p x y : ℕ} (hy : y < m) :
    (∃ n, (x + n * p) % m = y) ↔ y % Nat.gcd p m = x % Nat.gcd p m := by
  have hm : 0 < m := by omega
  constructor
  · rintro ⟨n, rfl⟩
    have hpn : Nat.gcd p m ∣ n * p := Dvd.dvd.mul_left (Nat.gcd_dvd_left p m) n
    rw [Nat.mod_mod_of_dvd _ (Nat.gcd_dvd_right p m), Nat.add_mod,
      Nat.mod_eq_zero_of_dvd hpn, Nat.add_zero, Nat.mod_mod]
  · intro h
    obtain ⟨c, hc⟩ : (Nat.gcd p m : ℤ) ∣ (y : ℤ) - x :=
      Nat.modEq_iff_dvd.mp (Eq.symm h)
    -- a Bezout coefficient of `p` counts the steps, once it is made natural
    have hbez : (Nat.gcd p m : ℤ) = p * Nat.gcdA p m + m * Nat.gcdB p m :=
      Nat.gcd_eq_gcd_ab p m
    have hm' : (m : ℤ) ≠ 0 := by exact_mod_cast hm.ne'
    obtain ⟨n, hn⟩ : ∃ n : ℕ, (n : ℤ) = Nat.gcdA p m * c % m :=
      ⟨_, Int.toNat_of_nonneg (Int.emod_nonneg _ hm')⟩
    refine ⟨n, ?_⟩
    have hcong : ((x + n * p : ℕ) : ℤ) ≡ y [ZMOD m] := by
      have hstep : (n : ℤ) * p ≡ Nat.gcdA p m * c * p [ZMOD m] := by
        rw [hn]
        exact (Int.mod_modEq _ _).mul_right _
      have hsum : (x : ℤ) + Nat.gcdA p m * c * p = y + m * -(Nat.gcdB p m * c) := by
        have hyx : (y : ℤ) - x = (p * Nat.gcdA p m + m * Nat.gcdB p m) * c := by
          rw [hc, hbez]
        linear_combination -hyx
      calc ((x + n * p : ℕ) : ℤ) = x + n * p := by push_cast; ring
        _ ≡ x + Nat.gcdA p m * c * p [ZMOD m] := Int.ModEq.add_left _ hstep
        _ = y + m * -(Nat.gcdB p m * c) := hsum
        _ ≡ y [ZMOD m] := Int.modEq_iff_dvd.mpr ⟨Nat.gcdB p m * c, by ring⟩
    have hmod : (x + n * p) % m = y % m := by exact_mod_cast hcong
    rw [hmod, Nat.mod_eq_of_lt hy]

end Loop
