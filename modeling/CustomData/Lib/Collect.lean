/-
CustomData/Lib/Collect.lean

Collecting numbered pieces `0, …, n - 1` in any order.

`frontier R` is the least number missing from the finite set `R`: the length
of the longest prefix that has been collected.  Inserting a piece moves it
only when the piece is the missing one (`frontier_insert_of_ne`).

`rounds n l` plays the greedy collector over the sequence `l`: whenever the
pieces since the last round cover `0, …, n - 1`, a round is closed and the
collection starts afresh.  Two rounds are closed exactly when the sequence
splits into two parts that cover everything on their own
(`two_le_rounds_iff_twice`).

`Last p n m` names the last number below `n` with a property; it is how a run
says which of its steps touched a place last.
-/
import Mathlib.Data.Finset.Insert
import Mathlib.Data.Finset.Range
import Mathlib.Data.Nat.Find
import Mathlib.Data.Fintype.EquivFin

namespace Collect

/-! ### The least missing number -/

/-- The least number that is not in `R`. -/
def frontier (R : Finset ℕ) : ℕ := Nat.find (Infinite.exists_notMem_finset R)

theorem frontier_notMem (R : Finset ℕ) : frontier R ∉ R :=
  Nat.find_spec (Infinite.exists_notMem_finset R)

theorem mem_of_lt_frontier {R : Finset ℕ} {i : ℕ} (h : i < frontier R) : i ∈ R :=
  not_not.mp (Nat.find_min (Infinite.exists_notMem_finset R) h)

theorem frontier_le_of_notMem {R : Finset ℕ} {i : ℕ} (h : i ∉ R) : frontier R ≤ i :=
  Nat.find_min' _ h

theorem frontier_eq_of {R : Finset ℕ} {n : ℕ} (hlt : ∀ i < n, i ∈ R) (hn : n ∉ R) :
    frontier R = n :=
  le_antisymm (frontier_le_of_notMem hn)
    (le_of_not_gt fun h => frontier_notMem R (hlt _ h))

@[simp] theorem frontier_empty : frontier ∅ = 0 :=
  frontier_eq_of (by simp) (by simp)

@[simp] theorem frontier_range (n : ℕ) : frontier (Finset.range n) = n :=
  frontier_eq_of (fun _ hi => Finset.mem_range.mpr hi) Finset.notMem_range_self

theorem frontier_mono {R S : Finset ℕ} (h : R ⊆ S) : frontier R ≤ frontier S :=
  frontier_le_of_notMem fun hmem => frontier_notMem S (h hmem)

/-- A piece that is not the missing one leaves the frontier where it is. -/
theorem frontier_insert_of_ne {R : Finset ℕ} {i : ℕ} (h : i ≠ frontier R) :
    frontier (insert i R) = frontier R := by
  refine frontier_eq_of (fun j hj => Finset.mem_insert_of_mem (mem_of_lt_frontier hj)) ?_
  rw [Finset.mem_insert, not_or]
  exact ⟨h.symm, frontier_notMem R⟩

/-- Of the numbers below `n`, something is missing iff the frontier is below
`n`. -/
theorem frontier_lt_iff {R : Finset ℕ} {n : ℕ} (hR : R ⊆ Finset.range n) :
    frontier R < n ↔ R ≠ Finset.range n := by
  constructor
  · rintro h rfl
    exact frontier_notMem _ (Finset.mem_range.mpr h)
  · intro h
    by_contra hle
    refine h (hR.antisymm fun i hi => mem_of_lt_frontier ?_)
    exact (Finset.mem_range.mp hi).trans_le (not_lt.mp hle)

/-- When one piece completes the collection, it was the missing one. -/
theorem eq_frontier_of_insert_eq_range {R : Finset ℕ} {n i : ℕ} (hi : i ∉ R)
    (h : insert i R = Finset.range n) : i = frontier R := by
  refine le_antisymm (le_of_not_gt fun hlt => ?_) (frontier_le_of_notMem hi)
  have hmem : frontier R ∈ insert i R := by
    rw [h, Finset.mem_range]
    have hin : i ∈ Finset.range n := h ▸ Finset.mem_insert_self i R
    exact hlt.trans (Finset.mem_range.mp hin)
  rcases Finset.mem_insert.mp hmem with heq | hmem'
  · omega
  · exact frontier_notMem R hmem'

/-! ### The last number with a property -/

/-- `m` is the last number below `n` with the property `p`. -/
def Last (p : ℕ → Prop) (n m : ℕ) : Prop := m < n ∧ p m ∧ ∀ k, m < k → k < n → ¬ p k

/-- One more number: it is the last one, or nothing has changed. -/
theorem last_succ_iff {p : ℕ → Prop} {n m : ℕ} :
    Last p (n + 1) m ↔ m = n ∧ p n ∨ ¬ p n ∧ Last p n m := by
  constructor
  · rintro ⟨hm, hp, hlast⟩
    rcases (Nat.lt_succ_iff.mp hm).eq_or_lt with rfl | hlt
    · exact Or.inl ⟨rfl, hp⟩
    · exact Or.inr ⟨hlast n hlt n.lt_succ_self, hlt, hp, fun k h₁ h₂ => hlast k h₁ (by omega)⟩
  · rintro (⟨rfl, hp⟩ | ⟨hn, hm, hp, hlast⟩)
    · exact ⟨m.lt_succ_self, hp, fun k h₁ h₂ => by omega⟩
    · refine ⟨by omega, hp, fun k h₁ h₂ => ?_⟩
      rcases (Nat.lt_succ_iff.mp h₂).eq_or_lt with rfl | hlt
      · exact hn
      · exact hlast k h₁ hlt

/-- Either there is a last one, or there is none at all. -/
theorem exists_last_or (p : ℕ → Prop) (n : ℕ) : (∃ m, Last p n m) ∨ ∀ m < n, ¬ p m := by
  induction n with
  | zero => exact Or.inr fun m hm => absurd hm (Nat.not_lt_zero m)
  | succ n ih =>
      by_cases hn : p n
      · exact Or.inl ⟨n, last_succ_iff.mpr (Or.inl ⟨rfl, hn⟩)⟩
      · rcases ih with ⟨m, hm⟩ | hnone
        · exact Or.inl ⟨m, last_succ_iff.mpr (Or.inr ⟨hn, hm⟩)⟩
        · apply Or.inr
          intro m hm
          rcases (Nat.lt_succ_iff.mp hm).eq_or_lt with rfl | hlt
          · exact hn
          · exact hnone m hlt

/-! ### Covering sequences -/

/-- Every number below `n` occurs in `l`. -/
def Covers (n : ℕ) (l : List ℕ) : Prop := ∀ i < n, i ∈ l

instance (n : ℕ) (l : List ℕ) : Decidable (Covers n l) := by
  unfold Covers; infer_instance

theorem Covers.append_right {n : ℕ} {l : List ℕ} (h : Covers n l) (m : List ℕ) :
    Covers n (l ++ m) :=
  fun i hi => List.mem_append_left m (h i hi)

theorem Covers.append_left {n : ℕ} {l : List ℕ} (h : Covers n l) (m : List ℕ) :
    Covers n (m ++ l) :=
  fun i hi => List.mem_append_right m (h i hi)

theorem not_covers_nil {n : ℕ} (hn : 0 < n) : ¬ Covers n [] :=
  fun h => by simpa using h 0 hn

theorem covers_iff_toFinset {n : ℕ} {l : List ℕ} (h : l.toFinset ⊆ Finset.range n) :
    Covers n l ↔ l.toFinset = Finset.range n := by
  constructor
  · intro hc
    exact h.antisymm fun i hi => List.mem_toFinset.mpr (hc i (Finset.mem_range.mp hi))
  · intro he i hi
    rw [← List.mem_toFinset, he, Finset.mem_range]
    exact hi

/-- The piece that makes a sequence cover is new, and the only one missing. -/
theorem insert_toFinset_eq_range {n i : ℕ} {l : List ℕ} (hl : l.toFinset ⊆ Finset.range n)
    (hi : i < n) (hopen : ¬ Covers n l) (hclosed : Covers n (l ++ [i])) :
    i ∉ l.toFinset ∧ insert i l.toFinset = Finset.range n := by
  have hset : (l ++ [i]).toFinset = insert i l.toFinset := by
    ext j
    simp
  have hsub : (l ++ [i]).toFinset ⊆ Finset.range n := by
    rw [hset]
    exact Finset.insert_subset (Finset.mem_range.mpr hi) hl
  have hall : insert i l.toFinset = Finset.range n :=
    hset ▸ (covers_iff_toFinset hsub).mp hclosed
  refine ⟨fun hmem => ?_, hall⟩
  rw [Finset.insert_eq_self.mpr hmem] at hall
  exact hopen ((covers_iff_toFinset hl).mpr hall)

/-- `l` splits into two parts that both cover. -/
def Twice (n : ℕ) (l : List ℕ) : Prop :=
  ∃ u v, l = u ++ v ∧ Covers n u ∧ Covers n v

/-- Without repeats nothing covers twice. -/
theorem not_twice_of_nodup {n : ℕ} {l : List ℕ} (hn : 0 < n) (h : l.Nodup) : ¬ Twice n l := by
  rintro ⟨u, v, rfl, hu, hv⟩
  exact (List.disjoint_of_nodup_append h) (hu 0 hn) (hv 0 hn)

/-! ### Greedy rounds -/

/-- One piece for the greedy collector: the number of closed rounds and the
pieces since the last one. -/
def roundStep (n : ℕ) (c : ℕ × List ℕ) (i : ℕ) : ℕ × List ℕ :=
  if Covers n (c.2 ++ [i]) then (c.1 + 1, []) else (c.1, c.2 ++ [i])

/-- The greedy collector over a whole sequence. -/
def rounds (n : ℕ) (l : List ℕ) : ℕ × List ℕ := l.foldl (roundStep n) (0, [])

theorem rounds_concat (n : ℕ) (l : List ℕ) (i : ℕ) :
    rounds n (l ++ [i]) = roundStep n (rounds n l) i := by
  simp [rounds, List.foldl_append]

theorem roundStep_of_covers {n i : ℕ} {c : ℕ × List ℕ} (h : Covers n (c.2 ++ [i])) :
    roundStep n c i = (c.1 + 1, []) := if_pos h

theorem roundStep_of_not_covers {n i : ℕ} {c : ℕ × List ℕ} (h : ¬ Covers n (c.2 ++ [i])) :
    roundStep n c i = (c.1, c.2 ++ [i]) := if_neg h

theorem le_foldl_roundStep (n : ℕ) (l : List ℕ) (c : ℕ × List ℕ) :
    c.1 ≤ (l.foldl (roundStep n) c).1 := by
  induction l generalizing c with
  | nil => exact le_rfl
  | cons i l ih =>
      refine le_trans ?_ (ih _)
      unfold roundStep
      split <;> simp

/-- What the pieces since the last round and the rest of the sequence cover
together closes at least one more round. -/
theorem lt_foldl_roundStep {n : ℕ} {l : List ℕ} {c : ℕ × List ℕ} (hc : ¬ Covers n c.2)
    (h : Covers n (c.2 ++ l)) : c.1 < (l.foldl (roundStep n) c).1 := by
  induction l generalizing c with
  | nil => exact absurd (by simpa using h) hc
  | cons i l ih =>
      rw [List.foldl_cons]
      by_cases hi : Covers n (c.2 ++ [i])
      -- piece `i` closes the round; later pieces do not open it again
      · rw [roundStep_of_covers hi]
        exact Nat.lt_of_succ_le (le_foldl_roundStep n l (c.1 + 1, []))
      · rw [roundStep_of_not_covers hi]
        apply ih (c := (c.1, c.2 ++ [i])) hi
        simpa [List.append_assoc] using h

/-- The pieces since the last round never cover. -/
theorem not_covers_rounds {n : ℕ} (hn : 0 < n) (l : List ℕ) : ¬ Covers n (rounds n l).2 := by
  induction l using List.reverseRecOn with
  | nil => exact not_covers_nil hn
  | append_singleton l i _ =>
      rw [rounds_concat]
      by_cases hi : Covers n ((rounds n l).2 ++ [i])
      · rw [roundStep_of_covers hi]
        exact not_covers_nil hn
      · rw [roundStep_of_not_covers hi]
        exact hi

/-- The sequence read so far, cut at the last closed round. -/
theorem rounds_split (n : ℕ) (l : List ℕ) :
    ∃ u, l = u ++ (rounds n l).2 ∧ (1 ≤ (rounds n l).1 → Covers n u) ∧
      (2 ≤ (rounds n l).1 → Twice n u) := by
  induction l using List.reverseRecOn with
  | nil => exact ⟨[], rfl, by simp [rounds], by simp [rounds]⟩
  | append_singleton l i ih =>
      obtain ⟨u, hl, h₁, h₂⟩ := ih
      rw [rounds_concat]
      by_cases hi : Covers n ((rounds n l).2 ++ [i])
      · rw [roundStep_of_covers hi]
        refine ⟨l ++ [i], by simp, fun _ => ?_, fun h => ?_⟩
        · rw [hl, List.append_assoc]
          exact hi.append_left u
        · refine ⟨u, (rounds n l).2 ++ [i], ?_, h₁ (by simpa using h), hi⟩
          rw [← List.append_assoc, ← hl]
      · rw [roundStep_of_not_covers hi]
        exact ⟨u, by rw [← List.append_assoc, ← hl], h₁, h₂⟩

/-- Without covering there is no round. -/
theorem rounds_eq_zero_of_not_covers {n : ℕ} {l : List ℕ} (h : ¬ Covers n l) :
    (rounds n l).1 = 0 := by
  obtain ⟨u, hl, h₁, -⟩ := rounds_split n l
  by_contra hne
  exact h (hl ▸ (h₁ (Nat.pos_of_ne_zero hne)).append_right _)

/-- **Two rounds.**  The greedy collector closes a second round exactly when
the sequence covers everything twice, one part after the other. -/
theorem two_le_rounds_iff_twice {n : ℕ} (hn : 0 < n) (l : List ℕ) :
    2 ≤ (rounds n l).1 ↔ Twice n l := by
  constructor
  · intro h
    obtain ⟨u, hl, -, h₂⟩ := rounds_split n l
    obtain ⟨v, w, rfl, hv, hw⟩ := h₂ h
    exact ⟨v, w ++ (rounds n l).2, hl.trans (List.append_assoc ..), hv, hw.append_right _⟩
  · rintro ⟨u, v, rfl, hu, hv⟩
    have h₁ : 0 < (rounds n u).1 :=
      lt_foldl_roundStep (c := (0, [])) (not_covers_nil hn) (by simpa using hu)
    have h₂ : (rounds n u).1 < (rounds n (u ++ v)).1 := by
      simp only [rounds, List.foldl_append]
      exact lt_foldl_roundStep (not_covers_rounds hn u) (hv.append_left _)
    omega

/-- As long as something is missing, the pieces are all there since the
start. -/
theorem rounds_of_not_covers {n : ℕ} {l : List ℕ} (h : ¬ Covers n l) : rounds n l = (0, l) := by
  induction l using List.reverseRecOn with
  | nil => rfl
  | append_singleton l i ih =>
      have hl : ¬ Covers n l := fun hc => h (hc.append_right [i])
      rw [rounds_concat, ih hl, roundStep_of_not_covers h]

theorem rounds_range_of_lt {n k : ℕ} (h : k < n) : rounds n (List.range k) = (0, List.range k) :=
  rounds_of_not_covers fun hc => by simpa using hc k h

theorem toFinset_range (n : ℕ) : (List.range n).toFinset = Finset.range n := by
  ext j
  simp

theorem rounds_range_self (n : ℕ) : rounds (n + 1) (List.range (n + 1)) = (1, []) := by
  have hc : Covers (n + 1) (List.range n ++ [n]) := fun i hi => by
    rw [← List.range_succ, List.mem_range]
    exact hi
  rw [List.range_succ, rounds_concat, rounds_range_of_lt n.lt_succ_self, roundStep_of_covers hc]

/-- What covers once and not twice closes one round. -/
theorem rounds_eq_one {n : ℕ} (hn : 0 < n) {l : List ℕ} (hcovers : Covers n l)
    (honce : ¬ Twice n l) : (rounds n l).1 = 1 := by
  have hlt : 0 < (rounds n l).1 :=
    lt_foldl_roundStep (c := (0, [])) (not_covers_nil hn) (by simpa using hcovers)
  have hlt₂ := mt (two_le_rounds_iff_twice hn l).mp honce
  omega

/-! ### Other collectors -/

/-- A collector that has closed `c` rounds and holds `R` after `l` is behind
the greedy one. -/
def Lags (n : ℕ) (l : List ℕ) (c : ℕ) (R : Finset ℕ) : Prop :=
  c < (rounds n l).1 ∨ c = (rounds n l).1 ∧ R ⊆ (rounds n l).2.toFinset

/-- A collector that is where the greedy one is. -/
def Keeps (n : ℕ) (l : List ℕ) (c : ℕ) (R : Finset ℕ) : Prop :=
  c = (rounds n l).1 ∧ R = (rounds n l).2.toFinset

theorem Lags.le {n c : ℕ} {l : List ℕ} {R : Finset ℕ} (h : Lags n l c R) : c ≤ (rounds n l).1 := by
  rcases h with h | ⟨h, -⟩ <;> omega

theorem lags_nil (n : ℕ) : Lags n [] 0 ∅ := Or.inr ⟨rfl, by simp⟩

theorem keeps_nil (n : ℕ) : Keeps n [] 0 ∅ := ⟨rfl, by simp [rounds]⟩

/-- A collector that forgets pieces stays behind: with the rest `R'` of what it
held, the next piece closes a round or is added. -/
theorem Lags.step {n c : ℕ} {l : List ℕ} {R R' : Finset ℕ} (h : Lags n l c R) (hsub : R' ⊆ R)
    (i : ℕ) :
    (insert i R' = Finset.range n → Lags n (l ++ [i]) (c + 1) ∅) ∧
      (insert i R' ≠ Finset.range n → Lags n (l ++ [i]) c (insert i R')) := by
  have hmem : ∀ j ∈ insert i R', c = (rounds n l).1 → R ⊆ (rounds n l).2.toFinset →
      j ∈ (rounds n l).2 ++ [i] := by
    intro j hj _ hR
    rcases Finset.mem_insert.mp hj with rfl | hj
    · simp
    · exact List.mem_append_left _ (List.mem_toFinset.mp (hR (hsub hj)))
  simp only [Lags, rounds_concat]
  by_cases hc : Covers n ((rounds n l).2 ++ [i])
  · rw [roundStep_of_covers hc]
    -- the greedy collector closes a round, so it is ahead either way
    refine ⟨fun _ => ?_, fun _ => ?_⟩ <;> rcases h with h | ⟨h, -⟩ <;> simp <;> omega
  -- the greedy collector goes on, and then nobody who is level with it can close a round
  · rw [roundStep_of_not_covers hc]
    refine ⟨fun hall => ?_, fun _ => ?_⟩
    · rcases h with h | ⟨h, hR⟩
      · simp; omega
      · exact absurd (fun j hj => hmem j (hall ▸ Finset.mem_range.mpr hj) h hR) hc
    · rcases h with h | ⟨h, hR⟩
      · exact Or.inl h
      · exact Or.inr ⟨h, fun j hj => List.mem_toFinset.mpr (hmem j hj h hR)⟩

/-- A collector that forgets nothing is the greedy one. -/
theorem Keeps.step {n c i : ℕ} {l : List ℕ} {R : Finset ℕ} (h : Keeps n l c R)
    (hl : ∀ j ∈ l, j < n) (hi : i < n) :
    (insert i R = Finset.range n → Keeps n (l ++ [i]) (c + 1) ∅) ∧
      (insert i R ≠ Finset.range n → Keeps n (l ++ [i]) c (insert i R)) := by
  obtain ⟨rfl, rfl⟩ := h
  obtain ⟨u, hu, -⟩ := rounds_split n l
  have hset : ((rounds n l).2 ++ [i]).toFinset = insert i (rounds n l).2.toFinset := by
    rw [List.toFinset_append]
    ext j
    simp
  have hsub : ((rounds n l).2 ++ [i]).toFinset ⊆ Finset.range n := by
    intro j hj
    rw [hset, Finset.mem_insert, List.mem_toFinset] at hj
    rw [Finset.mem_range]
    rcases hj with rfl | hj
    · exact hi
    · exact hl j (hu ▸ List.mem_append_right u hj)
  simp only [Keeps, rounds_concat, ← hset, ne_eq, ← covers_iff_toFinset hsub]
  constructor
  · intro hc
    rw [roundStep_of_covers hc]
    simp
  · intro hc
    rw [roundStep_of_not_covers hc]
    simp

end Collect
