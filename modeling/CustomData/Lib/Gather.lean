/-
CustomData/Lib/Gather.lean

Machines that gather numbered pieces.

A machine gathers the pieces `0, …, n - 1` of a whole if it takes a new piece to
what it holds, passes over a piece it holds already, and starts afresh with the
piece that makes the whole complete (`Gathers`).  Whatever pieces it is fed
then, in any order and with repeats, it closes as many rounds as the greedy
collector and holds the same pieces afterwards (`Gathers.run`).  What a closed
round and a held piece mean is left to the predicate `holds`, which also sees
the outputs so far.

`run_rounds` is the rule for wholes one after the other: if every whole takes
the machine from a resting state to a resting state, so does a list of them.
-/
import CustomData.Lib.Machine
import CustomData.Lib.Collect

namespace Collect

open Machine

variable {ε σ ι ω : Type*}

/-! ### Pieces of one whole -/

/-- The machine gathers pieces: `holds k R s os` is to say that it has closed
`k` rounds with the outputs `os` and holds the pieces `R` in state `s`. -/
structure Gathers (n : ℕ) (step : σ → ι → Except ε (σ × ω)) (piece : ℕ → ι → Prop)
    (holds : ℕ → Finset ℕ → σ → List ω → Prop) : Prop where
  lt : ∀ {i x}, piece i x → i < n
  more : ∀ {k R s os i x}, holds k R s os → piece i x → insert i R ≠ Finset.range n →
    ∃ t o, step s x = .ok (t, o) ∧ holds k (insert i R) t (os ++ [o])
  whole : ∀ {k R s os i x}, holds k R s os → piece i x → i ∉ R → insert i R = Finset.range n →
    ∃ t o, step s x = .ok (t, o) ∧ holds (k + 1) ∅ t (os ++ [o])

variable {n : ℕ} {step : σ → ι → Except ε (σ × ω)} {piece : ℕ → ι → Prop}
variable {holds : ℕ → Finset ℕ → σ → List ω → Prop}

/-- What a machine that gathers does with one more piece is what the greedy
collector does. -/
theorem Gathers.step_keeps (h : Gathers n step piece holds) {l : List ℕ}
    (hl : l.toFinset ⊆ Finset.range n) {s : σ} {os : List ω}
    (hs : holds (rounds n l).1 (rounds n l).2.toFinset s os) {i : ℕ} {x : ι} (hx : piece i x) :
    ∃ t o, step s x = .ok (t, o) ∧
      holds (rounds n (l ++ [i])).1 (rounds n (l ++ [i])).2.toFinset t (os ++ [o]) := by
  obtain ⟨u, hu, -⟩ := rounds_split n l
  have hsub : (rounds n l).2.toFinset ⊆ Finset.range n := fun j hj =>
    hl (List.mem_toFinset.mpr (hu ▸ List.mem_append_right u (List.mem_toFinset.mp hj)))
  have hopen := not_covers_rounds (lt_of_le_of_lt (Nat.zero_le i) (h.lt hx)) l
  have hset : ((rounds n l).2 ++ [i]).toFinset = insert i (rounds n l).2.toFinset := by
    ext j
    simp
  rw [rounds_concat]
  by_cases hc : Covers n ((rounds n l).2 ++ [i])
  · obtain ⟨hnew, hall⟩ := insert_toFinset_eq_range hsub (h.lt hx) hopen hc
    rw [roundStep_of_covers hc]
    exact h.whole hs hx hnew hall
  · have hmiss : insert i (rounds n l).2.toFinset ≠ Finset.range n := by
      intro hall
      refine hc ((covers_iff_toFinset ?_).mpr (hset.trans hall))
      rw [hset, hall]
    rw [roundStep_of_not_covers hc]
    simpa only [hset] using h.more hs hx hmiss

/-- **Pieces in any order**, after the pieces `l`: the machine closes the rounds
of the greedy collector and is left with its pieces. -/
theorem Gathers.run_from (h : Gathers n step piece holds) {l : List ℕ}
    (hl : l.toFinset ⊆ Finset.range n) {s : σ} {os : List ω}
    (hs : holds (rounds n l).1 (rounds n l).2.toFinset s os) {order : List ℕ} {xs : List ι}
    (hxs : List.Forall₂ piece order xs) :
    ∃ t os', Machine.run step s xs = .ok (t, os') ∧
      holds (rounds n (l ++ order)).1 (rounds n (l ++ order)).2.toFinset t (os ++ os') := by
  induction hxs generalizing l s os with
  | nil => exact ⟨s, [], rfl, by simpa using hs⟩
  | @cons i x order xs hx _ ih =>
      obtain ⟨t, o, hstep, ht⟩ := h.step_keeps hl hs hx
      have hl' : (l ++ [i]).toFinset ⊆ Finset.range n := by
        rw [List.toFinset_append]
        exact Finset.union_subset hl (by simpa using h.lt hx)
      obtain ⟨u, os', hrun, hu⟩ := ih hl' ht
      refine ⟨u, o :: os', Machine.run_cons_of_ok hstep hrun, ?_⟩
      simpa only [List.append_assoc, List.singleton_append] using hu

/-- Pieces in any order, to a machine that holds none. -/
theorem Gathers.run (h : Gathers n step piece holds) {s : σ} (hs : holds 0 ∅ s [])
    {order : List ℕ} {xs : List ι} (hxs : List.Forall₂ piece order xs) :
    ∃ t os, Machine.run step s xs = .ok (t, os) ∧
      holds (rounds n order).1 (rounds n order).2.toFinset t os :=
  h.run_from (l := []) (by simp) hs hxs

/-! ### Wholes one after the other -/

/-- **Round after round.**  If the inputs of every round take a resting state
to a resting state, with outputs that are right for the round, then so do the
inputs of a list of rounds. -/
theorem run_rounds {α β : Type*} {inputs : α → List ι} {rest : σ → Prop}
    {see : List ω → List β} (hnil : see [] = [])
    (hsee : ∀ os os', see (os ++ os') = see os ++ see os') {right : α → List β → Prop}
    (hround : ∀ a s, rest s → ∃ t os, Machine.run step s (inputs a) = .ok (t, os) ∧ rest t ∧
      right a (see os)) {s : σ} (hs : rest s) (as : List α) :
    ∃ t os bs, Machine.run step s (as.flatMap inputs) = .ok (t, os) ∧ rest t ∧
      see os = bs.flatten ∧ List.Forall₂ right as bs := by
  induction as generalizing s with
  | nil => exact ⟨s, [], [], rfl, hs, hnil, .nil⟩
  | cons a as ih =>
      obtain ⟨t, os, hrun, ht, hright⟩ := hround a s hs
      obtain ⟨u, os', bs, hrun', hu, hsee', hbs⟩ := ih ht
      refine ⟨u, os ++ os', see os :: bs, ?_, hu, ?_, .cons hright hbs⟩
      · exact Machine.run_append_of_ok hrun hrun'
      · rw [hsee, hsee', List.flatten_cons]

end Collect
