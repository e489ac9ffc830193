/-
CustomData/Lib/Machine.lean

Fallible machines: a step function that consumes one input, produces one
output and may fault.  `run` folds it over a list of inputs; a fault ends the
run.

Rules that lift facts about one step to facts about whole runs:

* `run_ok_iff`, `run_error_iff` — a run gets through if every step it comes to
  does, and faults where one of them does;
* `run_invariant` — what every step preserves holds at the end of a run;
* `run_history` — what every step preserves of the inputs, the state and the
  outputs so far holds at the end of a run;
* `exists_run` — a run gets through if every step from a state with the
  invariant does and keeps it;
* `run_simulation` — a relation that every step of one machine lets the other
  follow, with related outputs, is followed by whole runs;
* `Keyed.run_filter` — where every input acts on the component named by its
  key only, a run seen through one component is a run over the inputs of that
  key alone.  Two runs that agree on those inputs therefore agree on what the
  component does (`Keyed.run_agree`), whatever the other inputs are, and a run
  gets through if the runs of all components do (`Keyed.run_ok_iff_filter`).
-/
import Mathlib.Data.List.Induction
import Mathlib.Tactic.Common

namespace Machine

universe u

variable {ε σ τ ι ω υ κ ν : Type*}

/-! ### Faulting computations -/

theorem bind_eq_ok {α β : Type u} {x : Except ε α} {f : α → Except ε β} {b : β} :
    x >>= f = .ok b ↔ ∃ a, x = .ok a ∧ f a = .ok b := by
  cases x with
  | error e => simp [bind, Except.bind]
  | ok a => simp [bind, Except.bind]

theorem map_eq_ok {α β : Type u} {x : Except ε α} {f : α → β} {b : β} :
    x.map f = .ok b ↔ ∃ a, x = .ok a ∧ f a = b := by
  cases x with
  | error e => simp [Except.map]
  | ok a => simp [Except.map]

theorem bind_eq_error {α β : Type u} {x : Except ε α} {f : α → Except ε β} {e : ε} :
    x >>= f = .error e ↔ x = .error e ∨ ∃ a, x = .ok a ∧ f a = .error e := by
  cases x with
  | error e => simp [bind, Except.bind]
  | ok a => simp [bind, Except.bind]

/-- What follows a computation without faults does not add any. -/
theorem exists_bind_ok {α β : Type u} {x : Except ε α} {f : α → β} :
    (∃ b, (x >>= fun a => .ok (f a)) = .ok b) ↔ ∃ a, x = .ok a := by
  cases x with
  | error e => simp [bind, Except.bind]
  | ok a => simp [bind, Except.bind]

/-- The output of a computation says that there is a result state. -/
theorem exists_of_map_snd {α β : Type u} {x : Except ε (α × β)} {b : β}
    (h : x.map Prod.snd = .ok b) : ∃ a, x = .ok (a, b) := by
  cases x with
  | error e => cases h
  | ok r => exact ⟨r.1, by rw [← Except.ok.inj h]⟩

@[simp] theorem ok_bind {α β : Type u} (a : α) (f : α → Except ε β) :
    (Except.ok a : Except ε α) >>= f = f a := rfl

@[simp] theorem error_bind {α β : Type u} (e : ε) (f : α → Except ε β) :
    (Except.error e : Except ε α) >>= f = .error e := rfl

/-! ### Runs -/

/-- Feed a list of inputs to a machine, collecting the outputs. -/
def run (step : σ → ι → Except ε (σ × ω)) : σ → List ι → Except ε (σ × List ω)
  | s, [] => .ok (s, [])
  | s, i :: is => do
      let (s', o) ← step s i
      let (t, os) ← run step s' is
      .ok (t, o :: os)

variable {step : σ → ι → Except ε (σ × ω)}

@[simp] theorem run_nil (s : σ) : run step s [] = .ok (s, []) := rfl

theorem run_cons (s : σ) (i : ι) (is : List ι) :
    run step s (i :: is) =
      step s i >>= fun r => run step r.1 is >>= fun q => .ok (q.1, r.2 :: q.2) := rfl

theorem run_cons_eq_ok {s t : σ} {i : ι} {is : List ι} {os : List ω} :
    run step s (i :: is) = .ok (t, os) ↔
      ∃ s' o os', step s i = .ok (s', o) ∧ run step s' is = .ok (t, os') ∧ os = o :: os' := by
  simp only [run_cons, bind_eq_ok, Prod.exists, Except.ok.injEq, Prod.mk.injEq]
  constructor
  · rintro ⟨s', o, hs, t', os', hr, rfl, rfl⟩
    exact ⟨s', o, os', hs, hr, rfl⟩
  · rintro ⟨s', o, os', hs, hr, rfl⟩
    exact ⟨s', o, hs, t, os', hr, rfl, rfl⟩

theorem run_cons_of_ok {s s' t : σ} {i : ι} {is : List ι} {o : ω} {os : List ω}
    (h : step s i = .ok (s', o)) (hr : run step s' is = .ok (t, os)) :
    run step s (i :: is) = .ok (t, o :: os) :=
  run_cons_eq_ok.mpr ⟨s', o, os, h, hr, rfl⟩

theorem run_cons_eq_error {s : σ} {i : ι} {is : List ι} {e : ε} :
    run step s (i :: is) = .error e ↔
      step s i = .error e ∨ ∃ s' o, step s i = .ok (s', o) ∧ run step s' is = .error e := by
  simp only [run_cons, bind_eq_error, Prod.exists, reduceCtorEq, and_false, exists_false, or_false]

theorem run_append_eq_ok {s t : σ} {is js : List ι} {os : List ω} :
    run step s (is ++ js) = .ok (t, os) ↔
      ∃ s' os₁ os₂, run step s is = .ok (s', os₁) ∧ run step s' js = .ok (t, os₂) ∧
        os = os₁ ++ os₂ := by
  induction is generalizing s os with
  | nil => simp
  | cons i is ih =>
      simp only [List.cons_append, run_cons_eq_ok, ih]
      constructor
      · rintro ⟨s', o, os', hs, ⟨s'', os₁, os₂, h₁, h₂, rfl⟩, rfl⟩
        exact ⟨s'', o :: os₁, os₂, ⟨s', o, os₁, hs, h₁, rfl⟩, h₂, rfl⟩
      · rintro ⟨s'', os₁, os₂, ⟨s', o, os', hs, h₁, rfl⟩, h₂, rfl⟩
        exact ⟨s', o, os' ++ os₂, hs, ⟨s'', os', os₂, h₁, h₂, rfl⟩, rfl⟩

theorem run_append_of_ok {s s' t : σ} {is js : List ι} {os₁ os₂ : List ω}
    (h₁ : run step s is = .ok (s', os₁)) (h₂ : run step s' js = .ok (t, os₂)) :
    run step s (is ++ js) = .ok (t, os₁ ++ os₂) :=
  run_append_eq_ok.mpr ⟨s', os₁, os₂, h₁, h₂, rfl⟩

theorem run_singleton_of_ok {s s' : σ} {i : ι} {o : ω} (h : step s i = .ok (s', o)) :
    run step s [i] = .ok (s', [o]) := run_cons_of_ok h (run_nil s')

theorem run_concat_of_ok {s s' t : σ} {is : List ι} {os : List ω} {i : ι} {o : ω}
    (hr : run step s is = .ok (s', os)) (h : step s' i = .ok (t, o)) :
    run step s (is ++ [i]) = .ok (t, os ++ [o]) :=
  run_append_of_ok hr (run_singleton_of_ok h)

/-- One output for each input. -/
theorem length_of_run {s t : σ} {is : List ι} {os : List ω} (h : run step s is = .ok (t, os)) :
    is.length = os.length := by
  induction is generalizing s os with
  | nil => cases h; rfl
  | cons i is ih =>
      obtain ⟨s', o, os', -, hrun, rfl⟩ := run_cons_eq_ok.mp h
      rw [List.length_cons, List.length_cons, ih hrun]

/-- Inputs that are made from others. -/
theorem run_map {α : Type*} (f : α → ι) (s : σ) (as : List α) :
    run step s (as.map f) = run (fun s a => step s (f a)) s as := by
  induction as generalizing s with
  | nil => rfl
  | cons a as ih => simp only [List.map_cons, run_cons, ih]

/-- The last input may be replaced by one that acts alike. -/
theorem run_concat_congr {i j : ι} (h : ∀ s, step s i = step s j) (s : σ) (is : List ι) :
    run step s (is ++ [i]) = run step s (is ++ [j]) := by
  induction is generalizing s with
  | nil => simp only [List.nil_append, run_cons, h]
  | cons k is ih => simp only [List.cons_append, run_cons, ih]

/-- Inputs may be replaced by others that act alike. -/
theorem run_map_congr {α : Type*} {f g : α → ι} {as : List α}
    (h : ∀ a ∈ as, ∀ s, step s (f a) = step s (g a)) {s : σ} :
    run step s (as.map f) = run step s (as.map g) := by
  induction as generalizing s with
  | nil => rfl
  | cons a as ih =>
      obtain ⟨ha, has⟩ := List.forall_mem_cons.mp h
      simp only [List.map_cons, run_cons, ha, ih has]

/-- **A run gets through** if and only if every step it comes to does. -/
theorem run_ok_iff {s : σ} {is : List ι} :
    (∃ r, run step s is = .ok r) ↔
      ∀ before i after t os, is = before ++ i :: after → run step s before = .ok (t, os) →
        ∃ r, step t i = .ok r := by
  constructor
  · rintro ⟨⟨u, os'⟩, hrun⟩ before i after t os rfl hbefore
    obtain ⟨t', os₁, os₂, h₁, h₂, -⟩ := run_append_eq_ok.mp hrun
    rw [hbefore, Except.ok.injEq, Prod.mk.injEq] at h₁
    obtain ⟨rfl, rfl⟩ := h₁
    obtain ⟨t'', o, -, hstep, -⟩ := run_cons_eq_ok.mp h₂
    exact ⟨_, hstep⟩
  · intro h
    -- induction on the prefix that has been fed
    suffices hpre : ∀ before after, is = before ++ after → ∃ r, run step s before = .ok r from
      hpre is [] (by simp)
    intro before
    induction before using List.reverseRecOn with
    | nil => exact fun _ _ => ⟨_, rfl⟩
    | append_singleton before i ih =>
        intro after hsplit
        have hsplit' : is = before ++ i :: after := by rw [hsplit, List.append_assoc]; rfl
        obtain ⟨⟨t, os⟩, hrun⟩ := ih (i :: after) hsplit'
        obtain ⟨⟨u, o⟩, hstep⟩ := h before i after t os hsplit' hrun
        exact ⟨_, run_concat_of_ok hrun hstep⟩

/-- Every output of a run is the output of a step. -/
theorem exists_step_of_mem {s t : σ} {is : List ι} {os : List ω} {o : ω}
    (h : run step s is = .ok (t, os)) (ho : o ∈ os) : ∃ s' i t', step s' i = .ok (t', o) := by
  induction is generalizing s os with
  | nil =>
      rw [run_nil, Except.ok.injEq, Prod.mk.injEq] at h
      rw [← h.2] at ho
      cases ho
  | cons i is ih =>
      obtain ⟨s', o', os', hok, hrun, rfl⟩ := run_cons_eq_ok.mp h
      rcases List.mem_cons.mp ho with rfl | ho
      · exact ⟨s, i, s', hok⟩
      · exact ih hrun ho

/-- **A run faults** where a step it comes to does. -/
theorem run_error_iff {s : σ} {is : List ι} {e : ε} :
    run step s is = .error e ↔
      ∃ before i after t os, is = before ++ i :: after ∧ run step s before = .ok (t, os) ∧
        step t i = .error e := by
  induction is generalizing s with
  | nil => simp
  | cons i is ih =>
      rw [run_cons_eq_error]
      constructor
      · rintro (h | ⟨s', o, hok, h⟩)
        · exact ⟨[], i, is, s, [], rfl, rfl, h⟩
        · obtain ⟨before, j, after, t, os, rfl, hbefore, hj⟩ := ih.mp h
          exact ⟨i :: before, j, after, t, _, rfl, run_cons_of_ok hok hbefore, hj⟩
      · rintro ⟨before, j, after, t, os, hsplit, hbefore, hj⟩
        cases before with
        | nil =>
            simp only [List.nil_append, List.cons.injEq] at hsplit
            simp only [run_nil, Except.ok.injEq, Prod.mk.injEq] at hbefore
            exact Or.inl (by rw [hsplit.1, hbefore.1, hj])
        | cons k before =>
            obtain ⟨rfl, rfl⟩ := List.cons.inj hsplit
            obtain ⟨s', o, os', hok, hbefore, -⟩ := run_cons_eq_ok.mp hbefore
            exact Or.inr ⟨s', o, hok, ih.mpr ⟨before, j, after, t, os', rfl, hbefore, hj⟩⟩

/-! ### The invariant rules -/

/-- What every step on an allowed input preserves holds at the end of a run. -/
theorem run_invariant {I : σ → Prop} {P : ι → Prop}
    (hstep : ∀ s i s' o, I s → P i → step s i = .ok (s', o) → I s') {s t : σ} {is : List ι}
    {os : List ω} (hs : I s) (hP : ∀ i ∈ is, P i) (h : run step s is = .ok (t, os)) : I t := by
  induction is generalizing s os with
  | nil =>
      simp only [run_nil, Except.ok.injEq, Prod.mk.injEq] at h
      exact h.1 ▸ hs
  | cons i is ih =>
      obtain ⟨s', o, os', hok, hrun, -⟩ := run_cons_eq_ok.mp h
      obtain ⟨hi, his⟩ := List.forall_mem_cons.mp hP
      exact ih (hstep s i s' o hs hi hok) his hrun

/-- **Invariants of the history.**  What holds at the start, and what every
step on an allowed input gets through and preserves, holds at the end of a
run: of the inputs so far, the state and the outputs so far. -/
theorem run_history {α : Type*} {input : α → ι} {I : List α → σ → List ω → Prop}
    {P : α → Prop} {s : σ} (hstart : I [] s [])
    (hstep : ∀ as t os a, I as t os → P a →
      ∃ u o, step t (input a) = .ok (u, o) ∧ I (as ++ [a]) u (os ++ [o]))
    (as : List α) (hP : ∀ a ∈ as, P a) :
    ∃ t os, run step s (as.map input) = .ok (t, os) ∧ I as t os := by
  induction as using List.reverseRecOn with
  | nil => exact ⟨s, [], rfl, hstart⟩
  | append_singleton as a ih =>
      obtain ⟨t, os, hrun, hI⟩ := ih fun b hb => hP b (List.mem_append_left _ hb)
      obtain ⟨u, o, hok, hI'⟩ := hstep as t os a hI (hP a (by simp))
      exact ⟨u, os ++ [o], by rw [List.map_append]; exact run_concat_of_ok hrun hok, hI'⟩

/-- **Runs that cannot fail.**  If every allowed input gets through from a state
with the invariant, keeps it and gives an allowed output, so does a run. -/
theorem exists_run {I : σ → Prop} {P : ι → Prop} {Q : ω → Prop}
    (hstep : ∀ s i, I s → P i → ∃ t o, step s i = .ok (t, o) ∧ I t ∧ Q o) {s : σ} {is : List ι}
    (hs : I s) (hP : ∀ i ∈ is, P i) :
    ∃ t os, run step s is = .ok (t, os) ∧ I t ∧ ∀ o ∈ os, Q o := by
  induction is generalizing s with
  | nil => exact ⟨s, [], rfl, hs, by simp⟩
  | cons i is ih =>
      obtain ⟨hi, his⟩ := List.forall_mem_cons.mp hP
      obtain ⟨s', o, hok, hs', ho⟩ := hstep s i hs hi
      obtain ⟨t, os, hrun, ht, hos⟩ := ih hs' his
      exact ⟨t, o :: os, run_cons_of_ok hok hrun, ht, List.forall_mem_cons.mpr ⟨ho, hos⟩⟩

/-- The same for inputs that belong to numbers which count up. -/
theorem exists_run_range {I : ℕ → σ → Prop} {R : ℕ → ι → Prop} {Q : ω → Prop}
    (hstep : ∀ a s i, I a s → R a i → ∃ t o, step s i = .ok (t, o) ∧ I (a + 1) t ∧ Q o)
    {a n : ℕ} {s : σ} {is : List ι} (hs : I a s) (his : List.Forall₂ R (List.range' a n) is) :
    ∃ t os, run step s is = .ok (t, os) ∧ I (a + n) t ∧ ∀ o ∈ os, Q o := by
  induction n generalizing a s is with
  | zero =>
      rw [List.range'_zero] at his
      cases his
      exact ⟨s, [], rfl, hs, by simp⟩
  | succ n ih =>
      rw [List.range'_succ] at his
      cases his with
      | cons hi his =>
          obtain ⟨s', o, hok, hs', ho⟩ := hstep a s _ hs hi
          obtain ⟨t, os, hrun, ht, hos⟩ := ih hs' his
          refine ⟨t, o :: os, run_cons_of_ok hok hrun, ?_, List.forall_mem_cons.mpr ⟨ho, hos⟩⟩
          rwa [Nat.add_right_comm, Nat.add_assoc] at ht

/-- A machine whose steps can fault only with `e` has runs that can fault only
with `e`. -/
theorem run_error_of_step {I : σ → Prop} {P : ι → Prop} {e : ε}
    (hok : ∀ s i s' o, I s → P i → step s i = .ok (s', o) → I s')
    (herr : ∀ s i e', I s → P i → step s i = .error e' → e' = e)
    {s : σ} {is : List ι} (hs : I s) (hP : ∀ i ∈ is, P i)
    (h : run step s is ≠ .error e) : ∃ r, run step s is = .ok r := by
  rcases hrun : run step s is with e' | r
  · obtain ⟨before, i, after, t, os, rfl, hbefore, hfault⟩ := run_error_iff.mp hrun
    have ht : I t := run_invariant hok hs (fun j hj => hP j (List.mem_append_left _ hj)) hbefore
    rw [herr t i e' ht (hP i (by simp)) hfault] at hrun
    exact absurd hrun h
  · exact ⟨r, rfl⟩

/-! ### The simulation rule -/

/-- If every step of the first machine is matched by the second one, with the
same output and related states, then so is every run. -/
theorem run_simulation {step' : τ → ι → Except ε (τ × ω)} {R : σ → τ → Prop} {P : ι → Prop}
    (hstep : ∀ s s' t i o, R s t → P i → step s i = .ok (s', o) →
      ∃ t', step' t i = .ok (t', o) ∧ R s' t')
    {s s' : σ} {t : τ} {is : List ι} {os : List ω} (hR : R s t) (hP : ∀ i ∈ is, P i)
    (h : run step s is = .ok (s', os)) :
    ∃ t', run step' t is = .ok (t', os) ∧ R s' t' := by
  induction is generalizing s t os with
  | nil =>
      simp only [run_nil, Except.ok.injEq, Prod.mk.injEq] at h
      exact ⟨t, by simp [← h.2], h.1 ▸ hR⟩
  | cons i is ih =>
      obtain ⟨s₁, o, os', hstp, hr, rfl⟩ := run_cons_eq_ok.mp h
      obtain ⟨t₁, ht, hR₁⟩ := hstep s s₁ t i o hR (hP i (by simp)) hstp
      obtain ⟨t', hr', hR'⟩ := ih hR₁ (fun j hj => hP j (by simp [hj])) hr
      exact ⟨t', run_cons_eq_ok.mpr ⟨t₁, o, os', ht, hr', rfl⟩, hR'⟩

/-! ### Components -/

/-- Every input of `step` acts on the component `view · (key i)` as `loc` does
and leaves the components of all other keys as they are. -/
structure Keyed (step : σ → ι → Except ε (σ × ω)) (loc : ν → ι → Except ε (ν × ω))
    (view : σ → κ → ν) (key : ι → κ) : Prop where
  acts : ∀ s i t o, step s i = .ok (t, o) → loc (view s (key i)) i = .ok (view t (key i), o)
  frame : ∀ s i t o k, step s i = .ok (t, o) → k ≠ key i → view t k = view s k

section Keyed

variable [DecidableEq κ] {loc : ν → ι → Except ε (ν × ω)} {view : σ → κ → ν} {key : ι → κ}

/-- The outputs that belong to the inputs of key `k`. -/
def outputsOf (key : ι → κ) (k : κ) (is : List ι) (os : List ω) : List ω :=
  ((is.zip os).filter fun p => key p.1 = k).map Prod.snd

omit [DecidableEq κ] in
@[simp] theorem outputsOf_nil [DecidableEq κ] (k : κ) :
    outputsOf key k ([] : List ι) ([] : List ω) = [] := rfl

theorem outputsOf_cons (k : κ) (i : ι) (is : List ι) (o : ω) (os : List ω) :
    outputsOf key k (i :: is) (o :: os) =
      if key i = k then o :: outputsOf key k is os else outputsOf key k is os := by
  by_cases h : key i = k <;> simp [outputsOf, h]

/-- **A run seen through one component.** -/
theorem Keyed.run_filter (hk : Keyed step loc view key) (k : κ) {s t : σ} {is : List ι}
    {os : List ω} (h : run step s is = .ok (t, os)) :
    run loc (view s k) (is.filter fun i => key i = k) =
      .ok (view t k, outputsOf key k is os) := by
  induction is generalizing s os with
  | nil =>
      simp only [run_nil, Except.ok.injEq, Prod.mk.injEq] at h
      obtain ⟨rfl, rfl⟩ := h
      rfl
  | cons i is ih =>
      obtain ⟨s', o, os', hstp, hr, rfl⟩ := run_cons_eq_ok.mp h
      rw [outputsOf_cons]
      by_cases hik : key i = k
      · subst hik
        rw [List.filter_cons_of_pos (by simp), if_pos rfl]
        exact run_cons_of_ok (hk.acts _ _ _ _ hstp) (ih hr)
      · rw [List.filter_cons_of_neg (by simpa using hik), if_neg hik, ← ih hr,
          hk.frame _ _ _ _ k hstp (Ne.symm hik)]

/-- **Non-interference of components.**  Two runs from states with the same
component `k`, over inputs that agree on key `k`, end with the same component
`k` and have the same outputs at the inputs of key `k`. -/
theorem Keyed.run_agree (hk : Keyed step loc view key) (k : κ) {s₁ s₂ t₁ t₂ : σ}
    {is₁ is₂ : List ι} {os₁ os₂ : List ω} (hview : view s₁ k = view s₂ k)
    (hinp : (is₁.filter fun i => key i = k) = is₂.filter fun i => key i = k)
    (h₁ : run step s₁ is₁ = .ok (t₁, os₁)) (h₂ : run step s₂ is₂ = .ok (t₂, os₂)) :
    view t₁ k = view t₂ k ∧ outputsOf key k is₁ os₁ = outputsOf key k is₂ os₂ := by
  have e₁ := hk.run_filter k h₁
  have e₂ := hk.run_filter k h₂
  rw [hview, hinp, e₂] at e₁
  simp only [Except.ok.injEq, Prod.mk.injEq] at e₁
  exact ⟨e₁.1.symm, e₁.2.symm⟩

/-- **Progress of components.**  If a step gets through wherever the component
of its input does, a run gets through if and only if the run of every component
over its own inputs does. -/
theorem Keyed.run_ok_iff_filter (hk : Keyed step loc view key)
    (hlift : ∀ s i r, loc (view s (key i)) i = .ok r → ∃ r', step s i = .ok r') {s : σ}
    {is : List ι} :
    (∃ r, run step s is = .ok r) ↔
      ∀ k, ∃ r, run loc (view s k) (is.filter fun i => key i = k) = .ok r := by
  constructor
  · rintro ⟨⟨t, os⟩, h⟩ k
    exact ⟨_, hk.run_filter k h⟩
  · intro h
    induction is generalizing s with
    | nil => exact ⟨_, rfl⟩
    | cons i is ih =>
        obtain ⟨⟨v, os⟩, hown⟩ := h (key i)
        rw [List.filter_cons_of_pos (by simp)] at hown
        obtain ⟨v', o, os', hloc, hrest, -⟩ := run_cons_eq_ok.mp hown
        obtain ⟨⟨t, o'⟩, hstep⟩ := hlift s i _ hloc
        have hacts := hk.acts _ _ _ _ hstep
        rw [hloc, Except.ok.injEq, Prod.mk.injEq] at hacts
        obtain ⟨⟨u, os''⟩, hrun⟩ := @ih t fun k => by
          by_cases hik : key i = k
          · subst hik
            exact ⟨_, hacts.1 ▸ hrest⟩
          · have hother := h k
            rw [List.filter_cons_of_neg (by simpa using hik)] at hother
            rwa [hk.frame _ _ _ _ k hstep (Ne.symm hik)]
        exact ⟨_, run_cons_of_ok hstep hrun⟩

end Keyed

end Machine
