/-
CustomData/Adjacent.lean

Two packages of one sender with neighbouring serials, their frames interleaved.

Between serials `a` and `a + 1` the generation hook looks at every change of
the package.  Away from the wrap no change jumps back far enough, so no slot is
ever stale.  At `255` and `0` exactly one of the two changes does: whenever a
package is resumed after a frame of the other one, its slot is one generation
behind, and what was counted there is lost.

`PairInv` carries this through a run.  The result is exact: a decoder delivers
both packages if and only if the serials do not wrap, or no package is
interrupted after one of its counted slices (`adjacent_delivered_iff`).
-/
import CustomData.Duplication

namespace CustomData

open Collect

variable {P : ℕ}

/-! ### The two packages -/

/-- Two packages of one sender, with serials `a` and `a + 1`. -/
structure AdjacentPair (P : ℕ) where
  sender : UInt8
  sender_lt : sender.toNat < 8
  a : UInt8
  packages : Bool → Package P

namespace AdjacentPair

/-- The serial of either package. -/
def serial (pr : AdjacentPair P) : Bool → UInt8
  | false => pr.a
  | true => pr.a + 1

/-- Either package as it is sent. -/
def sent (pr : AdjacentPair P) (x : Bool) : Sent P :=
  ⟨pr.sender, pr.serial x, pr.sender_lt, pr.packages x⟩

/-- The serials wrap between the two packages. -/
def wraps (pr : AdjacentPair P) : Bool := pr.a = 255

variable (pr : AdjacentPair P)

theorem sent_key_injective : Function.Injective fun x => (pr.sent x).key := by
  have hne : pr.a ≠ pr.a + 1 := by
    rw [ne_eq, ← UInt8.toNat_inj, UInt8.toNat_add, UInt8.toNat_one]
    have := pr.a.toNat_lt
    omega
  intro x y h
  have hser : pr.serial x = pr.serial y := congrArg Prod.snd h
  cases x <;> cases y <;> simp_all [serial, eq_comm]

theorem toNat_serial :
    (pr.serial false).toNat = pr.a.toNat ∧
      (pr.serial true).toNat = if pr.wraps then 0 else pr.a.toNat + 1 := by
  have ha := pr.a.toNat_lt
  have hw : pr.wraps = true ↔ pr.a.toNat = 255 := by
    simp [wraps, ← UInt8.toNat_inj]
  refine ⟨rfl, ?_⟩
  simp only [serial, UInt8.toNat_add, UInt8.toNat_one, hw]
  split <;> omega

/-- Going on with the same package keeps the generation. -/
theorem gcHook_same {m : SenderMeta} {x : Bool} (h : m.pkg = pr.serial x) :
    (m.gcHook (pr.serial x)).gen = m.gen :=
  SenderMeta.gcHook_gen_of_le (by rw [h]; omega)

/-- Going to the other package and back bumps the generation once if the
serials wrap, and not at all otherwise. -/
theorem gcHook_back {m : SenderMeta} {x : Bool} (h : m.pkg = pr.serial x) :
    ((m.gcHook (pr.serial !x)).gcHook (pr.serial x)).gen =
      if pr.wraps then m.gen + 1 else m.gen := by
  have ha := pr.a.toNat_lt
  have hw : pr.wraps = true ↔ pr.a.toNat = 255 := by
    simp [wraps, ← UInt8.toNat_inj]
  obtain ⟨hf, ht⟩ := pr.toNat_serial
  have hpkg : (m.gcHook (pr.serial !x)).pkg = pr.serial !x := rfl
  have hmpkg : m.pkg.toNat = (pr.serial x).toNat := by rw [h]
  rcases hwrap : pr.wraps with - | -
  · rw [hwrap] at ht hw
    simp only [Bool.false_eq_true, if_false, false_iff] at ht hw
    rw [SenderMeta.gcHook_gen_of_le, SenderMeta.gcHook_gen_of_le]
    · simp
    · rw [hmpkg]; cases x <;> simp only [Bool.not_false, Bool.not_true, hf, ht] <;> omega
    · rw [hpkg]; cases x <;> simp only [Bool.not_false, Bool.not_true, hf, ht] <;> omega
  · rw [hwrap] at ht hw
    simp only [if_true, true_iff] at ht hw
    cases x with
    | false =>
        -- `255` to `0` bumps, `0` to `255` does not
        rw [SenderMeta.gcHook_gen_of_le, SenderMeta.gcHook_gen_of_lt]
        · simp
        · rw [hmpkg]; simp only [Bool.not_false, hf, ht]; omega
        · rw [hpkg]; simp only [Bool.not_false, hf, ht]; omega
    | true =>
        rw [SenderMeta.gcHook_gen_of_lt, SenderMeta.gcHook_gen_of_le]
        · simp
        · rw [hmpkg]; simp only [Bool.not_true, hf, ht]; omega
        · rw [hpkg]; simp only [Bool.not_true, hf, ht]; omega

/-! ### The state between two frames -/

/-- The slices of `x` that survive until its next frame, when the last frame
was one of `last`. -/
def keptOf (last : Option Bool) (R : Bool → Finset ℕ) (x : Bool) : Finset ℕ :=
  (pr.packages x).survivors (R x) (pr.wraps && decide (last = some !x))

/-- The table holds the slices `R` of the two packages; the last frame was one
of `last`. -/
structure PairInv (last : Option Bool) (c : Coordinator) (R : Bool → Finset ℕ) : Prop where
  held : ∀ x, (pr.packages x).InSlot (R x) ((pr.sent x).slot c)
  start : last = none → ∀ x, R x = ∅
  pkg : ∀ x, last = some x → (c.senderMeta pr.sender).pkg = pr.serial x
  gen : ∀ x, last = some x → ((pr.sent x).slot c).gen = (c.senderMeta pr.sender).gen
  other : ∀ x, last = some x → R (!x) ≠ ∅ →
    (((pr.sent !x).slot c).gen = ((c.senderMeta pr.sender).gcHook (pr.serial !x)).gen ↔
      pr.wraps = false)

variable {pr} {last : Option Bool} {c : Coordinator} {R : Bool → Finset ℕ}

theorem pairInv_fresh (m : UInt8 → SenderMeta) :
    pr.PairInv none (.fresh m) fun _ => ∅ where
  held := fun x => (pr.packages x).inSlot_empty rfl
  start := fun _ _ => rfl
  pkg := by simp
  gen := by simp
  other := by simp

/-- What the table keeps is what `keptOf` says. -/
theorem PairInv.kept_eq (h : pr.PairInv last c R) (x : Bool) :
    (pr.packages x).kept (R x) c pr.sender (pr.serial x) = pr.keptOf last R x := by
  simp only [Package.kept, keptOf]
  by_cases hR : R x = ∅
  · rw [hR, Package.survivors_empty, Package.survivors_empty]
  · congr 1
    cases last with
    | none => exact absurd (h.start rfl x) hR
    | some y =>
        rcases Bool.eq_or_eq_not y x with rfl | rfl
        · -- the same package goes on
          have hgen := h.gen y rfl
          rw [← pr.gcHook_same (h.pkg y rfl)] at hgen
          have hslot : ((pr.sent y).slot c).gen =
              (c.slots (Coordinator.slotIndex pr.sender (pr.serial y))).gen := rfl
          rw [← hslot, hgen]
          simp
        · have hother := h.other (!x) rfl (by simpa using hR)
          rw [Bool.not_not] at hother
          have hslot : ((pr.sent x).slot c).gen =
              (c.slots (Coordinator.slotIndex pr.sender (pr.serial x))).gen := rfl
          rw [← hslot, Bool.eq_iff_iff, bne_iff_ne, ne_eq, hother]
          simp

theorem PairInv.keptOf_ne (h : pr.PairInv last c R) (x : Bool) :
    pr.keptOf last R x ≠ Finset.range ((pr.packages x).full + 1) := by
  rw [← h.kept_eq]
  exact (h.held x).kept_ne

theorem keptOf_subset (last : Option Bool) (R : Bool → Finset ℕ) (x : Bool) :
    pr.keptOf last R x ⊆ R x := Package.survivors_subset _ _ _

/-- **One frame of either package.** -/
theorem PairInv.feed (h : pr.PairInv last c R) {a : Arrival Bool} (ha : a.Of pr.sent)
    (d : Decoder) :
    ∃ c', d.feed (Config.ofPayload P) c a.frame =
        .ok (c', some ((pr.sent a.who).verdict (pr.keptOf last R a.who) a.slice)) ∧
      pr.PairInv (some a.who) c' (Function.update R a.who
        ((pr.packages a.who).after (pr.keptOf last R a.who) a.slice)) := by
  obtain ⟨x, i, f⟩ := a
  simp only [Arrival.Of] at ha
  obtain ⟨c', hfeed, hin, ht⟩ := (h.held x).feed ha pr.sender_lt d
  rw [show (pr.sent x).sender = pr.sender from rfl, show (pr.sent x).serial = pr.serial x from rfl,
    h.kept_eq] at hfeed hin
  refine ⟨c', hfeed, ?_⟩
  have hother : (pr.sent !x).slot c' = (pr.sent !x).slot c := by
    refine ht.otherSlots _ _ (Or.inr fun he => ?_)
    exact Bool.not_ne_self x (pr.sent_key_injective (Prod.ext rfl he))
  constructor
  · intro y
    rcases Bool.eq_or_eq_not y x with rfl | rfl
    · rw [Function.update_self]
      exact hin
    · rw [Function.update_of_ne (Bool.not_ne_self x), hother]
      exact h.held _
  · intro hnone
    cases hnone
  · intro y hy
    obtain rfl := Option.some.inj hy
    rw [show (c'.senderMeta pr.sender) = _ from ht.senderMeta]
    rfl
  · intro y hy
    obtain rfl := Option.some.inj hy
    exact ht.gen
  · intro y hy hR
    obtain rfl : x = y := Option.some.inj hy
    rw [Function.update_of_ne (Bool.not_ne_self x)] at hR
    rw [hother, show (c'.senderMeta pr.sender) = _ from ht.senderMeta]
    rw [show (pr.sent x).serial = pr.serial x from rfl,
      show (pr.sent x).sender = pr.sender from rfl]
    cases last with
    | none => exact absurd (h.start rfl _) hR
    | some y =>
        rcases Bool.eq_or_eq_not y x with rfl | rfl
        · -- the hook has seen this serial before
          have hpkg := h.pkg y rfl
          have hsame : (c.senderMeta pr.sender).gcHook (pr.serial y) = c.senderMeta pr.sender :=
            SenderMeta.ext hpkg.symm (pr.gcHook_same hpkg)
          rw [hsame]
          exact h.other y rfl hR
        · have hback := pr.gcHook_back (h.pkg (!x) rfl)
          rw [Bool.not_not] at hback
          rw [hback, h.gen (!x) rfl]
          cases pr.wraps <;> simp

/-! ### Interleavings -/

/-- The arrivals are all frames of both packages, in any order. -/
structure Interleaving (pr : AdjacentPair P) (arrivals : List (Arrival Bool)) : Prop where
  of : ∀ a ∈ arrivals, a.Of pr.sent
  perm : ∀ x, (slicesOf x arrivals).Perm (List.range ((pr.packages x).full + 1))

theorem Interleaving.nodup {arrivals : List (Arrival Bool)} (h : pr.Interleaving arrivals)
    (x : Bool) : (slicesOf x arrivals).Nodup :=
  (h.perm x).nodup_iff.mpr List.nodup_range

/-- After a counted slice of `x` a frame of the other package arrives, and then
another frame of `x`. -/
def Interrupted (pr : AdjacentPair P) (x : Bool) (arrivals : List (Arrival Bool)) : Prop :=
  ∃ u a v b w, arrivals = u ++ a :: (v ++ b :: w) ∧ a.who = x ∧
    (pr.packages x).Counted a.slice ∧ b.who = x ∧ ∃ o ∈ v, o.who ≠ x

theorem Interrupted.append {x : Bool} {arrivals : List (Arrival Bool)}
    (h : pr.Interrupted x arrivals) (more : List (Arrival Bool)) :
    pr.Interrupted x (arrivals ++ more) := by
  obtain ⟨u, a, v, b, w, rfl, hrest⟩ := h
  exact ⟨u, a, v, b, w ++ more, by simp, hrest⟩

/-- The slices of `x` a table holds after `arrivals` when nothing was lost. -/
def heldOf (pr : AdjacentPair P) (x : Bool) (arrivals : List (Arrival Bool)) : Finset ℕ :=
  if (slicesOf x arrivals).toFinset = Finset.range ((pr.packages x).full + 1) then ∅
  else (slicesOf x arrivals).toFinset

/-- What `x` has delivered by then. -/
def wholeOf (pr : AdjacentPair P) (x : Bool) (arrivals : List (Arrival Bool)) :
    List (List UInt8) :=
  if (slicesOf x arrivals).toFinset = Finset.range ((pr.packages x).full + 1) then
    [(pr.packages x).data]
  else []

/-- Before a slice arrives that has not arrived yet, the package is open, and
afterwards its slices are the held ones and the new one. -/
theorem slicesOf_step {arrivals : List (Arrival Bool)} {a : Arrival Bool} (ha : a.Of pr.sent)
    (hnodup : (slicesOf a.who (arrivals ++ [a])).Nodup) :
    pr.heldOf a.who arrivals = (slicesOf a.who arrivals).toFinset ∧
      pr.wholeOf a.who arrivals = [] ∧ a.slice ∉ slicesOf a.who arrivals ∧
      (slicesOf a.who (arrivals ++ [a])).toFinset =
        insert a.slice (slicesOf a.who arrivals).toFinset := by
  rw [slicesOf_concat, if_pos rfl] at hnodup ⊢
  have hnew : a.slice ∉ slicesOf a.who arrivals := by
    intro hmem
    exact (List.disjoint_of_nodup_append hnodup) hmem (by simp)
  have hopen : (slicesOf a.who arrivals).toFinset ≠
      Finset.range ((pr.packages a.who).full + 1) := by
    intro he
    have : a.slice ∈ (slicesOf a.who arrivals).toFinset := by
      rw [he]
      exact Finset.mem_range.mpr (Nat.lt_succ_iff.mpr ha.slice_le)
    exact hnew (List.mem_toFinset.mp this)
  refine ⟨by rw [heldOf, if_neg hopen], by rw [wholeOf, if_neg hopen], hnew, ?_⟩
  rw [List.toFinset_append]
  ext j
  simp

/-- A frame of one package leaves what is held and delivered of the other one. -/
theorem slicesOf_concat_of_ne {arrivals : List (Arrival Bool)} {a : Arrival Bool} {x : Bool}
    (hx : x ≠ a.who) : slicesOf x (arrivals ++ [a]) = slicesOf x arrivals := by
  rw [slicesOf_concat, if_neg hx.symm]

/-- Without an interruption nothing is lost on the way to the next frame. -/
theorem keptOf_of_uninterrupted {arrivals : List (Arrival Bool)} {a : Arrival Bool}
    (ha : a.Of pr.sent) (hnodup : (slicesOf a.who (arrivals ++ [a])).Nodup)
    (hun : pr.wraps = false ∨ ∀ x, ¬ pr.Interrupted x (arrivals ++ [a]))
    (hlast : ∀ y, last = some y → ∃ l b, arrivals = l ++ [b] ∧ b.who = y) :
    pr.keptOf last (pr.heldOf · arrivals) a.who = (slicesOf a.who arrivals).toFinset := by
  simp only [keptOf, (slicesOf_step ha hnodup).1, Package.survivors]
  apply if_neg
  rintro ⟨hstale, i, hi, hcounted⟩
  simp only [Bool.and_eq_true, decide_eq_true_eq] at hstale
  rcases hun with hw | hno
  · rw [hw] at hstale
    exact Bool.false_ne_true hstale.1
  · -- the frames after slice `i` end with one of the other package
    obtain ⟨l, b, rfl, hb⟩ := hlast _ hstale.2
    simp only [slicesOf, List.mem_toFinset, List.mem_map, List.mem_filter,
      decide_eq_true_eq] at hi
    obtain ⟨e, ⟨he, hwho⟩, rfl⟩ := hi
    have hne : b.who ≠ a.who := by rw [hb]; exact Bool.not_ne_self _
    rcases List.mem_append.mp he with he | he
    · obtain ⟨u, v, rfl⟩ := List.append_of_mem he
      exact hno a.who ⟨u, e, v ++ [b], a, [], by simp, hwho, hcounted, rfl, b, by simp, hne⟩
    · rw [List.mem_singleton.mp he] at hwho
      exact hne hwho

/-- What is held after one more frame. -/
theorem heldOf_concat {arrivals : List (Arrival Bool)} {a : Arrival Bool} (ha : a.Of pr.sent)
    (hnodup : (slicesOf a.who (arrivals ++ [a])).Nodup) :
    Function.update (pr.heldOf · arrivals) a.who
        ((pr.packages a.who).after (slicesOf a.who arrivals).toFinset a.slice) =
      (pr.heldOf · (arrivals ++ [a])) := by
  obtain ⟨-, -, -, hset⟩ := slicesOf_step ha hnodup
  funext x
  by_cases hx : x = a.who
  · subst hx
    rw [Function.update_self, Package.after, heldOf, hset]
  · rw [Function.update_of_ne hx, heldOf, heldOf, slicesOf_concat_of_ne hx]

/-- What is delivered after one more frame. -/
theorem wholeOf_concat {arrivals : List (Arrival Bool)} {a : Arrival Bool} (ha : a.Of pr.sent)
    (hnodup : (slicesOf a.who (arrivals ++ [a])).Nodup) :
    (pr.wholeOf false arrivals ++ pr.wholeOf true arrivals ++
        ((pr.packages a.who).delivery (slicesOf a.who arrivals).toFinset a.slice).toList).Perm
      (pr.wholeOf false (arrivals ++ [a]) ++ pr.wholeOf true (arrivals ++ [a])) := by
  obtain ⟨-, hwhole, -, hset⟩ := slicesOf_step ha hnodup
  have hnow : ((pr.packages a.who).delivery (slicesOf a.who arrivals).toFinset
      a.slice).toList = pr.wholeOf a.who (arrivals ++ [a]) := by
    rw [wholeOf, hset, Package.delivery]
    split <;> rfl
  have hsame : ∀ x, x ≠ a.who → pr.wholeOf x (arrivals ++ [a]) = pr.wholeOf x arrivals :=
    fun x hx => by rw [wholeOf, wholeOf, slicesOf_concat_of_ne hx]
  rw [hnow]
  cases hwho : a.who with
  | false =>
      rw [hwho] at hwhole
      rw [hwhole, hsame true (by simp [hwho]), List.nil_append]
      exact List.perm_append_comm
  | true =>
      rw [hwho] at hwhole
      rw [hwhole, hsame false (by simp [hwho]), List.append_nil]

/-- **Nothing is lost without an interruption.** -/
theorem run_uninterrupted (d : Decoder) (m : UInt8 → SenderMeta)
    (arrivals : List (Arrival Bool)) (hof : ∀ a ∈ arrivals, a.Of pr.sent)
    (hnodup : ∀ x, (slicesOf x arrivals).Nodup)
    (hun : pr.wraps = false ∨ ∀ x, ¬ pr.Interrupted x arrivals) :
    ∃ c os last, Machine.run (d.feed (Config.ofPayload P)) (.fresh m)
        (arrivals.map Arrival.frame) = .ok (c, os) ∧
      pr.PairInv last c (pr.heldOf · arrivals) ∧
      (∀ y, last = some y → ∃ l b, arrivals = l ++ [b] ∧ b.who = y) ∧
      (handed os).Perm (pr.wholeOf false arrivals ++ pr.wholeOf true arrivals) := by
  induction arrivals using List.reverseRecOn with
  | nil =>
      have hne : ∀ x, ∅ ≠ Finset.range ((pr.packages x).full + 1) := fun x =>
        (Finset.nonempty_range_iff.mpr (Nat.succ_ne_zero _)).ne_empty.symm
      have hheld : (pr.heldOf · []) = fun _ => (∅ : Finset ℕ) := by
        funext x
        simp [heldOf, slicesOf]
      exact ⟨_, [], none, rfl, hheld ▸ pairInv_fresh m, by simp,
        by simp [wholeOf, slicesOf, hne, handed]⟩
  | append_singleton arrivals a ih =>
      have hnodup' : ∀ x, (slicesOf x arrivals).Nodup := by
        intro x
        have := hnodup x
        rw [slicesOf_append] at this
        exact this.of_append_left
      obtain ⟨c, os, last, hrun, hinv, hlast, hperm⟩ := ih
        (fun b hb => hof b (List.mem_append_left _ hb)) hnodup'
        (hun.imp_right fun hno x hx => hno x (hx.append _))
      have ha : a.Of pr.sent := hof a (by simp)
      obtain ⟨c', hfeed, hinv'⟩ := hinv.feed ha d
      rw [keptOf_of_uninterrupted ha (hnodup a.who) hun hlast] at hfeed hinv'
      rw [heldOf_concat ha (hnodup a.who)] at hinv'
      refine ⟨c', _, some a.who, by
        rw [List.map_append]
        exact Machine.run_concat_of_ok hrun hfeed, hinv',
        fun y hy => ⟨arrivals, a, rfl, Option.some.inj hy⟩, ?_⟩
      rw [handed_append, Package.handed_verdict]
      exact (hperm.append_right _).trans (wholeOf_concat ha (hnodup a.who))

/-! ### Interruptions -/

/-- A verdict hands over a buffer exactly when it says COMPLETE. -/
theorem handed_concat_length (x : Bool) (os : List (Option Verdict)) {S : Finset ℕ} {i : ℕ}
    (hS : S ≠ Finset.range ((pr.packages x).full + 1))
    (h : (handed os).length =
      (pr.sent false).completions os + (pr.sent true).completions os) :
    (handed (os ++ [some ((pr.sent x).verdict S i)])).length =
      (pr.sent false).completions (os ++ [some ((pr.sent x).verdict S i)]) +
        (pr.sent true).completions (os ++ [some ((pr.sent x).verdict S i)]) := by
  have hself := Sent.completions_concat (pr.sent x) os (i := i) hS
  have hother := Sent.completions_concat_of_ne (R := S) (i := i) pr.sent_key_injective
    (Bool.not_ne_self x).symm os
  rw [handed_append, Package.handed_verdict, List.length_append, h]
  simp only [Package.delivery]
  cases x with
  | false =>
      rw [hself, show (pr.sent true) = pr.sent (!false) from rfl, hother]
      split
      · simp only [Option.toList_some, List.length_singleton]
        omega
      · rfl
  | true =>
      rw [hself, show (pr.sent false) = pr.sent (!true) from rfl, hother]
      split
      · rfl
      · rfl

/-- A run over any arrivals of the two packages. -/
theorem run_pair (d : Decoder) (m : UInt8 → SenderMeta) (arrivals : List (Arrival Bool))
    (hof : ∀ a ∈ arrivals, a.Of pr.sent) :
    ∃ c os, Machine.run (d.feed (Config.ofPayload P)) (.fresh m) (arrivals.map Arrival.frame) =
        .ok (c, os) ∧ ∃ last R, pr.PairInv last c R ∧
      (handed os).length = (pr.sent false).completions os + (pr.sent true).completions os := by
  apply Machine.run_history ?_ ?_ arrivals hof
  · exact ⟨none, _, pairInv_fresh m, rfl⟩
  rintro arrivals c os a ⟨last, R, hinv, hlen⟩ ha
  obtain ⟨c', hfeed, hinv'⟩ := hinv.feed ha d
  exact ⟨c', _, hfeed, _, _, hinv', pr.handed_concat_length a.who os (hinv.keptOf_ne a.who) hlen⟩

/-- At the wrap a counted slice that is held from before the last frame of the
other package does not survive. -/
theorem PairInv.notMem_keptOf (hinv : pr.PairInv last c R) (hw : pr.wraps = true) {x : Bool}
    {i : ℕ} (hcounted : (pr.packages x).Counted i) (hlast : i ∈ R x → last ≠ some x) :
    i ∉ pr.keptOf last R x := by
  intro hkept
  have hmem := keptOf_subset last R x hkept
  have hstale : last = some !x := by
    cases last with
    | none =>
        rw [hinv.start rfl] at hmem
        exact absurd hmem (Finset.notMem_empty i)
    | some y =>
        rcases Bool.eq_or_eq_not y x with hy | hy
        · exact absurd (congrArg some hy) (hlast hmem)
        · rw [hy]
  rw [keptOf, Package.survivors, if_pos ⟨by simp [hw, hstale], i, hmem, hcounted⟩] at hkept
  exact Finset.notMem_empty i hkept

/-- **An interruption at the wrap loses the package.**  The counted slice is
dropped when the package is resumed, and does not come again. -/
theorem run_interrupted (d : Decoder) (m : UInt8 → SenderMeta) (hw : pr.wraps = true) {x : Bool}
    {before after : List (Arrival Bool)} {o : Arrival Bool} {i : ℕ}
    (hof : ∀ a ∈ before ++ o :: after, a.Of pr.sent) (ho : o.who ≠ x)
    (hi : i ≤ (pr.packages x).full) (hcounted : (pr.packages x).Counted i)
    (hopen : ¬ Covers ((pr.packages x).full + 1) (slicesOf x before))
    (hgone : i ∉ slicesOf x after) :
    ∃ c os last R, Machine.run (d.feed (Config.ofPayload P)) (.fresh m)
        ((before ++ o :: after).map Arrival.frame) = .ok (c, os) ∧ pr.PairInv last c R ∧
      (i ∈ R x → last ≠ some x) ∧ (pr.sent x).completions os = 0 := by
  induction after using List.reverseRecOn with
  | nil =>
      obtain ⟨c, os, hrun, last, R, hinv, -⟩ := pr.run_pair d m before
        fun a ha => hof a (List.mem_append_left _ ha)
      obtain ⟨c', hfeed, hinv'⟩ := hinv.feed (hof o (by simp)) d
      refine ⟨c', _, _, _, by
        rw [List.map_append]
        exact Machine.run_concat_of_ok hrun hfeed, hinv',
        fun _ he => ho (Option.some.inj he), ?_⟩
      rw [Sent.completions_concat_of_ne pr.sent_key_injective ho]
      obtain ⟨c₁, os₁, hrun₁, hlag⟩ := decoder_run_lags pr.sent_key_injective d m before
        fun a ha => hof a (List.mem_append_left _ ha)
      rw [hrun, Except.ok.injEq, Prod.mk.injEq] at hrun₁
      obtain ⟨Rx, -, hl⟩ := hlag x
      have hzero := rounds_eq_zero_of_not_covers hopen
      have hle := hl.le
      rw [← hrun₁.2] at hle
      exact Nat.eq_zero_of_le_zero (hle.trans hzero.le)
  | append_singleton after b ih =>
      rw [slicesOf_concat] at hgone
      obtain ⟨c, os, last, R, hrun, hinv, hlast, hcount⟩ := ih
        (fun a ha => hof a (by
          rw [← List.cons_append, ← List.append_assoc]
          exact List.mem_append_left _ ha))
        (fun hmem => hgone (by split <;> simp [hmem]))
      have hb : b.Of pr.sent := hof b (by simp)
      obtain ⟨c', hfeed, hinv'⟩ := hinv.feed hb d
      refine ⟨c', _, _, _, by
        rw [← List.cons_append, ← List.append_assoc, List.map_append]
        exact Machine.run_concat_of_ok hrun hfeed, hinv', ?_⟩
      by_cases hbx : b.who = x
      · subst hbx
        rw [if_pos rfl] at hgone
        -- slice `i` does not survive the resumption
        have hlost : i ∉ insert b.slice (pr.keptOf last R b.who) := by
          rw [Finset.mem_insert, not_or]
          exact ⟨fun he => hgone (by simp [he]), hinv.notMem_keptOf hw hcounted hlast⟩
        have hopen' : insert b.slice (pr.keptOf last R b.who) ≠
            Finset.range ((pr.packages b.who).full + 1) := by
          intro hall
          exact hlost (hall ▸ Finset.mem_range.mpr (Nat.lt_succ_iff.mpr hi))
        refine ⟨fun hmem => ?_, ?_⟩
        · rw [Function.update_self, Package.after, if_neg hopen'] at hmem
          exact absurd hmem hlost
        · rw [Sent.completions_concat _ os (hinv.keptOf_ne b.who)]
          exact (if_neg hopen').trans hcount
      · refine ⟨fun _ he => hbx (Option.some.inj he), ?_⟩
        rw [Sent.completions_concat_of_ne pr.sent_key_injective hbx]
        exact hcount

/-- Of two packages of which one is interrupted at the wrap, at most the other
one is delivered. -/
theorem Interleaving.handed_of_interrupted {arrivals : List (Arrival Bool)}
    (hint : pr.Interleaving arrivals) (d : Decoder) (m : UInt8 → SenderMeta)
    (hw : pr.wraps = true) {x : Bool} (hx : pr.Interrupted x arrivals) :
    ∃ c os, Machine.run (d.feed (Config.ofPayload P)) (.fresh m) (arrivals.map Arrival.frame) =
      .ok (c, os) ∧ (handed os).length ≤ 1 := by
  have hnodup := hint.nodup
  obtain ⟨u, a, v, b, w, rfl, hax, hcounted, hbx, o, hov, hox⟩ := hx
  obtain ⟨v₁, v₂, rfl⟩ := List.append_of_mem hov
  have hsplit : u ++ a :: (v₁ ++ o :: v₂ ++ b :: w) =
      (u ++ a :: v₁) ++ o :: (v₂ ++ b :: w) := by simp
  rw [hsplit] at hint hnodup ⊢
  have hdisj : List.Disjoint (slicesOf x (u ++ a :: v₁)) (slicesOf x (o :: (v₂ ++ b :: w))) := by
    have := hnodup x
    rw [slicesOf_append] at this
    exact List.disjoint_of_nodup_append this
  have hafter : ∀ i ∈ slicesOf x (v₂ ++ b :: w), i ∈ slicesOf x (o :: (v₂ ++ b :: w)) := by
    intro i hi
    rw [← List.singleton_append, slicesOf_append]
    exact List.mem_append_right _ hi
  have ha := hint.of a (by simp)
  have hb := hint.of b (by simp)
  obtain ⟨c, os, last, R, hrun, -, -, hzero⟩ := run_interrupted d m hw hint.of hox
    (i := a.slice) (hax ▸ ha.slice_le) hcounted
    (fun hcov => hdisj (hcov b.slice (Nat.lt_succ_iff.mpr (hbx ▸ hb.slice_le)))
      (hafter _ (mem_slicesOf (by simp) hbx)))
    (fun hmem => hdisj (mem_slicesOf (by simp) hax) (hafter _ hmem))
  obtain ⟨c₁, os₁, hrun₁, _, _, -, hlen⟩ := run_pair d m _ hint.of
  obtain ⟨c₂, os₂, hrun₂, hlag⟩ := decoder_run_lags pr.sent_key_injective d m _ hint.of
  rw [hrun, Except.ok.injEq, Prod.mk.injEq] at hrun₁ hrun₂
  rw [← hrun₁.2] at hlen
  -- the other package is delivered at most once
  obtain ⟨Ry, -, hl⟩ := hlag (!x)
  have hone := hl.le
  have hrounds : ¬ 2 ≤ (rounds ((pr.sent !x).package.full + 1) _).1 :=
    mt (two_le_rounds_iff_twice (Nat.succ_pos _) _).mp
      (not_twice_of_nodup (Nat.succ_pos _) (hnodup !x))
  rw [← hrun₂.2] at hone
  refine ⟨c, os, hrun, ?_⟩
  cases x with
  | false => simp only [Bool.not_false] at hone hrounds; omega
  | true => simp only [Bool.not_true] at hone hrounds; omega

end AdjacentPair

/-! ### The theorem -/

open AdjacentPair

/-- **Adjacent packages.**  Of all frames of two packages with serials `a` and
`a + 1`, in any interleaving, a fresh decoder delivers both packages, each once
and byte for byte, if and only if the serials do not wrap or no package is
interrupted after one of its counted slices. -/
theorem adjacent_delivered_iff {pr : AdjacentPair P} {arrivals : List (Arrival Bool)}
    (hint : pr.Interleaving arrivals) {d : Decoder} {c : Coordinator} (hc : d.Initial c) :
    (∃ c' os, Machine.run (d.feed (Config.ofPayload P)) c (arrivals.map Arrival.frame) =
        .ok (c', os) ∧ (handed os).Perm [(pr.packages false).data, (pr.packages true).data]) ↔
      pr.a ≠ 255 ∨ ∀ x, ¬ pr.Interrupted x arrivals := by
  obtain ⟨m, rfl⟩ := hc.exists_fresh
  have hwrap : pr.wraps = false ↔ pr.a ≠ 255 := by simp [AdjacentPair.wraps]
  constructor
  · rintro ⟨c', os, hrun, hperm⟩
    rw [← hwrap]
    by_contra hcon
    rw [not_or, Bool.not_eq_false, not_forall] at hcon
    obtain ⟨hw, x, hx⟩ := hcon
    obtain ⟨c₁, os₁, hrun₁, hle⟩ := hint.handed_of_interrupted d m hw (not_not.mp hx)
    rw [hrun, Except.ok.injEq, Prod.mk.injEq] at hrun₁
    rw [← hrun₁.2, hperm.length_eq, List.length_cons, List.length_singleton] at hle
    exact absurd hle (by omega)
  · intro h
    obtain ⟨c', os, last, hrun, -, -, hperm⟩ :=
      run_uninterrupted d m arrivals hint.of hint.nodup (h.imp_left hwrap.mpr)
    refine ⟨c', os, hrun, hperm.trans (List.Perm.of_eq ?_)⟩
    have hwhole : ∀ x, pr.wholeOf x arrivals = [(pr.packages x).data] := by
      intro x
      rw [wholeOf, if_pos]
      ext j
      rw [List.mem_toFinset, (hint.perm x).mem_iff, List.mem_range, Finset.mem_range]
    rw [hwhole, hwhole]
    rfl

/-- A package of two slices and one of a single slice. -/
def shortPair (a : UInt8) : AdjacentPair 2 where
  sender := 1
  sender_lt := by decide
  a := a
  packages := fun x => cond x
    (Message.stream ⟨[4], by decide, by decide, by decide, by decide, by decide⟩)
    (Message.stream ⟨[1, 2, 3], by decide, by decide, by decide, by decide, by decide⟩)

/-- The single slice arrives between the other two. -/
def shortArrivals (a : UInt8) : List (Arrival Bool) :=
  [⟨false, 0, (shortPair a).packages false |>.frame 1 a 0⟩,
    ⟨true, 0, (shortPair a).packages true |>.frame 1 (a + 1) 0⟩,
    ⟨false, 1, (shortPair a).packages false |>.frame 1 a 1⟩]

theorem short_interleaving (a : UInt8) : (shortPair a).Interleaving (shortArrivals a) where
  of := by
    intro b hb
    simp only [shortArrivals, List.mem_cons, List.not_mem_nil, or_false] at hb
    rcases hb with rfl | rfl | rfl
    · exact Package.isFrame_frame _ 1 a (Nat.zero_le _)
    · exact Package.isFrame_frame _ 1 (a + 1) (Nat.zero_le _)
    · exact Package.isFrame_frame _ 1 a (Nat.le_refl 1)
  perm := by
    intro x
    cases x
    · exact List.Perm.refl _
    · exact List.Perm.refl _

theorem adjacent_delivered_short :
    (∃ c' os, Machine.run (Decoder.cs.feed (Config.ofPayload 2)) (.fresh fun _ => ⟨0, 0⟩)
        ((shortArrivals 7).map Arrival.frame) = .ok (c', os) ∧
        (handed os).Perm [((shortPair 7).packages false).data,
          ((shortPair 7).packages true).data]) ↔
      (shortPair 7).a ≠ 255 ∨ ∀ x, ¬ (shortPair 7).Interrupted x (shortArrivals 7) :=
  adjacent_delivered_iff (short_interleaving 7) (d := .cs) rfl

/-- At the wrap the resumed package is lost. -/
theorem adjacent_lost :
    ¬ ∀ (P : ℕ) (pr : AdjacentPair P) (arrivals : List (Arrival Bool)), pr.Interleaving arrivals →
      ∀ (d : Decoder) (c : Coordinator), d.Initial c →
        ∃ c' os, Machine.run (d.feed (Config.ofPayload P)) c (arrivals.map Arrival.frame) =
          .ok (c', os) ∧
          (handed os).Perm [(pr.packages false).data, (pr.packages true).data] := by
  intro h
  obtain ⟨c', os, hrun, hperm⟩ := h 2 (shortPair 255) (shortArrivals 255) (short_interleaving 255)
    .cs (.fresh fun _ => ⟨0, 0⟩) rfl
  have hhanded : (Machine.run (Decoder.cs.feed (Config.ofPayload 2)) (.fresh fun _ => ⟨0, 0⟩)
      ((shortArrivals 255).map Arrival.frame)).map (fun r => handed r.2) = .ok [[4]] := by
    decide +kernel
  rw [hrun] at hhanded
  have hone : handed os = [[4]] := Except.ok.inj hhanded
  rw [hone] at hperm
  exact absurd hperm.length_eq (by decide)

end CustomData
