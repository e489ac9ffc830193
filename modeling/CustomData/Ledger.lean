/-
CustomData/Ledger.lean

What the slot table amounts to when packages arrive mixed with each other.

A `Ledger` keeps, for each package on its way, the set of its slices that are
there and the generation of its last frame; there are no bytes, no bitmaps and
no counters in it.  The decoders refine it on every sequence of frames, in any
order and with repeats (`decoder_refines_ledger`).

The packages are not empty, and their slices can be numbered (`Package`).

The generations are there to forget.  On traffic in which no sender's serial
drops by more than half its range, nothing is ever forgotten, and the ledger is
an ideal collector: each package is handed over at the frame of its last
missing slice, as often as its own frames cover it (`decoder_collects`), and
once if they cover it once (`decoder_delivers_each_once`).
-/
import CustomData.Duplication

namespace CustomData

open Collect

variable {P : ℕ} {ι : Type} [DecidableEq ι]

/-! ### The ledger -/

/-- The slices held of a package, and the generation of its last frame. -/
structure Entry where
  held : Finset ℕ
  gen : UInt8

/-- The packages on their way. -/
structure Ledger (ι : Type) where
  entries : ι → Entry
  senderMeta : UInt8 → SenderMeta

namespace Ledger

/-- Nothing has arrived. -/
def empty (senderMeta : UInt8 → SenderMeta) : Ledger ι := ⟨fun _ => ⟨∅, 0⟩, senderMeta⟩

section Steps

variable (sent : ι → Sent P) (l : Ledger ι)

/-- The meta element of the sender of a package when its next frame comes. -/
def hooked (x : ι) : SenderMeta := (l.senderMeta (sent x).sender).gcHook (sent x).serial

/-- What is still held of a package when its next frame comes. -/
def current (x : ι) : Finset ℕ :=
  (sent x).package.survivors (l.entries x).held ((l.entries x).gen != (l.hooked sent x).gen)

/-- One frame. -/
def record (a : Arrival ι) : Ledger ι where
  entries := Function.update l.entries a.who
    ⟨(sent a.who).package.after (l.current sent a.who) a.slice, (l.hooked sent a.who).gen⟩
  senderMeta := Function.update l.senderMeta (sent a.who).sender (l.hooked sent a.who)

/-- What is made of a frame. -/
def verdict (a : Arrival ι) : Verdict := (sent a.who).verdict (l.current sent a.who) a.slice

end Steps

/-- The ledger after a sequence of frames. -/
def after (sent : ι → Sent P) (l : Ledger ι) (arrivals : List (Arrival ι)) : Ledger ι :=
  arrivals.foldl (record sent) l

/-- What is made of a sequence of frames. -/
def verdicts (sent : ι → Sent P) : Ledger ι → List (Arrival ι) → List (Option Verdict)
  | _, [] => []
  | l, a :: as => some (l.verdict sent a) :: (l.record sent a).verdicts sent as

/-! ### The refinement -/

variable {sent : ι → Sent P} {l : Ledger ι} {c : Coordinator}

/-- The ledger says of every package what its slot holds. -/
structure Represents (sent : ι → Sent P) (l : Ledger ι) (c : Coordinator) : Prop where
  senderMeta : c.senderMeta = l.senderMeta
  entries : ∀ x, (sent x).package.InSlot (l.entries x).held ((sent x).slot c) ∧
    ((sent x).slot c).gen = (l.entries x).gen

omit [DecidableEq ι] in
theorem represents_empty (m : UInt8 → SenderMeta) :
    (empty m : Ledger ι).Represents sent (.fresh m) where
  senderMeta := rfl
  entries := fun x => ⟨(sent x).package.inSlot_empty rfl, rfl⟩

/-- **One frame.**  The decoder makes of it what the ledger says. -/
theorem Represents.feed (h : l.Represents sent c) (hkey : Function.Injective fun x => (sent x).key)
    (d : Decoder) {a : Arrival ι} (ha : a.Of sent) :
    ∃ c', d.feed (Config.ofPayload P) c a.frame = .ok (c', some (l.verdict sent a)) ∧
      (l.record sent a).Represents sent c' := by
  obtain ⟨c', hfeed, hin, htouch⟩ := (h.entries a.who).1.feed ha (sent a.who).sender_lt d
  have hhook : (c.senderMeta (sent a.who).sender).gcHook (sent a.who).serial =
      l.hooked sent a.who := by rw [h.senderMeta, hooked]
  have hkept : (sent a.who).package.kept (l.entries a.who).held c (sent a.who).sender
      (sent a.who).serial = l.current sent a.who := by
    rw [Package.kept, hhook, current, ← (h.entries a.who).2]
    rfl
  rw [hkept] at hfeed hin
  refine ⟨c', hfeed, ?_, ?_⟩
  · funext s
    by_cases hs : s = (sent a.who).sender
    · subst hs
      simp only [record, Function.update_self]
      rw [htouch.senderMeta, hhook]
    · simp only [record, Function.update_of_ne hs]
      rw [htouch.otherMeta s hs, h.senderMeta]
  · intro x
    by_cases hx : x = a.who
    · subst hx
      simp only [record, Function.update_self]
      rw [← hhook, ← htouch.senderMeta]
      exact ⟨hin, htouch.gen⟩
    · -- the slot of another package is another slot
      have hslot : (sent x).slot c' = (sent x).slot c :=
        htouch.otherSlots _ _ (not_and_or.mp (Sent.ne_of_key hkey hx))
      simp only [record, Function.update_of_ne hx, hslot]
      exact h.entries x

theorem Represents.run (h : l.Represents sent c) (hkey : Function.Injective fun x => (sent x).key)
    (d : Decoder) {arrivals : List (Arrival ι)} (harr : ∀ a ∈ arrivals, a.Of sent) :
    ∃ c', Machine.run (d.feed (Config.ofPayload P)) c (arrivals.map Arrival.frame) =
        .ok (c', l.verdicts sent arrivals) ∧ (l.after sent arrivals).Represents sent c' := by
  induction arrivals generalizing l c with
  | nil => exact ⟨c, rfl, h⟩
  | cons a as ih =>
      obtain ⟨ha, has⟩ := List.forall_mem_cons.mp harr
      obtain ⟨c₁, hfeed, h₁⟩ := h.feed hkey d ha
      obtain ⟨c', hrun, h'⟩ := ih h₁ has
      exact ⟨c', Machine.run_cons_of_ok hfeed hrun, h'⟩

end Ledger

/-- **The decoders refine the ledger.**  For every family of packages with
keys of their own, none of them empty and all in range (`Package`), and every
sequence of their frames, a new decoder reports on each frame what the ledger
says, hands over the same bytes, and ends in a table that the ledger
describes. -/
theorem decoder_refines_ledger {sent : ι → Sent P}
    (hkey : Function.Injective fun x => (sent x).key) (d : Decoder) (m : UInt8 → SenderMeta)
    {arrivals : List (Arrival ι)} (h : ∀ a ∈ arrivals, a.Of sent) :
    ∃ c', Machine.run (d.feed (Config.ofPayload P)) (.fresh m) (arrivals.map Arrival.frame) =
        .ok (c', (Ledger.empty m).verdicts sent arrivals) ∧
      ((Ledger.empty m).after sent arrivals).Represents sent c' :=
  (Ledger.represents_empty m).run hkey d h

/-- Two packages of one sender, the second one with an empty eop slice. -/
def twoSent (x : Bool) : Sent 2 where
  sender := 1
  serial := if x then 4 else 3
  sender_lt := sender_one_lt
  package := (if x then Message.ofBytes 2 [5, 6] (.refl true)
    else .ofBytes 2 [7] (.refl true)).stream

/-- The eop slice of the second package comes first, and twice. -/
def twoArrivals : List (Arrival Bool) :=
  [(true, 1), (false, 0), (true, 1), (true, 0)].map fun a =>
    ⟨a.1, a.2, (twoSent a.1).package.frame 1 (twoSent a.1).serial a.2⟩

theorem twoSent_key : Function.Injective fun x => (twoSent x).key := by
  intro x y h
  cases x <;> cases y <;> first | rfl | exact absurd (congrArg Prod.snd h) (by decide)

theorem twoArrivals_of : ∀ a ∈ twoArrivals, a.Of twoSent := by
  intro a ha
  simp only [twoArrivals, List.map_cons, List.map_nil, List.mem_cons, List.not_mem_nil,
    or_false] at ha
  rcases ha with rfl | rfl | rfl | rfl <;>
    exact (twoSent _).package.isFrame_frame _ _ (by decide)

theorem decoder_refines_ledger_two :
    ∃ c', Machine.run (Decoder.cpp.feed (Config.ofPayload 2)) (.fresh fun _ => ⟨200, 7⟩)
        (twoArrivals.map Arrival.frame) =
        .ok (c', (Ledger.empty fun _ => ⟨200, 7⟩).verdicts twoSent twoArrivals) ∧
      ((Ledger.empty fun _ => ⟨200, 7⟩).after twoSent twoArrivals).Represents twoSent c' :=
  decoder_refines_ledger twoSent_key .cpp _ twoArrivals_of

/-! ### The ideal collector -/

section Collector

variable (sent : ι → Sent P)

/-- One frame on a shelf of slices: a whole package is taken off. -/
def shelve (shelf : ι → Finset ℕ) (a : Arrival ι) : ι → Finset ℕ :=
  Function.update shelf a.who ((sent a.who).package.after (shelf a.who) a.slice)

/-- The packages that become whole, in this order. -/
def closings : (ι → Finset ℕ) → List (Arrival ι) → List ι
  | _, [] => []
  | shelf, a :: as =>
      if insert a.slice (shelf a.who) = Finset.range ((sent a.who).package.full + 1) then
        a.who :: closings (shelve sent shelf a) as
      else closings (shelve sent shelf a) as

/-- From no frame to a later one of the same sender does the serial drop by
more than half its range. -/
def Calm (arrivals : List (Arrival ι)) : Prop :=
  arrivals.Pairwise fun a b => (sent a.who).sender = (sent b.who).sender →
    (sent a.who).serial.toNat ≤ (sent b.who).serial.toNat + 127

instance (arrivals : List (Arrival ι)) : Decidable (Calm sent arrivals) := by
  unfold Calm; infer_instance

end Collector

variable {sent : ι → Sent P}

theorem closings_append (shelf : ι → Finset ℕ) (as bs : List (Arrival ι)) :
    closings sent shelf (as ++ bs) =
      closings sent shelf as ++ closings sent (as.foldl (shelve sent) shelf) bs := by
  induction as generalizing shelf with
  | nil => rfl
  | cons a as ih =>
      simp only [List.cons_append, closings, ih, List.foldl_cons]
      split <;> rfl

/-- **Every package on its own.**  How often the ideal collector closes a
package, and what it keeps of it, depends on the frames of this package alone:
it is the greedy collector of its slices. -/
theorem keeps_shelf {arrivals : List (Arrival ι)} (h : ∀ a ∈ arrivals, a.Of sent) (x : ι) :
    Keeps ((sent x).package.full + 1) (slicesOf x arrivals)
      ((closings sent (fun _ => ∅) arrivals).count x)
      (arrivals.foldl (shelve sent) (fun _ => ∅) x) := by
  induction arrivals using List.reverseRecOn with
  | nil => exact keeps_nil _
  | append_singleton as a ih =>
      have ha : a.Of sent := h a (by simp)
      have has : ∀ b ∈ as, b.Of sent := fun b hb => h b (List.mem_append_left _ hb)
      have hkeeps := ih has
      rw [closings_append, List.count_append, List.foldl_append, slicesOf_concat]
      generalize as.foldl (shelve sent) (fun _ => ∅) = shelf at hkeeps ⊢
      simp only [closings, List.foldl_cons, List.foldl_nil, shelve]
      by_cases hx : a.who = x
      · subst hx
        obtain ⟨hclose, hopen⟩ := hkeeps.step (slicesOf_lt has a.who)
          (Nat.lt_succ_iff.mpr ha.slice_le)
        rw [if_pos rfl, Function.update_self, Package.after]
        split
        · rw [List.count_singleton_self]
          exact hclose ‹_›
        · exact hopen ‹_›
      · rw [if_neg hx, Function.update_of_ne (Ne.symm hx)]
        split
        · rwa [List.count_singleton, beq_false_of_ne hx]
        · exact hkeeps

namespace Ledger

variable {l : Ledger ι} {as : List (Arrival ι)} {a : Arrival ι}

/-- What is held belongs to the generation of its sender, and none of the
frames to come will move it on. -/
def Settled (sent : ι → Sent P) (l : Ledger ι) (as : List (Arrival ι)) : Prop :=
  ∀ x, (l.entries x).held ≠ ∅ → (l.entries x).gen = (l.senderMeta (sent x).sender).gen ∧
    ∀ b ∈ as, (sent b.who).sender = (sent x).sender →
      (l.senderMeta (sent x).sender).pkg.toNat ≤ (sent b.who).serial.toNat + 127

omit [DecidableEq ι] in
theorem settled_empty (m : UInt8 → SenderMeta) (as : List (Arrival ι)) :
    (empty m : Ledger ι).Settled sent as :=
  fun _ hx => absurd rfl hx

omit [DecidableEq ι] in
/-- A settled ledger forgets nothing. -/
theorem Settled.current (h : l.Settled sent (a :: as)) :
    l.current sent a.who = (l.entries a.who).held := by
  by_cases hheld : (l.entries a.who).held = ∅
  · rw [Ledger.current, hheld, Package.survivors_empty]
  · obtain ⟨hgen, hcalm⟩ := h a.who hheld
    have hkeep : (l.hooked sent a.who).gen = (l.senderMeta (sent a.who).sender).gen :=
      SenderMeta.gcHook_gen_of_le (hcalm a (by simp) rfl)
    rw [Ledger.current, hkeep, hgen]
    simp [Package.survivors]

/-- It stays settled on calm traffic. -/
theorem Settled.record (h : l.Settled sent (a :: as)) (hcalm : Calm sent (a :: as)) :
    (l.record sent a).Settled sent as := by
  intro x hx
  have hlater := (List.pairwise_cons.mp hcalm).1
  by_cases hxa : x = a.who
  · subst hxa
    simp only [Ledger.record, Function.update_self]
    exact ⟨trivial, fun b hb hs => hlater b hb hs.symm⟩
  · simp only [Ledger.record, Function.update_of_ne hxa] at hx ⊢
    obtain ⟨hgen, hfut⟩ := h x hx
    by_cases hs : (sent x).sender = (sent a.who).sender
    · -- another package of the same sender: the hook leaves its generation alone
      rw [hs, Function.update_self]
      have hkeep : (l.hooked sent a.who).gen = (l.senderMeta (sent a.who).sender).gen := by
        apply SenderMeta.gcHook_gen_of_le
        rw [← hs]
        exact hfut a (by simp) hs.symm
      exact ⟨by rw [hkeep, hgen, hs], fun b hb hsb => hlater b hb hsb.symm⟩
    · rw [Function.update_of_ne hs]
      exact ⟨hgen, fun b hb => hfut b (List.mem_cons_of_mem _ hb)⟩

/-- On calm traffic the ledger is the ideal collector. -/
theorem Settled.run (h : l.Settled sent as) (hcalm : Calm sent as) :
    handed (l.verdicts sent as) = (closings sent (fun x => (l.entries x).held) as).map
        (fun x => (sent x).package.data) ∧
      ∀ x, ((l.after sent as).entries x).held =
        as.foldl (shelve sent) (fun x => (l.entries x).held) x := by
  induction as generalizing l with
  | nil => exact ⟨rfl, fun _ => rfl⟩
  | cons a as ih =>
      obtain ⟨hhanded, hheld⟩ := ih (h.record hcalm) (List.pairwise_cons.mp hcalm).2
      have hshelf : (fun x => ((l.record sent a).entries x).held) =
          shelve sent (fun x => (l.entries x).held) a := by
        funext x
        by_cases hx : x = a.who
        · subst hx
          simp only [Ledger.record, shelve, Function.update_self, h.current]
        · simp only [Ledger.record, shelve, Function.update_of_ne hx]
      rw [hshelf] at hhanded hheld
      refine ⟨?_, hheld⟩
      have hfirst : handed [some (l.verdict sent a)] =
          ((sent a.who).package.delivery (l.entries a.who).held a.slice).toList := by
        rw [Ledger.verdict, h.current]
        exact Package.handed_verdict _ _ _ _ _
      rw [verdicts, ← List.singleton_append, handed_append, hfirst, hhanded, closings,
        Package.delivery]
      split <;> rfl

end Ledger

/-- **Calm traffic.**  As long as no sender's serial drops by more than half
its range, a new decoder hands over the packages (not empty and in range) as
they become whole, each as often as its own frames cover it one time after the
other, and keeps the slices that have come since. -/
theorem decoder_collects (hkey : Function.Injective fun x => (sent x).key) (d : Decoder)
    {c : Coordinator} (hc : d.Initial c) {arrivals : List (Arrival ι)}
    (h : ∀ a ∈ arrivals, a.Of sent) (hcalm : Calm sent arrivals) :
    ∃ c' os, Machine.run (d.feed (Config.ofPayload P)) c (arrivals.map Arrival.frame) =
        .ok (c', os) ∧
      handed os = (closings sent (fun _ => ∅) arrivals).map (fun x => (sent x).package.data) ∧
      ∀ x, (closings sent (fun _ => ∅) arrivals).count x =
          (rounds ((sent x).package.full + 1) (slicesOf x arrivals)).1 ∧
        (sent x).package.InSlot
          (rounds ((sent x).package.full + 1) (slicesOf x arrivals)).2.toFinset
          ((sent x).slot c') := by
  obtain ⟨m, rfl⟩ := hc.exists_fresh
  obtain ⟨c', hrun, hrep⟩ := (Ledger.represents_empty m).run hkey d h
  obtain ⟨hhanded, hheld⟩ := (Ledger.settled_empty m arrivals).run hcalm
  refine ⟨c', _, hrun, hhanded, fun x => ?_⟩
  obtain ⟨hcount, hset⟩ := keeps_shelf h x
  refine ⟨hcount, ?_⟩
  have hin := (hrep.entries x).1
  rw [hheld x] at hin
  exact hset ▸ hin

theorem decoder_collects_two :
    ∃ c' os, Machine.run (Decoder.cs.feed (Config.ofPayload 2)) (.fresh fun _ => ⟨0, 0⟩)
        (twoArrivals.map Arrival.frame) = .ok (c', os) ∧
      handed os = (closings twoSent (fun _ => ∅) twoArrivals).map
        (fun x => (twoSent x).package.data) ∧
      ∀ x, (closings twoSent (fun _ => ∅) twoArrivals).count x =
          (rounds ((twoSent x).package.full + 1) (slicesOf x twoArrivals)).1 ∧
        (twoSent x).package.InSlot
          (rounds ((twoSent x).package.full + 1) (slicesOf x twoArrivals)).2.toFinset
          ((twoSent x).slot c') :=
  decoder_collects twoSent_key .cs rfl twoArrivals_of (by decide)

/-- **Each once.**  On calm traffic that brings every slice of every package,
and of no package all slices twice over, every package is handed over once, and
nothing else is. -/
theorem decoder_delivers_each_once (hkey : Function.Injective fun x => (sent x).key)
    (d : Decoder) {c : Coordinator} (hc : d.Initial c) {arrivals : List (Arrival ι)}
    (h : ∀ a ∈ arrivals, a.Of sent) (hcalm : Calm sent arrivals)
    (hcovers : ∀ x, Covers ((sent x).package.full + 1) (slicesOf x arrivals))
    (honce : ∀ x, ¬ Twice ((sent x).package.full + 1) (slicesOf x arrivals)) :
    ∃ c' os, ∃ order : List ι,
      Machine.run (d.feed (Config.ofPayload P)) c (arrivals.map Arrival.frame) = .ok (c', os) ∧
      handed os = order.map (fun x => (sent x).package.data) ∧
      order.Nodup ∧ ∀ x, x ∈ order := by
  obtain ⟨m, rfl⟩ := hc.exists_fresh
  obtain ⟨c', hrun, -⟩ := (Ledger.represents_empty m).run hkey d h
  obtain ⟨hhanded, -⟩ := (Ledger.settled_empty m arrivals).run hcalm
  have hone : ∀ x, (closings sent (fun _ => ∅) arrivals).count x = 1 := by
    intro x
    rw [(keeps_shelf h x).1]
    exact rounds_eq_one (Nat.succ_pos _) (hcovers x) (honce x)
  refine ⟨c', _, closings sent (fun _ => ∅) arrivals, hrun, hhanded, ?_, ?_⟩
  · exact List.nodup_iff_count_le_one.mpr fun x => (hone x).le
  · intro x
    rw [← List.count_pos_iff, hone x]
    exact Nat.one_pos

end CustomData
