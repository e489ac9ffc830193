/-
CustomData/Duplication.lean

Repeated frames and repeated deliveries.

A receiver forgets a package when it completes it: the state is the zero state
again and later copies of its frames start a new collection.  Of a sequence of
slice arrivals the stream therefore closes as many rounds as the greedy
collector (`stream_run_keeps`), and a decoder at most as many, because its lazy
reset may lose slices in between (`decoder_run_lags`).

So packages are delivered at most once exactly when no package has all its
frames arrive again after all of them arrived
(`delivers_at_most_once_iff`).  One repeat of a one-slice package is enough to
deliver it twice (`delivers_twice`).
-/
import CustomData.SlotRx
import CustomData.StreamRx

namespace CustomData

open Collect

variable {P : ℕ} {ι : Type}

/-! ### Arrivals of several packages -/

/-- A package with the sender and the serial it is sent under. -/
structure Sent (P : ℕ) where
  sender : UInt8
  serial : UInt8
  sender_lt : sender.toNat < 8
  package : Package P

/-- What tells packages apart. -/
def Sent.key (s : Sent P) : UInt8 × UInt8 := (s.sender, s.serial)

/-- A frame that arrives, and the slice it is a copy of. -/
structure Arrival (ι : Type) where
  who : ι
  slice : ℕ
  frame : List UInt8

/-- The arrival is a copy of a frame of the package it names. -/
def Arrival.Of (a : Arrival ι) (sent : ι → Sent P) : Prop :=
  (sent a.who).package.IsFrame (sent a.who).sender (sent a.who).serial a.slice a.frame

/-- The slices of package `x` in the order they arrive. -/
def slicesOf [DecidableEq ι] (x : ι) (arrivals : List (Arrival ι)) : List ℕ :=
  (arrivals.filter fun a => a.who = x).map Arrival.slice

theorem slicesOf_append [DecidableEq ι] (x : ι) (l l' : List (Arrival ι)) :
    slicesOf x (l ++ l') = slicesOf x l ++ slicesOf x l' := by
  simp [slicesOf, List.filter_append]

theorem mem_slicesOf [DecidableEq ι] {x : ι} {l : List (Arrival ι)} {a : Arrival ι} (ha : a ∈ l)
    (hx : a.who = x) : a.slice ∈ slicesOf x l :=
  List.mem_map_of_mem (List.mem_filter.mpr ⟨ha, by simpa using hx⟩)

theorem slicesOf_concat [DecidableEq ι] (x : ι) (arrivals : List (Arrival ι)) (a : Arrival ι) :
    slicesOf x (arrivals ++ [a]) =
      if a.who = x then slicesOf x arrivals ++ [a.slice] else slicesOf x arrivals := by
  by_cases h : a.who = x <;> simp [slicesOf, List.filter_append, h]

theorem slicesOf_lt [DecidableEq ι] {sent : ι → Sent P} {arrivals : List (Arrival ι)}
    (h : ∀ a ∈ arrivals, a.Of sent) (x : ι) :
    ∀ i ∈ slicesOf x arrivals, i < (sent x).package.full + 1 := by
  intro i hi
  simp only [slicesOf, List.mem_map, List.mem_filter, decide_eq_true_eq] at hi
  obtain ⟨a, ⟨ha, rfl⟩, rfl⟩ := hi
  exact Nat.lt_succ_iff.mpr (h a ha).slice_le

/-- COMPLETE callbacks for the package. -/
def Sent.callbacks (s : Sent P) (os : List (Option Callback)) : ℕ :=
  os.countP fun o => o.any fun cb =>
    cb.coord.senderId = s.sender ∧ cb.coord.packageId = s.serial ∧ cb.e = .complete

/-- COMPLETE verdicts for the package. -/
def Sent.completions (s : Sent P) (os : List (Option Verdict)) : ℕ :=
  os.countP fun o => o.any fun v =>
    v.senderId = s.sender ∧ v.packageId = s.serial ∧ v.e = .complete

theorem Sent.ne_of_key {sent : ι → Sent P} (hkey : Function.Injective fun x => (sent x).key)
    {x y : ι} (h : x ≠ y) :
    ¬ ((sent x).sender = (sent y).sender ∧ (sent x).serial = (sent y).serial) :=
  fun he => h (hkey (Prod.ext he.1 he.2))

/-! ### The decoders -/

section Decoders

variable {sent : ι → Sent P} {x y : ι} {R : Finset ℕ} {i : ℕ}

/-- The verdict on a frame of `x`. -/
abbrev Sent.verdict (s : Sent P) (R : Finset ℕ) (i : ℕ) : Verdict :=
  s.package.verdict s.sender s.serial R i

/-- It counts for `x` when the package is whole. -/
theorem Sent.completions_concat (s : Sent P) (os : List (Option Verdict))
    (hR : R ≠ Finset.range (s.package.full + 1)) :
    s.completions (os ++ [some (s.verdict R i)]) =
      if insert i R = Finset.range (s.package.full + 1) then s.completions os + 1
      else s.completions os := by
  have he : (s.verdict R i).e = .complete ↔ insert i R = Finset.range (s.package.full + 1) :=
    Package.verdict_complete_iff hR
  rw [completions, List.countP_append]
  by_cases hall : insert i R = Finset.range (s.package.full + 1)
  · rw [if_pos hall, List.countP_cons_of_pos]
    · rfl
    · simp only [Option.any_some, decide_eq_true_eq]
      exact ⟨rfl, rfl, he.mpr hall⟩
  · rw [if_neg hall, List.countP_cons_of_neg]
    · rfl
    · simp only [Option.any_some, decide_eq_true_eq]
      exact fun hc => hall (he.mp hc.2.2)

/-- It counts for nobody else. -/
theorem Sent.completions_concat_of_ne (hkey : Function.Injective fun x => (sent x).key)
    (hxy : x ≠ y) (os : List (Option Verdict)) :
    (sent y).completions (os ++ [some ((sent x).verdict R i)]) = (sent y).completions os := by
  rw [completions, List.countP_append, List.countP_cons_of_neg]
  · rfl
  · simp only [Option.any_some, decide_eq_true_eq]
    exact fun hc => Sent.ne_of_key hkey hxy ⟨hc.1, hc.2.1⟩

/-- The slot of a package. -/
def Sent.slot (s : Sent P) (c : Coordinator) : Slot :=
  c.slots (Coordinator.slotIndex s.sender s.serial)

variable [DecidableEq ι]

/-- **The decoders lag behind the greedy collector.**  On copies of frames of
packages with different keys a decoder never faults, and it completes no
package more often than its frames arrive all over again. -/
theorem decoder_run_lags (hkey : Function.Injective fun x => (sent x).key) (d : Decoder)
    (m : UInt8 → SenderMeta) (arrivals : List (Arrival ι)) (h : ∀ a ∈ arrivals, a.Of sent) :
    ∃ c' os, Machine.run (d.feed (Config.ofPayload P)) (.fresh m) (arrivals.map Arrival.frame) =
        .ok (c', os) ∧
      ∀ x, ∃ R, (sent x).package.InSlot R ((sent x).slot c') ∧
        Lags ((sent x).package.full + 1) (slicesOf x arrivals) ((sent x).completions os) R := by
  apply Machine.run_history ?_ ?_ arrivals h
  · exact fun x => ⟨∅, (sent x).package.inSlot_empty rfl, lags_nil _⟩
  intro arrivals c₁ os a hinv ha
  obtain ⟨R, hin, hlag⟩ := hinv a.who
  obtain ⟨c₂, hfeed, hin₂, htouch⟩ := hin.feed ha (sent a.who).sender_lt d
  have hne := hin.kept_ne
  generalize hkept : (sent a.who).package.kept R c₁ (sent a.who).sender (sent a.who).serial =
    R' at hfeed hin₂ hne
  have hsub : R' ⊆ R := hkept ▸ Package.survivors_subset _ _ _
  refine ⟨c₂, _, hfeed, fun x => ?_⟩
  by_cases hx : a.who = x
  · subst hx
    refine ⟨_, hin₂, ?_⟩
    rw [slicesOf_concat, if_pos rfl, Sent.completions_concat _ os hne, Package.after]
    obtain ⟨hclosed, hopen⟩ := hlag.step hsub a.slice
    split
    · rename_i hall
      exact hclosed hall
    · rename_i hall
      exact hopen hall
  · obtain ⟨Rx, hinx, hlagx⟩ := hinv x
    refine ⟨Rx, ?_, ?_⟩
    · have hother : (sent x).slot c₂ = (sent x).slot c₁ :=
        htouch.otherSlots _ _ (by
          by_contra hcon
          rw [not_or, not_not, not_not] at hcon
          exact Sent.ne_of_key hkey (Ne.symm hx) hcon)
      rw [hother]
      exact hinx
    · rw [slicesOf_concat, if_neg hx, Sent.completions_concat_of_ne hkey hx]
      exact hlagx

end Decoders

/-! ### The stream -/

/-- A state store that keeps the packages apart. -/
structure PackageStore (σ : Type) extends StateStore σ where
  get_put_of_ne : ∀ w c c' s, ¬ c.SamePackage c' → get (put w c s) c' = get w c'

/-- A table with one state for each package serial of each sender. -/
def PackageStore.table : PackageStore (UInt8 → UInt8 → RxSliceState) where
  get := fun w c => w c.senderId c.packageId
  put := fun w c s => Function.update w c.senderId (Function.update (w c.senderId) c.packageId s)
  get_put := by
    rintro w c c' s ⟨hs, hk⟩
    simp [← hs, ← hk]
  get_put_of_ne := by
    intro w c c' s hne
    by_cases hs : c'.senderId = c.senderId
    · have hk : c'.packageId ≠ c.packageId := fun hk => hne ⟨hs.symm, hk.symm⟩
      simp [hs, hk]
    · simp [hs]

section Stream

variable {σ : Type} {store : PackageStore σ} {w w' : σ}

/-- The stream keeps the slices of the package. -/
def Sent.StoredIn (s : Sent P) (store : PackageStore σ) (R : Finset ℕ) (w : σ) : Prop :=
  s.package.Stored s.sender s.serial store.toStateStore R w

/-- One frame of a package at the stream: COMPLETE exactly when the package is
whole, and then the state is forgotten. -/
theorem Sent.StoredIn.feed {s : Sent P} {R : Finset ℕ} {i : ℕ} {f : List UInt8}
    (h : s.StoredIn store R w) (hf : s.package.IsFrame s.sender s.serial i f) :
    ∃ w' o, recordFeed store.toStateStore (Config.ofPayload P) w f = .ok (w', o) ∧
      s.StoredIn store (s.package.after R i) w' ∧
      (∀ cb, o = some cb → cb.coord.senderId = s.sender ∧ cb.coord.packageId = s.serial) ∧
      ((∃ cb, o = some cb ∧ cb.e = .complete) ↔
        insert i R = Finset.range (s.package.full + 1)) := by
  by_cases hall : insert i R = Finset.range (s.package.full + 1)
  · have hiR : i ∉ R := by
      intro hi
      obtain ⟨_, -, htr⟩ := h
      exact htr.missing (by rw [← hall, Finset.insert_eq_self.mpr hi])
    obtain ⟨w', old, next, hfeed, -, -, hzero⟩ :=
      Package.Stored.feed_last h s.sender_lt hf hiR hall
    refine ⟨w', _, hfeed, ?_, fun cb hcb => ?_, iff_of_true ⟨_, rfl, rfl⟩ hall⟩
    · rw [Package.after, if_pos hall]
      exact s.package.stored_empty hzero
    · rw [← Option.some.inj hcb]
      exact ⟨rfl, rfl⟩
  · obtain ⟨w', o, hfeed, hst, hold, hnew⟩ := Package.Stored.feed_open h s.sender_lt hf hall
    refine ⟨w', o, hfeed, by rwa [Package.after, if_neg hall], ?_, iff_of_false ?_ hall⟩
    all_goals
      by_cases hi : i ∈ R
      · simp [hold hi]
      · obtain ⟨e, old, next, he, rfl⟩ := hnew hi
        simp [Package.callback, Package.coord, he]

theorem Sent.callbacks_concat (s : Sent P) (os : List (Option Callback)) {o : Option Callback}
    (hown : ∀ cb, o = some cb → cb.coord.senderId = s.sender ∧ cb.coord.packageId = s.serial)
    {whole : Prop} [Decidable whole] (hwhole : (∃ cb, o = some cb ∧ cb.e = .complete) ↔ whole) :
    s.callbacks (os ++ [o]) = if whole then s.callbacks os + 1 else s.callbacks os := by
  rw [callbacks, List.countP_append]
  by_cases hw : whole
  · obtain ⟨cb, rfl, he⟩ := hwhole.mpr hw
    rw [if_pos hw, List.countP_cons_of_pos]
    · rfl
    · simp only [Option.any_some, decide_eq_true_eq]
      exact ⟨(hown cb rfl).1, (hown cb rfl).2, he⟩
  · rw [if_neg hw, List.countP_cons_of_neg]
    · rfl
    · cases o with
      | none => simp
      | some cb =>
          simp only [Option.any_some, decide_eq_true_eq]
          exact fun hc => hw (hwhole.mp ⟨cb, rfl, hc.2.2⟩)

theorem Sent.callbacks_concat_of_ne {sent : ι → Sent P}
    (hkey : Function.Injective fun x => (sent x).key) {x y : ι} (hxy : x ≠ y)
    (os : List (Option Callback)) {o : Option Callback}
    (hown : ∀ cb, o = some cb →
      cb.coord.senderId = (sent x).sender ∧ cb.coord.packageId = (sent x).serial) :
    (sent y).callbacks (os ++ [o]) = (sent y).callbacks os := by
  rw [callbacks, List.countP_append, List.countP_cons_of_neg]
  · rfl
  · cases o with
    | none => simp
    | some cb =>
        simp only [Option.any_some, decide_eq_true_eq]
        rintro ⟨hs, hk, -⟩
        obtain ⟨hs', hk'⟩ := hown cb rfl
        exact Sent.ne_of_key hkey hxy ⟨hs'.symm.trans hs, hk'.symm.trans hk⟩

variable [DecidableEq ι]

/-- **The stream is the greedy collector.** -/
theorem stream_run_keeps {sent : ι → Sent P} (hkey : Function.Injective fun x => (sent x).key)
    (hzero : ∀ c, store.get w c = .zero) (arrivals : List (Arrival ι))
    (h : ∀ a ∈ arrivals, a.Of sent) :
    ∃ w' os, Machine.run (recordFeed store.toStateStore (Config.ofPayload P)) w
        (arrivals.map Arrival.frame) = .ok (w', os) ∧
      ∀ x, ∃ R, (sent x).StoredIn store R w' ∧
        Keeps ((sent x).package.full + 1) (slicesOf x arrivals) ((sent x).callbacks os) R := by
  -- that the slices so far are in range is part of the history
  suffices hall : ∃ w' os, Machine.run (recordFeed store.toStateStore (Config.ofPayload P)) w
      (arrivals.map Arrival.frame) = .ok (w', os) ∧ (∀ a ∈ arrivals, a.Of sent) ∧
      ∀ x, ∃ R, (sent x).StoredIn store R w' ∧
        Keeps ((sent x).package.full + 1) (slicesOf x arrivals) ((sent x).callbacks os) R by
    obtain ⟨w', os, hrun, -, hinv⟩ := hall
    exact ⟨w', os, hrun, hinv⟩
  apply Machine.run_history ?_ ?_ arrivals h
  · exact ⟨by simp, fun x =>
      ⟨∅, (sent x).package.stored_empty fun c _ _ => hzero c, keeps_nil _⟩⟩
  rintro arrivals w₁ os a ⟨hof, hinv⟩ ha
  obtain ⟨R, hst, hkeep⟩ := hinv a.who
  obtain ⟨w₂, o, hfeed, hst₂, hown, hwhole⟩ := hst.feed ha
  refine ⟨w₂, o, hfeed, List.forall_mem_append.mpr ⟨hof, by simpa using ha⟩, fun x => ?_⟩
  by_cases hx : a.who = x
  · subst hx
    refine ⟨_, hst₂, ?_⟩
    rw [slicesOf_concat, if_pos rfl, Sent.callbacks_concat _ os hown hwhole, Package.after]
    obtain ⟨hclosed, hopen⟩ := hkeep.step (slicesOf_lt hof a.who) (Nat.lt_succ_iff.mpr ha.slice_le)
    split
    · rename_i hall
      exact hclosed hall
    · rename_i hall
      exact hopen hall
  · obtain ⟨Rx, ⟨s, hget, htr⟩, hkeepx⟩ := hinv x
    refine ⟨Rx, ⟨s, fun c hcs hck => ?_, htr⟩, ?_⟩
    · rcases recordFeed_state ha (sent a.who).sender_lt hfeed with rfl | ⟨t, rfl⟩
      · exact hget c hcs hck
      · rw [← hget c hcs hck]
        refine store.get_put_of_ne _ _ _ _ fun hsame => Sent.ne_of_key hkey hx ?_
        exact ⟨hsame.1.trans hcs, hsame.2.trans hck⟩
    · rw [slicesOf_concat, if_neg hx, Sent.callbacks_concat_of_ne hkey hx os hown]
      exact hkeepx

end Stream

/-! ### At most once -/

/-- The stream over a store and the two decoders complete every package at
most once. -/
def DeliversAtMostOnce {σ : Type} (sent : ι → Sent P) (store : PackageStore σ) (w : σ)
    (arrivals : List (Arrival ι)) : Prop :=
  (∃ w' os, Machine.run (recordFeed store.toStateStore (Config.ofPayload P)) w
      (arrivals.map Arrival.frame) = .ok (w', os) ∧ ∀ x, (sent x).callbacks os ≤ 1) ∧
    ∀ (d : Decoder) (c : Coordinator), d.Initial c →
      ∃ c' os, Machine.run (d.feed (Config.ofPayload P)) c (arrivals.map Arrival.frame) =
        .ok (c', os) ∧ ∀ x, (sent x).completions os ≤ 1

/-- **When packages are delivered at most once.**  Exactly when of no package
all frames arrive again after all of them arrived. -/
theorem delivers_at_most_once_iff {σ : Type} [DecidableEq ι] {sent : ι → Sent P}
    (hkey : Function.Injective fun x => (sent x).key) (store : PackageStore σ) (w : σ)
    (hzero : ∀ c, store.get w c = .zero) (arrivals : List (Arrival ι))
    (h : ∀ a ∈ arrivals, a.Of sent) :
    DeliversAtMostOnce sent store w arrivals ↔
      ∀ x, ¬ Twice ((sent x).package.full + 1) (slicesOf x arrivals) := by
  have htwice : ∀ x, Twice ((sent x).package.full + 1) (slicesOf x arrivals) ↔
      2 ≤ (rounds ((sent x).package.full + 1) (slicesOf x arrivals)).1 :=
    fun x => (two_le_rounds_iff_twice (Nat.succ_pos _) _).symm
  obtain ⟨w', os, hrun, hkeep⟩ := stream_run_keeps hkey hzero arrivals h
  constructor
  · rintro ⟨⟨w'', os', hrun', hle⟩, -⟩ x ht
    rw [hrun, Except.ok.injEq, Prod.mk.injEq] at hrun'
    obtain ⟨R, -, hcount, -⟩ := hkeep x
    have := hle x
    rw [← hrun'.2, hcount] at this
    have := (htwice x).mp ht
    omega
  · intro hnot
    refine ⟨⟨w', os, hrun, fun x => ?_⟩, fun d c hc => ?_⟩
    · obtain ⟨R, -, hcount, -⟩ := hkeep x
      have := mt (htwice x).mpr (hnot x)
      omega
    · obtain ⟨m, rfl⟩ := hc.exists_fresh
      obtain ⟨c', os', hrun', hlag⟩ := decoder_run_lags hkey d m arrivals h
      refine ⟨c', os', hrun', fun x => ?_⟩
      obtain ⟨R, -, hl⟩ := hlag x
      have := hl.le
      have := mt (htwice x).mpr (hnot x)
      omega

/-- A package of one slice that arrives once. -/
theorem delivers_at_most_once_single :
    let p : Message 2 := ⟨[7], by decide, by decide, by decide, by decide, by decide⟩
    let sent : Unit → Sent 2 := fun _ => ⟨1, 9, by decide, p.stream⟩
    let arrivals : List (Arrival Unit) := [⟨(), 0, p.stream.frame 1 9 0⟩]
    DeliversAtMostOnce sent PackageStore.table (fun _ _ => .zero) arrivals ↔
      ∀ x, ¬ Twice ((sent x).package.full + 1) (slicesOf x arrivals) :=
  delivers_at_most_once_iff (fun _ _ _ => rfl) PackageStore.table (fun _ _ => .zero)
    (fun _ => rfl) _ (by
      intro a ha
      rw [List.mem_singleton.mp ha]
      exact Package.isFrame_frame _ 1 9 (by decide))

/-- The same frame twice, and the package is delivered twice. -/
theorem delivers_twice :
    ¬ ∀ (P : ℕ) (ι : Type) (sent : ι → Sent P) (arrivals : List (Arrival ι)),
      Function.Injective (fun x => (sent x).key) → (∀ a ∈ arrivals, a.Of sent) →
      DeliversAtMostOnce sent PackageStore.table (fun _ _ => .zero) arrivals := by
  intro h
  let m : Message 2 := ⟨[7], by decide, by decide, by decide, by decide, by decide⟩
  let sent : Unit → Sent 2 := fun _ => ⟨1, 9, by decide, m.stream⟩
  let a : Arrival Unit := ⟨(), 0, m.stream.frame 1 9 0⟩
  have ha : ∀ b ∈ [a, a], b.Of sent := by
    intro b hb
    obtain rfl : b = a := by simpa using hb
    exact Package.isFrame_frame _ 1 9 (by decide)
  obtain ⟨⟨w', os, hrun, hle⟩, -⟩ := h 2 Unit sent [a, a] (fun _ _ _ => rfl) ha
  have hcount : (Machine.run (recordFeed PackageStore.table.toStateStore (Config.ofPayload 2))
      (fun _ _ => .zero) ([a, a].map Arrival.frame)).map (fun r => (sent ()).callbacks r.2) =
      .ok 2 := by
    decide +kernel
  rw [hrun] at hcount
  have htwo : (sent ()).callbacks os = 2 := Except.ok.inj hcount
  have hone := hle ()
  omega

end CustomData
