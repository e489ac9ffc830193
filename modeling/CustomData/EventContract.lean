/-
CustomData/EventContract.lean

What `mp_rx_event_cb` promises its callee: the event says how the watermark
moved, so the callee may go by the difference alone.

Every callback for a slice that leaves the package open keeps the promise, and
the intervals between old and new watermark follow each other from 0 to the
length of the message.  The callback of the closing slice breaks it in one
case: an empty eop slice that arrives last completes a package whose bytes were
all below the watermark before (`eventContract_iff`).
-/
import CustomData.StreamRx

namespace CustomData

open Collect

/-! ### The contract -/

namespace Callback

/-- `old_watermark` -/
def old (c : Callback) : ℕ := c.oldWatermark.toNat

/-- `state->watermark` -/
def new (c : Callback) : ℕ := c.state.watermark.toNat

/-- The event says how the watermark moved. -/
structure Truthful (c : Callback) : Prop where
  outOfOrder : c.e = .newSliceOutOfOrder → c.old = c.new
  inOrder : c.e = .newSliceInOrder → c.old < c.new
  complete : c.e = .complete → c.old < c.new

end Callback

/-- The intervals `[old, new)` of the callbacks follow each other from `a` to
`b`. -/
def Adjacent (a b : ℕ) : List Callback → Prop
  | [] => a = b
  | c :: cs => c.old = a ∧ Adjacent c.new b cs

theorem Adjacent.concat {a b : ℕ} {cs : List Callback} (h : Adjacent a b cs) {c : Callback}
    (hc : c.old = b) : Adjacent a c.new (cs ++ [c]) := by
  induction cs generalizing a with
  | nil => exact ⟨hc.trans h.symm, rfl⟩
  | cons d cs ih => exact ⟨h.1, ih h.2⟩

/-- The documented contract of the callbacks for a package of `n` bytes. -/
structure EventContract (n : ℕ) (cs : List Callback) : Prop where
  truthful : ∀ c ∈ cs, c.Truthful
  adjacent : Adjacent 0 n cs

/-! ### The callbacks of a package -/

section Package

variable {σ : Type} {P : ℕ} {p : Package P} {sender serial : UInt8} {i : ℕ} {f : List UInt8}
variable {store : StateStore σ} {w : σ} {R : Finset ℕ}

/-- The callback of a new slice that leaves the package open. -/
theorem Package.Stored.callback_open (h : p.Stored sender serial store R w)
    (hs : sender.toNat < 8) (hf : p.IsFrame sender serial i f) (hi : i ∉ R)
    (hmiss : insert i R ≠ Finset.range (p.full + 1)) :
    ∃ w' c, recordFeed store (Config.ofPayload P) w f = .ok (w', some c) ∧
      p.Stored sender serial store (insert i R) w' ∧ c.Truthful ∧
      c.old = frontier R * P ∧ c.new = Collect.frontier (insert i R) * P := by
  obtain ⟨s, hget, htr⟩ := h
  obtain ⟨s', hstep, htr'⟩ := htr.step_of_insert_ne p.fresh_zero p.maxPayload_config
    hf.slice_le hi hmiss (Or.inl rfl)
  obtain ⟨hd, he⟩ := Package.openEvent_ne R i
  have hold : (p.callback sender serial i f (if i = frontier R then .newSliceInOrder
      else .newSliceOutOfOrder) s s').old = frontier R * P := by
    rw [← htr.watermark]
    exact UInt16.toNat_toUInt32 _
  refine ⟨_, _, by rw [recordFeed_of_step hf hs (hget _ rfl rfl) hstep, if_neg hd, if_neg he],
    ⟨s', fun c hcs hcp => store.get_put _ _ _ _ ⟨hcs.symm, hcp.symm⟩, htr'⟩, ?_, hold,
    htr'.watermark⟩
  by_cases hfr : i = frontier R
  · -- the frontier moves
    have hlt : frontier R < Collect.frontier (insert i R) := by
      apply lt_of_le_of_ne (frontier_mono (Finset.subset_insert i R))
      intro heq
      apply frontier_notMem (insert i R)
      rw [← heq, ← hfr]
      exact Finset.mem_insert_self i R
    have hmove : frontier R * P < Collect.frontier (insert i R) * P :=
      Nat.mul_lt_mul_of_pos_right hlt p.capacity_pos
    rw [← hold, ← htr'.watermark] at hmove
    exact ⟨by simp [Package.callback, hfr], fun _ => hmove, fun _ => hmove⟩
  · refine ⟨fun _ => ?_, by simp [Package.callback, hfr], by simp [Package.callback, hfr]⟩
    rw [hold, ← frontier_insert_of_ne hfr, ← htr'.watermark]
    rfl

/-- The callback of the slice that closes the package. -/
theorem Package.Stored.callback_last (h : p.Stored sender serial store R w)
    (hs : sender.toNat < 8) (hf : p.IsFrame sender serial i f) (hi : i ∉ R)
    (hall : insert i R = Finset.range (p.full + 1)) :
    ∃ w' c, recordFeed store (Config.ofPayload P) w f = .ok (w', some c) ∧ c.e = .complete ∧
      c.old = i * P ∧ c.new = p.data.length := by
  obtain ⟨s, hget, htr⟩ := h
  obtain ⟨s', hstep, -, hwm⟩ :=
    htr.step_of_insert_eq p.fresh_zero p.maxPayload_config hf.slice_le hi hall
  refine ⟨_, p.callback sender serial i f .complete s s',
    by rw [recordFeed_of_step hf hs (hget _ rfl rfl) hstep, if_neg (by simp)], rfl, ?_, hwm⟩
  rw [eq_frontier_of_insert_eq_range hi hall, ← htr.watermark]
  exact UInt16.toNat_toUInt32 _

/-- Frames that leave the package open: the contract up to the watermark. -/
theorem Package.Stored.run_contract (hs : sender.toNat < 8) {order : List ℕ}
    {frames : List (List UInt8)} (hframes : p.AreFrames sender serial order frames)
    (h : p.Stored sender serial store R w)
    (hmiss : R ∪ order.toFinset ≠ Finset.range (p.full + 1)) :
    ∃ w' os, Machine.run (recordFeed store (Config.ofPayload P)) w frames = .ok (w', os) ∧
      p.Stored sender serial store (R ∪ order.toFinset) w' ∧
      (∀ c ∈ os.filterMap id, c.Truthful) ∧
      Adjacent (frontier R * P) (frontier (R ∪ order.toFinset) * P) (os.filterMap id) := by
  induction hframes generalizing R w with
  | nil => exact ⟨w, [], rfl, by simpa using h, by simp, by simp [Adjacent]⟩
  | @cons i f order frames hf hframes ih =>
      have hunion : R ∪ (i :: order).toFinset = insert i R ∪ order.toFinset := by
        rw [List.toFinset_cons, Finset.union_insert, Finset.insert_union]
      rw [hunion] at hmiss ⊢
      by_cases hi : i ∈ R
      · rw [Finset.insert_eq_self.mpr hi] at hmiss ⊢
        have hmiss' : insert i R ≠ Finset.range (p.full + 1) := by
          rw [Finset.insert_eq_self.mpr hi]
          exact fun he => h.choose_spec.2.missing he
        obtain ⟨w₁, o, hfeed, hst, hnone, -⟩ := h.feed_open hs hf hmiss'
        rw [Finset.insert_eq_self.mpr hi] at hst
        obtain ⟨w', os, hrun, hst', htrue, hadj⟩ := ih hst hmiss
        exact ⟨w', o :: os, Machine.run_cons_of_ok hfeed hrun, hst', by rwa [hnone hi],
          by rwa [hnone hi]⟩
      · have hmiss' : insert i R ≠ Finset.range (p.full + 1) := by
          intro he
          have hsub := Package.AreFrames.toFinset_subset hframes
          exact hmiss (by rw [he, Finset.union_eq_left.mpr hsub])
        obtain ⟨w₁, c, hfeed, hst, hc, hold, hnew⟩ := h.callback_open hs hf hi hmiss'
        obtain ⟨w', os, hrun, hst', htrue, hadj⟩ := ih hst hmiss
        refine ⟨w', some c :: os, Machine.run_cons_of_ok hfeed hrun, hst', ?_, hold, by rwa [hnew]⟩
        exact List.forall_mem_cons.mpr ⟨hc, htrue⟩

end Package

/-- **The contract of the event callback.**  Whatever the order and the
repeats, the callbacks up to and including COMPLETE keep the contract, if and
only if it is not an empty eop slice that completes the package. -/
theorem eventContract_iff {σ : Type} {P : ℕ} (m : Message P) {sender serial : UInt8}
    (hs : sender.toNat < 8) (store : StateStore σ) (w : σ)
    (hzero : ∀ c : Coordinate, c.senderId = sender → c.packageId = serial →
      store.get w c = .zero)
    {order : List ℕ} {last : ℕ} {frames : List (List UInt8)} {f : List UInt8}
    (hframes : m.stream.AreFrames sender serial order frames)
    (hlast : m.stream.IsFrame sender serial last f)
    (hopen : ¬ Covers (m.stream.full + 1) order)
    (hclosed : Covers (m.stream.full + 1) (order ++ [last])) :
    ∃ w' os, Machine.run (recordFeed store (Config.ofPayload P)) w (frames ++ [f]) =
        .ok (w', os) ∧
      (EventContract m.data.length (os.filterMap id) ↔
        ¬ (P ∣ m.data.length ∧ last = m.data.length / P)) := by
  have hsub := Package.AreFrames.toFinset_subset hframes
  have hle := hlast.slice_le
  obtain ⟨hnew, hall⟩ :=
    insert_toFinset_eq_range hsub (Nat.lt_succ_iff.mpr hle) hopen hclosed
  obtain ⟨w₁, os, hrun, hst, htrue, hadj⟩ := (m.stream.stored_empty hzero).run_contract hs hframes
    (by rw [Finset.empty_union]; exact fun he => hopen ((covers_iff_toFinset hsub).mpr he))
  rw [Finset.empty_union] at hst hadj
  obtain ⟨w', c, hfeed, he, hold, hnewwm⟩ := hst.callback_last hs hlast hnew hall
  rw [frontier_empty, Nat.zero_mul, ← eq_frontier_of_insert_eq_range hnew hall] at hadj
  refine ⟨w', _, Machine.run_concat_of_ok hrun hfeed, ?_⟩
  rw [List.filterMap_append]
  show EventContract _ (os.filterMap id ++ [c]) ↔ _
  -- the intervals always follow each other; what is left is the last event
  have hadj' : Adjacent 0 m.data.length (os.filterMap id ++ [c]) := hnewwm ▸ hadj.concat hold
  have hcontract : EventContract m.data.length (os.filterMap id ++ [c]) ↔ c.old < c.new := by
    constructor
    · intro h
      exact (h.truthful c (by simp)).complete he
    · intro hlt
      refine ⟨fun d hd => ?_, hadj'⟩
      rcases List.mem_append.mp hd with hd | hd
      · exact htrue d hd
      · obtain rfl := List.mem_singleton.mp hd
        exact ⟨by simp [he], fun _ => hlt, fun _ => hlt⟩
  have hfull : m.stream.full = m.data.length / P := rfl
  have hdata : m.stream.data.length = m.data.length := rfl
  rw [hcontract, hold, hnewwm, hdata, Nat.dvd_iff_mod_eq_zero, ← m.stream_size_full, ← hfull]
  rcases hle.lt_or_eq with hlt | rfl
  · have hend := m.stream.slice_end_le hlt
    have hP := m.capacity_pos
    exact iff_of_true (by omega) fun h => hlt.ne h.2
  · have hsz := m.stream.size_full
    omega

/-- Three bytes in slices of two, the eop slice last. -/
theorem eventContract_short :
    let m : Message 2 := ⟨[1, 2, 3], by decide, by decide, by decide, by decide, by decide⟩
    ∃ w' os, Machine.run (recordFeed StateStore.single (Config.ofPayload 2)) .zero
        ([m.stream.frame 0 7 0] ++ [m.stream.frame 0 7 1]) = .ok (w', os) ∧
      (EventContract m.data.length (os.filterMap id) ↔
        ¬ (2 ∣ m.data.length ∧ 1 = m.data.length / 2)) :=
  eventContract_iff ⟨[1, 2, 3], by decide, by decide, by decide, by decide, by decide⟩
    (by decide) StateStore.single .zero (fun _ _ _ => rfl)
    (.cons (Package.isFrame_frame _ 0 7 (by decide)) .nil)
    (Package.isFrame_frame _ 0 7 (by decide)) (by decide) (by decide)

/-- Two bytes in slices of two. -/
def twoInOneSlice : Message 2 := .ofBytes 2 [1, 2] (.refl true)

/-- The empty eop slice arrives last, and COMPLETE comes with both watermarks
at 2. -/
theorem eventContract_empty_eop :
    ¬ ∀ (P : ℕ) (m : Message P) (sender serial : UInt8) (order : List ℕ) (last : ℕ)
      (frames : List (List UInt8)) (f : List UInt8), sender.toNat < 8 →
      m.stream.AreFrames sender serial order frames → m.stream.IsFrame sender serial last f →
      ¬ Covers (m.stream.full + 1) order → Covers (m.stream.full + 1) (order ++ [last]) →
      ∃ w' os, Machine.run (recordFeed StateStore.single (Config.ofPayload P)) .zero
          (frames ++ [f]) = .ok (w', os) ∧
        EventContract m.data.length (os.filterMap id) := by
  intro h
  have hrun : (Machine.run (recordFeed StateStore.single (Config.ofPayload 2)) .zero
      ([twoInOneSlice.stream.frame 0 7 0] ++ [twoInOneSlice.stream.frame 0 7 1])).map
        (fun r => (r.2.filterMap id).map fun c => (c.e, c.old, c.new)) =
      .ok [(.newSliceInOrder, 0, 2), (.complete, 2, 2)] := by
    decide +kernel
  obtain ⟨w', os, hok, hcontract⟩ := h 2 twoInOneSlice 0 7 [0] 1
    [twoInOneSlice.stream.frame 0 7 0] (twoInOneSlice.stream.frame 0 7 1) (by decide)
    (.cons (Package.isFrame_frame _ 0 7 (by decide)) .nil)
    (Package.isFrame_frame _ 0 7 (by decide)) (by decide) (by decide)
  rw [hok] at hrun
  have hcbs : (os.filterMap id).map (fun c => (c.e, c.old, c.new)) =
      [(.newSliceInOrder, 0, 2), (.complete, 2, 2)] := Except.ok.inj hrun
  have hmem : (RxStreamEvent.complete, 2, 2) ∈
      (os.filterMap id).map fun c => (c.e, c.old, c.new) := by
    rw [hcbs]
    simp
  obtain ⟨c, hc, heq⟩ := List.mem_map.mp hmem
  simp only [Prod.mk.injEq] at heq
  have := (hcontract.truthful c hc).complete heq.1
  omega

end CustomData
