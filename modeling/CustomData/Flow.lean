/-
CustomData/Flow.lean

Senders that go on for ever over a link that loses, repeats and reorders.

A `Flow` is one sender: package after package with consecutive serials modulo
256, cut in either way, and of each package any frames in any order and with
repeats, or none.  What a package leaves in its slot, if it does not end with a
closed round, is what the next package with this serial finds there.  It does
no harm if a counted slice is among it, for then the lazy reset drops it
(`Flow.Cleared`), provided that the generation has changed, for which no 128
packages in a row may be lost entirely (`Flow.NeverSilent`).

Under these conditions every package of every sender is handed over as often
as its frames cover it, on a link shared by up to eight senders
(`flows_delivered`).  The packages are not empty, and their slices can be
numbered (`Package`).
-/
import CustomData.Parcels
import CustomData.Transfers

namespace CustomData

open Collect

variable {P : ℕ}

/-- The packages of one sender in sending order, and what arrives of each. -/
structure Flow (P : ℕ) where
  sender : UInt8
  sender_lt : sender.toNat < 8
  first : UInt8
  package : ℕ → Package P
  order : ℕ → List ℕ
  frames : ℕ → List (List UInt8)
  areFrames : ∀ n, (package n).AreFrames sender (first + UInt8.ofNat n) (order n) (frames n)

namespace Flow

variable (f : Flow P)

/-- The serial of the `n`-th package. -/
def serial (n : ℕ) : UInt8 := f.first + UInt8.ofNat n

/-- How often the frames of the `n`-th package cover it. -/
def times (n : ℕ) : ℕ := (rounds ((f.package n).full + 1) (f.order n)).1

/-- The slices that come after the last round. -/
def left (n : ℕ) : List ℕ := (rounds ((f.package n).full + 1) (f.order n)).2

/-- What is to be handed over of the first `n` packages. -/
def copies (n : ℕ) : List (List UInt8) :=
  (List.range n).flatMap fun i => List.replicate (f.times i) (f.package i).data

/-- How often the serial has wrapped by then. -/
def era (n : ℕ) : ℕ := (f.first.toNat + n) / 256

/-- No 128 packages in a row are lost entirely. -/
def NeverSilent (N : ℕ) : Prop := ∀ n, n + 128 ≤ N → ∃ j, n ≤ j ∧ j < n + 128 ∧ f.order j ≠ []

/-- Whenever a serial comes back to a slot in which slices are left over, one
of them is counted, and the generation is another one. -/
def Cleared (N : ℕ) : Prop :=
  ∀ i j, i < j → j < N → 256 ∣ j - i → f.order j ≠ [] →
    (∀ k, i < k → k < j → 256 ∣ k - i → f.order k = []) → f.left i ≠ [] →
    (∃ s ∈ f.left i, (f.package i).Counted s) ∧ ¬ 65536 ∣ j - i

variable {f}

theorem serial_toNat (n : ℕ) : (f.serial n).toNat = (f.first.toNat + n) % 256 := by
  simp [serial, UInt8.toNat_add]

theorem serial_eq_iff {i j : ℕ} (h : i ≤ j) : f.serial i = f.serial j ↔ 256 ∣ j - i := by
  rw [← UInt8.toNat_inj, serial_toNat, serial_toNat]
  omega

theorem copies_succ (n : ℕ) :
    f.copies (n + 1) = f.copies n ++ List.replicate (f.times n) (f.package n).data := by
  rw [copies, List.range_succ, List.flatMap_append, List.flatMap_singleton]
  rfl

/-- The half-window comparison counts the wraps, when the serials it sees are
at most 128 packages apart. -/
theorem gcHook_era {m n : ℕ} (hlt : m < n) (hle : n ≤ m + 128) {sm : SenderMeta} {base : UInt8}
    (hpkg : sm.pkg = f.serial m) (hgen : sm.gen = base + UInt8.ofNat (f.era m)) :
    (sm.gcHook (f.serial n)).gen = base + UInt8.ofNat (f.era n) := by
  have hm := f.serial_toNat m
  have hn := f.serial_toNat n
  rw [← hpkg] at hm
  by_cases hwrap : f.era n = f.era m
  · rw [SenderMeta.gcHook_gen_of_le, hgen, hwrap]
    simp only [era] at hwrap
    omega
  · have hsucc : f.era n = f.era m + 1 := by
      simp only [era] at hwrap ⊢
      omega
    rw [SenderMeta.gcHook_gen_of_lt, hgen, hsucc, UInt8.ofNat_add, UInt8.add_assoc]
    · rfl
    · simp only [era] at hsucc
      omega

/-- Generations of different eras differ, unless 256 wraps lie between. -/
theorem gen_ne {i n : ℕ} (hle : i ≤ n) (hdvd : 256 ∣ n - i) (hnot : ¬ 65536 ∣ n - i)
    (base : UInt8) : base + UInt8.ofNat (f.era i) ≠ base + UInt8.ofNat (f.era n) := by
  rw [ne_eq, UInt8.add_right_inj, ← UInt8.toNat_inj, UInt8.toNat_ofNat', UInt8.toNat_ofNat']
  simp only [era]
  omega

/-! ### The table between two packages -/

/-- The table before the `n`-th package: the meta element is that of the last
package of which something arrived, and every slot holds what the last such
package with its serial has left there. -/
structure Between (f : Flow P) (base : UInt8) (n : ℕ) (c : Coordinator) : Prop where
  senderMeta : ∀ m, Last (fun m => f.order m ≠ []) n m →
    c.senderMeta f.sender = ⟨f.serial m, base + UInt8.ofNat (f.era m)⟩
  used : ∀ k i, Last (fun i => f.serial i = k ∧ f.order i ≠ []) n i →
    (c.slots (Coordinator.slotIndex f.sender k)).gen = base + UInt8.ofNat (f.era i) ∧
      (f.package i).InSlot (f.left i).toFinset (c.slots (Coordinator.slotIndex f.sender k))
  unused : ∀ k, (∀ i < n, ¬ (f.serial i = k ∧ f.order i ≠ [])) →
    (c.slots (Coordinator.slotIndex f.sender k)).state = .zero

theorem between_fresh (m : UInt8 → SenderMeta) (base : UInt8) : f.Between base 0 (.fresh m) where
  senderMeta := fun _ h => absurd h.1 (Nat.not_lt_zero _)
  used := fun _ _ h => absurd h.1 (Nat.not_lt_zero _)
  unused := fun _ _ => rfl

variable {base : UInt8} {n N : ℕ} {c c' : Coordinator}

/-- A package of which nothing arrives leaves no trace. -/
theorem Between.skip (h : f.Between base n c) (hnil : f.order n = []) :
    f.Between base (n + 1) c where
  senderMeta := by
    intro m hm
    rcases last_succ_iff.mp hm with ⟨-, hn⟩ | ⟨-, hm⟩
    · exact absurd hnil hn
    · exact h.senderMeta m hm
  used := by
    intro k i hi
    rcases last_succ_iff.mp hi with ⟨-, -, hn⟩ | ⟨-, hi⟩
    · exact absurd hnil hn
    · exact h.used k i hi
  unused := fun k hk => h.unused k fun i hi => hk i (by omega)

/-- The generation after the hook, counted from a suitable base. -/
theorem Between.exists_base (h : f.Between base n c) (hsilent : f.NeverSilent N) (hn : n < N) :
    ∃ base', f.Between base' n c ∧ ((c.senderMeta f.sender).gcHook (f.serial n)).gen =
      base' + UInt8.ofNat (f.era n) := by
  rcases exists_last_or (fun m => f.order m ≠ []) n with ⟨m, hm⟩ | hnone
  · have hmeta := h.senderMeta m hm
    obtain ⟨hlt, -, hlast⟩ := hm
    refine ⟨base, h, gcHook_era hlt ?_ (by rw [hmeta]) (by rw [hmeta])⟩
    -- the last package that left a trace is at most 128 back
    by_contra hfar
    obtain ⟨j, hj₁, hj₂, hj⟩ := hsilent (m + 1) (by omega)
    exact hlast j (by omega) (by omega) hj
  · -- nothing has arrived yet, so any base will do
    refine ⟨((c.senderMeta f.sender).gcHook (f.serial n)).gen - UInt8.ofNat (f.era n),
      ⟨fun m hm => absurd hm.2.1 (hnone m hm.1), fun k i hi => absurd hi.2.1.2 (hnone i hi.1),
        h.unused⟩, ?_⟩
    rw [UInt8.sub_add_cancel]

/-- The slot a package finds, once refreshed, holds nothing. -/
theorem Between.arriving (h : f.Between base n c) (hcleared : f.Cleared N) (hn : n < N)
    (hne : f.order n ≠ []) (hgen : ((c.senderMeta f.sender).gcHook (f.serial n)).gen =
      base + UInt8.ofNat (f.era n)) :
    (f.package n).Arriving f.sender (f.serial n) ∅ c := by
  rcases exists_last_or (fun i => f.serial i = f.serial n ∧ f.order i ≠ []) n with ⟨i, hi⟩ | hnone
  -- package `i` has used the slot last
  · obtain ⟨hslot, hin⟩ := h.used _ i hi
    obtain ⟨hlt, ⟨hserial, -⟩, hlast⟩ := hi
    by_cases hleft : f.left i = []
    · rw [hleft, List.toFinset_nil] at hin
      exact (f.package n).arriving_empty hin.state_eq_zero
    -- its counted slice `s` triggers the reset, its generation being another one
    · have hdvd := (serial_eq_iff hlt.le).mp hserial
      obtain ⟨⟨s, hs, hcounted⟩, hnot⟩ := hcleared i n hlt hn hdvd hne (fun k h₁ h₂ hk => by
        by_contra hne'
        exact hlast k h₁ h₂ ⟨((serial_eq_iff h₁.le).mpr hk).symm.trans hserial, hne'⟩) hleft
      have hhook := hin.gcClockHook ((c.senderMeta f.sender).gcHook (f.serial n))
      rw [Package.survivors, if_pos] at hhook
      · exact (f.package n).inSlot_empty hhook.state_eq_zero
      · refine ⟨?_, s, List.mem_toFinset.mpr hs, hcounted⟩
        rw [bne_iff_ne, hslot, hgen]
        exact gen_ne hlt.le hdvd hnot base
  -- the slot has not been used yet
  · exact (f.package n).arriving_empty (h.unused _ hnone)

/-- The table after the frames of the `n`-th package. -/
theorem Between.touched (h : f.Between base n c) (hne : f.order n ≠ [])
    (hgen : ((c.senderMeta f.sender).gcHook (f.serial n)).gen = base + UInt8.ofNat (f.era n))
    (htouch : Package.Touched c c' f.sender (f.serial n))
    (hin : (f.package n).InSlot (f.left n).toFinset
      (c'.slots (Coordinator.slotIndex f.sender (f.serial n)))) : f.Between base (n + 1) c' where
  senderMeta := by
    intro m hm
    rcases last_succ_iff.mp hm with ⟨rfl, -⟩ | ⟨hn, -⟩
    · rw [htouch.senderMeta, ← hgen]
      rfl
    · exact absurd hne hn
  used := by
    intro k i hi
    rcases last_succ_iff.mp hi with ⟨rfl, rfl, -⟩ | ⟨hn, hi⟩
    · rw [htouch.gen, htouch.senderMeta, hgen]
      exact ⟨rfl, hin⟩
    · have hk : k ≠ f.serial n := fun he => hn ⟨he.symm, hne⟩
      rw [htouch.otherSlots _ k (Or.inr hk)]
      exact h.used k i hi
  unused := by
    intro k hk
    have hk' : k ≠ f.serial n := fun he => hk n n.lt_succ_self ⟨he.symm, hne⟩
    rw [htouch.otherSlots _ k (Or.inr hk')]
    exact h.unused k fun i hi => hk i (by omega)

/-- One package. -/
theorem Between.next (h : f.Between base n c) (hsilent : f.NeverSilent N) (hcleared : f.Cleared N)
    (hn : n < N) (d : Decoder) :
    ∃ base' c' os, Machine.run (d.feed (Config.ofPayload P)) c (f.frames n) = .ok (c', os) ∧
      f.Between base' (n + 1) c' ∧
      handed os = List.replicate (f.times n) (f.package n).data := by
  have hframes : (f.package n).AreFrames f.sender (f.serial n) (f.order n) (f.frames n) :=
    f.areFrames n
  by_cases hnil : f.order n = []
  · rw [hnil, Package.AreFrames, List.forall₂_nil_left_iff] at hframes
    refine ⟨base, c, [], by rw [hframes]; rfl, h.skip hnil, ?_⟩
    rw [times, hnil]
    rfl
  · obtain ⟨base', h', hgen⟩ := h.exists_base hsilent hn
    obtain ⟨c', os, hrun, hgathered⟩ := (f.package n).run_slices f.sender_lt d hframes
      (h'.arriving hcleared hn hnil hgen)
    have hne : f.frames n ≠ [] := by
      intro hnone
      rw [hnone, Package.AreFrames, List.forall₂_nil_right_iff] at hframes
      exact hnil hframes
    have htouch := hgathered.touched_of_ne_nil hne hrun
    refine ⟨base', c', os, hrun, h'.touched hnil hgen htouch ?_, hgathered.handed⟩
    have hin := hgathered.arriving
    rwa [Package.Arriving, htouch.refreshed] at hin

/-- The first `n` packages. -/
theorem run_copies (hsilent : f.NeverSilent N) (hcleared : f.Cleared N) (d : Decoder)
    (m : UInt8 → SenderMeta) (hn : n ≤ N) :
    ∃ base c os, Machine.run (d.feed (Config.ofPayload P)) (.fresh m)
        ((List.range n).flatMap f.frames) = .ok (c, os) ∧
      f.Between base n c ∧ handed os = f.copies n := by
  induction n with
  | zero => exact ⟨0, _, [], rfl, between_fresh m 0, rfl⟩
  | succ n ih =>
      obtain ⟨base, c, os, hrun, hbetween, hhanded⟩ := ih (by omega)
      obtain ⟨base', c', os', hrun', hbetween', hhanded'⟩ :=
        hbetween.next hsilent hcleared (by omega) d
      refine ⟨base', c', os ++ os', ?_, hbetween', ?_⟩
      · rw [List.range_succ, List.flatMap_append, List.flatMap_singleton]
        exact Machine.run_append_of_ok hrun hrun'
      · rw [handed_append, hhanded, hhanded', copies_succ]

end Flow

/-! ### All senders -/

/-- **Flows on one link.**  Up to eight senders send packages without end, not
empty and in range, each with its own losses, repeats and reorderings inside its
packages, and their frames are mixed in any way.  A new decoder hands over the
packages of every sender in sending order, each as often as its frames cover
it. -/
theorem flows_delivered {f : UInt8 → Flow P} {N : UInt8 → ℕ}
    (hsilent : ∀ s, s.toNat < 8 → (f s).NeverSilent (N s))
    (hcleared : ∀ s, s.toNat < 8 → (f s).Cleared (N s)) {frames : List (List UInt8)}
    (hframes : ∀ s, s.toNat < 8 →
      Decoder.framesOf s frames = (List.range (N s)).flatMap (f s).frames)
    {d : Decoder} {c : Coordinator} (hc : d.Initial c) :
    ∃ c' os, Machine.run (d.feed (Config.ofPayload P)) c frames = .ok (c', os) ∧
      ∀ s, s.toNat < 8 → Decoder.deliveredFrom s os = (f s).copies (N s) := by
  obtain ⟨m, rfl⟩ := hc.exists_fresh
  apply Decoder.run_of_senders
  intro s hs
  obtain ⟨-, c', os, hrun, -, hhanded⟩ :=
    Flow.run_copies (hsilent s hs) (hcleared s hs) d m le_rfl
  exact ⟨c', os, by rw [hframes s hs, hrun], hhanded⟩

/-- The slices of a package of two that arrive, all of them or the first. -/
theorem areFrames_torn (n : ℕ) :
    (Message.ofBytes 2 [5, 6] (.refl true)).stream.AreFrames 1 (250 + UInt8.ofNat n)
      (if n = 0 then [0] else [1, 0]) ((if n = 0 then [0] else [1, 0]).map
        ((Message.ofBytes 2 [5, 6] (.refl true)).stream.frame 1 (250 + UInt8.ofNat n))) := by
  rw [Package.AreFrames, List.forall₂_map_right_iff, List.forall₂_same]
  intro i hi
  apply Package.isFrame_frame
  show i ≤ 1
  split at hi <;> simp at hi <;> omega

/-- Two bytes, again and again; the end of the first package is lost. -/
def tornFlow : Flow 2 where
  sender := 1
  sender_lt := sender_one_lt
  first := 250
  package := fun _ => (Message.ofBytes 2 [5, 6] (.refl true)).stream
  order := fun n => if n = 0 then [0] else [1, 0]
  frames := fun n => (if n = 0 then [0] else [1, 0]).map
    ((Message.ofBytes 2 [5, 6] (.refl true)).stream.frame 1 (250 + UInt8.ofNat n))
  areFrames := areFrames_torn

theorem tornFlow_left {n : ℕ} (h : tornFlow.left n ≠ []) : n = 0 := by
  by_contra hn
  have horder : tornFlow.order n = [1, 0] := if_neg hn
  rw [Flow.left, horder] at h
  exact h rfl

/-- The first serial comes back, and the slice that is left over is dropped. -/
theorem tornFlow_cleared : tornFlow.Cleared 300 := by
  intro i j _ hj _ _ _ hleft
  obtain rfl := tornFlow_left hleft
  exact ⟨⟨0, by decide, by decide⟩, by omega⟩

theorem tornFlow_neverSilent : tornFlow.NeverSilent 300 := by
  intro n _
  refine ⟨n, le_rfl, by omega, ?_⟩
  show (if n = 0 then [0] else [1, 0]) ≠ []
  split <;> simp

/-- Another sender has no frames on the link. -/
theorem framesOf_tornFlow (s : UInt8) (n : ℕ) :
    Decoder.framesOf s ((List.range n).flatMap tornFlow.frames) =
      (List.range (if s = 1 then n else 0)).flatMap tornFlow.frames := by
  have hsender : ∀ f ∈ (List.range n).flatMap tornFlow.frames,
      Decoder.frameSender f = 1 := by
    intro f hf
    obtain ⟨i, -, hi⟩ := List.mem_flatMap.mp hf
    obtain ⟨k, hk⟩ := (tornFlow.areFrames i).exists_of_mem f hi
    rw [Decoder.frameSender, hk.headerUnpack_eq tornFlow.sender_lt]
    rfl
  by_cases hs : s = 1
  · rw [if_pos hs, Decoder.framesOf, List.filter_eq_self]
    exact fun f hf => by simp [hsender f hf, hs]
  · rw [if_neg hs, Decoder.framesOf, List.range_zero, List.flatMap_nil, List.filter_eq_nil_iff]
    exact fun f hf => by simp [hsender f hf, Ne.symm hs]

theorem flows_delivered_torn :
    ∃ c' os, Machine.run (Decoder.cpp.feed (Config.ofPayload 2)) (.fresh fun _ => ⟨3, 7⟩)
        ((List.range 300).flatMap tornFlow.frames) = .ok (c', os) ∧
      ∀ s, s.toNat < 8 → Decoder.deliveredFrom s os = tornFlow.copies (if s = 1 then 300 else 0) :=
  @flows_delivered 2 (fun _ => tornFlow) (fun s => if s = 1 then 300 else 0)
    (fun s _ n hn => tornFlow_neverSilent n (hn.trans (by split <;> omega)))
    (fun s _ i j hij hj => tornFlow_cleared i j hij (hj.trans_le (by split <;> omega)))
    _ (fun s _ => framesOf_tornFlow s 300) .cpp _ ⟨_, rfl⟩

end CustomData
