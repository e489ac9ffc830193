/-
CustomData/Wrap.lean

Serials that wrap, and the generations that are to keep the cycles apart.

One sender sends package after package with consecutive serials modulo 256,
and any frames may be lost on the way.  As long as no 128 packages in a row
are lost entirely, the half-window comparison of the generation hook counts
the wraps of the serial exactly (`Transfers.gcHook_era`).  What the counter
does not protect is the slot: the lazy reset spares a slot that holds an
uncounted empty eop slice only, and after 256 wraps the 8-bit generation is
the old one again.

`Transfers.Cleared` says that a serial is never reused on such a slot; then
what is handed over are the packages that arrived whole, in sending order
(`wrap_delivers`).  Without it the leftovers of a lost package end the next
one with its serial early (`wrap_mixes`).
-/
import CustomData.SlotRx
import CustomData.Transfers

namespace CustomData

open Collect

variable {P : ℕ}

namespace Transfers

variable (t : Transfers P)

/-! ### Eras -/

/-- The byte strings of the first `N` packages that arrive whole. -/
def wholes (N : ℕ) : List (List UInt8) :=
  ((List.range N).filter fun n => t.Whole n).map fun n => (t.message n).data

/-- How often the serial has wrapped by then. -/
def era (n : ℕ) : ℕ := (t.first.toNat + n) / 256

/-- No 128 packages in a row are lost entirely. -/
def NeverSilent (N : ℕ) : Prop := ∀ n, n + 128 ≤ N → ∃ j, n ≤ j ∧ j < n + 128 ∧ t.got j ≠ []

/-- Whenever a serial comes back to a slot that an incomplete package has
touched last, a counted slice of that package had arrived, and the generation
is another one. -/
def Cleared (N : ℕ) : Prop :=
  ∀ i j, i < j → j < N → 256 ∣ j - i → t.got i ≠ [] → t.got j ≠ [] →
    (∀ k, i < k → k < j → 256 ∣ k - i → t.got k = []) → ¬ t.Whole i →
    (∃ s ∈ t.got i, (t.package i).Counted s) ∧ ¬ 65536 ∣ j - i

variable {t}

theorem serial_toNat (n : ℕ) : (t.serial n).toNat = (t.first.toNat + n) % 256 := by
  simp [serial, UInt8.toNat_add]

theorem serial_eq_iff {i j : ℕ} (h : i ≤ j) : t.serial i = t.serial j ↔ 256 ∣ j - i := by
  rw [← UInt8.toNat_inj, serial_toNat, serial_toNat]
  omega

theorem wholes_succ (n : ℕ) :
    t.wholes (n + 1) = t.wholes n ++ (t.package n).handedAfter (t.got n).toFinset := by
  simp only [wholes, List.range_succ, List.filter_append, List.map_append, Package.handedAfter,
    ← whole_iff]
  by_cases h : t.Whole n
  · simp [h, package, Message.stream]
  · simp [h]

/-! ### Counting the wraps -/

/-- **The half-window comparison counts the wraps**, when the serials it sees
are at most 128 packages apart. -/
theorem gcHook_era {m n : ℕ} (hlt : m < n) (hle : n ≤ m + 128) {sm : SenderMeta} {base : UInt8}
    (hpkg : sm.pkg = t.serial m) (hgen : sm.gen = base + UInt8.ofNat (t.era m)) :
    (sm.gcHook (t.serial n)).gen = base + UInt8.ofNat (t.era n) := by
  have hm := t.serial_toNat m
  have hn := t.serial_toNat n
  have hsm : sm.pkg.toNat = (t.serial m).toNat := by rw [hpkg]
  by_cases hwrap : t.era n = t.era m
  · rw [SenderMeta.gcHook_gen_of_le, hgen, hwrap]
    simp only [era] at hwrap
    omega
  · have hsucc : t.era n = t.era m + 1 := by
      simp only [era] at hwrap ⊢
      omega
    rw [SenderMeta.gcHook_gen_of_lt, hgen, hsucc, UInt8.ofNat_add, UInt8.add_assoc]
    · rfl
    · simp only [era] at hsucc
      omega

/-- Generations of different eras differ, unless 256 wraps lie between. -/
theorem gen_ne {i n : ℕ} (hle : i ≤ n) (hdvd : 256 ∣ n - i) (hnot : ¬ 65536 ∣ n - i)
    (base : UInt8) : base + UInt8.ofNat (t.era i) ≠ base + UInt8.ofNat (t.era n) := by
  rw [ne_eq, UInt8.add_right_inj, ← UInt8.toNat_inj, UInt8.toNat_ofNat', UInt8.toNat_ofNat']
  simp only [era]
  omega

/-! ### The invariant -/

/-- The table before the `n`-th package: the meta element is that of the last
package of which something arrived, and every slot is that of the last such
package with its serial. -/
structure Inv (t : Transfers P) (base : UInt8) (n : ℕ) (c : Coordinator) : Prop where
  senderMeta : ∀ m, Last (fun m => t.got m ≠ []) n m → (c.senderMeta t.sender).pkg = t.serial m ∧
    (c.senderMeta t.sender).gen = base + UInt8.ofNat (t.era m)
  used : ∀ k i, Last (fun i => t.serial i = k ∧ t.got i ≠ []) n i →
    (c.slots (Coordinator.slotIndex t.sender k)).gen = base + UInt8.ofNat (t.era i) ∧
      (t.package i).InSlot ((t.package i).heldAfter (t.got i).toFinset)
        (c.slots (Coordinator.slotIndex t.sender k))
  clear : ∀ k, (∀ i < n, ¬ (t.serial i = k ∧ t.got i ≠ [])) →
    (c.slots (Coordinator.slotIndex t.sender k)).state = .zero

theorem inv_fresh (m : UInt8 → SenderMeta) (base : UInt8) : t.Inv base 0 (.fresh m) where
  senderMeta := fun _ h => absurd h.1 (Nat.not_lt_zero _)
  used := fun _ _ h => absurd h.1 (Nat.not_lt_zero _)
  clear := fun _ _ => rfl

variable {base : UInt8} {n N : ℕ} {c : Coordinator}

/-- A package of which nothing arrives leaves no trace. -/
theorem Inv.skip (h : t.Inv base n c) (hgot : t.got n = []) : t.Inv base (n + 1) c where
  senderMeta := fun m hm => by
    rcases last_succ_iff.mp hm with ⟨-, hn⟩ | ⟨-, hm⟩
    · exact absurd hgot hn
    · exact h.senderMeta m hm
  used := fun k i hi => by
    rcases last_succ_iff.mp hi with ⟨-, -, hn⟩ | ⟨-, hi⟩
    · exact absurd hgot hn
    · exact h.used k i hi
  clear := fun k hk => h.clear k fun i hi => hk i (by omega)

/-- The generation after the hook, counted from a suitable base. -/
theorem Inv.exists_base (h : t.Inv base n c) (hsilent : t.NeverSilent N) (hn : n < N) :
    ∃ base', t.Inv base' n c ∧ ((c.senderMeta t.sender).gcHook (t.serial n)).gen =
      base' + UInt8.ofNat (t.era n) := by
  rcases exists_last_or (fun m => t.got m ≠ []) n with ⟨m, hm⟩ | hnone
  · obtain ⟨hpkg, hgen⟩ := h.senderMeta m hm
    obtain ⟨hlt, -, hlast⟩ := hm
    refine ⟨base, h, gcHook_era hlt ?_ hpkg hgen⟩
    -- the last package that left a trace is at most 128 back
    by_contra hfar
    obtain ⟨j, hj₁, hj₂, hj⟩ := hsilent (m + 1) (by omega)
    exact hlast j (by omega) (by omega) hj
  · -- nothing has arrived yet, so any base will do
    refine ⟨((c.senderMeta t.sender).gcHook (t.serial n)).gen - UInt8.ofNat (t.era n),
      ⟨fun m hm => absurd hm.2.1 (hnone m hm.1), fun k i hi => absurd hi.2.1.2 (hnone i hi.1),
        h.clear⟩, ?_⟩
    rw [UInt8.sub_add_cancel]

/-- The slot a package finds, once refreshed, is clear. -/
theorem Inv.refreshed_clear (h : t.Inv base n c) (hcleared : t.Cleared N) (hn : n < N)
    (hgot : t.got n ≠ []) (hgen : ((c.senderMeta t.sender).gcHook (t.serial n)).gen =
      base + UInt8.ofNat (t.era n)) :
    (t.package n).InSlot ∅ ((c.slots (Coordinator.slotIndex t.sender (t.serial n))).gcClockHook
      ((c.senderMeta t.sender).gcHook (t.serial n))) := by
  rcases exists_last_or (fun i => t.serial i = t.serial n ∧ t.got i ≠ []) n with ⟨i, hi⟩ | hnone
  -- package `i` has used the slot last
  · obtain ⟨hslot, hin⟩ := h.used _ i hi
    have hhook := hin.gcClockHook ((c.senderMeta t.sender).gcHook (t.serial n))
    obtain ⟨hlt, ⟨hserial, hgoti⟩, hlast⟩ := hi
    have hdvd := (serial_eq_iff hlt.le).mp hserial
    have hempty : (t.package i).survivors ((t.package i).heldAfter (t.got i).toFinset)
        ((c.slots (Coordinator.slotIndex t.sender (t.serial n))).gen !=
          ((c.senderMeta t.sender).gcHook (t.serial n)).gen) = ∅ := by
      by_cases hwhole : t.Whole i
      · rw [Package.heldAfter, if_pos ((whole_iff i).mp hwhole), Package.survivors_empty]
      -- its counted slice `s` triggers the reset, its generation being another one
      · obtain ⟨⟨s, hs, hcounted⟩, hnot⟩ := hcleared i n hlt hn hdvd hgoti hgot
          (fun k h₁ h₂ hk => by
            by_contra hne
            exact hlast k h₁ h₂ ⟨((serial_eq_iff h₁.le).mpr hk).symm.trans hserial, hne⟩) hwhole
        rw [Package.heldAfter, if_neg (mt (whole_iff i).mpr hwhole), Package.survivors, if_pos]
        refine ⟨?_, s, List.mem_toFinset.mpr hs, hcounted⟩
        rw [bne_iff_ne, hslot, hgen]
        exact gen_ne hlt.le hdvd hnot base
    rw [hempty] at hhook
    exact (t.package n).inSlot_empty hhook.state_eq_zero
  -- the slot has not been used yet
  · have hin := (t.package n).inSlot_empty (h.clear _ hnone)
    simpa using hin.gcClockHook ((c.senderMeta t.sender).gcHook (t.serial n))

/-- The table after the frames of the `n`-th package. -/
theorem Inv.touched (h : t.Inv base n c) (hgot : t.got n ≠ [])
    (hgen : ((c.senderMeta t.sender).gcHook (t.serial n)).gen = base + UInt8.ofNat (t.era n))
    {c' : Coordinator} (htouch : Package.Touched c c' t.sender (t.serial n))
    (hin : (t.package n).InSlot ((t.package n).heldAfter (t.got n).toFinset)
      (c'.slots (Coordinator.slotIndex t.sender (t.serial n)))) : t.Inv base (n + 1) c' where
  senderMeta := fun m hm => by
    rcases last_succ_iff.mp hm with ⟨rfl, -⟩ | ⟨hn, -⟩
    · rw [htouch.senderMeta, hgen]
      exact ⟨rfl, rfl⟩
    · exact absurd hgot hn
  used := fun k i hi => by
    rcases last_succ_iff.mp hi with ⟨rfl, rfl, -⟩ | ⟨hn, hi⟩
    · rw [htouch.gen, htouch.senderMeta, hgen]
      exact ⟨rfl, hin⟩
    · have hk : k ≠ t.serial n := fun he => hn ⟨he.symm, hgot⟩
      rw [htouch.otherSlots _ k (Or.inr hk)]
      exact h.used k i hi
  clear := fun k hk => by
    have hne : k ≠ t.serial n := fun he => hk n n.lt_succ_self ⟨he.symm, hgot⟩
    rw [htouch.otherSlots _ k (Or.inr hne)]
    exact h.clear k fun i hi => hk i (by omega)

/-- **One package.**  Its frames hand it over if they are all there, and the
invariant moves on. -/
theorem Inv.next (h : t.Inv base n c) (hsilent : t.NeverSilent N) (hcleared : t.Cleared N)
    (hn : n < N) (d : Decoder) {frames : List (List UInt8)}
    (hframes : (t.package n).AreFrames t.sender (t.serial n) (t.got n) frames) :
    ∃ base' c' os, Machine.run (d.feed (Config.ofPayload P)) c frames = .ok (c', os) ∧
      t.Inv base' (n + 1) c' ∧ handed os = (t.package n).handedAfter (t.got n).toFinset := by
  by_cases hgot : t.got n = []
  · rw [hgot] at hframes ⊢
    obtain rfl : frames = [] := by cases hframes; rfl
    refine ⟨base, c, [], rfl, h.skip hgot, ?_⟩
    rw [List.toFinset_nil, Package.handedAfter,
      if_neg (t.package n).fresh_zero.tracks.missing]
    rfl
  · obtain ⟨base', h', hgen⟩ := h.exists_base hsilent hn
    have hnodup : (t.got n).Nodup := (t.got_sublist n).nodup List.nodup_range
    obtain ⟨c', os, hrun, hin, htouch, hhanded⟩ := Package.run_package t.sender_lt d hframes hgot
      hnodup (by simp) (h'.refreshed_clear hcleared hn hgot hgen)
    rw [Finset.empty_union] at hin hhanded
    exact ⟨base', c', os, hrun, h'.touched hgot hgen htouch hin, hhanded⟩

/-- The first `n` packages. -/
theorem run_wholes (hsilent : t.NeverSilent N) (hcleared : t.Cleared N) (d : Decoder)
    {frames : ℕ → List (List UInt8)} (hframes : t.AreFrames frames) (m : UInt8 → SenderMeta)
    (hn : n ≤ N) :
    ∃ base c os, Machine.run (d.feed (Config.ofPayload P)) (.fresh m)
        ((List.range n).flatMap frames) = .ok (c, os) ∧
      t.Inv base n c ∧ handed os = t.wholes n := by
  induction n with
  | zero => exact ⟨0, _, [], rfl, inv_fresh m 0, rfl⟩
  | succ n ih =>
      obtain ⟨base, c, os, hrun, hinv, hhanded⟩ := ih (by omega)
      obtain ⟨base', c', os', hrun', hinv', hhanded'⟩ :=
        hinv.next hsilent hcleared (by omega) d (hframes n)
      refine ⟨base', c', os ++ os', ?_, hinv', ?_⟩
      · rw [List.range_succ, List.flatMap_append, List.flatMap_singleton]
        exact Machine.run_append_of_ok hrun hrun'
      · rw [handed_append, hhanded, hhanded', wholes_succ]

end Transfers

/-! ### The theorem -/

/-- **Wrapping serials.**  As long as no 128 packages in a row are lost and no
serial is reused on a slot that the reset would spare, a fresh decoder hands
over exactly the packages that arrive whole, each once and in sending order. -/
theorem wrap_delivers {t : Transfers P} {N : ℕ} (hsilent : t.NeverSilent N)
    (hcleared : t.Cleared N) {frames : ℕ → List (List UInt8)} (hframes : t.AreFrames frames)
    {d : Decoder} {c : Coordinator} (hc : d.Initial c) :
    ∃ c' os, Machine.run (d.feed (Config.ofPayload P)) c ((List.range N).flatMap frames) =
      .ok (c', os) ∧ handed os = t.wholes N := by
  obtain ⟨m, rfl⟩ := hc.exists_fresh
  obtain ⟨-, c', os, hrun, -, hhanded⟩ :=
    Transfers.run_wholes hsilent hcleared d hframes m le_rfl
  exact ⟨c', os, hrun, hhanded⟩

/-- Three-byte packages from serial 255 on; the first one loses its last
slice. -/
def shortTransfers : Transfers 2 where
  sender := 1
  sender_lt := sender_one_lt
  first := 255
  message := fun _ => .ofBytes 2 [1, 2, 3] (.refl true)
  got := fun n => if n = 0 then [0] else [0, 1]
  got_sublist := by
    intro n
    split <;> decide

/-- The slot of package `0` is cleared for package `256`. -/
theorem shortTransfers_cleared : shortTransfers.Cleared 257 := by
  intro i j hij hj hdvd _ _ _ _
  obtain rfl : i = 0 := by omega
  obtain rfl : j = 256 := by omega
  exact ⟨⟨0, by decide, by decide⟩, by decide⟩

theorem shortTransfers_neverSilent : shortTransfers.NeverSilent 257 := by
  intro n _
  refine ⟨n, le_rfl, by omega, ?_⟩
  by_cases hn : n = 0 <;> simp [shortTransfers, hn]

theorem wrap_delivers_short :
    ∃ c' os, Machine.run (Decoder.cs.feed (Config.ofPayload 2)) (.fresh fun _ => ⟨0, 0⟩)
        ((List.range 257).flatMap shortTransfers.zeroFilled) = .ok (c', os) ∧
      handed os = shortTransfers.wholes 257 :=
  wrap_delivers shortTransfers_neverSilent shortTransfers_cleared
    shortTransfers.areFrames_zeroFilled (d := .cs) rfl

/-- Of the one-byte package `0` only its empty eop slice arrives; `128` and the
two-byte package `256` arrive whole. -/
def mixedTransfers : Transfers 1 where
  sender := 1
  sender_lt := sender_one_lt
  first := 0
  message := fun n =>
    if n = 256 then .ofBytes 1 [8, 9] (.refl true)
    else .ofBytes 1 [7] (.refl true)
  got := fun n => if n = 256 then [0, 1, 2] else if n = 0 then [1] else
    if n = 128 then [0, 1] else []
  got_sublist := by
    intro n
    by_cases h₁ : n = 256
    · rw [if_pos h₁, if_pos h₁]
      decide
    · rw [if_neg h₁, if_neg h₁]
      split
      · decide
      · split <;> decide

/-- The empty eop slice of package `0` ends package `256` after its first
byte. -/
theorem wrap_mixes :
    ¬ ∀ (P : ℕ) (t : Transfers P) (N : ℕ) (frames : ℕ → List (List UInt8)), t.NeverSilent N →
      t.AreFrames frames → ∀ (d : Decoder) (c : Coordinator), d.Initial c →
        ∃ c' os, Machine.run (d.feed (Config.ofPayload P)) c ((List.range N).flatMap frames) =
          .ok (c', os) ∧ handed os = t.wholes N := by
  intro h
  have hsilent : mixedTransfers.NeverSilent 257 := by
    intro n hn
    rcases Nat.eq_zero_or_pos n with rfl | hpos
    · exact ⟨0, by omega, by omega, by decide⟩
    · rcases Nat.lt_or_ge 128 n with hlt | hle
      · exact ⟨256, by omega, by omega, by decide⟩
      · exact ⟨128, by omega, by omega, by decide⟩
  obtain ⟨c', os, hrun, hhanded⟩ := h 1 mixedTransfers 257 _ hsilent
    mixedTransfers.areFrames_zeroFilled .cs (.fresh fun _ => ⟨0, 0⟩) rfl
  have hrun' : (Machine.run (Decoder.cs.feed (Config.ofPayload 1)) (.fresh fun _ => ⟨0, 0⟩)
      ((List.range 257).flatMap mixedTransfers.zeroFilled)).map (fun r => handed r.2) =
        .ok [[7], [8]] := by
    decide +kernel
  rw [hrun] at hrun'
  have hmixed : handed os = [[7], [8]] := Except.ok.inj hrun'
  have hwholes : mixedTransfers.wholes 257 = [[7], [8, 9]] := by decide +kernel
  rw [hhanded, hwholes] at hmixed
  exact absurd hmixed (by decide)

end CustomData
