/-
CustomData/Interleaving.lean

Streams of several senders on one link.

Feeding the frames of all senders, mixed with each other in any way, is feeding
the frames of each sender to a decoder of its own: the mixed run gets through
exactly if all these runs do, and every sender has the same packages handed
over (`Decoder.feed_interleaved`).  This is what lets the other modules speak
of one sender at a time.
-/
import CustomData.Senders

namespace CustomData

namespace Decoder

variable {d : Decoder} {config : Config} {c c' : Coordinator} {frames : List (List UInt8)}

/-! ### The frames of one sender -/

/-- The frames that say they are from sender `s`. -/
def framesOf (s : UInt8) (frames : List (List UInt8)) : List (List UInt8) :=
  frames.filter fun f => frameSender f = s

/-- The header has three bits for the sender. -/
theorem frameSender_lt (f : List UInt8) : (frameSender f).toNat < 8 := by
  have hle : ((arrayToPackedHeader f >>> 16) &&& 0x07).toNat ≤ 7 := by
    rw [UInt32.toNat_and]
    exact Nat.and_le_right
  simp only [frameSender, headerUnpack, UInt32.toNat_toUInt8]
  omega

/-- No other sender has frames among those of `s`. -/
theorem filter_framesOf (s k : UInt8) :
    (framesOf s frames).filter (fun f => frameSender f = k) =
      if k = s then framesOf s frames else [] := by
  split
  · subst_vars
    simp [framesOf]
  · rename_i hk
    rw [List.filter_eq_nil_iff]
    intro f hf
    have hfs : frameSender f = s := by simpa using (List.mem_filter.mp hf).2
    simpa [hfs] using Ne.symm hk

/-! ### Runs of one sender -/

theorem exists_feed_of_senderStep {f : List UInt8} {r : SenderView × Option Verdict}
    (h : d.senderStep config (senderView c (frameSender f)) f = .ok r) :
    ∃ r', d.feed config c f = .ok r' := by
  obtain ⟨c', hfeed, -⟩ := feed_of_senderStep h
  exact ⟨_, hfeed⟩

/-- A mixed run gets through if and only if each sender's own run does. -/
theorem run_ok_iff_senders :
    (∃ r, Machine.run (d.feed config) c frames = .ok r) ↔
      ∀ s, ∃ r, Machine.run (d.feed config) c (framesOf s frames) = .ok r := by
  rw [(d.feed_keyed config).run_ok_iff_filter fun _ _ _ => exists_feed_of_senderStep]
  apply forall_congr'
  intro s
  rw [(d.feed_keyed config).run_ok_iff_filter fun _ _ _ => exists_feed_of_senderStep]
  constructor
  · intro h k
    rw [filter_framesOf]
    split
    · subst_vars
      exact h
    · exact ⟨_, rfl⟩
  · intro h
    have hs := h s
    rwa [filter_framesOf, if_pos rfl] at hs

/-- All that comes of the frames of one sender is from this sender. -/
theorem deliveredFrom_of_forall {s : UInt8} {os : List (Option Verdict)}
    (h : Machine.run (d.feed config) c frames = .ok (c', os))
    (hs : ∀ f ∈ frames, frameSender f = s) : deliveredFrom s os = handed os := by
  induction frames generalizing c os with
  | nil =>
      simp only [Machine.run_nil, Except.ok.injEq, Prod.mk.injEq] at h
      simp [← h.2, deliveredFrom, handed]
  | cons f frames ih =>
      obtain ⟨c₁, o, os', hfeed, hrun, rfl⟩ := Machine.run_cons_eq_ok.mp h
      obtain ⟨hf, hfs⟩ := List.forall_mem_cons.mp hs
      have ih := ih hrun hfs
      simp only [deliveredFrom, handed, List.filterMap_cons] at ih ⊢
      rw [ih]
      cases o with
      | none => rfl
      | some v => simp only [Option.bind_some, (feed_senderId hfeed).trans hf, if_true]

/-- The mixed run does for a sender what its own run does. -/
theorem deliveredFrom_eq_handed {s : UInt8} {c₁ c₂ : Coordinator} {os₁ os₂ : List (Option Verdict)}
    (h₁ : Machine.run (d.feed config) c frames = .ok (c₁, os₁))
    (h₂ : Machine.run (d.feed config) c (framesOf s frames) = .ok (c₂, os₂)) :
    deliveredFrom s os₁ = handed os₂ ∧ senderView c₁ s = senderView c₂ s := by
  have hsame : frames.filter (fun f => frameSender f = s) =
      (framesOf s frames).filter fun f => frameSender f = s := by
    rw [filter_framesOf, if_pos rfl]
    rfl
  obtain ⟨hview, houtputs⟩ := (d.feed_keyed config).run_agree s rfl hsame h₁ h₂
  refine ⟨?_, hview⟩
  rw [deliveredFrom_eq_outputsOf s h₁, houtputs, ← deliveredFrom_eq_outputsOf s h₂]
  exact deliveredFrom_of_forall h₂ fun f hf => by simpa using (List.mem_filter.mp hf).2

/-- **A link shared by senders.**  Feeding the mixed frames gets through if and
only if feeding the frames of each sender alone does.  Then every sender has
the same packages handed over in both runs, and the decoder ends with the same
slots and the same meta element for it. -/
theorem feed_interleaved (d : Decoder) (config : Config) (c : Coordinator)
    (frames : List (List UInt8)) :
    ((∃ r, Machine.run (d.feed config) c frames = .ok r) ↔
      ∀ s, ∃ r, Machine.run (d.feed config) c (framesOf s frames) = .ok r) ∧
    ∀ s c₁ os₁ c₂ os₂, Machine.run (d.feed config) c frames = .ok (c₁, os₁) →
      Machine.run (d.feed config) c (framesOf s frames) = .ok (c₂, os₂) →
      deliveredFrom s os₁ = handed os₂ ∧ senderView c₁ s = senderView c₂ s :=
  ⟨run_ok_iff_senders, fun _ _ _ _ _ h₁ h₂ => deliveredFrom_eq_handed h₁ h₂⟩

/-- What each sender's own run does, all of them do together. -/
theorem run_of_senders {out : UInt8 → List (List UInt8)}
    (h : ∀ s, s.toNat < 8 → ∃ c' os,
      Machine.run (d.feed config) c (framesOf s frames) = .ok (c', os) ∧ handed os = out s) :
    ∃ c' os, Machine.run (d.feed config) c frames = .ok (c', os) ∧
      ∀ s, s.toNat < 8 → deliveredFrom s os = out s := by
  obtain ⟨⟨c', os⟩, hrun⟩ := run_ok_iff_senders.mpr fun s => by
    by_cases hs : s.toNat < 8
    · obtain ⟨c', os, hrun, -⟩ := h s hs
      exact ⟨_, hrun⟩
    · -- no frame is from a sender that has no place in the header
      have hnone : framesOf s frames = [] := by
        rw [framesOf, List.filter_eq_nil_iff]
        intro f _ hf
        exact hs (by simpa using of_decide_eq_true hf ▸ frameSender_lt f)
      exact ⟨(c, []), by rw [hnone]; rfl⟩
  refine ⟨c', os, hrun, fun s hs => ?_⟩
  obtain ⟨c'', os', hown, hout⟩ := h s hs
  rw [(deliveredFrom_eq_handed hrun hown).1, hout]

end Decoder

end CustomData
