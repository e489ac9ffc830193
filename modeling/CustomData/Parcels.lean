/-
CustomData/Parcels.lean

The frames of one package in any order and with repeats, and packages one after
the other.

The slot of a decoder gathers slices in the sense of `Collect.Gathers`.  So
whatever frames of a package arrive, the package is handed over as often as the
greedy collector closes a round, and the decoder is left with the slices that
came after the last round (`Package.run_slices`).

A `Parcel` is a package with such frames of which none are left over.  Parcels
may follow each other with any senders and serials (`parcels_to_decoder`), and
on the link to a decoder those of different senders may also be mixed
(`parcels_from_senders`).
-/
import CustomData.Interleaving
import CustomData.SlotRx
import CustomData.Embedded
import CustomData.Lib.Gather

namespace CustomData

open Collect

variable {P : ℕ}

namespace Package

variable {p : Package P} {sender serial : UInt8} {R : Finset ℕ} {order : List ℕ}
variable {frames : List (List UInt8)}

/-! ### The slot of a decoder -/

section Decoder

variable {c c₀ : Coordinator} {i : ℕ} {f : List UInt8}

/-- The slot of the package holds the slices `R` once it is refreshed. -/
def Arriving (p : Package P) (sender serial : UInt8) (R : Finset ℕ) (c : Coordinator) : Prop :=
  p.InSlot R ((c.slots (Coordinator.slotIndex sender serial)).gcClockHook
    ((c.senderMeta sender).gcHook serial))

/-- A slot that holds nothing is ready for any package. -/
theorem arriving_empty (p : Package P)
    (h : (c.slots (Coordinator.slotIndex sender serial)).state = .zero) :
    p.Arriving sender serial ∅ c := by
  have hhook := (p.inSlot_empty h).gcClockHook ((c.senderMeta sender).gcHook serial)
  rwa [survivors_empty] at hhook

theorem Arriving.feed (h : p.Arriving sender serial R c) (hf : p.IsFrame sender serial i f)
    (hs : sender.toNat < 8) (d : Decoder) :
    ∃ c', d.feed (Config.ofPayload P) c f = .ok (c', some (p.verdict sender serial R i)) ∧
      p.Arriving sender serial (p.after R i) c' ∧ Touched c c' sender serial := by
  obtain ⟨c', hfeed, hin, htouch⟩ := InSlot.feed_of_refreshed h hf hs d
  exact ⟨c', hfeed, by rwa [Arriving, htouch.refreshed], htouch⟩

/-- What a run over frames of a package has made of the table `c₀`. -/
structure Gathered (p : Package P) (sender serial : UInt8) (c₀ : Coordinator) (k : ℕ)
    (R : Finset ℕ) (c : Coordinator) (os : List (Option Verdict)) : Prop where
  arriving : p.Arriving sender serial R c
  handed : CustomData.handed os = List.replicate k p.data
  touched : os = [] ∧ c = c₀ ∨ Touched c₀ c sender serial

theorem Gathered.feed {k : ℕ} {os : List (Option Verdict)}
    (h : p.Gathered sender serial c₀ k R c os) (hf : p.IsFrame sender serial i f)
    (hs : sender.toNat < 8) (d : Decoder) :
    ∃ c', d.feed (Config.ofPayload P) c f = .ok (c', some (p.verdict sender serial R i)) ∧
      p.Arriving sender serial (p.after R i) c' ∧ Touched c₀ c' sender serial ∧
      CustomData.handed (os ++ [some (p.verdict sender serial R i)]) =
        List.replicate k p.data ++ (p.delivery R i).toList := by
  obtain ⟨c', hfeed, hnext, htouch⟩ := h.arriving.feed hf hs d
  refine ⟨c', hfeed, hnext, ?_, ?_⟩
  · rcases h.touched with ⟨-, rfl⟩ | htouched
    · exact htouch
    · exact htouched.trans htouch
  · rw [handed_append, h.handed, handed_verdict]

/-- Some frame has touched the table. -/
theorem Gathered.touched_of_ne_nil {k : ℕ} {os : List (Option Verdict)} {d : Decoder}
    (h : p.Gathered sender serial c₀ k R c os) (hne : frames ≠ [])
    (hrun : Machine.run (d.feed (Config.ofPayload P)) c₀ frames = .ok (c, os)) :
    Touched c₀ c sender serial := by
  rcases h.touched with ⟨hnil, -⟩ | htouch
  · cases frames with
    | nil => exact absurd rfl hne
    | cons f frames =>
        obtain ⟨-, o, os', -, -, hos⟩ := Machine.run_cons_eq_ok.mp hrun
        rw [hnil] at hos
        cases hos
  · exact htouch

/-- The slots of the decoders gather slices. -/
theorem gathers_decoder (p : Package P) (serial : UInt8) (hs : sender.toNat < 8) (d : Decoder)
    (c₀ : Coordinator) :
    Gathers (p.full + 1) (d.feed (Config.ofPayload P)) (p.IsFrame sender serial)
      (p.Gathered sender serial c₀) where
  lt := fun hf => Nat.lt_succ_iff.mpr hf.slice_le
  more := by
    intro k R c os i f h hf hopen
    obtain ⟨c', hfeed, hnext, htouch, hhanded⟩ := h.feed hf hs d
    rw [after, if_neg hopen] at hnext
    rw [delivery, if_neg hopen] at hhanded
    exact ⟨c', _, hfeed, hnext, by simpa using hhanded, Or.inr htouch⟩
  whole := by
    intro k R c os i f h hf _ hall
    obtain ⟨c', hfeed, hnext, htouch, hhanded⟩ := h.feed hf hs d
    rw [after, if_pos hall] at hnext
    rw [delivery, if_pos hall] at hhanded
    exact ⟨c', _, hfeed, hnext, by rw [hhanded, List.replicate_succ']; rfl, Or.inr htouch⟩

/-- **Any frames of a package** to a slot that holds none of it. -/
theorem run_slices (hs : sender.toNat < 8) (d : Decoder)
    (hframes : p.AreFrames sender serial order frames) (h : p.Arriving sender serial ∅ c) :
    ∃ c' os, Machine.run (d.feed (Config.ofPayload P)) c frames = .ok (c', os) ∧
      p.Gathered sender serial c (rounds (p.full + 1) order).1
        (rounds (p.full + 1) order).2.toFinset c' os :=
  (p.gathers_decoder serial hs d c).run ⟨h, rfl, Or.inl ⟨rfl, rfl⟩⟩ hframes

end Decoder

/-! ### The state of the embedded decoder -/

section Embedded

variable {σ : Type} (output : PbOutputConfig σ) {store : PayloadStore σ} {inst : PbDecoderInst σ}

/-- The decodes that were started. -/
def pulls (os : List (Option SlicePull)) : List SlicePull := os.filterMap id

theorem pulls_append (os os' : List (Option SlicePull)) :
    pulls (os ++ os') = pulls os ++ pulls os' :=
  List.filterMap_append

/-- The embedded decoder holds the slices `R` and has started the decodes of the
packages `given`. -/
structure Decodes (p : Package P) (store : PayloadStore σ) (given : List (List UInt8))
    (R : Finset ℕ) (inst : PbDecoderInst σ) (os : List (Option SlicePull)) : Prop where
  held : p.Held store .zero R inst
  offers : List.Forall₂ SlicePull.Offers (pulls os) given

theorem held_empty (p : Package P) (store : PayloadStore σ) (h : inst.state = .zero) :
    p.Held store .zero ∅ inst := by
  have hfresh : p.Fresh inst.state := h ▸ p.fresh_zero
  simpa only [h] using hfresh.held store

/-- A slice that is there already changes nothing, whatever package it is of. -/
theorem Held.feed_repeat {s₀ : RxSliceState} {q : Package P} {i : ℕ} {f : List UInt8}
    (h : p.Held store s₀ R inst) (hf : q.IsFrame sender serial i f) (hs : sender.toNat < 8)
    (hi : i ∈ R) :
    pbDecodeFeed (Config.ofPayload P) output store inst f =
      .ok ({ inst with started := none }, none) := by
  have hfeed := rxStreamFeed_of_isFrame hf hs
    (s := pbStream (Config.ofPayload P) output store) rfl { inst with started := none }
  have hstep : rxCalcSliceStep inst.state (UInt8.ofNat i) (UInt16.ofNat (q.size i))
      (maxPayload (Config.ofPayload P)) (decide (i = q.full)) = .ok ⟨.duplicate, inst.state⟩ :=
    h.tracks.step_of_mem hi _ _
  rw [pbDecodeFeed, hfeed]
  show (rxCalcSliceStep inst.state _ _ _ _ >>= _) >>= _ = _
  rw [hstep, Machine.ok_bind, if_pos rfl]
  rfl

/-- The embedded decoder gathers slices. -/
theorem gathers_embedded (p : Package P) (given : List (List UInt8)) (serial : UInt8)
    (hs : sender.toNat < 8) (store : PayloadStore σ) :
    Gathers (p.full + 1) (pbDecodeFeed (Config.ofPayload P) output store)
      (p.IsFrame sender serial)
      fun k R inst os => p.Decodes store (given ++ List.replicate k p.data) R inst os where
  lt := fun hf => Nat.lt_succ_iff.mpr hf.slice_le
  more := by
    intro k R inst os i f h hf hopen
    have hnone : pulls (os ++ [none]) = pulls os := by simp [pulls]
    by_cases hi : i ∈ R
    · refine ⟨_, _, h.held.feed_repeat output hf hs hi, ?_, hnone ▸ h.offers⟩
      rw [Finset.insert_eq_self.mpr hi]
      exact ⟨h.held.tracks, h.held.bytes⟩
    · obtain ⟨next, hstep, htr⟩ := h.held.tracks.step_of_insert_ne p.fresh_zero
        p.maxPayload_config hf.slice_le hi hopen (Or.inl rfl)
      obtain ⟨hd, hc⟩ := openEvent_ne R i
      obtain ⟨inst', hfeed, hstate, huser, hstarted⟩ :=
        pbDecodeFeed_of_step output store hf hs hstep
      rw [if_neg hd, if_neg hc] at hstate
      rw [if_neg hc] at hstarted
      rw [hstarted] at hfeed
      refine ⟨inst', none, hfeed, ⟨hstate ▸ htr, ?_⟩, hnone ▸ h.offers⟩
      rw [huser hd hc]
      exact h.held.bytes.insert hf
  whole := by
    intro k R inst os i f h hf hi hall
    obtain ⟨inst', pull, hfeed, hoffers, hzero⟩ :=
      h.held.feed_last output p.fresh_zero hf hs hi hall
    refine ⟨inst', some pull, hfeed, p.held_empty store hzero, ?_⟩
    rw [pulls_append, List.replicate_succ', ← List.append_assoc]
    exact List.rel_append h.offers (.cons hoffers .nil)

end Embedded

end Package

/-! ### Package after package -/

/-- A package and its frames as they arrive, in any order and with repeats; the
last of them closes a round. -/
structure Parcel (P : ℕ) where
  package : Package P
  sender : UInt8
  sender_lt : sender.toNat < 8
  serial : UInt8
  order : List ℕ
  frames : List (List UInt8)
  areFrames : package.AreFrames sender serial order frames
  closed : (rounds (package.full + 1) order).2 = []

namespace Parcel

/-- How often the frames cover the package, one time after the other. -/
def times (p : Parcel P) : ℕ := (rounds (p.package.full + 1) p.order).1

/-- What a receiver is to hand over. -/
def copies (p : Parcel P) : List (List UInt8) := List.replicate p.times p.package.data

end Parcel

/-- No slot holds anything. -/
def Coordinator.Clear (c : Coordinator) : Prop :=
  ∀ s k, (c.slots (Coordinator.slotIndex s k)).state = .zero

theorem Coordinator.clear_fresh (m : UInt8 → SenderMeta) : (Coordinator.fresh m).Clear :=
  fun _ _ => rfl

section Decoder

variable {c : Coordinator} {d : Decoder}

/-- A parcel leaves no slot with anything in it. -/
theorem Parcel.run (p : Parcel P) (hc : c.Clear) (d : Decoder) :
    ∃ c' os, Machine.run (d.feed (Config.ofPayload P)) c p.frames = .ok (c', os) ∧
      c'.Clear ∧ handed os = p.copies := by
  obtain ⟨c', os, hrun, hgathered⟩ := p.package.run_slices p.sender_lt d p.areFrames
    (p.package.arriving_empty (hc p.sender p.serial))
  refine ⟨c', os, hrun, ?_, hgathered.handed⟩
  rcases hgathered.touched with ⟨-, rfl⟩ | htouch
  · exact hc
  · intro s k
    by_cases hsk : s = p.sender ∧ k = p.serial
    · obtain ⟨rfl, rfl⟩ := hsk
      have hin := hgathered.arriving
      rw [Package.Arriving, htouch.refreshed, p.closed, List.toFinset_nil] at hin
      exact hin.state_eq_zero
    · rw [htouch.otherSlots s k (not_and_or.mp hsk)]
      exact hc s k

/-- Parcels one after the other, from any senders and with any serials. -/
theorem parcels_to_decoder (hc : c.Clear) (d : Decoder) (ps : List (Parcel P)) :
    ∃ c' os, Machine.run (d.feed (Config.ofPayload P)) c (ps.flatMap Parcel.frames) =
        .ok (c', os) ∧
      c'.Clear ∧ handed os = ps.flatMap Parcel.copies := by
  obtain ⟨c', os, bs, hrun, hc', hhanded, hbs⟩ : ∃ c' os bs,
      Machine.run (d.feed (Config.ofPayload P)) c (ps.flatMap Parcel.frames) = .ok (c', os) ∧
        c'.Clear ∧ handed os = bs.flatten ∧
        List.Forall₂ (fun (p : Parcel P) b => p.copies = b) ps bs := by
    apply run_rounds rfl handed_append _ hc
    intro p c hc
    obtain ⟨c', os, hrun, hc', hhanded⟩ := p.run hc d
    exact ⟨c', os, hrun, hc', hhanded.symm⟩
  rw [← List.forall₂_map_left_iff, List.forall₂_eq_eq_eq] at hbs
  exact ⟨c', os, hrun, hc', by rw [hhanded, ← hbs, List.flatMap_def]⟩

/-- **Senders that share a link.**  Each sender sends parcels one after the
other, with any serials; the frames of different senders are mixed in any way.
A decoder with nothing in its slots hands over the packages of every sender in
the order they were sent, each as often as its frames cover it. -/
theorem parcels_from_senders (hc : c.Clear) (d : Decoder) {frames : List (List UInt8)}
    {ps : UInt8 → List (Parcel P)}
    (hframes : ∀ s, s.toNat < 8 → Decoder.framesOf s frames = (ps s).flatMap Parcel.frames) :
    ∃ c' os, Machine.run (d.feed (Config.ofPayload P)) c frames = .ok (c', os) ∧
      ∀ s, s.toNat < 8 → Decoder.deliveredFrom s os = (ps s).flatMap Parcel.copies := by
  apply Decoder.run_of_senders
  intro s hs
  obtain ⟨c', os, hrun, -, hhanded⟩ := parcels_to_decoder hc d (ps s)
  exact ⟨c', os, by rw [hframes s hs, hrun], hhanded⟩

end Decoder

end CustomData
