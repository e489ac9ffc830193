/-
CustomData/Pushes.lean

C++ encoders that go on for ever, on a link they share.

A serializer that fails makes `Push` return false, but the slices that it has
filled by then are sent, and the package number is used up.  So each number
stands for a whole package, for the front of one, or for nothing at all, and
the fronts stay in the table of the decoder until their numbers come round
again.  They consist of counted slices, so the lazy reset drops them in time,
if the pushes that send something are not too far apart (`Lively`).

So the pushes of an encoder are a `Flow`, and the decoder hands over the
messages of the pushes that returned true, for each of up to eight encoders in
its order, however many there are (`pushes_delivered`).  A message without any
bytes is the exception: it is sent in no slices.
-/
import CustomData.Flow
import CustomData.PushContract

namespace CustomData

open Collect

namespace TxEncoderCore

variable {P : ℕ}

/-! ### One push -/

/-- What `SerializeToZeroCopyStream` does: it fills buffers with the message and
returns true, or it fills some of them and returns false, or it returns false
at once. -/
inductive Serialization (P : ℕ)
  | finished (m : Serialized P)
  | failed (full : List (Fill P P)) (tail : List ClientCall) (notAgain : ClientCall.next ∉ tail)
  | refused

namespace Serialization

/-- The calls it makes. -/
def calls : Serialization P → List ClientCall
  | finished m => m.calls
  | failed full tail _ => .next :: full.flatMap (fun b => b.calls ++ [.next]) ++ tail
  | refused => []

/-- The result. -/
def ok : Serialization P → Bool
  | finished _ => true
  | failed .. => false
  | refused => false

/-- How many buffers it asks for. -/
def buffers : Serialization P → ℕ
  | finished none => 0
  | finished (some c) => c.buffers
  | failed full _ _ => full.length + 1
  | refused => 0

/-- How many slices are sent of it. -/
def slices : Serialization P → ℕ
  | finished none => 0
  | finished (some c) => c.buffers
  | failed full _ _ => full.length
  | refused => 0

/-- The packages that are to be handed over. -/
def packages : Serialization P → List (List UInt8)
  | finished m => m.packages
  | failed .. => []
  | refused => []

end Serialization

/-- A call of `Push`, with the buffer that it is given. -/
structure PushCall (P : ℕ) where
  buffer : List UInt8
  unit : buffer.length = P + headerSize
  serialization : Serialization P

/-- The numbers and offsets of the slices can be told. -/
def PushCall.Fits (p : PushCall P) : Prop :=
  p.serialization.buffers ≤ 256 ∧ p.serialization.buffers * P ≤ 65535

/-- `Push` after `Push`: the blocks that the observer is given by each, and the
results. -/
def pushes (e : TxEncoderCore) : List (PushCall P) → List (List (List UInt8) × Bool)
  | [] => []
  | p :: ps =>
      let r := e.push p.serialization.calls p.serialization.ok p.buffer
      r.2 :: r.1.pushes ps

/-! ### A push that fails -/

/-- Only `Next` sends anything. -/
theorem observed_foldl {s : TxStream} {calls : List ClientCall} (h : ClientCall.next ∉ calls) :
    (calls.foldl TxStream.call s).observed = s.observed := by
  induction calls generalizing s with
  | nil => rfl
  | cons a calls ih =>
      obtain ⟨ha, hrest⟩ := not_or.mp (List.mem_cons.not.mp h)
      rw [List.foldl_cons, ih hrest]
      cases a with
      | next => exact absurd rfl ha
      | write => rfl
      | backUp => rfl

/-- The blocks of a push that fails are those of the buffers that were full. -/
theorem push_failed {e : TxEncoderCore} (hcap : P ≤ 4095)
    (htu : e.tu = UInt16.ofNat (P + headerSize)) {buffer : List UInt8}
    (hbuffer : buffer.length = P + headerSize) (full : List (Fill P P)) {tail : List ClientCall}
    (htail : ClientCall.next ∉ tail) :
    (e.push (Serialization.failed full tail htail).calls false buffer).2.1 =
      blocks P ⟨e.senderId, e.currentPackageId, 0⟩ (full.map Fill.bytes) := by
  have hconfig : (⟨e.tu⟩ : Config) = Config.ofPayload P := by rw [htu, Config.ofPayload]
  have hfull := (@open_create P ⟨e.senderId, e.currentPackageId, 0⟩ buffer hbuffer rfl).fills hcap
    full
  simp only [push, hconfig, Serialization.calls, List.foldl_append, List.foldl_cons,
    Bool.false_eq_true, if_false]
  rw [observed_foldl htail, hfull.observed, List.nil_append]

/-- A package that begins with full buffers and does not end with them. -/
def frontPackage (hP : 1 ≤ P) (hcap : P ≤ 4095) (full : List (Fill P P))
    (hn : full.length + 1 ≤ 256) (hoff : (full.length + 1) * P ≤ 65535) : Package P where
  data := (full.map Fill.bytes).flatten ++ [0]
  full := full.length
  capacity_le := hcap
  full_le := Nat.le_of_lt_succ hn
  offset_le := hoff
  nonempty := by simp
  lower := by
    rw [List.length_append, length_flatten_of_forall (by simpa using fun b _ => b.length),
      List.length_map]
    exact Nat.le_add_right _ _
  upper := by
    rw [List.length_append, length_flatten_of_forall (by simpa using fun b _ => b.length),
      List.length_map, Nat.add_one_mul]
    exact Nat.add_le_add_left hP _

/-- Full buffers are the front of such a package. -/
theorem areFrames_blocks (hP : 1 ≤ P) (hcap : P ≤ 4095) {full : List (Fill P P)}
    (hn : full.length + 1 ≤ 256) (hoff : (full.length + 1) * P ≤ 65535) (start : Coordinate) :
    (frontPackage hP hcap full hn hoff).AreFrames (start.senderId &&& 0x7) start.packageId
      (List.range full.length) (blocks P start (full.map Fill.bytes)) := by
  have hlength : (blocks P start (full.map Fill.bytes)).length = full.length := by
    rw [blocks, List.length_mapIdx, List.length_map]
  apply List.forall₂_of_length_eq_of_get (by rw [List.length_range, hlength])
  intro i h₁ h₂
  have hlt : i < full.length := by rwa [List.length_range] at h₁
  have hpayload : (frontPackage hP hcap full hn hoff).payload i = full[i].bytes :=
    take_drop_flatten (by simpa using fun b _ => b.length) [0] (by simp [hlt])
  simp only [List.get_eq_getElem, List.getElem_range, blocks, List.getElem_mapIdx,
    List.getElem_map]
  refine Client.isFrame_block hcap (Nat.le_of_lt hlt) full[i].length (Package.size_of_lt _ hlt)
    ?_ ?_
  · exact (decide_eq_false (Nat.ne_of_lt hlt)).symm
  · rw [hpayload, List.take_of_length_le full[i].length.le]

/-- **What a push sends** is a part of a package: all of it, or a front of
counted slices, or nothing. -/
theorem PushCall.exists_package (hP : 1 ≤ P) (hcap : P ≤ 4095) {p : PushCall P} (hfits : p.Fits)
    {e : TxEncoderCore} (htu : e.tu = UInt16.ofNat (P + headerSize)) :
    ∃ (q : Package P) (order : List ℕ),
      q.AreFrames (e.senderId &&& 0x7) e.currentPackageId order
        (e.push p.serialization.calls p.serialization.ok p.buffer).2.1 ∧
      order.length = p.serialization.slices ∧
      List.replicate (rounds (q.full + 1) order).1 q.data = p.serialization.packages ∧
      ∀ i ∈ (rounds (q.full + 1) order).2, q.Counted i := by
  obtain ⟨buffer, hbuffer, serialization⟩ := p
  have hone : (([] : List (Fill P P)).length + 1) * P ≤ 65535 := by
    rw [List.length_nil]
    omega
  have hnothing : rounds ((frontPackage hP hcap [] (by simp) hone).full + 1) [] = (0, []) := rfl
  cases serialization with
  | finished m =>
      cases m with
      | none =>
          refine ⟨frontPackage hP hcap [] (by simp) hone, [], .nil, rfl, ?_, ?_⟩
          all_goals rw [hnothing]
          · rfl
          · simp
      | some c =>
          obtain ⟨hn, hoff⟩ := hfits
          have hrounds : rounds ((c.package hcap hn hoff).full + 1) (List.range c.buffers) =
              (1, []) := rounds_range_self _
          refine ⟨c.package hcap hn hoff, List.range c.buffers,
            c.areFrames hcap hn hoff htu hbuffer, List.length_range, ?_, ?_⟩
          all_goals rw [hrounds]
          · rfl
          · simp
  | failed full tail htail =>
      obtain ⟨hn, hoff⟩ := hfits
      have hrounds : rounds ((frontPackage hP hcap full hn hoff).full + 1)
          (List.range full.length) = (0, List.range full.length) :=
        rounds_range_of_lt (Nat.lt_succ_self _)
      refine ⟨frontPackage hP hcap full hn hoff, List.range full.length, ?_, List.length_range,
        ?_, ?_⟩
      · have hsent := push_failed hcap htu hbuffer full htail
        exact hsent ▸ areFrames_blocks hP hcap hn hoff ⟨e.senderId, e.currentPackageId, 0⟩
      all_goals rw [hrounds]
      · rfl
      · exact fun i hi => Or.inl (List.mem_range.mp hi)
  | refused =>
      refine ⟨frontPackage hP hcap [] (by simp) hone, [], .nil, rfl, ?_, ?_⟩
      all_goals rw [hnothing]
      · rfl
      · simp

/-! ### Push after push -/

/-- The encoder after `n` calls of `Push`. -/
def after (e : TxEncoderCore) (n : ℕ) : TxEncoderCore :=
  { e with currentPackageId := e.currentPackageId + UInt8.ofNat n }

theorem pushes_eq_mapIdx (e : TxEncoderCore) (ps : List (PushCall P)) :
    e.pushes ps = ps.mapIdx fun n p =>
      ((e.after n).push p.serialization.calls p.serialization.ok p.buffer).2 := by
  induction ps generalizing e with
  | nil => rfl
  | cons p ps ih =>
      have hnext : ∀ n, (e.push p.serialization.calls p.serialization.ok p.buffer).1.after n =
          e.after (n + 1) := by
        intro n
        simp only [push, after, UInt8.ofNat_add, UInt8.add_assoc]
        rw [UInt8.add_comm (UInt8.ofNat n)]
        rfl
      have hfirst : e.after 0 = e := by simp [after]
      rw [pushes, ih, List.mapIdx_cons, hfirst]
      simp only [hnext]

/-- Of 128 pushes in a row, and of 255 pushes with the same number in a row,
some push sends a slice. -/
structure Lively (ps : List (PushCall P)) : Prop where
  row : ∀ i, i + 128 ≤ ps.length → ∃ j p, i ≤ j ∧ j < i + 128 ∧ ps[j]? = some p ∧
    0 < p.serialization.slices
  column : ∀ i, i + 65536 < ps.length → ∃ m p, 0 < m ∧ m < 256 ∧ ps[i + 256 * m]? = some p ∧
    0 < p.serialization.slices

theorem lively_of_length_lt {ps : List (PushCall P)} (h : ps.length < 128) : Lively ps where
  row := fun i hi => absurd hi (by omega)
  column := fun i hi => absurd hi (by omega)

theorem flatMap_range {α β : Type} {l : List α} {g : α → List β} {h : ℕ → List β}
    (hh : ∀ i a, l[i]? = some a → h i = g a) : (List.range l.length).flatMap h = l.flatMap g := by
  rw [List.flatMap_def, List.flatMap_def]
  congr 1
  apply List.ext_getElem (by simp)
  intro i h₁ h₂
  rw [List.getElem_map, List.getElem_map, List.getElem_range]
  exact hh i _ (List.getElem?_eq_getElem _)

/-- **The pushes of an encoder** are a flow, which is never silent and leaves
nothing that is not cleared. -/
theorem exists_flow (hP : 1 ≤ P) (hcap : P ≤ 4095) {e : TxEncoderCore}
    (htu : e.tu = UInt16.ofNat (P + headerSize)) {ps : List (PushCall P)}
    (hfits : ∀ p ∈ ps, p.Fits) (hlively : Lively ps) :
    ∃ f : Flow P, (e.pushes ps).flatMap Prod.fst = (List.range ps.length).flatMap f.frames ∧
      f.copies ps.length = ps.flatMap (fun p => p.serialization.packages) ∧
      f.NeverSilent ps.length ∧ f.Cleared ps.length := by
  let idle : PushCall P := ⟨List.replicate (P + headerSize) 0, List.length_replicate, .refused⟩
  have hat : ∀ n, (ps.getD n idle).Fits := by
    intro n
    rw [List.getD_eq_getElem?_getD]
    cases hn : ps[n]? with
    | none => exact ⟨Nat.zero_le _, by simp [idle, Serialization.buffers]⟩
    | some p => exact hfits p (List.mem_of_getElem? hn)
  choose package order hframes hslices hpackages hcounted using fun n =>
    PushCall.exists_package hP hcap (hat n)
      (show (e.after n).tu = UInt16.ofNat (P + headerSize) from htu)
  have hget : ∀ {n p}, ps[n]? = some p → ps.getD n idle = p := by
    intro n p hn
    rw [List.getD_eq_getElem?_getD, hn, Option.getD_some]
  have hsends : ∀ {n p}, ps[n]? = some p → 0 < p.serialization.slices → order n ≠ [] := by
    intro n p hn hpos hnil
    have hlength := hslices n
    rw [hget hn, hnil] at hlength
    exact absurd hlength.symm (Nat.ne_of_gt hpos)
  refine ⟨⟨e.senderId &&& 0x7, senderId_and_lt _, e.currentPackageId, package, order, _, hframes⟩,
    ?_, ?_, ?_, ?_⟩
  · have hlength : (e.pushes ps).length = ps.length := by
      rw [pushes_eq_mapIdx, List.length_mapIdx]
    rw [← hlength]
    refine (flatMap_range fun n r hr => ?_).symm
    rw [pushes_eq_mapIdx, List.getElem?_mapIdx] at hr
    obtain ⟨p, hp, rfl⟩ := Option.map_eq_some_iff.mp hr
    dsimp only
    rw [hget hp]
  · exact flatMap_range fun n p hp => by
      rw [← hget hp]
      exact hpackages n
  · intro i hi
    obtain ⟨j, p, hij, hj, hp, hpos⟩ := hlively.row i hi
    exact ⟨j, hij, hj, hsends hp hpos⟩
  · intro i j hij hj hdvd _ hbetween hleft
    obtain ⟨k, hk⟩ := List.exists_mem_of_ne_nil _ hleft
    refine ⟨⟨k, hk, hcounted i k hk⟩, fun hwrap => ?_⟩
    -- a push with this number would lie between
    have hfar : i + 65536 ≤ j := by
      have := Nat.le_of_dvd (by omega) hwrap
      omega
    obtain ⟨m, p, hm, hm', hp, hpos⟩ := hlively.column i (by omega)
    exact hsends hp hpos (hbetween (i + 256 * m) (by omega) (by omega) (by omega))

end TxEncoderCore

open TxEncoderCore in
/-- **Encoders that share a link.**  Up to eight C++ encoders push messages
without end; some pushes fail, and the blocks of all encoders are mixed in any
way.  The decoder hands over the messages of the pushes that returned true, for
each encoder in its order, and nothing else.  An empty message is sent in no
slice (`Serialization.packages`): its push returns true, and nothing is handed
over. -/
theorem pushes_delivered {P : ℕ} (hP : 1 ≤ P) (hcap : P ≤ 4095) {d : Decoder} {c : Coordinator}
    (hc : d.Initial c) {e : UInt8 → TxEncoderCore}
    (htu : ∀ s, (e s).tu = UInt16.ofNat (P + headerSize)) {ps : UInt8 → List (PushCall P)}
    (hfits : ∀ s, ∀ p ∈ ps s, p.Fits) (hlively : ∀ s, Lively (ps s))
    {frames : List (List UInt8)}
    (hframes : ∀ s, s.toNat < 8 →
      Decoder.framesOf s frames = ((e s).pushes (ps s)).flatMap Prod.fst) :
    ∃ c' os, Machine.run (d.feed (Config.ofPayload P)) c frames = .ok (c', os) ∧
      ∀ s, s.toNat < 8 → Decoder.deliveredFrom s os =
        (ps s).flatMap fun p => p.serialization.packages := by
  obtain ⟨m, rfl⟩ := hc.exists_fresh
  apply Decoder.run_of_senders
  intro s hs
  obtain ⟨f, hsent, hcopies, hsilent, hcleared⟩ :=
    exists_flow hP hcap (htu s) (hfits s) (hlively s)
  obtain ⟨-, c', os, hrun, -, hhanded⟩ := f.run_copies hsilent hcleared d m le_rfl
  exact ⟨c', os, by rw [hframes s hs, hsent, hrun], hhanded.trans hcopies⟩

namespace TxEncoderCore

/-- A push in a buffer of seven bytes. -/
def sevenByteCall (s : Serialization 3) : PushCall 3 :=
  ⟨List.replicate 7 0, List.length_replicate, s⟩

/-- The serializer fails in its second buffer. -/
def cutShort : Serialization 3 :=
  .failed [⟨[(0, [1, 2]), (2, [3])], [1, 2, 3], by decide, rfl, by
      intro old hold
      obtain ⟨a, b, c, rfl⟩ := List.length_eq_three.mp hold
      rfl⟩] [.write 0 [4], .backUp 2] (by decide)

/-- Encoder 1 fails and goes on, and encoder 2 begins with an empty message. -/
def twoPushes (s : UInt8) : List (PushCall 3) :=
  if s = 1 then [sevenByteCall cutShort, sevenByteCall (.finished (some oneByte))]
  else if s = 2 then [sevenByteCall (.finished none), sevenByteCall (.finished (some oneByte))]
  else []

theorem pushes_delivered_two :
    ∃ c' os, Machine.run (Decoder.cpp.feed (Config.ofPayload 3)) (.fresh fun _ => ⟨7, 200⟩)
        [[0, 0, 49, 0, 1, 2, 3], [1, 0, 26, 0, 5, 0, 0], [1, 0, 25, 0, 5, 0, 0]] =
          .ok (c', os) ∧
      ∀ s, s.toNat < 8 → Decoder.deliveredFrom s os =
        (twoPushes s).flatMap fun p => p.serialization.packages := by
  have hcases : ∀ s, (∀ p ∈ twoPushes s, p.Fits) ∧ (twoPushes s).length < 128 := by
    intro s
    unfold twoPushes
    split
    · exact ⟨by simp [sevenByteCall, PushCall.Fits]; decide, by decide⟩
    · split
      · exact ⟨by simp [sevenByteCall, PushCall.Fits]; decide, by decide⟩
      · exact ⟨by simp, by decide⟩
  have hframes : ∀ k : Fin 8, Decoder.framesOf (UInt8.ofNat k)
      [[0, 0, 49, 0, 1, 2, 3], [1, 0, 26, 0, 5, 0, 0], [1, 0, 25, 0, 5, 0, 0]] =
      ((TxEncoderCore.mk (UInt8.ofNat k) 7 0).pushes (twoPushes (UInt8.ofNat k))).flatMap
        Prod.fst := by
    decide +kernel
  exact @pushes_delivered 3 (by decide) (by decide) .cpp _ ⟨_, rfl⟩ (fun s => ⟨s, 7, 0⟩)
    (fun _ => rfl) twoPushes (fun s => (hcases s).1) (fun s => lively_of_length_lt (hcases s).2) _
    fun s hs => by simpa using hframes ⟨s.toNat, hs⟩

end TxEncoderCore

end CustomData
