/-
CustomData/Splice.lean

A receiver with one state for all packages behind a sender that breaks off.

The embedded decoder and the receiver of the tool do not look at the
coordinates of a frame: they keep one slice state.  A sender that breaks off
after some full slices (a failed encode, a failed `write`) leaves these slices
there, on a link that loses nothing.  The next package then does not get its
first slices in: they count as repeats.

`splice` says what comes of it, in terms of bytes only: the stale bytes take
the place of as many bytes of the next package, or swallow a package that is
shorter.  `Splices.run` proves it of every receiver that gathers slices, forgets
which package they are of and passes over repeats; the two receivers of the
repository are instances (`splices_embedded`, `splices_tool`).
-/
import CustomData.Parcels
import CustomData.ToolRx

namespace CustomData

open Collect

variable {P : ℕ}

/-! ### What becomes of the bytes -/

/-- What a receiver makes of an attempt to send `data`, finished or broken off
after its full slices, when `stale` bytes are left over from before: the bytes
left over now, and the packages it takes for complete. -/
def splice (P : ℕ) (stale data : List UInt8) (finished : Bool) :
    List UInt8 × List (List UInt8) :=
  if finished then
    if stale.length ≤ data.length / P * P then ([], [stale ++ data.drop stale.length])
    else (stale, [])
  else (stale ++ (data.take (data.length / P * P)).drop stale.length, [])

/-- Attempt after attempt. -/
def spliceAll (P : ℕ) : List UInt8 → List (List UInt8 × Bool) → List UInt8 × List (List UInt8)
  | stale, [] => (stale, [])
  | stale, (data, finished) :: rest =>
      let now := splice P stale data finished
      let later := spliceAll P now.1 rest
      (later.1, now.2 ++ later.2)

/-- An attempt broken off before the first full slice leaves no trace. -/
theorem spliceAll_of_short {attempts : List (List UInt8 × Bool)}
    (h : ∀ a ∈ attempts, a.2 = false → a.1.length < P) :
    spliceAll P [] attempts = ([], (attempts.filter Prod.snd).map Prod.fst) := by
  induction attempts with
  | nil => rfl
  | cons a attempts ih =>
      obtain ⟨ha, hrest⟩ := List.forall_mem_cons.mp h
      obtain ⟨data, finished⟩ := a
      cases finished with
      | true => simp [spliceAll, splice, ih hrest]
      | false =>
          have hzero : data.length / P = 0 := Nat.div_eq_of_lt (ha rfl)
          simp [spliceAll, splice, hzero, ih hrest]

/-- The full slices at the beginning of `data`. -/
structure Begins (P : ℕ) (stale data : List UInt8) : Prop where
  isPrefix : stale <+: data
  length_le : stale.length ≤ data.length / P * P

/-- A broken-off attempt at the beginning of `data` leaves full slices at the
beginning of `data`. -/
theorem Begins.splice {stale data part : List UInt8} (h : Begins P stale data)
    (hpart : part <+: data) : Begins P (splice P stale part false).1 data := by
  have hfull : part.take (part.length / P * P) <+: data := (List.take_prefix _ _).trans hpart
  rw [CustomData.splice, if_neg (by decide)]
  rcases le_total stale.length (part.take (part.length / P * P)).length with hle | hle
  · obtain ⟨rest, hrest⟩ := List.prefix_of_prefix_length_le h.isPrefix hfull hle
    rw [← hrest, List.drop_left' rfl, hrest]
    refine ⟨hfull, (List.length_take_le _ _).trans ?_⟩
    exact Nat.mul_le_mul_right P (Nat.div_le_div_right hpart.length_le)
  · rw [List.drop_eq_nil_of_le hle, List.append_nil]
    exact h

/-- A finished attempt to send `data` completes it. -/
theorem Begins.splice_finished {stale data : List UInt8} (h : Begins P stale data) :
    CustomData.splice P stale data true = ([], [data]) := by
  obtain ⟨rest, hrest⟩ := h.isPrefix
  have hwhole : stale ++ data.drop stale.length = data := by
    rw [← hrest, List.drop_left' rfl]
  rw [CustomData.splice, if_pos rfl, if_pos h.length_le, hwhole]

/-- A try to send an input: the bytes that were tried, and whether they were
finished. -/
structure Try where
  input : List UInt8
  data : List UInt8
  finished : Bool
  isPrefix : data <+: input
  whole : finished = true → data = input

/-- **Repeats until success.**  If a try that is broken off is always followed
by one to send the same, and the last is finished, then every input that was
finished is delivered once and whole. -/
theorem spliceAll_tries {tries : List Try} {stale : List UInt8}
    (hstale : stale = [] ∨ ∃ t ∈ tries.head?, Begins P stale t.input)
    (hchain : tries.IsChain fun t u => t.finished = false → u.input = t.input)
    (hlast : ∀ t ∈ tries.getLast?, t.finished = true) :
    spliceAll P stale (tries.map fun t => (t.data, t.finished)) =
      ([], (tries.filter Try.finished).map Try.input) := by
  induction tries generalizing stale with
  | nil =>
      have hnil : stale = [] := by simpa using hstale
      rw [hnil]
      rfl
  | cons t tries ih =>
      have hbegins : Begins P stale t.input := by
        rcases hstale with rfl | ⟨u, hu, h⟩
        · exact ⟨List.nil_prefix, Nat.zero_le _⟩
        · exact Option.some.inj hu ▸ h
      cases hok : t.finished with
      | true =>
          have hrest := ih (.inl rfl) hchain.tail fun u hu =>
            hlast u (by rw [List.getLast?_cons, Option.mem_def.mp hu]; rfl)
          rw [List.map_cons, spliceAll, t.whole hok, hok, hbegins.splice_finished]
          dsimp only
          rw [hrest, List.filter_cons_of_pos hok, List.map_cons, List.singleton_append]
      | false =>
          cases tries with
          | nil => exact absurd (hlast t rfl) (by simp [hok])
          | cons u tries =>
              have hnext : Begins P (splice P stale t.data false).1 u.input := by
                rw [(List.isChain_cons_cons.mp hchain).1 hok]
                exact hbegins.splice t.isPrefix
              have hrest := ih (.inr ⟨u, rfl, hnext⟩) hchain.tail fun v hv =>
                hlast v (by rwa [List.getLast?_cons_cons])
              have hskip : (t :: u :: tries).filter Try.finished =
                  (u :: tries).filter Try.finished :=
                List.filter_cons_of_neg (by simp [hok])
              rw [List.map_cons, spliceAll, hok, hrest, hskip]
              rfl

/-! ### Attempts on the wire -/

/-- An attempt to send a package and the frames that went out: all of them, or
those of the full slices.  An attempt without data has sent nothing. -/
structure Attempt (P : ℕ) where
  data : List UInt8
  finished : Bool
  sender : UInt8
  sender_lt : sender.toNat < 8
  serial : UInt8
  frames : List (List UInt8)
  sent : data = [] ∧ finished = false ∧ frames = [] ∨
    ∃ m : Message P, m.data = data ∧ m.stream.AreFrames sender serial
      (List.range (m.stream.full + if finished then 1 else 0)) frames

/-- The bytes of an attempt and whether it was finished. -/
def Attempt.outcome (a : Attempt P) : List UInt8 × Bool := (a.data, a.finished)

/-- The stream of a finished attempt. -/
theorem Attempt.exists_stream (a : Attempt P) (h : a.finished = true) :
    ∃ m : Message P, m.data = a.data ∧
      m.stream.AreFrames a.sender a.serial (List.range (m.stream.full + 1)) a.frames := by
  rcases a.sent with ⟨-, hfinished, -⟩ | ⟨m, hm, hframes⟩
  · rw [h] at hfinished
    cases hfinished
  · rw [h] at hframes
    exact ⟨m, hm, hframes⟩

theorem Attempt.length_le (a : Attempt P) : a.data.length ≤ 65535 := by
  rcases a.sent with ⟨hnil, -, -⟩ | ⟨m, hdata, -⟩
  · simp [hnil]
  · rw [← hdata]
    exact m.stream.length_le

/-- The receivers the theorem is about: they gather the slices of packages of
up to `room` bytes, with the packages `given` so far, cannot tell two packages
that begin with the full slices they hold, and pass over the repeat of such a
slice, whatever package it is of. -/
structure Splices {σ ω : Type} (P room : ℕ)
    (step : σ → List UInt8 → Except Fault (σ × ω))
    (holds : Package P → List (List UInt8) → Finset ℕ → σ → List ω → Prop) : Prop where
  gathers : ∀ (p : Package P) given sender serial, sender.toNat < 8 → p.data.length ≤ room →
    Gathers (p.full + 1) step (p.IsFrame sender serial)
      fun k R s os => holds p (given ++ List.replicate k p.data) R s os
  swap : ∀ {p p' : Package P} {given n s os}, holds p given (Finset.range n) s os →
    p'.data.length ≤ room → n ≤ p.full → n ≤ p'.full →
    p'.data.take (n * P) = p.data.take (n * P) → holds p' given (Finset.range n) s os
  pass : ∀ {p p' : Package P} {given n s os sender serial i f},
    holds p given (Finset.range n) s os → n ≤ p.full → i < n → sender.toNat < 8 →
    p'.IsFrame sender serial i f →
    ∃ t o, step s f = .ok (t, o) ∧ holds p given (Finset.range n) t (os ++ [o])

variable {σ ω : Type} {room : ℕ} {step : σ → List UInt8 → Except Fault (σ × ω)}
variable {holds : Package P → List (List UInt8) → Finset ℕ → σ → List ω → Prop}

/-- Between two attempts: the packages `given` are complete, and the bytes
`stale` are those of full slices. -/
def Rests (room : ℕ) (holds : Package P → List (List UInt8) → Finset ℕ → σ → List ω → Prop)
    (given : List (List UInt8)) (stale : List UInt8) (s : σ) (os : List ω) : Prop :=
  ∃ (p : Package P) (n : ℕ), p.data.length ≤ room ∧ n ≤ p.full ∧ stale = p.data.take (n * P) ∧
    holds p given (Finset.range n) s os

/-- A package of one byte. -/
def Package.single (hP : 1 ≤ P) (hcap : P ≤ 4095) : Package P where
  data := [0]
  full := 0
  capacity_le := hcap
  full_le := Nat.zero_le _
  offset_le := by omega
  nonempty := Nat.one_pos
  lower := by simp
  upper := by simpa using hP

/-- A receiver that holds nothing. -/
theorem rests_of_empty (hP : 1 ≤ P) (hcap : P ≤ 4095) (hroom : 1 ≤ room)
    {given : List (List UInt8)} {s : σ} {os : List ω}
    (h : ∀ p : Package P, p.data.length ≤ room → holds p given ∅ s os) :
    Rests room holds given [] s os :=
  ⟨.single hP hcap, 0, hroom, Nat.zero_le _, by simp, h (.single hP hcap) hroom⟩

theorem length_take_slices (p : Package P) {n : ℕ} (hn : n ≤ p.full) :
    (p.data.take (n * P)).length = n * P := by
  rw [List.length_take]
  exact Nat.min_eq_left (p.offset_le_of_le hn)

namespace Splices

variable {p : Package P} {given : List (List UInt8)} {n : ℕ} {s : σ} {os : List ω}

/-- Repeats are passed over. -/
theorem pass_run (h : Splices P room step holds) (hs : holds p given (Finset.range n) s os)
    (hn : n ≤ p.full) {p' : Package P} {sender serial : UInt8} (hsender : sender.toNat < 8)
    {order : List ℕ} {frames : List (List UInt8)}
    (hframes : p'.AreFrames sender serial order frames) (hlt : ∀ i ∈ order, i < n) :
    ∃ t os', Machine.run step s frames = .ok (t, os') ∧
      holds p given (Finset.range n) t (os ++ os') := by
  induction hframes generalizing s os with
  | nil => exact ⟨s, [], rfl, by simpa using hs⟩
  | @cons i f order frames hf _ ih =>
      obtain ⟨hi, hrest⟩ := List.forall_mem_cons.mp hlt
      obtain ⟨t, o, hstep, ht⟩ := h.pass hs hn hi hsender hf
      obtain ⟨u, os', hrun, hu⟩ := ih ht hrest
      refine ⟨u, o :: os', Machine.run_cons_of_ok hstep hrun, ?_⟩
      simpa only [List.append_assoc, List.singleton_append] using hu

end Splices

/-! ### The package a receiver sees -/

namespace Package

/-- Slices after the first `k` are the same if the packages agree there. -/
theorem IsFrame.of_payload_eq {p q : Package P} {sender serial : UInt8} {i : ℕ} {f : List UInt8}
    (hf : q.IsFrame sender serial i f) (hfull : p.full = q.full)
    (hpayload : p.payload i = q.payload i) : p.IsFrame sender serial i f := by
  have hsize : p.size i = q.size i := by
    rw [← p.length_payload, hpayload, q.length_payload]
  have hheader : p.header sender serial i = q.header sender serial i := by
    simp only [header, hfull, hsize]
  exact ⟨hfull ▸ hf.slice_le, hf.length, by rw [hheader, hpayload]; exact hf.starts⟩

/-- How many slices of a package go out, and their bytes, if it is finished and
if it is broken off after its full slices. -/
def sentSlices (q : Package P) (finished : Bool) : ℕ := q.full + if finished then 1 else 0

def sentData (q : Package P) (finished : Bool) : List UInt8 :=
  if finished then q.data else q.data.take (q.full * P)

variable {q : Package P} {finished : Bool} {k : ℕ}

theorem le_full_of_lt (q : Package P) (h : k < q.sentSlices finished) : k ≤ q.full := by
  rw [sentSlices] at h
  split at h <;> omega

theorem length_sentData_le : (q.sentData finished).length ≤ q.data.length := by
  rw [sentData]
  split
  · exact le_rfl
  · exact (List.take_sublist _ _).length_le

theorem le_length_sentData : q.full * P ≤ (q.sentData finished).length := by
  rw [sentData]
  split
  · exact q.lower
  · exact (length_take_slices q le_rfl).ge

theorem payload_sentData {i : ℕ} (hi : i < q.sentSlices finished) :
    ((q.sentData finished).drop (i * P)).take P = q.payload i := by
  cases finished with
  | true => rfl
  | false =>
      have hlt : i < q.full := by simpa [sentSlices] using hi
      have hmul := Nat.mul_le_mul_right P (Nat.succ_le_of_lt hlt)
      rw [Nat.succ_mul] at hmul
      simp only [sentData, Bool.false_eq_true, if_false, payload, List.drop_take, List.take_take]
      congr 1
      omega

/-- The package in which the slices of `q` that go out follow `k` full slices
that are there already. -/
theorem exists_spliced (q : Package P) {stale : List UInt8} (hstale : stale.length = k * P)
    (hk : k < q.sentSlices finished) :
    ∃ p : Package P, p.full = q.full ∧
      p.data = stale ++ (q.sentData finished).drop stale.length ∧
      p.data.length = (q.sentData finished).length ∧
      ∀ {sender serial i f}, k ≤ i → i < q.sentSlices finished → q.IsFrame sender serial i f →
        p.IsFrame sender serial i f := by
  have hP := q.capacity_pos
  have hkfull := q.le_full_of_lt hk
  have hmul : k * P ≤ q.full * P := Nat.mul_le_mul_right P hkfull
  have hlower : q.full * P ≤ (q.sentData finished).length := le_length_sentData
  have hlength : (stale ++ (q.sentData finished).drop stale.length).length =
      (q.sentData finished).length := by
    rw [List.length_append, List.length_drop]
    omega
  have hnonempty : 0 < (q.sentData finished).length := by
    cases finished with
    | true => exact q.nonempty
    | false =>
        have hfull : 0 < q.full := by simpa [sentSlices] using Nat.zero_lt_of_lt hk
        exact (Nat.mul_pos hfull hP).trans_le hlower
  refine ⟨⟨stale ++ (q.sentData finished).drop stale.length, q.full, q.capacity_le, q.full_le,
    q.offset_le, by rwa [hlength], by rwa [hlength], ?_⟩, rfl, rfl, hlength, ?_⟩
  · rw [hlength]
    exact length_sentData_le.trans q.upper
  · intro sender serial i f hki hi hf
    apply hf.of_payload_eq
    · rfl
    -- behind the stale slices the bytes are those of the package
    · have hle : stale.length ≤ i * P := hstale ▸ Nat.mul_le_mul_right P hki
      rw [← payload_sentData hi]
      simp only [payload]
      rw [List.drop_append, List.drop_eq_nil_of_le hle, List.nil_append, List.drop_drop,
        Nat.add_sub_cancel' hle]

end Package

/-! ### Attempt after attempt -/

/-- What `splice` leaves, in terms of the package. -/
theorem splice_of_le (m : Message P) {stale : List UInt8} {finished : Bool} {n : ℕ}
    (hstale : stale.length = n * P) (h : m.stream.sentSlices finished ≤ n) :
    splice P stale m.data finished = (stale, []) := by
  have hP : 0 < P := m.capacity_pos
  have hfull : m.stream.full = m.data.length / P := rfl
  rw [Package.sentSlices, hfull] at h
  cases finished with
  | true =>
      have hmul := Nat.mul_le_mul_right P h
      rw [if_pos rfl, Nat.add_one_mul] at hmul
      rw [splice, if_pos rfl, if_neg (by omega)]
  | false =>
      have hmul := Nat.mul_le_mul_right P h
      rw [if_neg (by decide), Nat.add_zero] at hmul
      rw [splice, if_neg (by decide), List.drop_eq_nil_of_le, List.append_nil]
      rw [List.length_take]
      omega

theorem splice_of_lt (m : Message P) {stale : List UInt8} {finished : Bool} {n : ℕ}
    (hstale : stale.length = n * P) (h : n < m.stream.sentSlices finished) :
    splice P stale m.data finished =
      let data := stale ++ (m.stream.sentData finished).drop stale.length
      if finished then ([], [data]) else (data, []) := by
  cases finished with
  | true =>
      have hle : n ≤ m.data.length / P := Nat.lt_succ_iff.mp h
      have hmul := Nat.mul_le_mul_right P hle
      simp only [splice, if_true, hstale, hmul, Package.sentData]
      rfl
  | false => rfl

namespace Splices

variable {given : List (List UInt8)} {stale : List UInt8} {s : σ} {os : List ω}

/-- Slices behind those that are there already. -/
theorem gather_run (h : Splices P room step holds) {p : Package P} {n N : ℕ}
    (hs : holds p given (Finset.range n) s os) (hroom : p.data.length ≤ room) (hn : n ≤ p.full)
    (hnN : n ≤ N) {sender serial : UInt8} (hsender : sender.toNat < 8) {frames : List (List UInt8)}
    (hframes : p.AreFrames sender serial ((List.range N).drop n) frames) :
    ∃ t os', Machine.run step s frames = .ok (t, os') ∧
      holds p (given ++ List.replicate (rounds (p.full + 1) (List.range N)).1 p.data)
        (rounds (p.full + 1) (List.range N)).2.toFinset t (os ++ os') := by
  have hgathers := h.gathers p given sender serial hsender hroom
  have hrounds := rounds_range_of_lt (Nat.lt_succ_of_le hn)
  have hset := toFinset_range n
  have hrange : List.range n ++ (List.range N).drop n = List.range N := by
    have happend := List.take_append_drop n (List.range N)
    rwa [List.take_range, Nat.min_eq_left hnN] at happend
  have hstart : (List.range n).toFinset ⊆ Finset.range (p.full + 1) := by
    rw [hset]
    exact Finset.range_mono (by omega)
  rw [← hrange]
  apply hgathers.run_from hstart _ hframes
  rw [hrounds, hset]
  simpa using hs

/-- One attempt. -/
theorem attempt_run (h : Splices P room step holds) (hs : Rests room holds given stale s os)
    (a : Attempt P) (hroom : a.data.length ≤ room) :
    ∃ t os', Machine.run step s a.frames = .ok (t, os') ∧
      Rests room holds (given ++ (splice P stale a.data a.finished).2)
        (splice P stale a.data a.finished).1 t (os ++ os') := by
  rcases a.sent with ⟨hdata, hfinished, hframes⟩ | ⟨m, hdata, hframes⟩
  · refine ⟨s, [], by rw [hframes]; rfl, ?_⟩
    simpa [splice, hdata, hfinished] using hs
  obtain ⟨p, n, hp, hn, rfl, hholds⟩ := hs
  have hstale := length_take_slices p hn
  rw [← hdata] at hroom ⊢
  change m.stream.AreFrames a.sender a.serial (List.range (m.stream.sentSlices a.finished))
    a.frames at hframes
  rcases le_or_gt (m.stream.sentSlices a.finished) n with hle | hlt
  · -- all slices count as repeats
    obtain ⟨t, os', hrun, ht⟩ := h.pass_run hholds hn a.sender_lt hframes fun i hi =>
      (List.mem_range.mp hi).trans_le hle
    refine ⟨t, os', hrun, ?_⟩
    rw [splice_of_le m hstale hle, List.append_nil]
    exact ⟨p, n, hp, hn, rfl, ht⟩
  · -- the first slices count as repeats, the others belong to the spliced package
    obtain ⟨q, hfull, hbytes, hlength, hpieces⟩ := m.stream.exists_spliced hstale hlt
    have hfront := List.forall₂_take n hframes
    have hback := List.forall₂_drop n hframes
    rw [List.take_range, Nat.min_eq_left hlt.le] at hfront
    obtain ⟨u, os₁, hrun₁, hu⟩ := h.pass_run hholds hn a.sender_lt hfront fun i hi =>
      List.mem_range.mp hi
    have hqroom : q.data.length ≤ room := by
      rw [hlength]
      exact Package.length_sentData_le.trans hroom
    have hnq : n ≤ q.full := hfull ▸ m.stream.le_full_of_lt hlt
    have hswap : holds q given (Finset.range n) u (os ++ os₁) := by
      apply h.swap hu hqroom hn hnq
      rw [hbytes, List.take_left' hstale]
    have hback' : q.AreFrames a.sender a.serial
        ((List.range (m.stream.sentSlices a.finished)).drop n) (a.frames.drop n) := by
      refine (List.forall₂_and_left _ _ |>.mpr ⟨fun i hi => hi, hback⟩).imp fun {i f} hif => ?_
      obtain ⟨hi, hf⟩ := hif
      rw [List.range_eq_range', List.drop_range', List.mem_range'_1] at hi
      exact hpieces (by omega) (by omega) hf
    obtain ⟨t, os₂, hrun₂, ht⟩ := h.gather_run hswap hqroom hnq hlt.le a.sender_lt hback'
    refine ⟨t, os₁ ++ os₂, ?_, ?_⟩
    · rw [← List.take_append_drop n a.frames]
      exact Machine.run_append_of_ok hrun₁ hrun₂
    rw [splice_of_lt m hstale hlt, ← hbytes, ← List.append_assoc]
    cases hfinished : a.finished with
    | true =>
        have hrounds : rounds (q.full + 1) (List.range (m.stream.sentSlices true)) = (1, []) := by
          rw [hfull]
          exact rounds_range_self _
        rw [hfinished, hrounds] at ht
        exact ⟨q, 0, hqroom, Nat.zero_le _, by simp, by simpa using ht⟩
    | false =>
        have hrounds : rounds (q.full + 1) (List.range (m.stream.sentSlices false)) =
            (0, List.range q.full) := by
          rw [hfull]
          exact rounds_range_of_lt (Nat.lt_succ_self _)
        rw [hfinished, hrounds] at ht
        rw [toFinset_range] at ht
        have hwhole : q.data.length ≤ q.full * P := by
          rw [hlength, hfinished, hfull]
          exact (length_take_slices m.stream le_rfl).le
        exact ⟨q, q.full, hqroom, le_rfl, (List.take_of_length_le hwhole).symm, by simpa using ht⟩

/-- **Attempts one after the other**, finished and broken off: the receiver
takes for packages what `spliceAll` says, and nothing else. -/
theorem run (h : Splices P room step holds) (hs : Rests room holds given stale s os)
    (attempts : List (Attempt P)) (hroom : ∀ a ∈ attempts, a.data.length ≤ room) :
    ∃ t os', Machine.run step s (attempts.flatMap Attempt.frames) = .ok (t, os') ∧
      Rests room holds (given ++ (spliceAll P stale (attempts.map Attempt.outcome)).2)
        (spliceAll P stale (attempts.map Attempt.outcome)).1 t (os ++ os') := by
  induction attempts generalizing given stale s os with
  | nil => exact ⟨s, [], rfl, by simpa [spliceAll] using hs⟩
  | cons a attempts ih =>
      obtain ⟨ha, hrest⟩ := List.forall_mem_cons.mp hroom
      obtain ⟨t, os₁, hrun₁, ht⟩ := h.attempt_run hs a ha
      obtain ⟨u, os₂, hrun₂, hu⟩ := ih ht hrest
      refine ⟨u, os₁ ++ os₂, ?_, ?_⟩
      · rw [List.flatMap_cons]
        exact Machine.run_append_of_ok hrun₁ hrun₂
      · simpa only [List.map_cons, Attempt.outcome, spliceAll, List.append_assoc] using hu

/-- A parcel, when nothing is left over from before. -/
theorem parcel_run (h : Splices P room step holds) (hs : Rests room holds given [] s os)
    (p : Parcel P) (hroom : p.package.data.length ≤ room) :
    ∃ t os', Machine.run step s p.frames = .ok (t, os') ∧
      Rests room holds (given ++ p.copies) [] t (os ++ os') := by
  obtain ⟨q, n, -, hn, hnil, hholds⟩ := hs
  obtain rfl : n = 0 := by
    have hlength := length_take_slices q hn
    rw [← hnil, List.length_nil] at hlength
    exact (Nat.mul_eq_zero.mp hlength.symm).resolve_right q.capacity_pos.ne'
  have hempty := h.swap hholds hroom hn (Nat.zero_le _) (by simp)
  obtain ⟨t, os', hrun, ht⟩ := (h.gathers p.package given p.sender p.serial p.sender_lt
    hroom).run_from (l := []) (by simp) (by simpa [rounds] using hempty) p.areFrames
  rw [List.nil_append, p.closed, List.toFinset_nil] at ht
  refine ⟨t, os', hrun, p.package, 0, hroom, Nat.zero_le _, by simp, ?_⟩
  simpa [Parcel.copies, Parcel.times] using ht

/-- **Parcels one after the other**, from any senders: the receiver takes for
packages what they carry. -/
theorem parcels_run (h : Splices P room step holds) (hs : Rests room holds given [] s os)
    (ps : List (Parcel P)) (hroom : ∀ p ∈ ps, p.package.data.length ≤ room) :
    ∃ t os', Machine.run step s (ps.flatMap Parcel.frames) = .ok (t, os') ∧
      Rests room holds (given ++ ps.flatMap Parcel.copies) [] t (os ++ os') := by
  induction ps generalizing given s os with
  | nil => exact ⟨s, [], rfl, by simpa using hs⟩
  | cons p ps ih =>
      obtain ⟨hp, hrest⟩ := List.forall_mem_cons.mp hroom
      obtain ⟨t, os₁, hrun₁, ht⟩ := h.parcel_run hs p hp
      obtain ⟨u, os₂, hrun₂, hu⟩ := ih ht hrest
      refine ⟨u, os₁ ++ os₂, Machine.run_append_of_ok hrun₁ hrun₂, ?_⟩
      simpa only [List.flatMap_cons, List.append_assoc] using hu

end Splices

/-! ### The two receivers -/

section Swap

variable {p q : Package P} {n : ℕ}

/-- A state that holds the first full slices of a package holds those of any
other package that is long enough. -/
theorem Package.Tracks.swap {s : RxSliceState} (h : p.Tracks .zero (Finset.range n) s)
    (hp : n ≤ p.full) (hq : n ≤ q.full) : q.Tracks .zero (Finset.range n) s where
  subset := Finset.range_mono (by omega)
  bits := h.bits
  count := by
    have hall : ∀ {r : Package P}, n ≤ r.full →
        (Finset.range n).filter r.Counted = Finset.range n := fun hr =>
      Finset.filter_true_of_mem fun i hi =>
        Package.counted_of_lt _ ((Finset.mem_range.mp hi).trans_le hr)
    rw [h.count, hall hp, hall hq]
  termination := by
    have hnot : ∀ {r : Package P}, n ≤ r.full → r.full ∉ Finset.range n := fun hr hmem =>
      absurd (Finset.mem_range.mp hmem) (by omega)
    rw [h.termination, if_neg (hnot hp), if_neg (hnot hq)]
  missing := by
    intro heq
    have hcard := congrArg Finset.card heq
    simp only [Finset.card_range] at hcard
    omega
  watermark := h.watermark

/-- The bytes of the first slices. -/
theorem getElem?_of_take_eq (h : q.data.take (n * P) = p.data.take (n * P)) {j : ℕ}
    (hj : j < n * P) : q.data[j]? = p.data[j]? := by
  have hbyte := congrArg (·[j]?) h
  simpa [List.getElem?_take, hj] using hbyte

theorem payload_of_take_eq (h : q.data.take (n * P) = p.data.take (n * P)) {i : ℕ} (hi : i < n) :
    q.payload i = p.payload i := by
  have hend := Nat.mul_le_mul_right P (Nat.succ_le_of_lt hi)
  rw [Nat.succ_mul] at hend
  have hcut : ∀ r : Package P, r.payload i = ((r.data.take (n * P)).drop (i * P)).take P := by
    intro r
    simp only [Package.payload, List.drop_take, List.take_take]
    congr 1
    omega
  rw [hcut, hcut, h]

end Swap

section Embedded

variable {τ : Type} (output : PbOutputConfig τ) (store : PayloadStore τ)

/-- The embedded decoder. -/
theorem splices_embedded :
    Splices P 65535 (pbDecodeFeed (Config.ofPayload P) output store)
      fun p => p.Decodes store where
  gathers := fun p given _ serial hs _ => p.gathers_embedded output given serial hs store
  swap := by
    intro p q given n inst os h _ hp hq hbytes
    refine ⟨⟨h.held.tracks.swap hp hq, ?_⟩, h.offers⟩
    intro i hi c hc k hk
    have hpayload := payload_of_take_eq hbytes (Finset.mem_range.mp hi)
    rw [← q.length_payload, hpayload, p.length_payload] at hk
    rw [hpayload]
    exact h.held.bytes i hi c hc k hk
  pass := by
    intro p q given n inst os sender serial i f h _ hi hs hf
    refine ⟨_, _, h.held.feed_repeat output hf hs (Finset.mem_range.mpr hi), ?_, ?_⟩
    · exact ⟨h.held.tracks, h.held.bytes⟩
    · simpa [Package.pulls] using h.offers

/-- A fresh decoder. -/
theorem rests_pbDecodeInit (hP : 1 ≤ P) (hcap : P ≤ 4095) (user : τ) :
    Rests 65535 (fun p : Package P => p.Decodes store) [] [] (pbDecodeInit user) [] :=
  rests_of_empty hP hcap (by decide) fun p _ => ⟨p.held_empty store rfl, .nil⟩

/-- **The embedded decoder behind one sender or several.**  From parcels one
after the other, with any senders and serials, it starts a decode of each
package as often as its frames cover it. -/
theorem parcels_to_embedded (hP : 1 ≤ P) (hcap : P ≤ 4095) (user : τ) (ps : List (Parcel P)) :
    ∃ inst os, Machine.run (pbDecodeFeed (Config.ofPayload P) output store) (pbDecodeInit user)
        (ps.flatMap Parcel.frames) = .ok (inst, os) ∧
      List.Forall₂ SlicePull.Offers (Package.pulls os) (ps.flatMap Parcel.copies) := by
  obtain ⟨inst, os, hrun, p, n, -, -, -, hdecodes⟩ := (splices_embedded output store).parcels_run
    (rests_pbDecodeInit store hP hcap user) ps fun p _ => p.package.length_le
  exact ⟨inst, os, hrun, hdecodes.offers⟩

end Embedded

section Tool

variable {write : Write} {c : RxCtx}

/-- A block to the tool. -/
def RxCtx.feed (write : Write) (P : ℕ) (c : RxCtx) (block : List UInt8) :
    Except Fault (RxCtx × Unit) :=
  rxStreamFeed (cmdRxStream write (UInt16.ofNat (P + headerSize))) c block
    (UInt16.ofNat (P + headerSize)) >>= fun c => .ok (c, ())

theorem RxCtx.feed_of_ok {c' : RxCtx} {block : List UInt8}
    (h : rxStreamFeed (cmdRxStream write (UInt16.ofNat (P + headerSize))) c block
      (UInt16.ofNat (P + headerSize)) = .ok c') : c.feed write P block = .ok (c', ()) := by
  rw [RxCtx.feed, h, Machine.ok_bind]

/-- A duplicate leaves the tool as it is. -/
theorem RxCtx.feed_of_duplicate {p : Package P} {sender serial : UInt8} {i : ℕ} {f : List UInt8}
    (hf : p.IsFrame sender serial i f) (hs : sender.toNat < 8) {s : RxSliceState}
    (hstep : rxCalcSliceStep c.session.state (UInt8.ofNat i) (UInt16.ofNat (p.size i))
      (maxPayload (Config.ofPayload P)) (decide (i = p.full)) = .ok ⟨.duplicate, s⟩) :
    c.feed write P f = .ok (c, ()) := by
  apply RxCtx.feed_of_ok
  have hfeed := rxStreamFeed_of_isFrame hf hs
    (s := cmdRxStream write (UInt16.ofNat (P + headerSize))) rfl c
  rw [hf.length] at hfeed
  rw [hfeed]
  show rxCalcSliceStep c.session.state _ _ _ _ >>= _ = _
  rw [hstep, Machine.ok_bind, if_pos rfl]

theorem cmdRx_of_run {c' : RxCtx} {os : List Unit} {blocks : List (List UInt8)} (hc : c.Sound P)
    (h : Machine.run (RxCtx.feed write P) c blocks = .ok (c', os)) :
    cmdRx write c blocks = .ok c' := by
  rw [cmdRx_eq hc]
  clear hc
  induction blocks generalizing c os with
  | nil =>
      obtain ⟨rfl, -⟩ := Prod.mk.inj (Except.ok.inj h)
      rfl
  | cons block blocks ih =>
      obtain ⟨c₁, o, os', hfeed, hrun, -⟩ := Machine.run_cons_eq_ok.mp h
      obtain ⟨c₂, hblock, hc₂⟩ := Machine.bind_eq_ok.mp hfeed
      obtain ⟨rfl, -⟩ := Prod.mk.inj (Except.ok.inj hc₂)
      rw [List.foldlM_cons, hblock, Machine.ok_bind, ih hrun]

/-- The tool, which has written `out` before and the packages `given` since. -/
def Package.Writes (out : List UInt8) (p : Package P) (given : List (List UInt8)) (R : Finset ℕ)
    (c : RxCtx) (_os : List Unit) : Prop :=
  p.Assembling R (out ++ given.flatten) c

/-- The tool. -/
theorem splices_tool (hw : write.Succeeds) (out : List UInt8) :
    Splices P (256 * (P - 2)) (RxCtx.feed write P) (Package.Writes out) where
  gathers := by
    intro p given sender serial hs hroom
    refine ⟨fun hf => Nat.lt_succ_iff.mpr hf.slice_le, ?_, ?_⟩
    · intro k R c os i f h hf hopen
      obtain ⟨c', hfeed, hc'⟩ := Package.Assembling.feed_open hw h hs hf hopen
      exact ⟨c', (), RxCtx.feed_of_ok hfeed, hc'⟩
    · intro k R c os i f h hf hi hall
      obtain ⟨c', hfeed, hsound, hzero, hout⟩ := Package.Assembling.feed_last hw h hs hf hi hall
      refine ⟨c', (), RxCtx.feed_of_ok hfeed, ?_⟩
      have hempty := Package.assembling_empty hsound hzero hroom
      rw [hout] at hempty
      simpa [Package.Writes, List.replicate_succ'] using hempty
  swap := by
    intro p q given n c os h hroom hp hq hbytes
    refine ⟨h.toSound, hroom, h.state.swap hp hq, ?_, ?_⟩
    · intro j hj hmem
      have hlt : j < n * P := by
        have hP := p.capacity_pos
        exact (Nat.div_lt_iff_lt_mul hP).mp (Finset.mem_range.mp hmem)
      have hbyte := getElem?_of_take_eq hbytes hlt
      have hjp : j < p.data.length := hlt.trans_le (p.offset_le_of_le hp)
      rw [h.stored j hjp hmem, hbyte]
    · rw [h.stdout, frontier_range, hbytes]
  pass := by
    intro p q given n c os sender serial i f h _ hi hs hf
    exact ⟨c, (), RxCtx.feed_of_duplicate hf hs (h.state.step_of_mem (Finset.mem_range.mpr hi) _ _),
      h⟩

/-- A new session. -/
theorem rests_sessionRxCreate (hP : 3 ≤ P) (hcap : P ≤ 4095) :
    Rests (256 * (P - 2)) (Package.Writes (P := P) []) [] []
      (sessionRxCreate (UInt16.ofNat (P + headerSize))) [] := by
  have hwaiting := waiting_sessionRxCreate (by omega : 2 ≤ P) hcap
  apply rests_of_empty (by omega) hcap (by omega)
  intro p hp
  have hassembling := p.assembling_empty hwaiting.toSound hwaiting.state hp
  simpa [Package.Writes, sessionRxCreate] using hassembling

theorem Rests.stdout {given : List (List UInt8)} {stale : List UInt8} {os : List Unit} {room : ℕ}
    (h : Rests room (Package.Writes (P := P) []) given stale c os) :
    c.fault = none ∧ c.stdout = given.flatten ++ stale := by
  obtain ⟨p, n, -, -, hstale, hwrites⟩ := h
  refine ⟨hwrites.fault, ?_⟩
  rw [hwrites.stdout, frontier_range, ← hstale]
  rfl

/-- **The tool behind one sender or several.** -/
theorem parcels_to_tool (hP : 3 ≤ P) (hcap : P ≤ 4095) (hw : write.Succeeds) (ps : List (Parcel P))
    (hroom : ∀ p ∈ ps, p.package.data.length ≤ 256 * (P - 2)) :
    ∃ c, cmdRx write (sessionRxCreate (UInt16.ofNat (P + headerSize)))
        (ps.flatMap Parcel.frames) = .ok c ∧ c.fault = none ∧
      c.stdout = (ps.flatMap Parcel.copies).flatten := by
  have hwaiting := waiting_sessionRxCreate (by omega : 2 ≤ P) hcap
  obtain ⟨c, os, hrun, hrests⟩ :=
    (splices_tool hw []).parcels_run (rests_sessionRxCreate hP hcap) ps hroom
  refine ⟨c, cmdRx_of_run hwaiting.toSound hrun, hrests.stdout.1, ?_⟩
  rw [hrests.stdout.2, List.nil_append, List.append_nil]

end Tool

end CustomData
