/-
CustomData/ToolRx.lean

The receiver of the command line tool (`tools/rx.c`), which puts packages
together in one assembly buffer and writes them to standard output as they
grow.

The tool keeps one slice state for all coordinates.  Its event callback stores
every payload it is given and then writes out what lies between the old and
the new watermark, in pieces of one slice; each piece may take several calls
of `write`.  Accesses outside the block that was read or outside the assembly
buffer and loops that never end are remembered in the state as a fault.

While a package arrives the buffer holds its received slices between stale
bytes of earlier packages, and the bytes below the watermark have been written
out (`Package.Assembling`).  So the output grows by exactly the new packages,
whatever the order of their frames (`cmdRx_emits`).
-/
import CustomData.StreamRx
import CustomData.Coordinator

namespace CustomData

open Collect

/-! ### The session -/

/-- What can go wrong beside the stream: a loop that never ends, or an access
outside the block that was read or outside the assembly buffer. -/
inductive ToolFault
  | loop | range
  deriving DecidableEq, Repr

/-- `mp_rx_session_t` -/
structure RxSession where
  transmissionUnit : UInt16
  state : RxSliceState

/-- `rx_ctx_t`, with standard output and the first fault. -/
structure RxCtx where
  session : RxSession
  assembly : List UInt8
  stdout : List UInt8
  fault : Option ToolFault

/-- A fault after another one is not kept: the program does not get there. -/
def RxCtx.fail (c : RxCtx) (fault : ToolFault) : RxCtx :=
  { c with fault := c.fault.or (some fault) }

/-- `sizeof(mp_header_meta_t)` -/
def headerMetaSize : UInt16 := 6

/-- The size of the assembly buffer of a session. -/
def rxBufSize (transmissionUnit : UInt16) : ℕ := 256 * (transmissionUnit - headerMetaSize).toNat

/-- A session as `mp_session_rx_create` and `mp_session_rx_load` make it. -/
def sessionRxCreate (transmissionUnit : UInt16) : RxCtx where
  session := ⟨transmissionUnit, .zero⟩
  assembly := List.replicate (rxBufSize transmissionUnit) 0
  stdout := []
  fault := none

/-! ### Writing out -/

/-- `write`: what it makes of a number of bytes, given what was written before;
`none` is a negative result.  A failure that passes is one of a single block
(`cmdRxWith`). -/
abbrev Write := List UInt8 → ℕ → Option ℕ

/-- Every call takes some of the bytes. -/
def Write.Succeeds (write : Write) : Prop :=
  ∀ out n, 0 < n → ∃ k, write out n = some k ∧ 0 < k ∧ k ≤ n

/-- `while (rem > 0)`: the output, and whether no call of `write` failed.
`none`: the loop does not end. -/
def writeAll (write : Write) : ℕ → List UInt8 → List UInt8 → Option (List UInt8 × Bool)
  | _, [], out => some (out, true)
  | 0, _ :: _, _ => none
  | fuel + 1, b :: bs, out =>
      match write out (b :: bs).length with
      | none => some (out, false)
      | some n => writeAll write fuel ((b :: bs).drop n) (out ++ (b :: bs).take n)

/-- `mp_rx_deliver_size` -/
def rxDeliverSize (curOff newWm : UInt32) (maxPayload : UInt16) : UInt16 :=
  if curOff + maxPayload.toUInt32 > newWm then (newWm - curOff).toUInt16 else maxPayload

/-- `while (cur_off < state->watermark)`: the slices from `curOff` on go to
standard output. -/
def flush (write : Write) (coord : Coordinate) (coordinator : RxCoordinator RxCtx)
    (watermark : UInt32) (maxP : UInt16) : ℕ → UInt32 → RxCtx → RxCtx
  | 0, _, c => c.fail .loop
  | fuel + 1, curOff, c =>
      if curOff < watermark then
        let sz := rxDeliverSize curOff watermark maxP
        let at_ : Coordinate := ⟨coord.senderId, coord.packageId, curOff.toUInt16⟩
        -- `write` reads `sz` bytes from the pointer on
        if c.assembly.length < at_.offset.toNat + sz.toNat then c.fail .range else
          let data := (List.range sz.toNat).map (coordinator.payloadGet c at_)
          match writeAll write data.length data c.stdout with
          | none => c.fail .loop
          | some (out, false) => { c with stdout := out }
          | some (out, true) =>
              flush write coord coordinator watermark maxP fuel (curOff + maxP.toUInt32)
                { c with stdout := out }
      else c

namespace RxCtx

/-- `state_get` -/
def stateGet (c : RxCtx) (_coord : Coordinate) : RxSliceState := c.session.state

/-- `state_put` -/
def statePut (c : RxCtx) (_coord : Coordinate) (state : RxSliceState) : RxCtx :=
  { c with session := { c.session with state := state } }

/-- `payload_put` -/
def payloadPut (c : RxCtx) (coord : Coordinate) (data : List UInt8) (size : UInt16) : RxCtx :=
  -- `memcpy` reads `size` bytes of the block and writes as many of the buffer
  if data.length < size.toNat ∨ c.assembly.length < coord.offset.toNat + size.toNat then
    c.fail .range
  else { c with assembly := copyAt c.assembly coord.offset.toNat (data.take size.toNat) }

/-- `payload_get` -/
def payloadGet (c : RxCtx) (coord : Coordinate) (k : ℕ) : UInt8 :=
  c.assembly.getD (coord.offset.toNat + k) 0

/-- The callbacks of `cmd_rx`. -/
def coordinator : RxCoordinator RxCtx := ⟨stateGet, statePut, payloadPut, payloadGet⟩

end RxCtx

/-- `on_event` -/
def onEvent (write : Write) : RxEventCb RxCtx :=
  fun c _e coord coordinator state oldWatermark payload payloadSize =>
    let c := if payloadSize > 0 then coordinator.payloadPut c coord payload payloadSize else c
    if oldWatermark < state.watermark.toUInt32 then
      let maxP := maxPayload ⟨c.session.transmissionUnit⟩
      -- a 16-bit watermark is reached within `2 ^ 16` slices or never
      flush write coord coordinator state.watermark.toUInt32 maxP (2 ^ 16) oldWatermark c
    else c

/-- The stream of `cmd_rx`. -/
def cmdRxStream (write : Write) (tu : UInt16) : RxStream RxCtx :=
  ⟨⟨tu⟩, RxCtx.coordinator, onEvent write⟩

/-- `cmd_rx`, for the blocks of `tu` bytes that standard input holds. -/
def cmdRx (write : Write) (c : RxCtx) (blocks : List (List UInt8)) : Except Fault RxCtx :=
  let tu := c.session.transmissionUnit
  blocks.foldlM (fun c block => rxStreamFeed (cmdRxStream write tu) c block tu) c

/-! ### What a flush writes -/

theorem writeAll_of_succeeds {write : Write} (hw : write.Succeeds) {fuel : ℕ}
    {bytes out : List UInt8} (hfuel : bytes.length ≤ fuel) :
    writeAll write fuel bytes out = some (out ++ bytes, true) := by
  induction fuel generalizing bytes out with
  | zero =>
      obtain rfl := List.length_eq_zero_iff.mp (Nat.le_zero.mp hfuel)
      simp [writeAll]
  | succ fuel ih =>
      cases bytes with
      | nil => simp [writeAll]
      | cons b bs =>
          obtain ⟨k, hk, hpos, -⟩ := hw out (b :: bs).length (by simp)
          have hdrop : ((b :: bs).drop k).length ≤ fuel := by
            rw [List.length_drop]
            omega
          simp only [writeAll, hk]
          rw [ih hdrop, List.append_assoc, List.take_append_drop]

theorem rxDeliverSize_toNat {curOff wm : UInt32} {P : UInt16} (hlt : curOff < wm)
    (hwm : wm.toNat < 2 ^ 16) :
    (rxDeliverSize curOff wm P).toNat = min P.toNat (wm.toNat - curOff.toNat) := by
  have hP := P.toNat_lt
  rw [UInt32.lt_iff_toNat_lt] at hlt
  have hsum : (curOff + P.toUInt32).toNat = curOff.toNat + P.toNat := by
    rw [UInt32.toNat_add, UInt16.toNat_toUInt32]
    omega
  have hsub : (wm - curOff).toUInt16.toNat = wm.toNat - curOff.toNat := by
    rw [UInt32.toNat_toUInt16, UInt32.toNat_sub_of_le _ _ (UInt32.le_iff_toNat_le.mpr hlt.le)]
    omega
  simp only [rxDeliverSize, gt_iff_lt, UInt32.lt_iff_toNat_lt, hsum]
  split
  · rw [hsub]
    omega
  · omega

/-- The bytes read through a pointer into the buffer. -/
theorem map_payloadGet {c : RxCtx} {data : List UInt8} {coord : Coordinate} {n : ℕ}
    (hroom : coord.offset.toNat + n ≤ c.assembly.length)
    (hdata : coord.offset.toNat + n ≤ data.length)
    (hbytes : ∀ j, coord.offset.toNat ≤ j → j < coord.offset.toNat + n →
      c.assembly[j]? = data[j]?) :
    (List.range n).map (c.payloadGet coord) = (data.drop coord.offset.toNat).take n := by
  apply List.ext_getElem (by simp; omega)
  intro k hk hk'
  have hlt : k < n := by simpa using hk
  have := hbytes (coord.offset.toNat + k) (by omega) (by omega)
  rw [List.getElem?_eq_getElem (by omega), List.getElem?_eq_getElem (by omega),
    Option.some.injEq] at this
  simp only [List.getElem_map, List.getElem_range, RxCtx.payloadGet, List.getElem_take,
    List.getElem_drop]
  rw [List.getD_eq_getElem _ _ (by omega), this]

/-- The bytes between two offsets are the first slice of them and those after
it. -/
theorem take_drop_slice (data : List UInt8) {a b sz P : ℕ} (hsz : sz = min P (b - a)) :
    (data.drop a).take (b - a) =
      (data.drop a).take sz ++ (data.drop (a + P)).take (b - (a + P)) := by
  rcases Nat.le_total (a + P) b with hle | hle
  · rw [show b - a = sz + (b - (a + P)) by omega, List.take_add, List.drop_drop,
      show sz = P by omega]
  · rw [Nat.sub_eq_zero_of_le hle, List.take_zero, List.append_nil, show sz = b - a by omega]

/-- **A flush** writes what is stored between the two offsets. -/
theorem flush_of_stored {write : Write} (hw : write.Succeeds) {coord : Coordinate}
    {data : List UInt8} {wm curOff : UInt32} {P : UInt16} {fuel : ℕ} {c : RxCtx}
    (hP : 0 < P.toNat) (hwm : wm.toNat < 2 ^ 16) (hdata : wm.toNat ≤ data.length)
    (hroom : wm.toNat ≤ c.assembly.length) (hfuel : wm.toNat - curOff.toNat < fuel)
    (hbytes : ∀ j, curOff.toNat ≤ j → j < wm.toNat → c.assembly[j]? = data[j]?) :
    flush write coord RxCtx.coordinator wm P fuel curOff c =
      { c with stdout := c.stdout ++ (data.drop curOff.toNat).take (wm.toNat - curOff.toNat) } := by
  induction fuel generalizing curOff c with
  | zero => omega
  | succ fuel ih =>
      have hP' := P.toNat_lt
      rw [flush]
      by_cases hlt : curOff < wm
      · have hlt' := UInt32.lt_iff_toNat_lt.mp hlt
        have hsz := @rxDeliverSize_toNat _ _ P hlt hwm
        have hoff : curOff.toUInt16.toNat = curOff.toNat := by
          rw [UInt32.toNat_toUInt16]
          omega
        generalize hat : (⟨coord.senderId, coord.packageId, curOff.toUInt16⟩ : Coordinate) = place
        have hplace : place.offset.toNat = curOff.toNat := by rw [← hat, ← hoff]
        generalize rxDeliverSize curOff wm P = sz at hsz
        have hread : (List.range sz.toNat).map (RxCtx.coordinator.payloadGet c place) =
            (data.drop curOff.toNat).take sz.toNat := by
          rw [← hplace]
          refine map_payloadGet (by omega) (by omega) fun j h₁ h₂ => hbytes j (by omega) (by omega)
        have hnext : (curOff + P.toUInt32).toNat = curOff.toNat + P.toNat := by
          rw [UInt32.toNat_add, UInt16.toNat_toUInt32]
          omega
        simp only [hlt, if_true]
        rw [if_neg (by rw [hplace]; omega), hread, writeAll_of_succeeds hw le_rfl]
        have hrest := @ih (curOff + P.toUInt32)
          { c with stdout := c.stdout ++ (data.drop curOff.toNat).take sz.toNat } hroom
          (by omega) fun j h₁ h₂ => hbytes j (by omega) h₂
        simp only [hrest]
        -- what is left starts where this slice ends
        rw [hnext, take_drop_slice data hsz, List.append_assoc]
      · rw [if_neg hlt, Nat.sub_eq_zero_of_le (not_lt.mp (mt UInt32.lt_iff_toNat_lt.mpr hlt)),
          List.take_zero, List.append_nil]

/-! ### A package on its way -/

/-- The session is one of units with `P` bytes of payload, and nothing has gone
wrong. -/
structure RxCtx.Sound (P : ℕ) (c : RxCtx) : Prop where
  config : (⟨c.session.transmissionUnit⟩ : Config) = Config.ofPayload P
  length : c.assembly.length = 256 * (P - 2)
  fault : c.fault = none

namespace Package

variable {P : ℕ} {p : Package P} {sender serial : UInt8} {i : ℕ} {f : List UInt8}
variable {R : Finset ℕ} {c : RxCtx} {out : List UInt8}

/-- The buffer after a slice has been stored. -/
theorem payloadPut_slice (hf : p.IsFrame sender serial i f) (c : RxCtx)
    (hroom : p.data.length ≤ c.assembly.length) (hi : i ≤ p.full) :
    (if UInt16.ofNat (p.size i) > 0 then RxCtx.coordinator.payloadPut c (p.coord sender serial i)
        (f.drop headerSize) (UInt16.ofNat (p.size i)) else c) =
      { c with assembly := overwrite c.assembly (i * P) (p.payload i) } := by
  have hend := p.offset_add_size_le hi
  have hsz : (UInt16.ofNat (p.size i)).toNat = p.size i := by
    have h₁ := p.size_le i
    have h₂ := p.capacity_le
    rw [UInt16.toNat_ofNat']
    omega
  have hfits : i * P + (p.payload i).length ≤ c.assembly.length := by
    rw [p.length_payload]
    omega
  -- the block holds the whole slice
  have hblock : p.size i ≤ (f.drop headerSize).length := by
    rw [List.length_drop, hf.length, Nat.add_sub_cancel]
    exact p.size_le i
  rw [overwrite_of_le hfits]
  simp only [gt_iff_lt, UInt16.lt_iff_toNat_lt, hsz, UInt16.toNat_zero, RxCtx.coordinator,
    RxCtx.payloadPut, p.coord_offset_toNat hi, hf.take_drop_eq]
  split
  · rw [if_neg (by omega)]
  · -- an empty slice stores nothing
    have hnil : p.payload i = [] := List.length_eq_zero_iff.mp (by rw [p.length_payload]; omega)
    rw [hnil, copyAt, List.append_nil, List.length_nil, Nat.add_zero, List.take_append_drop]

/-- Storing a slice does not move the end of the buffer. -/
theorem length_overwrite_slice {assembly : List UInt8} (hi : i ≤ p.full)
    (hroom : p.data.length ≤ assembly.length) :
    (overwrite assembly (i * P) (p.payload i)).length = assembly.length := by
  have hend := p.offset_add_size_le hi
  rw [overwrite_length, p.length_payload]
  omega

/-- Storing slice `i` adds its bytes to those of the slices `R`. -/
theorem stored_insert {assembly : List UInt8}
    (hroom : p.data.length ≤ assembly.length)
    (h : ∀ j < p.data.length, j / P ∈ R → assembly[j]? = p.data[j]?) :
    ∀ j < p.data.length, j / P ∈ insert i R →
      (overwrite assembly (i * P) (p.payload i))[j]? = p.data[j]? := by
  intro j hj hmem
  have hP := p.capacity_pos
  have hsz : p.size i = min P (p.data.length - i * P) := rfl
  have hlow := Nat.div_mul_le_self j P
  have hup := Nat.lt_div_mul_add (a := j) hP
  by_cases hji : j / P = i
  · rw [hji] at hlow hup
    rw [overwrite_getElem?_of_mem hlow (by rw [p.length_payload]; omega), payload,
      List.getElem?_take, if_pos (by omega), List.getElem?_drop]
    congr 1
    omega
  · -- another slice lies before or behind
    have hout : j < i * P ∨ i * P + (p.payload i).length ≤ j := by
      rw [p.length_payload]
      rcases Nat.lt_or_gt_of_ne hji with hlt | hgt
      · have hmul : (j / P + 1) * P ≤ i * P := Nat.mul_le_mul_right P hlt
        have := Nat.add_one_mul (j / P) P
        omega
      · have hmul : (i + 1) * P ≤ j / P * P := Nat.mul_le_mul_right P hgt
        have := Nat.add_one_mul i P
        omega
    rw [overwrite_getElem?_of_notMem hout (by omega)]
    exact h j hj ((Finset.mem_insert.mp hmem).resolve_left hji)

/-- The callback stores the slice and writes the bytes up to the new watermark;
of the session it looks at the unit only. -/
theorem onEvent_of_stored {write : Write} (hw : write.Succeeds)
    (hf : p.IsFrame sender serial i f)
    (htu : (⟨c.session.transmissionUnit⟩ : Config) = Config.ofPayload P)
    (hroom : p.data.length ≤ c.assembly.length)
    (hstored : ∀ j < p.data.length, j / P ∈ R → c.assembly[j]? = p.data[j]?)
    (e : RxStreamEvent) {next : RxSliceState} {wm : UInt16} (hle : wm.toNat ≤ next.watermark.toNat)
    (hnext : next.watermark.toNat ≤ p.data.length)
    (hbelow : ∀ j < next.watermark.toNat, j / P ∈ insert i R) :
    onEvent write c e (p.coord sender serial i) RxCtx.coordinator next wm.toUInt32
        (f.drop headerSize) (UInt16.ofNat (p.size i)) =
      { c with
        assembly := overwrite c.assembly (i * P) (p.payload i)
        stdout := c.stdout ++
          (p.data.drop wm.toNat).take (next.watermark.toNat - wm.toNat) } := by
  have hi := hf.slice_le
  have hstored' := stored_insert (i := i) hroom hstored
  have hlen := length_overwrite_slice hi hroom
  simp only [onEvent, payloadPut_slice hf c hroom hi, htu, UInt32.lt_iff_toNat_lt,
    UInt16.toNat_toUInt32]
  split
  · have hlt := next.watermark.toNat_lt
    have hflush := @flush_of_stored write hw (p.coord sender serial i) p.data
      next.watermark.toUInt32 wm.toUInt32 (maxPayload (Config.ofPayload P)) (2 ^ 16)
      { c with assembly := overwrite c.assembly (i * P) (p.payload i) }
    simp only [UInt16.toNat_toUInt32, p.maxPayload_config] at hflush
    exact hflush p.capacity_pos hlt hnext (hnext.trans (hroom.trans hlen.ge)) (by omega)
      fun j _ hj => hstored' j (by omega) (hbelow j hj)
  · -- the watermark stays
    rw [Nat.sub_eq_zero_of_le (by omega), List.take_zero, List.append_nil]

/-- One frame, given what the step makes of its slice: a new slice is stored,
and the bytes up to the new watermark are written. -/
theorem cmdRx_feed_of_step {write : Write} (hw : write.Succeeds)
    (hf : p.IsFrame sender serial i f) (hs : sender.toNat < 8) (hc : c.Sound P)
    (hroom : p.data.length ≤ c.assembly.length)
    (hstored : ∀ j < p.data.length, j / P ∈ R → c.assembly[j]? = p.data[j]?)
    {e : RxStreamEvent} {next : RxSliceState}
    (hstep : rxCalcSliceStep c.session.state (UInt8.ofNat i) (UInt16.ofNat (p.size i))
      (maxPayload (Config.ofPayload P)) (decide (i = p.full)) = .ok ⟨e, next⟩)
    (he : e ≠ .duplicate) (hle : c.session.state.watermark.toNat ≤ next.watermark.toNat)
    (hnext : next.watermark.toNat ≤ p.data.length)
    (hbelow : ∀ j < next.watermark.toNat, j / P ∈ insert i R) :
    rxStreamFeed (cmdRxStream write (UInt16.ofNat (P + headerSize))) c f
        (UInt16.ofNat (P + headerSize)) = .ok
      { c with
        session := { c.session with state := if e = .complete then .zero else next }
        assembly := overwrite c.assembly (i * P) (p.payload i)
        stdout := c.stdout ++ (p.data.drop c.session.state.watermark.toNat).take
          (next.watermark.toNat - c.session.state.watermark.toNat) } := by
  have hfeed := rxStreamFeed_of_isFrame hf hs
    (s := cmdRxStream write (UInt16.ofNat (P + headerSize))) rfl c
  rw [hf.length] at hfeed
  rw [hfeed]
  show rxCalcSliceStep c.session.state _ _ _ _ >>= _ = _
  rw [hstep, Machine.ok_bind, if_neg he]
  -- the state is stored before the callback runs
  apply congrArg Except.ok
  split
  · exact onEvent_of_stored (c := c.statePut (p.coord sender serial i) .zero) hw hf hc.config hroom
      hstored e hle hnext hbelow
  · exact onEvent_of_stored (c := c.statePut (p.coord sender serial i) next) hw hf hc.config hroom
      hstored e hle hnext hbelow

/-! ### Frames of one package -/

/-- The slices `R` of the package have arrived: they are stored, and what is
below the watermark has been written after `out`. -/
structure Assembling (p : Package P) (R : Finset ℕ) (out : List UInt8) (c : RxCtx) : Prop
    extends c.Sound P where
  fits : p.data.length ≤ 256 * (P - 2)
  state : p.Tracks .zero R c.session.state
  stored : ∀ j < p.data.length, j / P ∈ R → c.assembly[j]? = p.data[j]?
  stdout : c.stdout = out ++ p.data.take (frontier R * P)

theorem Assembling.room (h : p.Assembling R out c) : p.data.length ≤ c.assembly.length :=
  h.fits.trans h.length.ge

/-- Before the first frame. -/
theorem assembling_empty (hc : c.Sound P) (hzero : c.session.state = .zero)
    (hfits : p.data.length ≤ 256 * (P - 2)) : p.Assembling ∅ c.stdout c where
  toSound := hc
  fits := hfits
  state := hzero ▸ p.fresh_zero.tracks
  stored := by simp
  stdout := by simp

theorem Assembling.watermark_le (h : p.Assembling R out c) : frontier R * P ≤ p.data.length :=
  p.offset_le_of_le h.state.frontier_le

/-- **A frame that leaves the package open.** -/
theorem Assembling.feed_open {write : Write} (hw : write.Succeeds) (h : p.Assembling R out c)
    (hs : sender.toNat < 8) (hf : p.IsFrame sender serial i f)
    (hmiss : insert i R ≠ Finset.range (p.full + 1)) :
    ∃ c', rxStreamFeed (cmdRxStream write (UInt16.ofNat (P + headerSize))) c f
        (UInt16.ofNat (P + headerSize)) = .ok c' ∧ p.Assembling (insert i R) out c' := by
  by_cases hi : i ∈ R
  · refine ⟨c, ?_, by rwa [Finset.insert_eq_self.mpr hi]⟩
    have hfeed := rxStreamFeed_of_isFrame hf hs
      (s := cmdRxStream write (UInt16.ofNat (P + headerSize))) rfl c
    rw [hf.length] at hfeed
    rw [hfeed]
    show rxCalcSliceStep c.session.state _ _ _ _ >>= _ = _
    rw [h.state.step_of_mem hi, Machine.ok_bind, if_pos rfl]
  · obtain ⟨s', hstep, htr'⟩ := h.state.step_of_insert_ne p.fresh_zero p.maxPayload_config
      hf.slice_le hi hmiss (Or.inl rfl)
    obtain ⟨hd, he⟩ := openEvent_ne R i
    have hle : frontier R * P ≤ Collect.frontier (insert i R) * P :=
      Nat.mul_le_mul_right P (frontier_mono (Finset.subset_insert i R))
    have hfeed := cmdRx_feed_of_step hw hf hs h.toSound h.room h.stored hstep hd
      (by rw [h.state.watermark, htr'.watermark]; exact hle)
      (by rw [htr'.watermark]; exact p.offset_le_of_le htr'.frontier_le)
      (by
        intro j hj
        rw [htr'.watermark] at hj
        exact mem_of_lt_frontier (Nat.div_lt_of_lt_mul (by rwa [Nat.mul_comm])))
    refine ⟨_, hfeed, ⟨h.config, ?_, h.fault⟩, h.fits, ?_, stored_insert h.room h.stored, ?_⟩
    · exact (length_overwrite_slice hf.slice_le h.room).trans h.length
    · show p.Tracks .zero _ (if _ then _ else _)
      rw [if_neg he]
      exact htr'
    · show c.stdout ++ _ = _
      rw [h.stdout, h.state.watermark, htr'.watermark, List.append_assoc,
        List.append_cancel_left_eq, ← List.take_add, Nat.add_sub_cancel' hle]

/-- **The frame that closes the package.** -/
theorem Assembling.feed_last {write : Write} (hw : write.Succeeds) (h : p.Assembling R out c)
    (hs : sender.toNat < 8) (hf : p.IsFrame sender serial i f) (hi : i ∉ R)
    (hall : insert i R = Finset.range (p.full + 1)) :
    ∃ c', rxStreamFeed (cmdRxStream write (UInt16.ofNat (P + headerSize))) c f
        (UInt16.ofNat (P + headerSize)) = .ok c' ∧ c'.Sound P ∧ c'.session.state = .zero ∧
      c'.stdout = out ++ p.data := by
  obtain ⟨s', hstep, -, hwm⟩ :=
    h.state.step_of_insert_eq p.fresh_zero p.maxPayload_config hf.slice_le hi hall
  have hfeed := cmdRx_feed_of_step hw hf hs h.toSound h.room h.stored hstep (by simp)
    (by rw [h.state.watermark, hwm]; exact h.watermark_le) hwm.le
    (by
      intro j hj
      rw [hall, Finset.mem_range]
      exact Nat.lt_succ_of_le (p.div_le_full (hwm ▸ hj)))
  refine ⟨_, hfeed, ⟨h.config, ?_, h.fault⟩, rfl, ?_⟩
  · exact (length_overwrite_slice hf.slice_le h.room).trans h.length
  · show c.stdout ++ _ = _
    rw [h.stdout, h.state.watermark, hwm, List.append_assoc, List.append_cancel_left_eq,
      ← List.take_add, Nat.add_sub_cancel' h.watermark_le, List.take_length]

/-- Frames that leave the package open. -/
theorem Assembling.run_open {write : Write} (hw : write.Succeeds) (h : p.Assembling R out c)
    (hs : sender.toNat < 8) {order : List ℕ} {frames : List (List UInt8)}
    (hframes : p.AreFrames sender serial order frames)
    (hmiss : R ∪ order.toFinset ≠ Finset.range (p.full + 1)) :
    ∃ c', frames.foldlM (fun c block => rxStreamFeed
        (cmdRxStream write (UInt16.ofNat (P + headerSize))) c block
        (UInt16.ofNat (P + headerSize))) c = .ok c' ∧
      p.Assembling (R ∪ order.toFinset) out c' := by
  induction hframes generalizing R c with
  | nil => exact ⟨c, rfl, by simpa using h⟩
  | @cons i f order frames hf hframes ih =>
      have hunion : R ∪ (i :: order).toFinset = insert i R ∪ order.toFinset := by
        rw [List.toFinset_cons, Finset.union_insert, Finset.insert_union]
      rw [hunion] at hmiss ⊢
      have hmiss' : insert i R ≠ Finset.range (p.full + 1) := by
        intro he
        have hsub := Package.AreFrames.toFinset_subset hframes
        exact hmiss (by rw [he, Finset.union_eq_left.mpr hsub])
      obtain ⟨c₁, hfeed, h₁⟩ := h.feed_open hw hs hf hmiss'
      obtain ⟨c', hrun, h'⟩ := ih h₁ hmiss
      exact ⟨c', by rw [List.foldlM_cons, hfeed, Machine.ok_bind, hrun], h'⟩

end Package

/-! ### Package after package -/

/-- A package that arrives: its frames in the order of arrival, with repeats,
up to the frame of the last missing slice. -/
structure Delivery (P : ℕ) where
  message : Message P
  length_le : message.data.length ≤ 256 * (P - 2)
  sender : UInt8
  sender_lt : sender.toNat < 8
  serial : UInt8
  order : List ℕ
  last : ℕ
  frames : List (List UInt8)
  lastFrame : List UInt8
  areFrames : message.stream.AreFrames sender serial order frames
  isFrame : message.stream.IsFrame sender serial last lastFrame
  not_covers : ¬ Covers (message.stream.full + 1) order
  covers : Covers (message.stream.full + 1) (order ++ [last])

/-- All its frames. -/
def Delivery.blocks {P : ℕ} (d : Delivery P) : List (List UInt8) := d.frames ++ [d.lastFrame]

/-- The session is waiting for the first frame of a package. -/
structure RxCtx.Waiting (P : ℕ) (c : RxCtx) : Prop extends c.Sound P where
  state : c.session.state = .zero

theorem waiting_sessionRxCreate {P : ℕ} (hP : 2 ≤ P) (hP' : P ≤ 4095) :
    (sessionRxCreate (UInt16.ofNat (P + headerSize))).Waiting P where
  config := rfl
  length := by
    have hsub : (UInt16.ofNat (P + headerSize) - headerMetaSize).toNat = P - 2 := by
      simp only [headerMetaSize, headerSize, UInt16.toNat_sub, UInt16.toNat_ofNat',
        UInt16.reduceToNat]
      omega
    simp only [sessionRxCreate, List.length_replicate, rxBufSize, hsub]
  fault := rfl
  state := rfl

section Deliveries

variable {P : ℕ} {write : Write} {c : RxCtx}

theorem cmdRx_eq (hc : c.Sound P) (blocks : List (List UInt8)) :
    cmdRx write c blocks = blocks.foldlM (fun c block => rxStreamFeed
      (cmdRxStream write (UInt16.ofNat (P + headerSize))) c block
      (UInt16.ofNat (P + headerSize))) c := by
  have htu : c.session.transmissionUnit = UInt16.ofNat (P + headerSize) :=
    congrArg Config.transmissionUnit hc.config
  rw [cmdRx, htu]

theorem cmdRx_append (hc : c.Sound P) {c' : RxCtx} (hc' : c'.Sound P)
    {front back : List (List UInt8)} (h : cmdRx write c front = .ok c') :
    cmdRx write c (front ++ back) = cmdRx write c' back := by
  rw [cmdRx_eq hc] at h ⊢
  rw [List.foldlM_append, h, Machine.ok_bind, cmdRx_eq hc']

/-- Frames before the last one: the slices received are being put together. -/
theorem Delivery.feed_front (hw : write.Succeeds) (d : Delivery P) (hc : c.Waiting P)
    {front back : List (List UInt8)} (hsplit : d.frames = front ++ back) :
    ∃ c', cmdRx write c front = .ok c' ∧
      d.message.stream.Assembling (d.order.take front.length).toFinset c.stdout c' := by
  have hfront := List.forall₂_take_append _ _ _ (hsplit ▸ d.areFrames)
  have hsub : (d.order.take front.length).toFinset ⊆ d.order.toFinset := fun j hj =>
    List.mem_toFinset.mpr (List.mem_of_mem_take (List.mem_toFinset.mp hj))
  have hmiss : (d.order.take front.length).toFinset ≠ Finset.range (d.message.stream.full + 1) := by
    intro he
    refine d.not_covers fun j hj => List.mem_toFinset.mp (hsub ?_)
    rw [he]
    exact Finset.mem_range.mpr hj
  have hstart : d.message.stream.Assembling ∅ c.stdout c :=
    Package.assembling_empty hc.toSound hc.state d.length_le
  obtain ⟨c', hrun, h'⟩ := hstart.run_open hw d.sender_lt hfront (by rwa [Finset.empty_union])
  rw [Finset.empty_union] at h'
  exact ⟨c', by rw [cmdRx_eq hc.toSound, hrun], h'⟩

/-- A whole delivery: its message has been written. -/
theorem Delivery.feed (hw : write.Succeeds) (d : Delivery P) (hc : c.Waiting P) :
    ∃ c', cmdRx write c d.blocks = .ok c' ∧ c'.Waiting P ∧
      c'.stdout = c.stdout ++ d.message.data := by
  obtain ⟨c₁, hrun, h₁⟩ := d.feed_front hw hc (List.append_nil d.frames).symm
  rw [List.take_of_length_le d.areFrames.length_eq.le] at h₁
  obtain ⟨hnew, hall⟩ := insert_toFinset_eq_range d.areFrames.toFinset_subset
    (Nat.lt_succ_iff.mpr d.isFrame.slice_le) d.not_covers d.covers
  obtain ⟨c', hfeed, hsound, hzero, hout⟩ :=
    h₁.feed_last hw d.sender_lt d.isFrame hnew hall
  refine ⟨c', ?_, ⟨hsound, hzero⟩, hout⟩
  rw [Delivery.blocks, cmdRx_append hc.toSound h₁.toSound hrun, cmdRx_eq h₁.toSound,
    List.foldlM_cons, hfeed]
  rfl

/-- Delivery after delivery. -/
theorem cmdRx_deliveries (hw : write.Succeeds) (hc : c.Waiting P) (ds : List (Delivery P)) :
    ∃ c', cmdRx write c (ds.flatMap Delivery.blocks) = .ok c' ∧ c'.Waiting P ∧
      c'.stdout = c.stdout ++ ds.flatMap fun d => d.message.data := by
  induction ds generalizing c with
  | nil => exact ⟨c, rfl, hc, by simp⟩
  | cons d ds ih =>
      obtain ⟨c₁, hrun₁, h₁, hout₁⟩ := d.feed hw hc
      obtain ⟨c', hrun, h', hout⟩ := ih h₁
      refine ⟨c', ?_, h', ?_⟩
      · rw [List.flatMap_cons, cmdRx_append hc.toSound h₁.toSound hrun₁, hrun]
      · rw [hout, hout₁, List.flatMap_cons, List.append_assoc]

/-- **The tool writes what was sent.**  Deliveries one after another, each with
its frames in any order and with repeats, put the messages on standard output,
each byte once and in order.  On the way, after every single frame, the output
is the messages of the finished deliveries and the bytes below the watermark of
the current one. -/
theorem cmdRx_emits (hw : write.Succeeds) (hc : c.Waiting P) (ds : List (Delivery P)) :
    (∃ c', cmdRx write c (ds.flatMap Delivery.blocks) = .ok c' ∧ c'.fault = none ∧
      c'.stdout = c.stdout ++ ds.flatMap fun d => d.message.data) ∧
    ∀ past d future front back, ds = past ++ d :: future → d.frames = front ++ back →
      ∃ c', cmdRx write c (past.flatMap Delivery.blocks ++ front) = .ok c' ∧ c'.fault = none ∧
        c'.stdout = c.stdout ++ (past.flatMap fun d => d.message.data) ++
          d.message.data.take c'.session.state.watermark.toNat := by
  constructor
  · obtain ⟨c', hrun, h', hout⟩ := cmdRx_deliveries hw hc ds
    exact ⟨c', hrun, h'.fault, hout⟩
  · intro past d future front back _ hsplit
    obtain ⟨c₁, hrun₁, h₁, hout₁⟩ := cmdRx_deliveries hw hc past
    obtain ⟨c', hrun, h'⟩ := d.feed_front hw h₁ hsplit
    refine ⟨c', ?_, h'.fault, ?_⟩
    · rw [cmdRx_append hc.toSound h₁.toSound hrun₁, hrun]
    · rw [h'.stdout, h'.state.watermark, hout₁]
      rfl

end Deliveries

/-- Four bytes, the eop slice first and twice. -/
def swappedDelivery : Delivery 3 :=
  let m : Message 3 := .ofBytes 3 [1, 2, 3, 4] (.refl true)
  ⟨m, by decide, 1, sender_one_lt, 7, [1, 1], 0, [m.stream.frame 1 7 1, m.stream.frame 1 7 1],
    m.stream.frame 1 7 0, .cons (m.stream.isFrame_frame 1 7 (by decide))
      (.cons (m.stream.isFrame_frame 1 7 (by decide)) .nil),
    m.stream.isFrame_frame 1 7 (by decide), by decide, by decide⟩

/-- Three bytes, with an empty eop slice. -/
def emptyEopDelivery : Delivery 3 :=
  let m : Message 3 := .ofBytes 3 [5, 6, 7] (.refl true)
  ⟨m, by decide, 1, sender_one_lt, 8, [0], 1, [m.stream.frame 1 8 0], m.stream.frame 1 8 1,
    .cons (m.stream.isFrame_frame 1 8 (by decide)) .nil, m.stream.isFrame_frame 1 8 (by decide),
    by decide, by decide⟩

theorem cmdRx_emits_two :
    (∃ c', cmdRx (fun _ _ => some 1) (sessionRxCreate 7)
        ([swappedDelivery, emptyEopDelivery].flatMap Delivery.blocks) = .ok c' ∧
      c'.fault = none ∧ c'.stdout = (sessionRxCreate 7).stdout ++
        [swappedDelivery, emptyEopDelivery].flatMap fun d => d.message.data) ∧
    ∀ past d future front back, [swappedDelivery, emptyEopDelivery] = past ++ d :: future →
      d.frames = front ++ back →
      ∃ c', cmdRx (fun _ _ => some 1) (sessionRxCreate 7)
          (past.flatMap Delivery.blocks ++ front) = .ok c' ∧ c'.fault = none ∧
        c'.stdout = (sessionRxCreate 7).stdout ++ (past.flatMap fun d => d.message.data) ++
          d.message.data.take c'.session.state.watermark.toNat :=
  cmdRx_emits (fun _ _ h => ⟨1, rfl, Nat.one_pos, h⟩)
    (waiting_sessionRxCreate (P := 3) (by decide) (by decide)) [swappedDelivery, emptyEopDelivery]

end CustomData
