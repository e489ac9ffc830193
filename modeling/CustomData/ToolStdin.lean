/-
CustomData/ToolStdin.lean

How `cmd_rx` reads standard input, and what is left to the next call.

A pipe holds bytes in portions of any size, and `read` returns what it finds,
up to what was asked for.  The loop of `cmd_rx` puts a block together from as
many reads as it takes and gives up at the end of the input.  So the blocks are
those of the bytes, however these are cut, and an incomplete block at the end
is dropped (`readBlocks_eq`).

The session file carries the state and the assembly buffer from call to call.
A call that ends between two blocks, even in the middle of a package, is no
different from one that goes on (`cmdRx_restarts`).
-/
import CustomData.ToolRx
import Mathlib.Algebra.Order.BigOperators.Group.List

namespace CustomData

/-! ### Reading blocks -/

/-- `read` of up to `remain` bytes of the portions in the pipe.  `none` is a
result that is not positive. -/
def stdinRead (remain : ℕ) : List (List UInt8) → Option (List UInt8 × List (List UInt8))
  | [] => none
  | portion :: stdin =>
      if portion = [] then none
      else if portion.length ≤ remain then some (portion, stdin)
      else some (portion.take remain, portion.drop remain :: stdin)

/-- What a read returns is the beginning of the input. -/
theorem stdinRead_eq_some {remain : ℕ} {stdin stdin' : List (List UInt8)} {bytes : List UInt8}
    (h : stdinRead remain stdin = some (bytes, stdin')) (hpos : 0 < remain) :
    0 < bytes.length ∧ bytes.length ≤ remain ∧ bytes ++ stdin'.flatten = stdin.flatten ∧
      ((∀ portion ∈ stdin, portion ≠ []) → ∀ portion ∈ stdin', portion ≠ []) := by
  cases stdin with
  | nil => cases h
  | cons portion stdin =>
      rw [stdinRead] at h
      split at h
      · cases h
      rename_i hne
      split at h
      · rename_i hle
        obtain ⟨rfl, rfl⟩ := Prod.mk.inj (Option.some.inj h)
        refine ⟨List.length_pos_iff.mpr hne, hle, by simp, fun hall => ?_⟩
        exact fun p hp => hall p (List.mem_cons_of_mem _ hp)
      · rename_i hgt
        obtain ⟨rfl, rfl⟩ := Prod.mk.inj (Option.some.inj h)
        refine ⟨?_, List.length_take_le _ _, ?_, fun hall => ?_⟩
        · rw [List.length_take]
          omega
        · rw [List.flatten_cons, List.flatten_cons, ← List.append_assoc, List.take_append_drop]
        · intro p hp
          rcases List.mem_cons.mp hp with rfl | hp
          · rw [ne_eq, List.drop_eq_nil_iff]
            exact hgt
          · exact hall p (List.mem_cons_of_mem _ hp)

/-- `while (remain > 0)` of `cmd_rx`; `none` is the jump to `done`. -/
def readBlock (remain : ℕ) (block : List UInt8) (stdin : List (List UInt8)) :
    Option (List UInt8 × List (List UInt8)) :=
  if hpos : 0 < remain then
    match h : stdinRead remain stdin with
    | none => none
    | some (bytes, stdin') =>
        have : remain - bytes.length < remain := by
          have := (stdinRead_eq_some h hpos).1
          omega
        readBlock (remain - bytes.length) (block ++ bytes) stdin'
  else some (block, stdin)
termination_by remain

/-- `for (;;)` of `cmd_rx`: the blocks that are fed.  Every turn takes `tu`
bytes, so as many turns as there are bytes are enough. -/
def readBlocks (tu : ℕ) : ℕ → List (List UInt8) → List (List UInt8)
  | 0, _ => []
  | turns + 1, stdin =>
      match readBlock tu [] stdin with
      | none => []
      | some (block, stdin') => block :: readBlocks tu turns stdin'

section Read

variable {stdin : List (List UInt8)}

theorem stdinRead_eq_none_iff {remain : ℕ} (hne : ∀ portion ∈ stdin, portion ≠ []) :
    stdinRead remain stdin = none ↔ stdin = [] := by
  cases stdin with
  | nil => exact iff_of_true rfl rfl
  | cons portion stdin =>
      rw [stdinRead, if_neg (hne portion (List.mem_cons_self ..))]
      constructor
      · intro h
        split at h <;> cases h
      · intro h
        cases h

/-- A block takes the first bytes of the input, if there are enough. -/
theorem readBlock_eq {remain : ℕ} {block : List UInt8} (hne : ∀ portion ∈ stdin, portion ≠ []) :
    (stdin.flatten.length < remain → readBlock remain block stdin = none) ∧
      (remain ≤ stdin.flatten.length → ∃ stdin',
        readBlock remain block stdin = some (block ++ stdin.flatten.take remain, stdin') ∧
          stdin'.flatten = stdin.flatten.drop remain ∧ ∀ portion ∈ stdin', portion ≠ []) := by
  induction remain using Nat.strong_induction_on generalizing block stdin with
  | _ remain ih =>
      rw [readBlock]
      split
      · rename_i hpos
        split
        · rename_i hnone
          obtain rfl := (stdinRead_eq_none_iff hne).mp hnone
          exact ⟨fun _ => rfl, fun hle => absurd hle (not_le.mpr hpos)⟩
        · rename_i bytes stdin' hsome
          obtain ⟨hbytes, hle, hflatten, hne'⟩ := stdinRead_eq_some hsome hpos
          have hlength := congrArg List.length hflatten
          rw [List.length_append] at hlength
          obtain ⟨hshort, hlong⟩ :=
            @ih (remain - bytes.length) (by omega) stdin' (block ++ bytes) (hne' hne)
          refine ⟨fun hlt => hshort (by omega), fun hge => ?_⟩
          obtain ⟨stdin'', hread, hrest, hne''⟩ := hlong (by omega)
          refine ⟨stdin'', ?_, ?_, hne''⟩
          · rw [hread, ← hflatten, List.take_append, List.take_of_length_le hle,
              List.append_assoc]
          · rw [hrest, ← hflatten, List.drop_append, List.drop_eq_nil_of_le hle, List.nil_append]
      · rename_i hzero
        obtain rfl : remain = 0 := by omega
        exact ⟨fun hlt => absurd hlt (Nat.not_lt_zero _), fun _ => ⟨stdin, by simp, by simp, hne⟩⟩

/-- **However the input is cut**, the blocks are those of its bytes, and an
incomplete one at the end is dropped. -/
theorem readBlocks_eq {tu : ℕ} (hne : ∀ portion ∈ stdin, portion ≠ [])
    {blocks : List (List UInt8)} {tail : List UInt8} (hblocks : ∀ block ∈ blocks, block.length = tu)
    (htail : tail.length < tu) (hbytes : stdin.flatten = blocks.flatten ++ tail) {turns : ℕ}
    (hturns : blocks.length ≤ turns) : readBlocks tu turns stdin = blocks := by
  induction blocks generalizing stdin turns with
  | nil =>
      cases turns with
      | zero => rfl
      | succ turns =>
          have hshort : stdin.flatten.length < tu := by
            rw [hbytes]
            exact htail
          rw [readBlocks, (readBlock_eq hne).1 hshort]
  | cons block blocks ih =>
      obtain ⟨hblock, hrest⟩ := List.forall_mem_cons.mp hblocks
      rw [List.flatten_cons, List.append_assoc] at hbytes
      obtain ⟨turns, rfl⟩ : ∃ n, turns = n + 1 := ⟨turns - 1, by simp at hturns; omega⟩
      have hlong : tu ≤ stdin.flatten.length := by
        rw [hbytes, List.length_append]
        omega
      obtain ⟨stdin', hread, hflatten, hne'⟩ := (@readBlock_eq stdin tu [] hne).2 hlong
      rw [hbytes, List.take_left' hblock] at hread
      rw [hbytes, List.drop_left' hblock] at hflatten
      rw [readBlocks, hread]
      exact congrArg (block :: ·) (ih hne' hrest hflatten (Nat.le_of_succ_le_succ hturns))

end Read

/-- `cmd_rx` on standard input. -/
def cmdRxStdin (write : Write) (c : RxCtx) (stdin : List (List UInt8)) : Except Fault RxCtx :=
  cmdRx write c (readBlocks c.session.transmissionUnit.toNat stdin.flatten.length stdin)

/-! ### What was written before does not matter -/

section Appends

variable {session : RxSession} {assembly : List UInt8}

/-- The bytes of the slice that a flush reads at `curOff`. -/
def flushed (wm : UInt32) (P : UInt16) (curOff : UInt32) (assembly : List UInt8) : List UInt8 :=
  (List.range (rxDeliverSize curOff wm P).toNat).map fun k =>
    assembly.getD (curOff.toUInt16.toNat + k) 0

section Slice

variable {write : Write} {coord : Coordinate} {wm curOff : UInt32} {P : UInt16} {fuel : ℕ}
  {out out' : List UInt8} {fault : Option ToolFault}

/-- A flush goes on behind a slice that was written. -/
theorem flush_written (hlt : curOff < wm)
    (hin : ¬ assembly.length < curOff.toUInt16.toNat + (rxDeliverSize curOff wm P).toNat)
    (hwrite : writeAll write (flushed wm P curOff assembly).length (flushed wm P curOff assembly)
      out = some (out', true)) :
    flush write coord RxCtx.coordinator wm P (fuel + 1) curOff ⟨session, assembly, out, fault⟩ =
      flush write coord RxCtx.coordinator wm P fuel (curOff + P.toUInt32)
        ⟨session, assembly, out', fault⟩ := by
  have hread : (List.range (rxDeliverSize curOff wm P).toNat).map
      (RxCtx.coordinator.payloadGet ⟨session, assembly, out, fault⟩
        ⟨coord.senderId, coord.packageId, curOff.toUInt16⟩) = flushed wm P curOff assembly := rfl
  simp only [flush, hlt, if_true]
  rw [if_neg hin, hread, hwrite]

end Slice

/-- A flush appends the same bytes and adds the same fault, whatever was
written before. -/
theorem flush_appends (coord : Coordinate) (wm : UInt32) (P : UInt16) (fuel : ℕ) (curOff : UInt32)
    (session : RxSession) (assembly : List UInt8) :
    ∃ d x, ∀ {write : Write}, write.Succeeds → ∀ out fault,
      flush write coord RxCtx.coordinator wm P fuel curOff ⟨session, assembly, out, fault⟩ =
        ⟨session, assembly, out ++ d, fault.or x⟩ := by
  induction fuel generalizing curOff with
  | zero => exact ⟨[], some .loop, fun _ out fault => by simp [flush, RxCtx.fail]⟩
  | succ fuel ih =>
      obtain ⟨d, x, hrest⟩ := ih (curOff + P.toUInt32)
      by_cases hlt : curOff < wm
      · by_cases hout :
            assembly.length < curOff.toUInt16.toNat + (rxDeliverSize curOff wm P).toNat
        · refine ⟨[], some .range, fun _ out fault => ?_⟩
          simp only [flush, hlt, if_true]
          rw [if_pos hout]
          simp [RxCtx.fail]
        · refine ⟨flushed wm P curOff assembly ++ d, x, fun hw out fault => ?_⟩
          rw [flush_written hlt hout (writeAll_of_succeeds hw le_rfl), hrest hw, List.append_assoc]
      · exact ⟨[], none, fun _ out fault => by simp [flush, hlt]⟩

theorem payloadPut_appends (coord : Coordinate) (payload : List UInt8) (size : UInt16)
    (session : RxSession) (assembly : List UInt8) :
    ∃ assembly' x, ∀ out fault,
      (if size > 0 then RxCtx.coordinator.payloadPut ⟨session, assembly, out, fault⟩ coord payload
        size else ⟨session, assembly, out, fault⟩) = ⟨session, assembly', out, fault.or x⟩ := by
  by_cases hpos : size > 0
  · by_cases hout : payload.length < size.toNat ∨
        assembly.length < coord.offset.toNat + size.toNat
    · refine ⟨assembly, some .range, fun out fault => ?_⟩
      rw [if_pos hpos]
      simp only [RxCtx.coordinator, RxCtx.payloadPut]
      rw [if_pos hout]
      rfl
    · refine ⟨copyAt assembly coord.offset.toNat (payload.take size.toNat), none,
        fun out fault => ?_⟩
      rw [if_pos hpos]
      simp only [RxCtx.coordinator, RxCtx.payloadPut]
      rw [if_neg hout, Option.or_none]
  · exact ⟨assembly, none, fun out fault => by rw [if_neg hpos, Option.or_none]⟩

theorem onEvent_appends (e : RxStreamEvent) (coord : Coordinate) (state : RxSliceState)
    (oldWatermark : UInt32) (payload : List UInt8) (size : UInt16) (session : RxSession)
    (assembly : List UInt8) :
    ∃ assembly' d x, ∀ {write : Write}, write.Succeeds → ∀ out fault,
      onEvent write ⟨session, assembly, out, fault⟩ e coord RxCtx.coordinator state oldWatermark
        payload size = ⟨session, assembly', out ++ d, fault.or x⟩ := by
  obtain ⟨assembly', x, hput⟩ := payloadPut_appends coord payload size session assembly
  by_cases hgrow : oldWatermark < state.watermark.toUInt32
  · obtain ⟨d, y, hflush⟩ := flush_appends coord state.watermark.toUInt32
      (maxPayload ⟨session.transmissionUnit⟩) (2 ^ 16) oldWatermark session assembly'
    refine ⟨assembly', d, x.or y, fun hw out fault => ?_⟩
    simp only [onEvent, hput, hgrow, if_true, hflush hw, Option.or_assoc]
  · refine ⟨assembly', [], x, fun _ out fault => ?_⟩
    simp only [onEvent, hput, hgrow, if_false, List.append_nil]

/-- What `cmd_rx` does with a block that has room for a header. -/
theorem cmdRx_feed (write : Write) {tu : UInt16} (hlong : ¬ tu.toNat < headerSize)
    (session : RxSession) (assembly block out : List UInt8) (fault : Option ToolFault) :
    rxStreamFeed (cmdRxStream write tu) ⟨session, assembly, out, fault⟩ block tu =
      let header := headerUnpack (arrayToPackedHeader block)
      rxCalcSliceStep session.state header.sliceSerial header.slicePayloadSize (maxPayload ⟨tu⟩)
          (header.eop != 0) >>= fun step =>
        if step.e = .duplicate then .ok ⟨session, assembly, out, fault⟩ else
          .ok (onEvent write ⟨{ session with
              state := if step.e = .complete then .zero else step.nextState }, assembly, out, fault⟩
            step.e (rxHeaderToCoordinate ⟨tu⟩ header) RxCtx.coordinator step.nextState
            session.state.watermark.toUInt32 (block.drop headerSize) header.slicePayloadSize) := by
  rw [rxStreamFeed, if_neg hlong]
  apply congrArg
  funext step
  by_cases hc : step.e = .complete
  · simp only [hc, if_true]
    rfl
  · simp only [hc, if_false]
    rfl

/-- A block does the same to the session, whatever was written before. -/
theorem feed_appends {write₀ : Write} (hw₀ : write₀.Succeeds) {tu : UInt16} {block : List UInt8}
    {out₀ : List UInt8} {fault₀ : Option ToolFault} {c : RxCtx}
    (h : rxStreamFeed (cmdRxStream write₀ tu) ⟨session, assembly, out₀, fault₀⟩ block tu = .ok c) :
    c.session.transmissionUnit = session.transmissionUnit ∧
      ∃ d x, ∀ {write : Write}, write.Succeeds → ∀ out fault,
        rxStreamFeed (cmdRxStream write tu) ⟨session, assembly, out, fault⟩ block tu =
          .ok ⟨c.session, c.assembly, out ++ d, fault.or x⟩ := by
  by_cases hshort : tu.toNat < headerSize
  · rw [rxStreamFeed, if_pos hshort] at h
    obtain rfl := Except.ok.inj h
    refine ⟨rfl, [], none, fun _ out fault => ?_⟩
    rw [rxStreamFeed, if_pos hshort, List.append_nil, Option.or_none]
  · rw [cmdRx_feed write₀ hshort] at h
    obtain ⟨step, hstep, hrest⟩ := Machine.bind_eq_ok.mp h
    by_cases hdup : step.e = .duplicate
    · rw [if_pos hdup] at hrest
      obtain rfl := Except.ok.inj hrest
      refine ⟨rfl, [], none, fun _ out fault => ?_⟩
      rw [cmdRx_feed _ hshort]
      dsimp only
      rw [hstep, Machine.ok_bind, if_pos hdup, List.append_nil, Option.or_none]
    · rw [if_neg hdup] at hrest
      obtain ⟨assembly', d, x, hevent⟩ := onEvent_appends step.e
        (rxHeaderToCoordinate ⟨tu⟩ (headerUnpack (arrayToPackedHeader block))) step.nextState
        session.state.watermark.toUInt32 (block.drop headerSize)
        (headerUnpack (arrayToPackedHeader block)).slicePayloadSize
        { session with state := if step.e = .complete then .zero else step.nextState } assembly
      rw [hevent hw₀] at hrest
      obtain rfl := Except.ok.inj hrest
      refine ⟨rfl, d, x, fun hw out fault => ?_⟩
      rw [cmdRx_feed _ hshort]
      dsimp only
      rw [hstep, Machine.ok_bind, if_neg hdup, hevent hw]

/-- **Blocks after blocks** do the same to the session, whatever was written
before. -/
theorem cmdRx_appends {write₀ : Write} (hw₀ : write₀.Succeeds) {blocks : List (List UInt8)}
    {out₀ : List UInt8} {fault₀ : Option ToolFault} {c : RxCtx}
    (h : cmdRx write₀ ⟨session, assembly, out₀, fault₀⟩ blocks = .ok c) :
    c.session.transmissionUnit = session.transmissionUnit ∧
      ∃ d x, ∀ {write : Write}, write.Succeeds → ∀ out fault,
        cmdRx write ⟨session, assembly, out, fault⟩ blocks =
          .ok ⟨c.session, c.assembly, out ++ d, fault.or x⟩ := by
  induction blocks generalizing session assembly out₀ fault₀ with
  | nil =>
      obtain rfl := Except.ok.inj h
      refine ⟨rfl, [], none, fun _ out fault => ?_⟩
      rw [List.append_nil, Option.or_none]
      rfl
  | cons block blocks ih =>
      rw [cmdRx, List.foldlM_cons] at h
      obtain ⟨c₁, hfeed, hrest⟩ := Machine.bind_eq_ok.mp h
      obtain ⟨htu, d, x, hall⟩ := feed_appends hw₀ hfeed
      have hrest' : cmdRx write₀ c₁ blocks = .ok c := by
        rw [cmdRx, htu]
        exact hrest
      obtain ⟨htu', d', x', hall'⟩ := ih hrest'
      refine ⟨htu'.trans htu, d ++ d', x.or x', fun hw out fault => ?_⟩
      rw [cmdRx, List.foldlM_cons]
      dsimp only
      rw [hall hw, Machine.ok_bind]
      have hlast := hall' hw (out ++ d) (fault.or x)
      rw [cmdRx] at hlast
      dsimp only at hlast
      rw [htu] at hlast
      rw [hlast, List.append_assoc, Option.or_assoc]

end Appends

/-! ### Call after call -/

/-- A call of `cmd_rx`: calls of `write` that make progress, and standard input
as it is found in the pipe, which holds whole blocks and then less than one. -/
structure RxRun (tu : UInt16) where
  write : Write
  succeeds : write.Succeeds
  stdin : List (List UInt8)
  ne_nil : ∀ portion ∈ stdin, portion ≠ []
  blocks : List (List UInt8)
  tail : List UInt8
  length_of_mem : ∀ block ∈ blocks, block.length = tu.toNat
  tail_lt : tail.length < tu.toNat
  bytes : stdin.flatten = blocks.flatten ++ tail

/-- What a session file keeps: the session and the assembly buffer. -/
structure RxFile where
  session : RxSession
  assembly : List UInt8

/-- A new file. -/
def RxFile.create (tu : UInt16) : RxFile :=
  ⟨(sessionRxCreate tu).session, (sessionRxCreate tu).assembly⟩

/-- The file as a call finds it. -/
def RxFile.load (file : RxFile) : RxCtx := ⟨file.session, file.assembly, [], none⟩

/-- A call of `cmd_rx`, which loads the file and saves it at the end.  The
outputs are the bytes written and the first fault. -/
def RxFile.call {tu : UInt16} (file : RxFile) (run : RxRun tu) :
    Except Fault (RxFile × List UInt8 × Option ToolFault) := do
  let c ← cmdRxStdin run.write file.load run.stdin
  .ok (⟨c.session, c.assembly⟩, c.stdout, c.fault)

variable {tu : UInt16}

/-- The blocks of a call. -/
theorem RxRun.readBlocks_eq (run : RxRun tu) :
    readBlocks tu.toNat run.stdin.flatten.length run.stdin = run.blocks := by
  have htu : 0 < tu.toNat := (Nat.zero_le _).trans_lt run.tail_lt
  apply CustomData.readBlocks_eq run.ne_nil run.length_of_mem run.tail_lt run.bytes
  -- a block has at least one byte
  rw [run.bytes, List.length_append]
  have hblocks : run.blocks.length ≤ run.blocks.flatten.length := by
    rw [List.length_flatten, ← List.length_map (f := List.length)]
    apply List.length_le_sum_of_one_le
    intro n hn
    obtain ⟨block, hblock, rfl⟩ := List.mem_map.mp hn
    rw [run.length_of_mem block hblock]
    exact htu
  omega

theorem cmdRxStdin_eq (run : RxRun tu) {file : RxFile}
    (htu : file.session.transmissionUnit = tu) :
    cmdRxStdin run.write file.load run.stdin = cmdRx run.write file.load run.blocks := by
  rw [cmdRxStdin, RxFile.load]
  dsimp only
  rw [htu, run.readBlocks_eq]

/-- **Restarts**: however the blocks are divided among calls, and the bytes of
a call among reads, the calls write what one call would write that does not
end, and leave the same session. -/
theorem cmdRx_restarts {write : Write} (hw : write.Succeeds) {file : RxFile}
    (htu : file.session.transmissionUnit = tu) {runs : List (RxRun tu)} {c : RxCtx}
    (h : cmdRx write file.load (runs.flatMap RxRun.blocks) = .ok c) :
    ∃ outs, Machine.run RxFile.call file runs = .ok (⟨c.session, c.assembly⟩, outs) ∧
      outs.flatMap Prod.fst = c.stdout ∧ (c.fault = none ↔ ∀ o ∈ outs, o.2 = none) := by
  induction runs generalizing file c with
  | nil =>
      obtain rfl := Except.ok.inj h
      exact ⟨[], rfl, rfl, by simp [RxFile.load]⟩
  | cons run runs ih =>
      rw [List.flatMap_cons, cmdRx, List.foldlM_append] at h
      obtain ⟨c₁, hfirst, hrest⟩ := Machine.bind_eq_ok.mp h
      have hfirst' : cmdRx write file.load run.blocks = .ok c₁ := hfirst
      obtain ⟨htu₁, d, x, hall⟩ := cmdRx_appends hw hfirst'
      have hrest' : cmdRx write ⟨c₁.session, c₁.assembly, c₁.stdout, c₁.fault⟩
          (runs.flatMap RxRun.blocks) = .ok c := by
        rw [cmdRx]
        dsimp only
        rw [htu₁]
        exact hrest
      obtain ⟨-, d', x', hall'⟩ := cmdRx_appends hw hrest'
      -- both parts, as one call and as a call that starts with nothing written
      have h₁ := (hall hw [] none).symm.trans hfirst'
      have h₂ := (hall' hw c₁.stdout c₁.fault).symm.trans hrest'
      have htu' : (⟨c₁.session, c₁.assembly⟩ : RxFile).session.transmissionUnit = tu :=
        htu₁.trans htu
      obtain ⟨outs, hrun, hout, hfault⟩ := ih htu' (hall' hw [] none)
      have hcall : file.call run = .ok (⟨c₁.session, c₁.assembly⟩, d, x) := by
        rw [RxFile.call, cmdRxStdin_eq run htu, RxFile.load, hall run.succeeds, Machine.ok_bind]
        rfl
      refine ⟨(d, x) :: outs, Machine.run_cons_of_ok hcall hrun, ?_, ?_⟩
      · rw [← Except.ok.inj h₂, ← Except.ok.inj h₁, List.flatMap_cons, hout]
        rfl
      · rw [← Except.ok.inj h₂, ← Except.ok.inj h₁, List.forall_mem_cons]
        dsimp only at hfault ⊢
        rw [Option.none_or, Option.or_eq_none_iff, ← hfault, Option.none_or]

end CustomData
