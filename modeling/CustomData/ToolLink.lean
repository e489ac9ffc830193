/-
CustomData/ToolLink.lean

The two halves of the tool on one pipe.

`cmd_tx` is called for input after input, and its session file carries the
package number on.  What it writes goes to calls of `cmd_rx`, divided among
them between any two blocks and read in portions of any size.  If the inputs are
not empty and small enough, then the calls of `cmd_rx` write these inputs, one
after the other (`tool_pipe`).
-/
import CustomData.EmbeddedLink
import CustomData.ToolStdin
import CustomData.ToolTx

namespace CustomData

variable {P : ℕ}

/-! ### One call of `tx` -/

/-- Standard input of the call. -/
def TxCall.data (call : TxCall) : List UInt8 := call.reads.flatten

/-- The sender of the frames. -/
def TxCall.sender (call : TxCall) : UInt8 := call.args.senderId.toUInt8 &&& 0x7

theorem TxCall.length_of_mem (call : TxCall) {bytes : List UInt8} (h : bytes ∈ call.reads) :
    bytes.length ≤ 65535 :=
  (call.le_of_mem bytes h).trans (Nat.le_of_lt_succ call.args.stdinBufSize.toNat_lt)

/-- A session between two calls. -/
structure TxSession.Ready (P : ℕ) (session : TxSession) : Prop where
  transmissionUnit : session.transmissionUnit = UInt16.ofNat (P + headerSize)
  offset : session.coord.offset = 0

/-- The coordinate where the package of a call starts. -/
def TxCall.start (call : TxCall) (session : TxSession) : Coordinate :=
  { session.coord with senderId := call.args.senderId.toUInt8 }

/-- **A call of `tx`** sends its input as one package, and the session goes on
with the next package number. -/
theorem cmdTx_blocks (hP : 0 < P) (hfit : P + headerSize ≤ 4096) {session : TxSession}
    (hsession : session.Ready P) (call : TxCall) :
    ∃ session' block, cmdTx session call = .ok (session', block) ∧ session'.Ready P ∧
      session'.coord.packageId = session.coord.packageId + 1 ∧
      ∃ front last, block.sent = front ++ [last] ∧
        List.Forall₂ (SliceFrame P (call.start session) call.data false)
          (List.range (call.data.length / P)) front ∧
        SliceFrame P (call.start session) call.data true (call.data.length / P) last := by
  have hsize : headerSize = 4 := rfl
  have hcap : P ≤ 4095 := by omega
  have hroom : P + headerSize ≤ (List.replicate 4096 (0 : UInt8)).length := by
    rw [List.length_replicate]
    exact hfit
  have hstream : cmdTxStream session call.args.senderId =
      toolStream P (call.start session) (List.replicate 4096 0) := by
    rw [cmdTxStream, hsession.transmissionUnit]
    rfl
  have hsink := @pushCbView_assembles P (List.replicate 4096 0) hcap
  have h₀ := @toolStream_holding P (call.start session) (List.replicate 4096 0) hcap
    hsession.offset hroom
  obtain ⟨s, hfeeds, h⟩ := h₀.feeds hsink hP hcap call.reads
  obtain ⟨s', hfinal, -, -, hcursor, hvalid, hlog⟩ := h.finalize hsink hP hcap
  rw [List.nil_append, map_seen fun bytes hb => call.length_of_mem hb] at hlog
  let coord : Coordinate := ⟨s'.cursor.senderId, s'.cursor.packageId + 1, 0⟩
  refine ⟨{ session with coord := coord }, s'.downstream.user.stdoutBlock, ?_,
    ⟨hsession.transmissionUnit, rfl⟩, ?_, hvalid.2.sent_closed hlog hroom⟩
  · rw [cmdTx, hstream, hfeeds, Machine.ok_bind, hfinal, Machine.ok_bind]
  · show s'.cursor.packageId + 1 = _
    rw [hcursor]
    rfl

/-- The blocks of an input that is not empty. -/
theorem cmdTx_sends (hP : 0 < P) (hfit : P + headerSize ≤ 4096) {session : TxSession}
    (hsession : session.Ready P) (call : TxCall) :
    ∃ session' block, cmdTx session call = .ok (session', block) ∧ session'.Ready P ∧
      session'.coord.packageId = session.coord.packageId + 1 ∧
      ∀ m : Message P, m.data = call.data →
        m.stream.AreFrames call.sender session.coord.packageId
          (List.range (m.stream.full + 1)) block.sent := by
  obtain ⟨session', block, hrun, hready, hpackage, front, last, hsent, hfront, hlast⟩ :=
    cmdTx_blocks hP hfit hsession call
  refine ⟨session', block, hrun, hready, hpackage, fun m hm => ?_⟩
  rw [← hm] at hfront hlast
  rw [hsent]
  exact m.areFrames_closed hfront hlast

/-! ### Call after call of `tx` -/

/-- The input of a call can be framed and fits the receiver. -/
structure TxCall.Fits (P : ℕ) (call : TxCall) : Prop where
  nonempty : call.data ≠ []
  serial_le : call.data.length / P ≤ 255
  offset_le : (call.data.length / P + 1) * P ≤ 65535
  room : call.data.length ≤ 256 * (P - 2)

/-- The input as a message. -/
def TxCall.Fits.toMessage {call : TxCall} (h : call.Fits P) (hP : 0 < P) (hcap : P ≤ 4095) :
    Message P :=
  ⟨call.data, hP, hcap, h.nonempty, h.serial_le, h.offset_le⟩

theorem run_cmdTx (hP : 0 < P) (hfit : P + headerSize ≤ 4096) {session : TxSession}
    (hsession : session.Ready P) {calls : List TxCall} (hcalls : ∀ call ∈ calls, call.Fits P) :
    ∃ session' blocks, ∃ attempts : List (Attempt P),
      Machine.run cmdTx session calls = .ok (session', blocks) ∧ session'.Ready P ∧
      blocks.flatMap SliceBlock.sent = attempts.flatMap Attempt.frames ∧
      attempts.map Attempt.outcome = calls.map fun call => (call.data, true) := by
  have hsize : headerSize = 4 := rfl
  induction calls generalizing session with
  | nil => exact ⟨session, [], [], rfl, hsession, rfl, rfl⟩
  | cons call calls ih =>
      obtain ⟨hcall, hrest⟩ := List.forall_mem_cons.mp hcalls
      obtain ⟨session₁, block, hcmd, hready, -, hframes⟩ := cmdTx_sends hP hfit hsession call
      obtain ⟨session₂, blocks, attempts, hrun, hready', hsent, houtcomes⟩ := ih hready hrest
      let m := hcall.toMessage hP (by omega)
      let a : Attempt P := ⟨call.data, true, call.sender, senderId_and_lt _,
        session.coord.packageId, block.sent, Or.inr ⟨m, rfl, hframes m rfl⟩⟩
      refine ⟨session₂, block :: blocks, a :: attempts, Machine.run_cons_of_ok hcmd hrun, hready',
        ?_, ?_⟩
      · rw [List.flatMap_cons, List.flatMap_cons, hsent]
      · rw [List.map_cons, List.map_cons, houtcomes]
        rfl

/-- The attempts of calls are finished, and no longer than their inputs. -/
theorem attempts_of_calls {calls : List TxCall} {attempts : List (Attempt P)}
    (houtcomes : attempts.map Attempt.outcome = calls.map fun call => (call.data, true))
    {room : ℕ} (hroom : ∀ call ∈ calls, call.data.length ≤ room) :
    attempts.map Attempt.data = calls.map TxCall.data ∧
      ∀ a ∈ attempts, a.finished = true ∧ a.data.length ≤ room := by
  refine ⟨?_, fun a ha => ?_⟩
  · have hfirst := congrArg (List.map Prod.fst) houtcomes
    rwa [List.map_map, List.map_map] at hfirst
  · have hmem : a.outcome ∈ calls.map fun call => (call.data, true) :=
      houtcomes ▸ List.mem_map_of_mem ha
    obtain ⟨call, hcall, heq⟩ := List.mem_map.mp hmem
    obtain ⟨hdata, hfinished⟩ := Prod.mk.inj heq
    exact ⟨hfinished.symm, hdata ▸ hroom call hcall⟩

/-! ### The pipe -/

/-- The payload of a unit that `config` accepts. -/
theorem exists_payload {opts : List ConfigOption} {type : SessionType} {mtu : UInt16}
    (h : cmdConfig opts = .ok (type, mtu)) :
    ∃ P, 3 ≤ P ∧ mtu.toNat = P + headerSize ∧ mtu = UInt16.ofNat (P + headerSize) := by
  have hlow := cmdConfig_le h
  have hsize : headerSize = 4 := rfl
  have hcancel : mtu.toNat - headerSize + headerSize = mtu.toNat := Nat.sub_add_cancel (by omega)
  refine ⟨mtu.toNat - headerSize, by omega, hcancel.symm, ?_⟩
  rw [hcancel, UInt16.ofNat_toNat]

/-- The blocks of finished attempts to a receiver of the tool. -/
theorem cmdRx_attempts (hP : 3 ≤ P) (hcap : P ≤ 4095) {write : Write} (hw : write.Succeeds)
    {attempts : List (Attempt P)} (hroom : ∀ a ∈ attempts, a.data.length ≤ 256 * (P - 2)) :
    ∃ c, cmdRx write (sessionRxCreate (UInt16.ofNat (P + headerSize)))
        (attempts.flatMap Attempt.frames) = .ok c ∧ c.fault = none ∧
      c.stdout = (spliceAll P [] (attempts.map Attempt.outcome)).2.flatten ++
        (spliceAll P [] (attempts.map Attempt.outcome)).1 := by
  have hwaiting := waiting_sessionRxCreate (by omega : 2 ≤ P) hcap
  obtain ⟨c, os, hrun, hrests⟩ :=
    (splices_tool hw []).run (rests_sessionRxCreate hP hcap) attempts hroom
  exact ⟨c, cmdRx_of_run hwaiting.toSound hrun, hrests.stdout⟩

theorem spliceAll_calls {calls : List TxCall} :
    (spliceAll P [] (calls.map fun call => (call.data, true))).1 = [] ∧
      (spliceAll P [] (calls.map fun call => (call.data, true))).2.flatten =
        calls.flatMap TxCall.data := by
  have hall : ∀ a ∈ calls.map fun call => (call.data, true), a.2 = false → a.1.length < P := by
    simp
  have hfilter : (calls.map fun call => (call.data, true)).filter Prod.snd =
      calls.map fun call => (call.data, true) := by
    simp
  rw [spliceAll_of_short hall, hfilter, List.map_map, List.flatMap_def]
  exact ⟨rfl, rfl⟩

/-- **The pipe.**  Whatever calls of `rx` share the blocks that the calls of
`tx` write, they write the inputs of `tx`, without a fault.  Every `write` of
the two makes progress (`RxRun.succeeds`; `cmdTx` takes it for granted). -/
theorem tool_pipe {mtu : UInt16} {opts : List ConfigOption}
    (hconfig : cmdConfig opts = .ok (.tx, mtu)) (hfit : mtu.toNat ≤ 4096) {calls : List TxCall}
    (hcalls : ∀ call ∈ calls, call.Fits (mtu.toNat - headerSize)) :
    ∃ session blocks,
      Machine.run cmdTx (sessionTxCreate mtu) calls = .ok (session, blocks) ∧
        ∀ runs : List (RxRun mtu), runs.flatMap RxRun.blocks = blocks.flatMap SliceBlock.sent →
          ∃ file outs, Machine.run RxFile.call (RxFile.create mtu) runs = .ok (file, outs) ∧
            outs.flatMap Prod.fst = calls.flatMap TxCall.data ∧ ∀ o ∈ outs, o.2 = none := by
  have hsize : headerSize = 4 := rfl
  obtain ⟨P, hlow, hP, hmtu⟩ := exists_payload hconfig
  rw [hP, Nat.add_sub_cancel] at hcalls
  rw [hP] at hfit
  have hready : TxSession.Ready P (sessionTxCreate mtu) := ⟨hmtu, rfl⟩
  obtain ⟨session, blocks, attempts, hrun, -, hsent, houtcomes⟩ :=
    run_cmdTx (by omega) hfit hready hcalls
  refine ⟨session, blocks, hrun, fun runs hruns => ?_⟩
  have hw : Write.Succeeds fun _ n => some n := fun _ n hn => ⟨n, rfl, hn, le_rfl⟩
  obtain ⟨-, hattempts⟩ := attempts_of_calls houtcomes fun call hcall => (hcalls call hcall).room
  obtain ⟨c, hrx, hfault, hstdout⟩ := cmdRx_attempts (by omega) (by omega) hw
    fun a ha => (hattempts a ha).2
  rw [← hmtu, ← hsent, ← hruns] at hrx
  have htu : (RxFile.create mtu).session.transmissionUnit = mtu := rfl
  obtain ⟨outs, hcalls', hout, hfaults⟩ := cmdRx_restarts hw htu hrx
  obtain ⟨hstale, hwhole⟩ := @spliceAll_calls P calls
  refine ⟨_, outs, hcalls', ?_, hfaults.mp hfault⟩
  rw [hout, hstdout, houtcomes, hstale, hwhole, List.append_nil]

/-- Five bytes from two reads. -/
def fiveByteCall : TxCall where
  opts := [.session "tx.session", .sender 3]
  args := ⟨some "tx.session", 64, 3⟩
  parsed := rfl
  reads := [[1, 2, 3], [4, 5]]
  pos_of_mem := by simp
  le_of_mem := by simp

theorem fiveByteCall_fits : fiveByteCall.Fits 3 where
  nonempty := by decide
  serial_le := by decide
  offset_le := by decide
  room := by decide

/-- Two packages in units of seven bytes. -/
theorem tool_pipe_five : ∃ session blocks,
    Machine.run cmdTx (sessionTxCreate 7) [fiveByteCall, fiveByteCall] = .ok (session, blocks) ∧
      ∀ runs : List (RxRun 7), runs.flatMap RxRun.blocks = blocks.flatMap SliceBlock.sent →
        ∃ file outs, Machine.run RxFile.call (RxFile.create 7) runs = .ok (file, outs) ∧
          outs.flatMap Prod.fst = [1, 2, 3, 4, 5, 1, 2, 3, 4, 5] ∧ ∀ o ∈ outs, o.2 = none :=
  @tool_pipe 7 [.mtu 7] rfl (by decide) [fiveByteCall, fiveByteCall]
    (by simpa [headerSize] using fiveByteCall_fits)

end CustomData
