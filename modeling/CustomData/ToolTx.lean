/-
CustomData/ToolTx.lean

The sender of the command line tool (`tools/tx.c`): `cmd_tx` sends one package
for each call, and the session file carries the coordinate on to the next.

The tool assembles slices in `stdout_block`, a static block of 4096 bytes, and
`cmd_config` accepts units of up to 65535 bytes.  A call stays in the block,
and every frame says how much payload it carries, for exactly the units that
fit the block (`cmdTx_sound_iff`).  A larger unit leaves it in every call,
whatever standard input holds, since the last slice is always written out.
-/
import CustomData.ToolMain
import CustomData.TxSinks

namespace CustomData

/-! ### The session -/

/-- `mp_tx_session_t` -/
structure TxSession where
  transmissionUnit : UInt16
  coord : Coordinate
  deriving DecidableEq, Repr

/-- A session as `mp_session_tx_create` makes it. -/
def sessionTxCreate (transmissionUnit : UInt16) : TxSession := ⟨transmissionUnit, ⟨0, 0, 0⟩⟩

/-- A call of `tx`: its options, and the bytes that the calls of `read` take
from standard input, until one takes none. -/
structure TxCall where
  opts : List TxOption
  args : TxArgs
  parsed : txParseArgs opts = some args
  reads : List (List UInt8)
  pos_of_mem : ∀ bytes ∈ reads, 0 < bytes.length
  le_of_mem : ∀ bytes ∈ reads, bytes.length ≤ args.stdinBufSize.toNat

/-- `stdout_block` at the start of the program. -/
def stdoutBlock : SliceBlock := .untouched (List.replicate 4096 0)

/-- The stream of `cmd_tx`. -/
def cmdTxStream (session : TxSession) (senderId : UInt16) : TxStream TxUser where
  config := ⟨session.transmissionUnit⟩
  cursor := { session.coord with senderId := senderId.toUInt8 }
  fill := 0
  downstream := ⟨pushCb, ⟨session.transmissionUnit, 0, stdoutBlock⟩⟩

/-- `cmd_tx`: the session that is saved, and what was done with
`stdout_block`. -/
def cmdTx (session : TxSession) (call : TxCall) : Except TxFault (TxSession × SliceBlock) := do
  let stream ← txStreamFeeds (cmdTxStream session call.args.senderId) call.reads
  let stream ← txStreamFinalize stream
  let coord := { stream.cursor with packageId := stream.cursor.packageId + 1, offset := 0 }
  .ok ({ session with coord := coord }, stream.downstream.user.stdoutBlock)

/-! ### Frames that say what they carry -/

/-- The accesses `log` assemble and send the frame `f` of `tu` bytes: payload
in pieces behind the header, then the header.  The size that a receiver unpacks
from the header is that of the payload. -/
def Announces (tu : ℕ) (log : List BlockAccess) (f : List UInt8) : Prop :=
  ∃ pieces header,
    log = puts headerSize pieces ++ [.put 0 (packedHeaderToArray (headerPack header)), .send] ∧
    f.length = tu ∧ packedHeaderToArray (headerPack header) ++ pieces.flatten <+: f ∧
    (headerUnpack (arrayToPackedHeader f)).slicePayloadSize.toNat = pieces.flatten.length

/-- All accesses to the block assemble and send frames. -/
def SliceBlock.Announced (tu : ℕ) (b : SliceBlock) : Prop :=
  ∃ logs, b.accesses = logs.flatten ∧ List.Forall₂ (Announces tu) logs b.sent

/-- The call ends without an access outside `stdout_block`, and every frame
says how much payload it carries. -/
def TxSession.Sound (session : TxSession) (call : TxCall) : Prop :=
  ∃ session' block, cmdTx session call = .ok (session', block) ∧
    block.Announced session.transmissionUnit.toNat

variable {P : ℕ} {start : Coordinate} {data : List UInt8}

/-- A slice that the size field holds announces its payload. -/
theorem SliceLog.announces {eop : Bool} {i : ℕ} {log : List BlockAccess} {f : List UInt8}
    (h : SliceLog P start data eop i log) (hf : SliceFrame P start data eop i f)
    (hcap : P ≤ 4095) : Announces (P + headerSize) log f := by
  obtain ⟨pieces, hpieces, rfl⟩ := h
  have hle : (slicePayload P data i).length ≤ P := List.length_take_le _ _
  have hsize : (UInt16.ofNat (slicePayload P data i).length).toNat =
      (slicePayload P data i).length := by
    rw [UInt16.toNat_ofNat']
    omega
  refine ⟨pieces, _, rfl, hf.length, by rw [hpieces]; exact hf.starts, ?_⟩
  obtain ⟨rest, rfl⟩ := hf.starts
  have hfits : (txMakeHeader (Config.ofPayload P) (start.slice P i)
      (UInt16.ofNat (slicePayload P data i).length) eop).Fits := by
    refine ⟨senderId_and_lt start.senderId, ?_, ?_⟩
    · show (if eop then (1 : UInt8) else 0).toNat < 2
      cases eop <;> decide
    · show (UInt16.ofNat (slicePayload P data i).length).toNat < 4096
      omega
  rw [List.append_assoc, headerUnpack_wire hfits, hpieces]
  exact hsize

/-- Slice after slice. -/
theorem announces_slices {eop : Bool} {order : List ℕ} {logs : List (List BlockAccess)}
    {frames : List (List UInt8)} (hlogs : List.Forall₂ (SliceLog P start data eop) order logs)
    (hframes : List.Forall₂ (SliceFrame P start data eop) order frames) (hcap : P ≤ 4095) :
    List.Forall₂ (Announces (P + headerSize)) logs frames := by
  induction hlogs generalizing frames with
  | nil =>
      cases hframes
      exact .nil
  | cons hlog _ ih =>
      cases hframes with
      | cons hf hframes => exact .cons (hlog.announces hf hcap) (ih hframes)

/-- The accesses of a session, made to a fresh block. -/
theorem SliceBlock.Ready.announced {b : SliceBlock} {bytes : List UInt8} (h : b.Ready P bytes)
    (hlog : SessionLog P start data b.accesses) (hcap : P ≤ 4095)
    (hroom : P + headerSize ≤ bytes.length) : b.Announced (P + headerSize) := by
  obtain ⟨bytes', front, last, hfold, hfront, hlast⟩ :=
    SliceBlock.foldlM_sessionLog (b := .untouched bytes) hlog hroom
  rw [h.replayed, Except.ok.injEq] at hfold
  obtain ⟨slices, log, hslices, hlog', haccesses⟩ := hlog
  refine ⟨slices ++ [log], by rw [haccesses, List.flatten_append, List.flatten_singleton], ?_⟩
  rw [hfold]
  exact List.rel_append (announces_slices hslices hfront hcap)
    (.cons (hlog'.announces hlast hcap) .nil)

/-! ### Sessions of the tool -/

/-- Every call leaves the session at the start of a package. -/
theorem cmdTx_session {session session' : TxSession} {call : TxCall} {block : SliceBlock}
    (h : cmdTx session call = .ok (session', block)) :
    session'.transmissionUnit = session.transmissionUnit ∧ session'.coord.offset = 0 := by
  obtain ⟨s, -, hrest⟩ := Machine.bind_eq_ok.mp h
  obtain ⟨s', -, hsession⟩ := Machine.bind_eq_ok.mp hrest
  obtain ⟨rfl, -⟩ := Prod.mk.inj (Except.ok.inj hsession)
  exact ⟨rfl, rfl⟩

/-- The sessions reached from a new one. -/
theorem run_cmdTx_session {tu : UInt16} {calls : List TxCall} {session : TxSession}
    {blocks : List SliceBlock}
    (h : Machine.run cmdTx (sessionTxCreate tu) calls = .ok (session, blocks)) :
    session.transmissionUnit = tu ∧ session.coord.offset = 0 := by
  refine Machine.run_invariant (I := fun s => s.transmissionUnit = tu ∧ s.coord.offset = 0)
    (P := fun _ => True) ?_ ⟨rfl, rfl⟩ (fun _ _ => trivial) h
  rintro s call s' block ⟨htu, -⟩ - hstep
  have hs' := cmdTx_session hstep
  exact ⟨hs'.1.trans htu, hs'.2⟩

/-- A call that ends well has written a unit out of `stdout_block`. -/
theorem TxSession.Sound.le {session : TxSession} {call : TxCall} (h : session.Sound call) :
    session.transmissionUnit.toNat ≤ 4096 := by
  obtain ⟨session', block, hok, -⟩ := h
  obtain ⟨s, hfeeds, hrest⟩ := Machine.bind_eq_ok.mp hok
  obtain ⟨s', hfinal, -⟩ := Machine.bind_eq_ok.mp hrest
  have h₀ : (cmdTxStream session call.args.senderId).Keeps
      (TxUser.Dims session.transmissionUnit 4096) pushCb := ⟨rfl, rfl, List.length_replicate⟩
  exact (h₀.feeds TxUser.Dims.pushCb hfeeds).finalize_le hfinal

/-- **A unit that fits.** -/
theorem TxSession.sound_of_le {session : TxSession} (call : TxCall)
    (hoffset : session.coord.offset = 0) (hlow : 7 ≤ session.transmissionUnit.toNat)
    (hfit : session.transmissionUnit.toNat ≤ 4096) : session.Sound call := by
  obtain ⟨P, hP⟩ : ∃ P, session.transmissionUnit.toNat = P + headerSize :=
    ⟨session.transmissionUnit.toNat - headerSize, by unfold headerSize; omega⟩
  have htu : session.transmissionUnit = UInt16.ofNat (P + headerSize) := by
    rw [← hP, UInt16.ofNat_toNat]
  have hsize : headerSize = 4 := rfl
  have hpos : 0 < P := by omega
  have hcap : P ≤ 4095 := by omega
  have hroom : P + headerSize ≤ (List.replicate 4096 (0 : UInt8)).length := by
    rw [List.length_replicate]
    omega
  have hstream : cmdTxStream session call.args.senderId =
      toolStream P { session.coord with senderId := call.args.senderId.toUInt8 }
        (List.replicate 4096 0) := by
    rw [cmdTxStream, htu]
    rfl
  have hsink := @pushCbView_assembles P (List.replicate 4096 0) hcap
  have h₀ := @toolStream_holding P { session.coord with senderId := call.args.senderId.toUInt8 }
    (List.replicate 4096 0) hcap hoffset hroom
  obtain ⟨s, hfeeds, h⟩ := h₀.feeds hsink hpos hcap call.reads
  obtain ⟨s', hfinal, -, -, -, hvalid, hlog⟩ := h.finalize hsink hpos hcap
  refine ⟨_, _, by rw [cmdTx, hstream, hfeeds, Machine.ok_bind, hfinal, Machine.ok_bind], ?_⟩
  rw [hP]
  exact hvalid.2.announced hlog hcap hroom

/-- **Every call of the tool stays in `stdout_block`**, in every session that
`config` creates and calls of the tool reach, if and only if the unit fits the
block. -/
theorem cmdTx_sound_iff {opts : List ConfigOption} {mtu : UInt16}
    (hconfig : cmdConfig opts = .ok (.tx, mtu)) {calls : List TxCall} {session : TxSession}
    {blocks : List SliceBlock}
    (hrun : Machine.run cmdTx (sessionTxCreate mtu) calls = .ok (session, blocks))
    (call : TxCall) : session.Sound call ↔ mtu.toNat ≤ 4096 := by
  obtain ⟨rfl, hoffset⟩ := run_cmdTx_session hrun
  exact ⟨TxSession.Sound.le, TxSession.sound_of_le call hoffset (cmdConfig_le hconfig)⟩

/-- A call with nothing on standard input. -/
def emptyCall : TxCall where
  opts := [.session "tx.session"]
  args := ⟨some "tx.session", 64, 0⟩
  parsed := rfl
  reads := []
  pos_of_mem := by simp
  le_of_mem := by simp

/-- The smallest unit. -/
theorem cmdTx_sound_smallest : (sessionTxCreate 7).Sound emptyCall ↔ (7 : UInt16).toNat ≤ 4096 :=
  @cmdTx_sound_iff [.mtu 7] 7 rfl [] (sessionTxCreate 7) [] rfl emptyCall

/-- A unit of 4097 bytes is accepted, and a call with nothing on standard input
reads the last of them from behind `stdout_block`. -/
theorem cmdTx_leaves_block :
    ¬ ∀ (opts : List ConfigOption) (mtu : UInt16) (calls : List TxCall) (session : TxSession)
      (blocks : List SliceBlock) (call : TxCall), cmdConfig opts = .ok (.tx, mtu) →
      Machine.run cmdTx (sessionTxCreate mtu) calls = .ok (session, blocks) →
      session.Sound call := by
  intro h
  have hle := (h [.mtu 4097] 4097 [] (sessionTxCreate 4097) [] emptyCall rfl rfl).le
  exact absurd hle (by decide)

end CustomData
