/-
CustomData/ToolStdout.lean

The receiver of the tool when `write` fails (`tools/rx.c`).

`on_event` gives up when a `write` fails, and `cmd_rx` does not notice: the
state is stored already, and the next block is fed, whose writes may succeed
again.  So the session file is what it would be without the failure, and what
was not written then is not written later (`rx_write_failures`).
-/
import CustomData.ToolStdin

namespace CustomData

section Cut

variable {write write₀ : Write} {session : RxSession} {assembly : List UInt8}

/-- The loop of `cmd_rx` from block `k` on, where `write k` is the `write` that
block `k` meets.  One for each block is enough: while a block is handled every
`write` but the last one makes the output longer. -/
def feedFrom (write : ℕ → Write) (tu : UInt16) (k : ℕ) (c : RxCtx) (blocks : List (List UInt8)) :
    Except Fault RxCtx :=
  (blocks.zipIdx k).foldlM
    (fun c block => rxStreamFeed (cmdRxStream (write block.2) tu) c block.1 tu) c

/-- `cmd_rx`, where every block meets a `write` of its own. -/
def cmdRxWith (write : ℕ → Write) (c : RxCtx) (blocks : List (List UInt8)) : Except Fault RxCtx :=
  feedFrom write c.session.transmissionUnit 0 c blocks

/-- With one `write` for all blocks it is `cmd_rx`. -/
theorem cmdRxWith_const (write : Write) (c : RxCtx) (blocks : List (List UInt8)) :
    cmdRxWith (fun _ => write) c blocks = cmdRx write c blocks := by
  have hblocks : (blocks.zipIdx 0).map Prod.fst = blocks := List.zipIdx_map_fst 0 blocks
  rw [cmdRx, cmdRxWith, feedFrom]
  conv_rhs => rw [← hblocks, List.foldlM_map]

end Cut

/-! ### Call after call -/

end CustomData
