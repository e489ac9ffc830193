/-
CustomData/ToolExit.lean

The sender of the tool when `write` fails (`tools/tx.c`).

`push_cb` ends the program with `exit` when a `write` does not take the whole
block.  The session file keeps its package number then, and the slices that
went out before are with the receiver.  So the call is an attempt that was
broken off after some full slices, in the sense of `Attempt`, and what `rx`
writes is what `spliceAll` makes of the attempts (`tool_received`).  An input
that is sent again until a call succeeds is written once (`tool_retries`).

A process whose writes may fail is compared with one whose writes succeed
(`TxProcess.Follows`).  Two streams that differ only in their sinks stay in
step, and so do their sinks, if every push keeps them so (`inStep_feeds`).
-/
import CustomData.ToolLink

namespace CustomData

/-! ### Streams that differ in their sinks -/

section InStep

variable {ω ω' : Type}

/-- The stream `t`, which pushes to `cb'`, goes on like `s`, which pushes to
`cb`, and the users of their sinks are related. -/
structure TxStream.InStep (cb : TxPushCb ω) (cb' : TxPushCb ω') (R : ω → ω' → Prop)
    (s : TxStream ω) (t : TxStream ω') : Prop where
  push_left : s.downstream.push = cb
  push_right : t.downstream.push = cb'
  config : t.config = s.config
  cursor : t.cursor = s.cursor
  fill : t.fill = s.fill
  user : R s.downstream.user t.downstream.user

variable {cb : TxPushCb ω} {cb' : TxPushCb ω'} {R : ω → ω' → Prop}
  (hcb : ∀ w v act header data size w', R w v → cb w act header data size = .ok w' →
    ∃ v', cb' v act header data size = .ok v' ∧ R w' v')
  {s s' : TxStream ω} {t : TxStream ω'}

include hcb

theorem inStep_push (h : s.InStep cb cb' R t) {act : TxAction} {header : Option HeaderMeta}
    {data : Option (List UInt8)} {size : UInt16} (hok : s.push act header data size = .ok s') :
    ∃ t', t.push act header data size = .ok t' ∧ s'.InStep cb cb' R t' := by
  obtain ⟨w, hw, hs'⟩ := Machine.bind_eq_ok.mp hok
  obtain rfl := Except.ok.inj hs'
  rw [h.push_left] at hw
  obtain ⟨v, hv, hR⟩ := hcb _ _ _ _ _ _ _ h.user hw
  refine ⟨{ t with downstream := { t.downstream with user := v } }, ?_, h.push_left, h.push_right,
    h.config, h.cursor, h.fill, hR⟩
  rw [TxStream.push, h.push_right, hv]
  rfl

theorem inStep_pass (h : s.InStep cb cb' R t) {data : List UInt8} {size off off' : UInt16}
    (hok : txStreamPass data size s off = .ok (s', off')) :
    ∃ t', txStreamPass data size t off = .ok (t', off') ∧ s'.InStep cb cb' R t' := by
  simp only [txStreamPass, h.config, h.fill] at hok ⊢
  generalize (if size - off > maxPayload s.config - s.fill then maxPayload s.config - s.fill
    else size - off) = take at hok ⊢
  obtain ⟨s₁, hput, hrest⟩ := Machine.bind_eq_ok.mp hok
  obtain ⟨t₁, hput', h₁⟩ := inStep_push hcb h hput
  simp only [hput', Machine.ok_bind, h₁.config, h₁.cursor, h₁.fill]
  have h₂ : TxStream.InStep cb cb' R { s₁ with fill := s₁.fill + take }
      ⟨s₁.config, s₁.cursor, s₁.fill + take, t₁.downstream⟩ :=
    ⟨h₁.push_left, h₁.push_right, rfl, rfl, rfl, h₁.user⟩
  split at hrest
  · rename_i hfull
    obtain ⟨s₂, hsend, hs'⟩ := Machine.bind_eq_ok.mp hrest
    obtain ⟨t₂, hsend', h₃⟩ := inStep_push hcb h₂ hsend
    obtain ⟨rfl, rfl⟩ := Prod.mk.inj (Except.ok.inj hs')
    rw [if_pos hfull, hsend', Machine.ok_bind]
    exact ⟨_, rfl, h₃.push_left, h₃.push_right, h₃.config, rfl, rfl, h₃.user⟩
  · rename_i hopen
    obtain ⟨rfl, rfl⟩ := Prod.mk.inj (Except.ok.inj hrest)
    rw [if_neg hopen]
    exact ⟨_, rfl, h₂⟩

theorem inStep_passes (h : s.InStep cb cb' R t) {data : List UInt8} {size off off' : UInt16} {n : ℕ}
    (hok : txStreamPasses data size n s off = .ok (s', off')) :
    ∃ t', txStreamPasses data size n t off = .ok (t', off') ∧ s'.InStep cb cb' R t' := by
  induction n generalizing s t off with
  | zero =>
      obtain ⟨rfl, rfl⟩ := Prod.mk.inj (Except.ok.inj hok)
      exact ⟨t, rfl, h⟩
  | succ n ih =>
      unfold txStreamPasses at hok ⊢
      split at hok
      · rename_i hlt
        obtain ⟨⟨s₁, off₁⟩, hpass, hrest⟩ := Machine.bind_eq_ok.mp hok
        obtain ⟨t₁, hpass', h₁⟩ := inStep_pass hcb h hpass
        rw [if_pos hlt, hpass', Machine.ok_bind]
        exact ih h₁ hrest
      · rename_i hge
        obtain ⟨rfl, rfl⟩ := Prod.mk.inj (Except.ok.inj hok)
        rw [if_neg hge]
        exact ⟨t, rfl, h⟩

theorem inStep_feed (h : s.InStep cb cb' R t) {data : List UInt8} {size : UInt16}
    (hok : txStreamFeed s data size = .ok s') :
    ∃ t', txStreamFeed t data size = .ok t' ∧ s'.InStep cb cb' R t' := by
  obtain ⟨⟨s₁, off₁⟩, hpasses, hrest⟩ := Machine.bind_eq_ok.mp hok
  obtain ⟨t₁, hpasses', h₁⟩ := inStep_passes hcb h hpasses
  dsimp only at hrest
  split at hrest
  · cases hrest
  · rename_i hend
    obtain rfl := Except.ok.inj hrest
    refine ⟨t₁, ?_, h₁⟩
    rw [txStreamFeed, hpasses', Machine.ok_bind]
    dsimp only
    rw [if_neg hend]

/-- Chunk after chunk the streams stay in step. -/
theorem inStep_feeds (h : s.InStep cb cb' R t) {chunks : List (List UInt8)}
    (hok : txStreamFeeds s chunks = .ok s') :
    ∃ t', txStreamFeeds t chunks = .ok t' ∧ s'.InStep cb cb' R t' := by
  induction chunks generalizing s t with
  | nil => exact ⟨t, rfl, Except.ok.inj hok ▸ h⟩
  | cons chunk chunks ih =>
      rw [txStreamFeeds, List.foldlM_cons] at hok
      obtain ⟨s₁, hfeed, hrest⟩ := Machine.bind_eq_ok.mp hok
      obtain ⟨t₁, hfeed', h₁⟩ := inStep_feed hcb h hfeed
      obtain ⟨t₂, hrest', h₂⟩ := ih h₁ hrest
      refine ⟨t₂, ?_, h₂⟩
      rw [txStreamFeeds, List.foldlM_cons, hfeed']
      exact hrest'

/-- The last slice keeps them in step. -/
theorem inStep_finalize (h : s.InStep cb cb' R t) (hok : txStreamFinalize s = .ok s') :
    ∃ t', txStreamFinalize t = .ok t' ∧ s'.InStep cb cb' R t' := by
  simp only [txStreamFinalize, h.config, h.cursor, h.fill] at hok ⊢
  obtain ⟨s₁, hpush, hs'⟩ := Machine.bind_eq_ok.mp hok
  obtain ⟨t₁, hpush', h₁⟩ := inStep_push hcb h hpush
  obtain rfl := Except.ok.inj hs'
  rw [hpush', Machine.ok_bind]
  exact ⟨_, rfl, h₁.push_left, h₁.push_right, h₁.config, rfl, rfl, h₁.user⟩

end InStep

/-! ### The process of a call -/

/-- The process of a call: `tx_user_t` with `stdout_block`, the bytes that went
to standard output, and whether `exit` was called. -/
structure TxProcess where
  user : TxUser
  stdout : List UInt8
  exited : Bool

namespace TxProcess

def fill (p : TxProcess) : UInt16 := p.user.fill

/-- `u->fill`, unless the process has ended. -/
def setFill (p : TxProcess) (n : UInt16) : TxProcess :=
  if p.exited then p else { p with user := p.user.setFill n }

/-- `memcpy` into `stdout_block`. -/
def put (p : TxProcess) (offset : ℕ) (src : List UInt8) : Except TxFault TxProcess := do
  let user ← p.user.put offset src
  .ok { p with user := user }

/-- `write` of `tu` bytes of `stdout_block`, and `exit` if the result is
another number. -/
def send (write : Write) (p : TxProcess) : Except TxFault TxProcess := do
  let user ← p.user.send
  let block := p.user.stdoutBlock.bytes.take p.user.tu.toNat
  match write p.stdout p.user.tu.toNat with
  | none => .ok { p with exited := true }
  | some n =>
      if n = p.user.tu.toNat then .ok { p with user := user, stdout := p.stdout ++ block }
      else .ok { p with stdout := p.stdout ++ block.take n, exited := true }

end TxProcess

/-- `push_cb`.  Nothing has an effect after `exit`. -/
def pushCbWith (write : Write) : TxPushCb TxProcess := fun p act header data size =>
  if p.exited then .ok p
  else pushSlice TxProcess.put (TxProcess.send write) TxProcess.fill TxProcess.setFill p act header
    data size

/-- The stream of `cmd_tx`. -/
def cmdTxStreamWith (write : Write) (session : TxSession) (senderId : UInt16) :
    TxStream TxProcess where
  config := ⟨session.transmissionUnit⟩
  cursor := { session.coord with senderId := senderId.toUInt8 }
  fill := 0
  downstream := ⟨pushCbWith write, ⟨⟨session.transmissionUnit, 0, stdoutBlock⟩, [], false⟩⟩

/-- `cmd_tx`: the session in the file, and the process.  The sender is stored
before the stream starts, the rest when it has ended. -/
def cmdTxWith (session : TxSession) (write : Write) (call : TxCall) :
    Except TxFault (TxSession × TxProcess) := do
  let senderId := call.args.senderId.toUInt8
  let stream ← txStreamFeeds (cmdTxStreamWith write session call.args.senderId) call.reads
  let stream ← txStreamFinalize stream
  if stream.downstream.user.exited then
    .ok ({ session with coord := { session.coord with senderId := senderId } },
      stream.downstream.user)
  else
    let coord := { stream.cursor with packageId := stream.cursor.packageId + 1, offset := 0 }
    .ok ({ session with coord := coord }, stream.downstream.user)

/-! ### Processes that end early -/

/-- A call takes all of the bytes or none, as it does on a pipe with up to
`PIPE_BUF` bytes. -/
def Write.Whole (write : Write) : Prop := ∀ out n, write out n = none ∨ write out n = some n

/-- A process follows one whose writes succeed: it is there, or it has ended
before, with the first frames written and perhaps the beginning of the next. -/
inductive TxProcess.Follows (write : Write) (u : TxUser) : TxProcess → Prop
  | running : Follows write u ⟨u, u.stdoutBlock.sent.flatten, false⟩
  | exited {p : TxUser} {f part : List UInt8} {rest : List (List UInt8)} :
      u.stdoutBlock.sent = p.stdoutBlock.sent ++ f :: rest → part <+: f →
      (write.Whole → part = []) → Follows write u ⟨p, p.stdoutBlock.sent.flatten ++ part, true⟩

theorem TxUser.put_sent {u u' : TxUser} {offset : ℕ} {src : List UInt8}
    (h : u.put offset src = .ok u') : u'.stdoutBlock.sent = u.stdoutBlock.sent := by
  obtain ⟨b, hb, hu⟩ := Machine.bind_eq_ok.mp h
  obtain rfl := Except.ok.inj hu
  rw [SliceBlock.put] at hb
  split at hb
  · cases hb
  · rw [← Except.ok.inj hb]

theorem TxUser.send_sent {u u' : TxUser} (h : u.send = .ok u') :
    u'.stdoutBlock.sent =
      u.stdoutBlock.sent ++ [u.stdoutBlock.bytes.take u.tu.toNat] := by
  obtain ⟨b, hb, hu⟩ := Machine.bind_eq_ok.mp h
  obtain rfl := Except.ok.inj hu
  rw [SliceBlock.send] at hb
  split at hb
  · cases hb
  · rw [← Except.ok.inj hb]

/-- A push of data sends nothing. -/
theorem pushData_sent {u u' : TxUser} {data : Option (List UInt8)} {size : UInt16}
    (h : pushData TxUser.put TxUser.fill TxUser.setFill u data size = .ok u') :
    u'.stdoutBlock.sent = u.stdoutBlock.sent := by
  cases data with
  | none => rw [← Except.ok.inj h]
  | some bytes =>
      simp only [pushData] at h
      split at h
      · rw [← Except.ok.inj h]
      · obtain ⟨u₁, hput, hu⟩ := Machine.bind_eq_ok.mp h
        rw [← Except.ok.inj hu]
        show u₁.stdoutBlock.sent = _
        exact TxUser.put_sent hput

/-- What was sent stays sent. -/
theorem pushCb_sent {u u' : TxUser} {act : TxAction} {header : Option HeaderMeta}
    {data : Option (List UInt8)} {size : UInt16} (h : pushCb u act header data size = .ok u') :
    u.stdoutBlock.sent <+: u'.stdoutBlock.sent := by
  obtain ⟨u₁, hdata, hheader⟩ := Machine.bind_eq_ok.mp h
  rw [← pushData_sent hdata]
  cases header with
  | none => rw [← Except.ok.inj hheader]
  | some hd =>
      obtain ⟨u₂, hput, hrest⟩ := Machine.bind_eq_ok.mp hheader
      obtain ⟨u₃, hsend, hu⟩ := Machine.bind_eq_ok.mp hrest
      rw [← Except.ok.inj hu, ← TxUser.put_sent hput]
      exact ⟨_, (TxUser.send_sent hsend).symm⟩

/-- A push of data to a process that runs. -/
theorem pushData_running {u u' : TxUser} {out : List UInt8} {data : Option (List UInt8)}
    {size : UInt16} (h : pushData TxUser.put TxUser.fill TxUser.setFill u data size = .ok u') :
    pushData TxProcess.put TxProcess.fill TxProcess.setFill ⟨u, out, false⟩ data size =
      .ok ⟨u', out, false⟩ := by
  cases data with
  | none => rw [← Except.ok.inj h]; rfl
  | some bytes =>
      simp only [pushData] at h ⊢
      split at h
      · rename_i hzero
        rw [if_pos hzero, ← Except.ok.inj h]
      · rename_i hpos
        obtain ⟨u₁, hput, hu⟩ := Machine.bind_eq_ok.mp h
        rw [if_neg hpos, TxProcess.put, TxProcess.fill, hput, ← Except.ok.inj hu]
        rfl

/-- A push of a header to a process that runs. -/
theorem pushHeader_follows (write : Write) {u u' : TxUser} {header : Option HeaderMeta}
    (h : pushHeader TxUser.put TxUser.send TxUser.setFill u header = .ok u') :
    ∃ p, pushHeader TxProcess.put (TxProcess.send write) TxProcess.setFill
        ⟨u, u.stdoutBlock.sent.flatten, false⟩ header = .ok p ∧
      TxProcess.Follows write u' p := by
  cases header with
  | none => exact ⟨_, rfl, Except.ok.inj h ▸ .running⟩
  | some hd =>
      obtain ⟨u₁, hput, hrest⟩ := Machine.bind_eq_ok.mp h
      obtain ⟨u₂, hsend, hu⟩ := Machine.bind_eq_ok.mp hrest
      obtain rfl := Except.ok.inj hu
      have hsent := TxUser.send_sent hsend
      have hput' : TxProcess.put ⟨u, u.stdoutBlock.sent.flatten, false⟩ 0
          (packedHeaderToArray (headerPack hd)) =
            .ok ⟨u₁, u₁.stdoutBlock.sent.flatten, false⟩ := by
        rw [TxProcess.put, hput, TxUser.put_sent hput]
        rfl
      simp only [pushHeader, hput', Machine.ok_bind, TxProcess.send, hsend]
      split
      · rw [← List.append_nil u₁.stdoutBlock.sent.flatten]
        exact ⟨_, rfl, .exited hsent List.nil_prefix fun _ => rfl⟩
      · rename_i n hwrite
        split
        · refine ⟨_, rfl, ?_⟩
          have hflatten : u₁.stdoutBlock.sent.flatten ++
              u₁.stdoutBlock.bytes.take u₁.tu.toNat =
                (u₂.setFill 0).stdoutBlock.sent.flatten := by
            show _ = u₂.stdoutBlock.sent.flatten
            rw [hsent, List.flatten_append, List.flatten_singleton]
          rw [hflatten]
          exact .running
        · rename_i hne
          refine ⟨_, rfl, .exited hsent (List.take_prefix _ _) fun hw => ?_⟩
          rcases hw u₁.stdoutBlock.sent.flatten u₁.tu.toNat with hnone | hall
          · rw [hnone] at hwrite
            cases hwrite
          · exact absurd (Option.some.inj (hwrite.symm.trans hall)) hne

/-- **Every push** keeps a process behind the one whose writes succeed. -/
theorem pushCbWith_follows (write : Write) (u : TxUser) (p : TxProcess) (act : TxAction)
    (header : Option HeaderMeta) (data : Option (List UInt8)) (size : UInt16) (u' : TxUser)
    (hp : TxProcess.Follows write u p) (h : pushCb u act header data size = .ok u') :
    ∃ p', pushCbWith write p act header data size = .ok p' ∧ TxProcess.Follows write u' p' := by
  cases hp with
  | running =>
      obtain ⟨u₁, hdata, hheader⟩ := Machine.bind_eq_ok.mp h
      have hrunning := @pushData_running u u₁ u.stdoutBlock.sent.flatten data size hdata
      rw [pushCbWith, if_neg Bool.false_ne_true, pushSlice, hrunning, Machine.ok_bind,
        ← pushData_sent hdata]
      exact pushHeader_follows write hheader
  | @exited p f part rest hsent hpart hwhole =>
      obtain ⟨more, hmore⟩ := pushCb_sent h
      have hsent' : u'.stdoutBlock.sent = p.stdoutBlock.sent ++ f :: (rest ++ more) := by
        rw [← hmore, hsent, List.append_assoc, List.cons_append]
      exact ⟨_, rfl, .exited hsent' hpart hwhole⟩

/-- What becomes of a call whose writes may fail: it does what the call does
whose writes succeed, or it ends in the middle of its output, and the session
keeps its package number. -/
inductive TxSession.Ends (write : Write) (session : TxSession) (call : TxCall)
    (done : TxSession × SliceBlock) : TxSession × TxProcess → Prop
  | finished {p : TxProcess} : p.exited = false → p.user.stdoutBlock = done.2 →
      p.stdout = done.2.sent.flatten → Ends write session call done (done.1, p)
  | exited {p : TxProcess} {f part : List UInt8} {rest : List (List UInt8)} : p.exited = true →
      done.2.sent = p.user.stdoutBlock.sent ++ f :: rest → part <+: f →
      (write.Whole → part = []) → p.stdout = p.user.stdoutBlock.sent.flatten ++ part →
      Ends write session call done
        ({ session with coord := { session.coord with senderId := call.args.senderId.toUInt8 } }, p)

/-- **A call whose writes may fail**, compared with the one whose writes
succeed. -/
theorem cmdTxWith_ends {session : TxSession} {call : TxCall} {done : TxSession × SliceBlock}
    (h : cmdTx session call = .ok done) (write : Write) :
    ∃ r, cmdTxWith session write call = .ok r ∧ session.Ends write call done r := by
  obtain ⟨s₁, hfeeds, hrest⟩ := Machine.bind_eq_ok.mp h
  obtain ⟨s₂, hfinal, hdone⟩ := Machine.bind_eq_ok.mp hrest
  obtain rfl := Except.ok.inj hdone
  have h₀ : (cmdTxStream session call.args.senderId).InStep pushCb (pushCbWith write)
      (TxProcess.Follows write) (cmdTxStreamWith write session call.args.senderId) :=
    ⟨rfl, rfl, rfl, rfl, rfl, .running⟩
  obtain ⟨t₁, hfeeds', h₁⟩ := inStep_feeds (pushCbWith_follows write) h₀ hfeeds
  obtain ⟨t₂, hfinal', h₂⟩ := inStep_finalize (pushCbWith_follows write) h₁ hfinal
  rw [cmdTxWith, hfeeds', Machine.ok_bind, hfinal', Machine.ok_bind]
  have hfollows := h₂.user
  have hcursor := h₂.cursor
  generalize t₂.downstream.user = p at hfollows ⊢
  cases hfollows with
  | running =>
      rw [if_neg Bool.false_ne_true, hcursor]
      exact ⟨_, rfl, .finished rfl rfl rfl⟩
  | exited hsent hpart hwhole =>
      rw [if_pos rfl]
      exact ⟨_, rfl, .exited rfl hsent hpart hwhole rfl⟩

/-! ### A call is an attempt -/

variable {P : ℕ}

/-- The blocks that a process has written. -/
def TxProcess.frames (p : TxProcess) : List (List UInt8) := p.user.stdoutBlock.sent

/-- The bytes that a call tried to send and whether they were finished: the
input, or the full slices that went out before the call has ended. -/
def TxProcess.outcome (P : ℕ) (call : TxCall) (p : TxProcess) : List UInt8 × Bool :=
  if p.exited then (call.data.take (p.frames.length * P), false) else (call.data, true)

/-- The first frames of a package are those of a message of their own bytes. -/
theorem frames_take {start : Coordinate} {data f last : List UInt8}
    {front frames rest : List (List UInt8)} (hP : 0 < P)
    (hfront : List.Forall₂ (SliceFrame P start data false) (List.range (data.length / P)) front)
    (hcut : front ++ [last] = frames ++ f :: rest) :
    (data.take (frames.length * P)).length / P = frames.length ∧
      List.Forall₂ (SliceFrame P start (data.take (frames.length * P)) false)
        (List.range frames.length) frames := by
  have hlength := congrArg List.length hcut
  rw [List.length_append, List.length_append, ← hfront.length_eq, List.length_range,
    List.length_singleton, List.length_cons] at hlength
  have hle : frames.length ≤ data.length / P := by omega
  have hbytes : frames.length * P ≤ data.length := (Nat.le_div_iff_mul_le hP).mp hle
  have htake : (data.take (frames.length * P)).length = frames.length * P := by
    rw [List.length_take, Nat.min_eq_left hbytes]
  have hframes : front.take frames.length = frames := by
    have hfirst := congrArg (List.take frames.length) hcut
    rwa [List.take_append_of_le_length (by rw [← hfront.length_eq, List.length_range]; exact hle),
      List.take_left' rfl] at hfirst
  refine ⟨by rw [htake, Nat.mul_div_cancel _ hP], ?_⟩
  have hshort := List.forall₂_take frames.length hfront
  rw [hframes, List.take_range, Nat.min_eq_left hle] at hshort
  refine List.forall₂_iff_zip.mpr ⟨hshort.length_eq, fun {i g} hmem => ?_⟩
  have hi := List.mem_range.mp (List.of_mem_zip hmem).1
  have hmul := Nat.mul_le_mul_right P (Nat.succ_le_of_lt hi)
  rw [Nat.succ_mul] at hmul
  have hpayload : slicePayload P (data.take (frames.length * P) ++
      data.drop (frames.length * P)) i = slicePayload P (data.take (frames.length * P)) i :=
    slicePayload_append (by rw [htake]; exact hmul) _
  rw [List.take_append_drop] at hpayload
  have hg := List.forall₂_zip hshort hmem
  exact ⟨hg.length, hpayload ▸ hg.starts⟩

/-- Frames that were broken off are an attempt to send the full slices among
them. -/
theorem TxCall.Fits.broken_off {call : TxCall} (h : call.Fits P) (hP : 0 < P) (hcap : P ≤ 4095)
    {start : Coordinate} {f last : List UInt8} {front frames rest : List (List UInt8)}
    (hfront : List.Forall₂ (SliceFrame P start call.data false)
      (List.range (call.data.length / P)) front) (hcut : front ++ [last] = frames ++ f :: rest) :
    ∃ a : Attempt P, a.frames = frames ∧
      a.outcome = (call.data.take (frames.length * P), false) := by
  obtain ⟨hfull, hframes⟩ := frames_take hP hfront hcut
  have hle : (call.data.take (frames.length * P)).length ≤ call.data.length :=
    (List.take_sublist _ _).length_le
  have hdiv := Nat.div_le_div_right (c := P) hle
  refine ⟨⟨call.data.take (frames.length * P), false, start.senderId &&& 0x7,
    senderId_and_lt _, start.packageId, frames, ?_⟩, rfl, rfl⟩
  by_cases hnil : call.data.take (frames.length * P) = []
  · rw [hnil, List.length_nil, Nat.zero_div] at hfull
    exact Or.inl ⟨hnil, rfl, List.length_eq_zero_iff.mp hfull.symm⟩
  · let m : Message P := ⟨call.data.take (frames.length * P), hP, hcap, hnil,
      hdiv.trans h.serial_le,
      (Nat.mul_le_mul_right P (Nat.succ_le_succ hdiv)).trans h.offset_le⟩
    have hall : m.stream.full = frames.length := hfull
    have hare : m.stream.AreFrames (start.senderId &&& 0x7) start.packageId
        (List.range m.stream.full) frames := areFrames_front (by rw [hall]; exact hframes)
    exact Or.inr ⟨m, rfl, hare⟩

/-- A call of `tx` on a pipe. -/
structure PipedCall where
  call : TxCall
  write : Write
  whole : write.Whole

/-- `cmd_tx` on a pipe. -/
def PipedCall.run (session : TxSession) (c : PipedCall) : Except TxFault (TxSession × TxProcess) :=
  cmdTxWith session c.write c.call

/-- **A call of `tx`** is an attempt to send its input, and leaves the session
to the next call. -/
theorem PipedCall.run_attempt (hP : 0 < P) (hfit : P + headerSize ≤ 4096) {session : TxSession}
    (hsession : session.Ready P) {c : PipedCall} (hc : c.call.Fits P) :
    ∃ session' p, ∃ a : Attempt P, c.run session = .ok (session', p) ∧ session'.Ready P ∧
      p.stdout = p.frames.flatten ∧ p.frames = a.frames ∧ p.outcome P c.call = a.outcome := by
  have hsize : headerSize = 4 := rfl
  obtain ⟨session', block, hcmd, hready, -, front, last, hsent, hfront, hlast⟩ :=
    cmdTx_blocks hP hfit hsession c.call
  obtain ⟨⟨session'', p⟩, hrun, hends⟩ := cmdTxWith_ends hcmd c.write
  let m := hc.toMessage hP (by omega)
  cases hends with
  | finished hgoes hblock hstdout =>
      have hframes : m.stream.AreFrames c.call.sender session.coord.packageId
          (List.range (m.stream.full + 1)) block.sent := by
        rw [hsent]
        exact m.areFrames_closed hfront hlast
      refine ⟨session', p, ⟨c.call.data, true, c.call.sender, senderId_and_lt _,
        session.coord.packageId, block.sent, Or.inr ⟨m, rfl, hframes⟩⟩, hrun, hready, ?_, ?_, ?_⟩
      · rw [hstdout, TxProcess.frames, hblock]
      · rw [TxProcess.frames, hblock]
      · rw [TxProcess.outcome, if_neg (by simp [hgoes])]
        rfl
  | exited hexited hcut hpart hwhole hstdout =>
      obtain ⟨a, hframes, houtcome⟩ :=
        hc.broken_off hP (by omega) hfront (hsent.symm.trans hcut)
      have hout : p.stdout = p.frames.flatten := by
        rw [hstdout, hwhole c.whole, List.append_nil]
        rfl
      refine ⟨_, p, a, hrun, ⟨hsession.transmissionUnit, hsession.offset⟩, hout, hframes.symm, ?_⟩
      rw [TxProcess.outcome, if_pos hexited, houtcome]
      rfl

/-! ### Call after call -/

/-- The attempts of calls. -/
def outcomes (P : ℕ) (calls : List PipedCall) (ps : List TxProcess) : List (List UInt8 × Bool) :=
  List.zipWith (fun c p => p.outcome P c.call) calls ps

theorem run_piped (hP : 0 < P) (hfit : P + headerSize ≤ 4096) {session : TxSession}
    (hsession : session.Ready P) {calls : List PipedCall} (hcalls : ∀ c ∈ calls, c.call.Fits P) :
    ∃ session' ps, ∃ attempts : List (Attempt P),
      Machine.run PipedCall.run session calls = .ok (session', ps) ∧
      (∀ p ∈ ps, p.stdout = p.frames.flatten) ∧
      ps.flatMap TxProcess.frames = attempts.flatMap Attempt.frames ∧
      outcomes P calls ps = attempts.map Attempt.outcome ∧
      ∀ a ∈ attempts, a.data.length ≤ 256 * (P - 2) := by
  induction calls generalizing session with
  | nil => exact ⟨session, [], [], rfl, by simp, rfl, rfl, by simp⟩
  | cons c calls ih =>
      obtain ⟨hc, hrest⟩ := List.forall_mem_cons.mp hcalls
      obtain ⟨session₁, p, a, hrun, hready, hstdout, hframes, houtcome⟩ :=
        c.run_attempt hP hfit hsession hc
      obtain ⟨session₂, ps, attempts, hruns, hstdouts, hall, houtcomes, hroom⟩ := ih hready hrest
      have hlength : a.data.length ≤ c.call.data.length := by
        have hdata : a.data = (p.outcome P c.call).1 := congrArg Prod.fst houtcome.symm
        rw [hdata, TxProcess.outcome]
        split
        · exact (List.take_sublist _ _).length_le
        · exact le_rfl
      refine ⟨session₂, p :: ps, a :: attempts, Machine.run_cons_of_ok hrun hruns,
        List.forall_mem_cons.mpr ⟨hstdout, hstdouts⟩, ?_, ?_,
        List.forall_mem_cons.mpr ⟨hlength.trans hc.room, hroom⟩⟩
      · rw [List.flatMap_cons, List.flatMap_cons, hframes, hall]
      · rw [outcomes, List.zipWith_cons_cons, houtcome, List.map_cons, ← houtcomes]
        rfl

/-- A call whose writes may do anything, with the session that it finds. -/
def txWith (session : TxSession) (c : Write × TxCall) :
    Except TxFault (TxSession × TxSession × TxProcess) :=
  (cmdTxWith session c.1 c.2).map fun r => (r.1, session, r.2)

/-- The output is that of the call whose writes succeed, in blocks of `size`
bytes, or breaks off at the beginning of one of its blocks if the process has
ended early. -/
def TxProcess.Blocks (size : ℕ) (session : TxSession) (call : TxCall) (p : TxProcess) : Prop :=
  ∃ done, cmdTx session call = .ok done ∧ (∀ f ∈ done.2.sent, f.length = size) ∧
    ∃ part rest, done.2.sent = p.frames ++ rest ∧ part <+: rest.headD [] ∧
      p.stdout = p.frames.flatten ++ part ∧ (p.exited = false → rest = [])

/-- All blocks of a call have the same size. -/
theorem length_of_slices {start : Coordinate} {data : List UInt8} {order : List ℕ}
    {front : List (List UInt8)} {last : List UInt8} {i : ℕ}
    (hfront : List.Forall₂ (SliceFrame P start data false) order front)
    (hlast : SliceFrame P start data true i last) :
    ∀ f ∈ front ++ [last], f.length = P + headerSize := by
  intro f hf
  rcases List.mem_append.mp hf with hf | hf
  · obtain ⟨n, hn, rfl⟩ := List.getElem_of_mem hf
    exact (List.forall₂_iff_get.mp hfront).2 n (hfront.length_eq ▸ hn) hn |>.length
  · rw [List.mem_singleton.mp hf, hlast.length]

/-- A call whose writes may do anything keeps to the blocks of the call whose
writes succeed. -/
theorem blocks_of_ends {size : ℕ} {session : TxSession} {call : TxCall} {write : Write}
    {done : TxSession × SliceBlock} {r : TxSession × TxProcess} (h : cmdTx session call = .ok done)
    (hlength : ∀ f ∈ done.2.sent, f.length = size) (hends : session.Ends write call done r) :
    r.2.Blocks size session call := by
  refine ⟨done, h, hlength, ?_⟩
  cases hends with
  | @finished p hgoes hblock hstdout =>
      have hframes : p.frames = done.2.sent := congrArg SliceBlock.sent hblock
      refine ⟨[], [], ?_, List.nil_prefix, ?_, fun _ => rfl⟩
      · rw [hframes, List.append_nil]
      · rw [hframes, hstdout, List.append_nil]
  | @exited p f part rest hexited hcut hpart _ hstdout =>
      exact ⟨part, f :: rest, hcut, hpart, hstdout, fun hgoes => by simp [hexited] at hgoes⟩

/-- **One call** keeps the package number in the file if it ends early. -/
theorem txWith_step (hP : 0 < P) (hfit : P + headerSize ≤ 4096) {session : TxSession}
    (hsession : session.Ready P) (c : Write × TxCall) :
    ∃ session' p, txWith session c = .ok (session', session, p) ∧ session'.Ready P ∧
      session'.coord.packageId = session.coord.packageId + (if p.exited then 0 else 1) ∧
      p.Blocks (P + headerSize) session c.2 := by
  obtain ⟨session', block, hcmd, hready, hserial, front, last, hsent, hfront, hlast⟩ :=
    cmdTx_blocks hP hfit hsession c.2
  have hlength := length_of_slices hfront hlast
  rw [← hsent] at hlength
  obtain ⟨⟨session₁, p⟩, hrun, hends⟩ := cmdTxWith_ends hcmd c.1
  have hblocks := blocks_of_ends hcmd hlength hends
  have hstep : txWith session c = .ok (session₁, session, p) := by
    rw [txWith, hrun]
    rfl
  cases hends with
  | finished hgoes hblock hstdout =>
      refine ⟨session', p, hstep, hready, ?_, hblocks⟩
      rw [hgoes]
      exact hserial
  | exited hexited hcut hpart hwhole hstdout =>
      refine ⟨_, p, hstep, ⟨hsession.transmissionUnit, hsession.offset⟩, ?_, hblocks⟩
      rw [if_pos hexited, UInt8.add_zero]

theorem run_txWith (hP : 0 < P) (hfit : P + headerSize ≤ 4096) {session : TxSession}
    (hsession : session.Ready P) (calls : List (Write × TxCall)) :
    ∃ session' outs, Machine.run txWith session calls = .ok (session', outs) ∧
      session'.coord.packageId = session.coord.packageId +
        UInt8.ofNat (outs.filter fun o => !o.2.exited).length ∧
      List.Forall₂ (fun c o => TxProcess.Blocks (P + headerSize) o.1 c.2 o.2) calls outs := by
  induction calls generalizing session with
  | nil => exact ⟨session, [], rfl, (UInt8.add_zero _).symm, .nil⟩
  | cons c calls ih =>
      obtain ⟨session₁, p, hstep, hready, hserial, hp⟩ := txWith_step hP hfit hsession c
      obtain ⟨session₂, outs, hrun, hserials, hblocks⟩ := ih hready
      refine ⟨session₂, (session, p) :: outs, Machine.run_cons_of_ok hstep hrun, ?_,
        .cons hp hblocks⟩
      rw [hserials, hserial, UInt8.add_assoc]
      apply congrArg (session.coord.packageId + ·)
      cases hexited : p.exited with
      | true =>
          rw [List.filter_cons_of_neg (by simp [hexited])]
          exact UInt8.zero_add _
      | false =>
          rw [List.filter_cons_of_pos (by simp [hexited]), List.length_cons, UInt8.ofNat_add]
          exact UInt8.add_comm _ _

/-- **The package number** in the file counts the calls that have finished,
whatever `write` does, and every call writes the blocks that it would write if
nothing failed, or some of them and a beginning of the next one. -/
theorem tx_serial_counts {mtu : UInt16} {opts : List ConfigOption}
    (hconfig : cmdConfig opts = .ok (.tx, mtu)) (hfit : mtu.toNat ≤ 4096)
    (calls : List (Write × TxCall)) :
    ∃ session outs, Machine.run txWith (sessionTxCreate mtu) calls = .ok (session, outs) ∧
      session.coord.packageId = UInt8.ofNat (outs.filter fun o => !o.2.exited).length ∧
      List.Forall₂ (fun c o => TxProcess.Blocks mtu.toNat o.1 c.2 o.2) calls outs := by
  obtain ⟨P, hlow, hP, hmtu⟩ := exists_payload hconfig
  rw [hP] at hfit ⊢
  have hready : TxSession.Ready P (sessionTxCreate mtu) := ⟨hmtu, rfl⟩
  obtain ⟨session, outs, hrun, hserial, hblocks⟩ := run_txWith (by omega) hfit hready calls
  refine ⟨session, outs, hrun, ?_, hblocks⟩
  rw [hserial]
  exact UInt8.zero_add _

/-- The second block is cut in the middle. -/
def cutWrite : Write := fun out n => if out.length < 7 then some n else some 3

theorem tx_serial_counts_cut : ∃ session outs,
    Machine.run txWith (sessionTxCreate 7) [(cutWrite, fiveByteCall), (cutWrite, emptyCall)] =
        .ok (session, outs) ∧
      session.coord.packageId = UInt8.ofNat (outs.filter fun o => !o.2.exited).length ∧
      List.Forall₂ (fun c o => TxProcess.Blocks 7 o.1 c.2 o.2)
        [(cutWrite, fiveByteCall), (cutWrite, emptyCall)] outs :=
  @tx_serial_counts 7 [.mtu 7] rfl (by decide) [(cutWrite, fiveByteCall), (cutWrite, emptyCall)]

/-- Calls of `rx` that share the blocks of the processes write `bytes`, without
a fault. -/
def PipeWrites (mtu : UInt16) (ps : List TxProcess) (bytes : List UInt8) : Prop :=
  (∀ p ∈ ps, p.stdout = p.frames.flatten) ∧
    ∀ runs : List (RxRun mtu), runs.flatMap RxRun.blocks = ps.flatMap TxProcess.frames →
      ∃ file outs, Machine.run RxFile.call (RxFile.create mtu) runs = .ok (file, outs) ∧
        outs.flatMap Prod.fst = bytes ∧ ∀ o ∈ outs, o.2 = none

/-- What a receiver writes that writes at once: the packages that attempts
complete, and what is left over. -/
def spliced (P : ℕ) (attempts : List (List UInt8 × Bool)) : List UInt8 :=
  (spliceAll P [] attempts).2.flatten ++ (spliceAll P [] attempts).1

/-- The calls are attempts, and `rx` writes what comes of them. -/
theorem pipeWrites_of_fits (hP : 3 ≤ P) (hfit : P + headerSize ≤ 4096) {mtu : UInt16}
    (hmtu : mtu = UInt16.ofNat (P + headerSize)) {calls : List PipedCall}
    (hcalls : ∀ c ∈ calls, c.call.Fits P) :
    ∃ session ps, Machine.run PipedCall.run (sessionTxCreate mtu) calls = .ok (session, ps) ∧
      PipeWrites mtu ps (spliced P (outcomes P calls ps)) := by
  have hsize : headerSize = 4 := rfl
  have hready : TxSession.Ready P (sessionTxCreate mtu) := ⟨hmtu, rfl⟩
  obtain ⟨session, ps, attempts, hrun, hstdout, hframes, houtcomes, hroom⟩ :=
    run_piped (by omega) hfit hready hcalls
  refine ⟨session, ps, hrun, hstdout, fun runs hruns => ?_⟩
  have hw : Write.Succeeds fun _ n => some n := fun _ n hn => ⟨n, rfl, hn, le_rfl⟩
  obtain ⟨c, hrx, hfault, hwritten⟩ := cmdRx_attempts hP (by omega) hw hroom
  rw [← hmtu, ← hframes, ← hruns] at hrx
  have htu : (RxFile.create mtu).session.transmissionUnit = mtu := rfl
  obtain ⟨outs, hruns', hout, hfaults⟩ := cmdRx_restarts hw htu hrx
  refine ⟨_, outs, hruns', ?_, hfaults.mp hfault⟩
  rw [hout, hwritten, houtcomes, spliced]

/-- **What arrives** when calls of `tx` may end in the middle: the bytes that
`spliceAll` says. -/
theorem tool_received {mtu : UInt16} {opts : List ConfigOption}
    (hconfig : cmdConfig opts = .ok (.tx, mtu)) (hfit : mtu.toNat ≤ 4096) {calls : List PipedCall}
    (hcalls : ∀ c ∈ calls, c.call.Fits (mtu.toNat - headerSize)) :
    ∃ session ps, Machine.run PipedCall.run (sessionTxCreate mtu) calls = .ok (session, ps) ∧
      PipeWrites mtu ps (spliced (mtu.toNat - headerSize)
        (outcomes (mtu.toNat - headerSize) calls ps)) := by
  obtain ⟨P, hlow, hP, hmtu⟩ := exists_payload hconfig
  rw [hP, Nat.add_sub_cancel] at hcalls ⊢
  exact pipeWrites_of_fits hlow (hP ▸ hfit) hmtu hcalls

/-- A pipe that is closed after one block of seven bytes. -/
def closedPipe : Write := fun out n => if out.length < 7 then some n else none

theorem closedPipe_whole : closedPipe.Whole := by
  intro out n
  rw [closedPipe]
  split
  · exact .inr rfl
  · exact .inl rfl

/-- An input that is broken off, and sent again. -/
def sentTwice : List PipedCall :=
  [⟨fiveByteCall, closedPipe, closedPipe_whole⟩,
    ⟨fiveByteCall, fun _ n => some n, fun _ _ => .inr rfl⟩]

theorem sentTwice_fits : ∀ c ∈ sentTwice, c.call.Fits 3 := by
  simp [sentTwice, fiveByteCall_fits]

theorem tool_received_twice : ∃ session ps,
    Machine.run PipedCall.run (sessionTxCreate 7) sentTwice = .ok (session, ps) ∧
      PipeWrites 7 ps (spliced 3 (outcomes 3 sentTwice ps)) :=
  @tool_received 7 [.mtu 7] rfl (by decide) sentTwice sentTwice_fits

/-- Every input is sent again until a call succeeds. -/
structure Retried (session : List (PipedCall × TxProcess)) : Prop where
  again : session.IsChain fun c d => c.2.exited = true → d.1.call.data = c.1.call.data
  last : ∀ c ∈ session.getLast?, c.2.exited = false

/-- A call with what became of it, as a try to send its input. -/
def toTry (P : ℕ) (c : PipedCall × TxProcess) : Try where
  input := c.1.call.data
  data := (c.2.outcome P c.1.call).1
  finished := (c.2.outcome P c.1.call).2
  isPrefix := by
    rw [TxProcess.outcome]
    split
    · exact List.take_prefix _ _
    · exact List.prefix_rfl
  whole := by
    rw [TxProcess.outcome]
    split
    · exact fun h => absurd h (by simp)
    · exact fun _ => rfl

theorem finished_toTry (c : PipedCall × TxProcess) : (toTry P c).finished = !c.2.exited := by
  rw [toTry]
  dsimp only
  rw [TxProcess.outcome]
  cases c.2.exited <;> rfl

theorem spliced_of_retried {calls : List PipedCall} {ps : List TxProcess}
    (h : Retried (calls.zip ps)) : spliced P (outcomes P calls ps) =
      ((calls.zip ps).filter fun c => !c.2.exited).flatMap fun c => c.1.call.data := by
  have houtcomes : outcomes P calls ps =
      ((calls.zip ps).map (toTry P)).map fun t => (t.data, t.finished) := by
    rw [outcomes, ← List.map_uncurry_zip_eq_zipWith, List.map_map]
    rfl
  have hchain : ((calls.zip ps).map (toTry P)).IsChain
      fun t u => t.finished = false → u.input = t.input := by
    rw [List.isChain_map]
    refine h.again.imp fun c d hcd hfinished => hcd ?_
    simpa [finished_toTry] using hfinished
  have hlast : ∀ t ∈ ((calls.zip ps).map (toTry P)).getLast?, t.finished = true := by
    intro t ht
    rw [List.getLast?_map] at ht
    obtain ⟨c, hc, rfl⟩ := Option.map_eq_some_iff.mp ht
    rw [finished_toTry, h.last c hc]
    rfl
  have hfilter : (Try.finished ∘ toTry P) = fun c : PipedCall × TxProcess => !c.2.exited :=
    funext finished_toTry
  rw [spliced, houtcomes, spliceAll_tries (.inl rfl) hchain hlast, List.append_nil,
    List.filter_map, hfilter, List.map_map, List.flatMap_def]
  rfl

/-- **Retries on the pipe.**  If an input is always sent again until a call
succeeds, then every input is written once and whole, wherever the calls before
have ended. -/
theorem tool_retries {mtu : UInt16} {opts : List ConfigOption}
    (hconfig : cmdConfig opts = .ok (.tx, mtu)) (hfit : mtu.toNat ≤ 4096) {calls : List PipedCall}
    (hcalls : ∀ c ∈ calls, c.call.Fits (mtu.toNat - headerSize)) {session : TxSession}
    {ps : List TxProcess}
    (hrun : Machine.run PipedCall.run (sessionTxCreate mtu) calls = .ok (session, ps))
    (hretried : Retried (calls.zip ps)) :
    PipeWrites mtu ps
      (((calls.zip ps).filter fun c => !c.2.exited).flatMap fun c => c.1.call.data) := by
  obtain ⟨P, hlow, hP, hmtu⟩ := exists_payload hconfig
  rw [hP, Nat.add_sub_cancel] at hcalls
  obtain ⟨session', ps', hrun', hwrites⟩ := pipeWrites_of_fits hlow (hP ▸ hfit) hmtu hcalls
  obtain ⟨rfl, rfl⟩ := Prod.mk.inj (Except.ok.inj (hrun.symm.trans hrun'))
  rwa [spliced_of_retried hretried] at hwrites

theorem tool_retries_twice : ∃ session ps,
    Machine.run PipedCall.run (sessionTxCreate 7) sentTwice = .ok (session, ps) ∧
      PipeWrites 7 ps [1, 2, 3, 4, 5] := by
  have hflags : (Machine.run PipedCall.run (sessionTxCreate 7) sentTwice).map
      (fun r => r.2.map TxProcess.exited) = .ok [true, false] := by decide +kernel
  obtain ⟨⟨session, ps⟩, hrun, hexited⟩ := Machine.map_eq_ok.mp hflags
  obtain ⟨p, q, rfl⟩ : ∃ p q, ps = [p, q] :=
    List.length_eq_two.mp (by simpa using congrArg List.length hexited)
  obtain ⟨hp, hq⟩ : p.exited = true ∧ q.exited = false := by simpa using hexited
  have hretried : Retried (sentTwice.zip [p, q]) := by
    constructor
    · simp [sentTwice]
    · simp [sentTwice, hq]
  have hwrites := @tool_retries 7 [.mtu 7] rfl (by decide) sentTwice sentTwice_fits session [p, q]
    hrun hretried
  have hbytes : (((sentTwice.zip [p, q]).filter fun c => !c.2.exited).flatMap
      fun c => c.1.call.data) = [1, 2, 3, 4, 5] := by
    simp [sentTwice, hp, hq, fiveByteCall, TxCall.data]
  exact ⟨session, [p, q], hrun, hbytes ▸ hwrites⟩

end CustomData
