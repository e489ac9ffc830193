/-
CustomData/StreamTx.lean

The sending stream (`customdata-stream-tx.c`): `mp_tx_stream_feed` cuts the
data it is fed into slices, whatever the chunks it comes in, and
`mp_tx_stream_finalize` sends what is left as the last slice.

The stream itself holds no bytes.  It pushes them to a sink, which keeps its
own fill and assembles the slice in a block of its own.  What a sink does to
its block is a list of `BlockAccess`es, and `Assembles` is what the stream
relies on: pushed data goes behind the data that waits, and a pushed header
goes to the front and sends the block.

`Holding data s` is the state of the stream after `data`: a function of the
length of `data` alone, with the accesses of `StreamLog`.  One pass of the loop
keeps it (`Holding.pass`), hence so does every chunk, and the accesses of a
whole session depend on the concatenated data only up to how the payload of a
slice is cut into pieces (`Holding.send`).
-/
import CustomData.TxWriter

namespace CustomData

/-! ### The stream -/

/-- What ends a call of the senders without a result: the loop of
`mp_tx_stream_feed` that makes no progress, and an access of a sink outside
its block. -/
inductive TxFault
  | loop | range
  deriving DecidableEq, Repr

/-- `mp_tx_action_t` -/
inductive TxAction
  | data | finalize
  deriving DecidableEq, Repr

/-- `mp_tx_push_cb`.  A null pointer is `none`, a data pointer is the bytes
from there on. -/
abbrev TxPushCb (ω : Type) :=
  ω → TxAction → Option HeaderMeta → Option (List UInt8) → UInt16 → Except TxFault ω

/-- `mp_tx_sink_t` -/
structure TxSink (ω : Type) where
  push : TxPushCb ω
  user : ω

/-- `mp_tx_stream_t` -/
structure TxStream (ω : Type) where
  config : Config
  cursor : Coordinate
  fill : UInt16
  downstream : TxSink ω

variable {ω : Type}

/-- A call of `downstream.push`. -/
def TxStream.push (s : TxStream ω) (act : TxAction) (header : Option HeaderMeta)
    (data : Option (List UInt8)) (size : UInt16) : Except TxFault (TxStream ω) := do
  let user ← s.downstream.push s.downstream.user act header data size
  .ok { s with downstream := { s.downstream with user := user } }

/-- One pass of the loop of `mp_tx_stream_feed`. -/
def txStreamPass (data : List UInt8) (size : UInt16) (s : TxStream ω) (off : UInt16) :
    Except TxFault (TxStream ω × UInt16) := do
  let maxP := maxPayload s.config
  let take := size - off
  let room := maxP - s.fill
  let take := if take > room then room else take
  let s ← s.push .data none (some (data.drop off.toNat)) take
  let s := { s with fill := s.fill + take }
  let off := off + take
  if s.fill = maxP then
    let slice := txPrepare s.config s.cursor maxP false
    let s ← s.push .data (some slice.header) none 0
    .ok ({ s with cursor := slice.next, fill := 0 }, off)
  else .ok (s, off)

/-- The first passes of the `while (off < size)` of `mp_tx_stream_feed`, `n` of
them or until it ends. -/
def txStreamPasses (data : List UInt8) (size : UInt16) :
    ℕ → TxStream ω → UInt16 → Except TxFault (TxStream ω × UInt16)
  | 0, s, off => .ok (s, off)
  | n + 1, s, off =>
      if off < size then do
        let (s, off) ← txStreamPass data size s off
        txStreamPasses data size n s off
      else .ok (s, off)

/-- `mp_tx_stream_feed`.  A pass that does not move `off` either sends a block
that was full before, or is repeated for ever. -/
def txStreamFeed (s : TxStream ω) (data : List UInt8) (size : UInt16) :
    Except TxFault (TxStream ω) := do
  let (s, off) ← txStreamPasses data size (size.toNat + 1) s 0
  if off < size then .error .loop else .ok s

/-- `mp_tx_stream_finalize` -/
def txStreamFinalize (s : TxStream ω) : Except TxFault (TxStream ω) := do
  let slice := txPrepare s.config s.cursor s.fill true
  let s ← s.push .finalize (some slice.header) none 0
  .ok { s with cursor := slice.next, fill := 0 }

/-- Chunk after chunk. -/
def txStreamFeeds (s : TxStream ω) (chunks : List (List UInt8)) : Except TxFault (TxStream ω) :=
  chunks.foldlM (fun s chunk => txStreamFeed s chunk (UInt16.ofNat chunk.length)) s

/-! ### What every push preserves -/

section Preserves

variable {I : ω → Prop} {s s' : TxStream ω}

/-- The stream keeps its sink, and the sink's user satisfies `I`. -/
def TxStream.Keeps (I : ω → Prop) (cb : TxPushCb ω) (s : TxStream ω) : Prop :=
  s.downstream.push = cb ∧ I s.downstream.user

variable {cb : TxPushCb ω}
  (hcb : ∀ w act header data size w', cb w act header data size = .ok w' → I w → I w')

include hcb

theorem TxStream.Keeps.push (h : s.Keeps I cb) {act : TxAction} {header : Option HeaderMeta}
    {data : Option (List UInt8)} {size : UInt16} (hok : s.push act header data size = .ok s') :
    s'.Keeps I cb := by
  obtain ⟨w, hw, hs'⟩ := Machine.bind_eq_ok.mp hok
  obtain rfl := Except.ok.inj hs'
  rw [h.1] at hw
  exact ⟨h.1, hcb _ _ _ _ _ _ hw h.2⟩

theorem TxStream.Keeps.pass (h : s.Keeps I cb) {data : List UInt8} {size off off' : UInt16}
    (hok : txStreamPass data size s off = .ok (s', off')) : s'.Keeps I cb := by
  simp only [txStreamPass] at hok
  generalize (if size - off > maxPayload s.config - s.fill then maxPayload s.config - s.fill
    else size - off) = take at hok
  obtain ⟨s₁, hput, hrest⟩ := Machine.bind_eq_ok.mp hok
  have h₁ := h.push hcb hput
  split at hrest
  · obtain ⟨s₂, hsend, hs'⟩ := Machine.bind_eq_ok.mp hrest
    have h₂ : s₂.Keeps I cb := TxStream.Keeps.push
      (s := { s₁ with fill := s₁.fill + take }) hcb h₁ hsend
    obtain ⟨rfl, -⟩ := Prod.mk.inj (Except.ok.inj hs')
    exact h₂
  · obtain ⟨rfl, -⟩ := Prod.mk.inj (Except.ok.inj hrest)
    exact h₁

theorem TxStream.Keeps.passes (h : s.Keeps I cb) {data : List UInt8} {size off off' : UInt16}
    {n : ℕ} (hok : txStreamPasses data size n s off = .ok (s', off')) : s'.Keeps I cb := by
  induction n generalizing s off with
  | zero =>
      obtain ⟨rfl, -⟩ := Prod.mk.inj (Except.ok.inj hok)
      exact h
  | succ n ih =>
      unfold txStreamPasses at hok
      split at hok
      · obtain ⟨⟨s₁, off₁⟩, hpass, hrest⟩ := Machine.bind_eq_ok.mp hok
        exact ih (h.pass hcb hpass) hrest
      · obtain ⟨rfl, -⟩ := Prod.mk.inj (Except.ok.inj hok)
        exact h

theorem TxStream.Keeps.feed (h : s.Keeps I cb) {data : List UInt8} {size : UInt16}
    (hok : txStreamFeed s data size = .ok s') : s'.Keeps I cb := by
  obtain ⟨⟨s₁, off₁⟩, hpasses, hrest⟩ := Machine.bind_eq_ok.mp hok
  have h₁ := h.passes hcb hpasses
  dsimp only at hrest
  split at hrest
  · cases hrest
  · exact Except.ok.inj hrest ▸ h₁

/-- What every push preserves, all chunks preserve. -/
theorem TxStream.Keeps.feeds (h : s.Keeps I cb) {chunks : List (List UInt8)}
    (hok : txStreamFeeds s chunks = .ok s') : s'.Keeps I cb := by
  induction chunks generalizing s with
  | nil => exact Except.ok.inj hok ▸ h
  | cons chunk chunks ih =>
      rw [txStreamFeeds, List.foldlM_cons] at hok
      obtain ⟨s₁, hfeed, hrest⟩ := Machine.bind_eq_ok.mp hok
      exact ih (h.feed hcb hfeed) hrest

end Preserves

/-! ### What a sink does -/

/-- An access of a sink to the block it assembles slices in: bytes written at
an offset, and the block sent. -/
inductive BlockAccess
  | put (offset : ℕ) (bytes : List UInt8)
  | send
  deriving DecidableEq, Repr

/-- `pieces` written one behind the other, without gap or overlap, from
`offset` on. -/
def puts : ℕ → List (List UInt8) → List BlockAccess
  | _, [] => []
  | offset, piece :: pieces => .put offset piece :: puts (offset + piece.length) pieces

theorem puts_concat (offset : ℕ) (pieces : List (List UInt8)) (piece : List UInt8) :
    puts offset (pieces ++ [piece]) =
      puts offset pieces ++ [.put (offset + pieces.flatten.length) piece] := by
  induction pieces generalizing offset with
  | nil => simp [puts]
  | cons p pieces ih =>
      simp only [List.cons_append, puts, ih, List.flatten_cons, List.length_append, Nat.add_assoc]

/-- A sink, the states in which it works, its own fill, and the accesses it has
made. -/
structure SinkView (ω : Type) where
  push : TxPushCb ω
  valid : ω → Prop
  fill : ω → UInt16
  accesses : ω → List BlockAccess

/-- What the stream relies on, with `P` bytes of payload to a block: pushed
data is written behind the sink's own fill, and a pushed header is written to
the front and the block is sent. -/
structure SinkView.Assembles (k : SinkView ω) (P : ℕ) : Prop where
  data : ∀ w act bytes size, k.valid w → 0 < UInt16.toNat size → size.toNat ≤ bytes.length →
    (k.fill w).toNat + size.toNat ≤ P →
    ∃ w', k.push w act none (some bytes) size = .ok w' ∧ k.valid w' ∧
      (k.fill w').toNat = (k.fill w).toNat + size.toNat ∧
      k.accesses w' = k.accesses w ++
        [.put (headerSize + (k.fill w).toNat) (bytes.take size.toNat)]
  header : ∀ w act h, k.valid w →
    ∃ w', k.push w act (some h) none 0 = .ok w' ∧ k.valid w' ∧ k.fill w' = 0 ∧
      k.accesses w' = k.accesses w ++ [.put 0 (packedHeaderToArray (headerPack h)), .send]

/-! ### The accesses of a session -/

variable {P : ℕ} {start : Coordinate} {data more : List UInt8} {log : List BlockAccess}

/-- The accesses that assemble slice `i` and send it: its payload in pieces
behind the header, then the header. -/
def SliceLog (P : ℕ) (start : Coordinate) (data : List UInt8) (eop : Bool) (i : ℕ)
    (log : List BlockAccess) : Prop :=
  ∃ pieces, pieces.flatten = slicePayload P data i ∧
    log = puts headerSize pieces ++
      [.put 0 (packedHeaderToArray (headerPack (txMakeHeader (Config.ofPayload P)
        (start.slice P i) (UInt16.ofNat (slicePayload P data i).length) eop))), .send]

theorem SliceLog.append {eop : Bool} {i : ℕ} (h : SliceLog P start data eop i log)
    (hi : i * P + P ≤ data.length) (more : List UInt8) :
    SliceLog P start (data ++ more) eop i log := by
  unfold SliceLog
  rw [slicePayload_append hi]
  exact h

/-- The accesses after `data`: its full slices are sent, and what is left
waits in the block. -/
def StreamLog (P : ℕ) (start : Coordinate) (data : List UInt8) (log : List BlockAccess) : Prop :=
  ∃ slices pieces,
    List.Forall₂ (SliceLog P start data false) (List.range (data.length / P)) slices ∧
    pieces.flatten = slicePayload P data (data.length / P) ∧
    log = slices.flatten ++ puts headerSize pieces

/-- The accesses of a whole session: the full slices of `data`, then one eop
slice with what is left. -/
def SessionLog (P : ℕ) (start : Coordinate) (data : List UInt8) (log : List BlockAccess) : Prop :=
  ∃ slices last,
    List.Forall₂ (SliceLog P start data false) (List.range (data.length / P)) slices ∧
    SliceLog P start data true (data.length / P) last ∧
    log = slices.flatten ++ last

/-- Growing a length within the current block. -/
theorem div_mod_add_of_lt {n k : ℕ} (h : n % P + k < P) :
    (n + k) / P = n / P ∧ (n + k) % P = n % P + k := by
  have hmod := Nat.mod_add_div n P
  exact (Nat.div_mod_unique (by omega)).mpr ⟨by omega, h⟩

/-- Growing a length to the end of the current block. -/
theorem div_mod_add_of_eq {n k : ℕ} (hP : 0 < P) (h : n % P + k = P) :
    (n + k) / P = n / P + 1 ∧ (n + k) % P = 0 := by
  have hmod := Nat.mod_add_div n P
  have hsucc : P * (n / P + 1) = P * (n / P) + P := Nat.mul_succ P (n / P)
  exact (Nat.div_mod_unique hP).mpr ⟨by omega, hP⟩

/-- The bytes behind the full slices. -/
theorem length_slicePayload_rest (hP : 0 < P) (data : List UInt8) :
    (slicePayload P data (data.length / P)).length = data.length % P := by
  have hmod := Nat.div_add_mod' data.length P
  have hlt := Nat.mod_lt data.length hP
  rw [slicePayload, List.length_take, List.length_drop]
  omega

/-- More data goes behind them, as far as it fits. -/
theorem slicePayload_rest_append (hfit : data.length % P + more.length ≤ P) :
    slicePayload P (data ++ more) (data.length / P) =
      slicePayload P data (data.length / P) ++ more := by
  have hmod := Nat.div_add_mod' data.length P
  rw [slicePayload, slicePayload, List.drop_append_of_le_length (by omega),
    List.take_of_length_le (by rw [List.length_append, List.length_drop]; omega),
    List.take_of_length_le (by rw [List.length_drop]; omega)]

theorem streamLog_nil : StreamLog P start [] [] := by
  refine ⟨[], [], ?_, by simp [slicePayload], rfl⟩
  rw [List.length_nil, Nat.zero_div, List.range_zero]
  exact .nil

/-- The slices that are sent already stay what they are. -/
theorem sent_append (data more : List UInt8) {slices : List (List BlockAccess)}
    (h : List.Forall₂ (SliceLog P start data false) (List.range (data.length / P)) slices) :
    List.Forall₂ (SliceLog P start (data ++ more) false) (List.range (data.length / P)) slices := by
  refine List.forall₂_iff_zip.mpr ⟨h.length_eq, fun {i l} hmem => ?_⟩
  have hi := List.mem_range.mp (List.of_mem_zip hmem).1
  have hmul : (i + 1) * P ≤ data.length / P * P := Nat.mul_le_mul_right P hi
  have hle := Nat.div_mul_le_self data.length P
  rw [Nat.add_one_mul] at hmul
  exact (List.forall₂_zip h hmem).append (by omega) more

/-- Data that fits the block. -/
theorem StreamLog.put (h : StreamLog P start data log) (hP : 0 < P)
    (hfit : data.length % P + more.length < P) :
    StreamLog P start (data ++ more) (log ++ [.put (headerSize + data.length % P) more]) := by
  obtain ⟨slices, pieces, hslices, hpieces, rfl⟩ := h
  have hdiv := (div_mod_add_of_lt hfit).1
  refine ⟨slices, pieces ++ [more], ?_, ?_, ?_⟩
  · rw [List.length_append, hdiv]
    exact sent_append data more hslices
  · rw [List.length_append, hdiv, slicePayload_rest_append hfit.le, List.flatten_append, hpieces,
      List.flatten_singleton]
  · rw [puts_concat, hpieces, length_slicePayload_rest hP, List.append_assoc]

/-- Data that fills the block, which is sent. -/
theorem StreamLog.putFull (h : StreamLog P start data log) (hP : 0 < P)
    (hfit : data.length % P + more.length = P) :
    StreamLog P start (data ++ more) (log ++ [.put (headerSize + data.length % P) more] ++
      [.put 0 (packedHeaderToArray (headerPack (txMakeHeader (Config.ofPayload P)
        (start.slice P (data.length / P)) (UInt16.ofNat P) false))), .send]) := by
  obtain ⟨slices, pieces, hslices, hpieces, rfl⟩ := h
  obtain ⟨hdiv, hmod⟩ := div_mod_add_of_eq hP hfit
  have hpayload := slicePayload_rest_append hfit.le
  have hlen : (slicePayload P (data ++ more) (data.length / P)).length = P := by
    rw [hpayload, List.length_append, length_slicePayload_rest hP, hfit]
  have hlast : SliceLog P start (data ++ more) false (data.length / P)
      (puts headerSize (pieces ++ [more]) ++ [.put 0 (packedHeaderToArray (headerPack
        (txMakeHeader (Config.ofPayload P) (start.slice P (data.length / P)) (UInt16.ofNat P)
          false))), .send]) := by
    refine ⟨pieces ++ [more], ?_, by rw [hlen]⟩
    rw [hpayload, List.flatten_append, hpieces, List.flatten_singleton]
  refine ⟨slices ++ [puts headerSize (pieces ++ [more]) ++ [.put 0 (packedHeaderToArray (headerPack
    (txMakeHeader (Config.ofPayload P) (start.slice P (data.length / P)) (UInt16.ofNat P)
      false))), .send]], [], ?_, ?_, ?_⟩
  · rw [List.length_append, hdiv, List.range_succ]
    exact List.rel_append (sent_append data more hslices) (.cons hlast .nil)
  · refine (List.length_eq_zero_iff.mp ?_).symm
    rw [length_slicePayload_rest hP, List.length_append, hmod]
  · simp only [puts_concat, hpieces, length_slicePayload_rest hP, List.flatten_append,
      List.flatten_singleton, puts, List.append_nil, List.append_assoc]

/-- The header alone sends what is left. -/
theorem StreamLog.finalize (h : StreamLog P start data log) (hP : 0 < P) :
    SessionLog P start data (log ++ [.put 0 (packedHeaderToArray (headerPack
      (txMakeHeader (Config.ofPayload P) (start.slice P (data.length / P))
        (UInt16.ofNat (data.length % P)) true))), .send]) := by
  obtain ⟨slices, pieces, hslices, hpieces, rfl⟩ := h
  refine ⟨slices, _, hslices, ⟨pieces, hpieces, rfl⟩, ?_⟩
  rw [length_slicePayload_rest hP, List.append_assoc]

/-! ### The stream and its sink in step -/

section Holding

variable {k : SinkView ω} {s : TxStream ω}

/-- The stream after `data`: it stands at the slice that the full ones lead to,
and both fills are the length of what is left. -/
structure Holding (k : SinkView ω) (P : ℕ) (start : Coordinate) (data : List UInt8)
    (s : TxStream ω) : Prop where
  config : s.config = Config.ofPayload P
  sink : s.downstream.push = k.push
  cursor : s.cursor = start.slice P (data.length / P)
  fill : s.fill.toNat = data.length % P
  sinkFill : k.fill s.downstream.user = s.fill
  valid : k.valid s.downstream.user
  log : StreamLog P start data (k.accesses s.downstream.user)

theorem TxStream.push_of_ok {act : TxAction} {header : Option HeaderMeta}
    {bytes : Option (List UInt8)} {size : UInt16} {w : ω}
    (h : s.downstream.push s.downstream.user act header bytes size = .ok w) :
    s.push act header bytes size =
      .ok { s with downstream := { s.downstream with user := w } } := by
  simp [TxStream.push, h]

/-- The sink takes bytes that fit the block. -/
theorem Holding.put (h : Holding k P start data s) (hsink : k.Assembles P) (hcap : P ≤ 4095)
    (bytes : List UInt8) (size : UInt16) (hpos : 0 < size.toNat) (hsize : size.toNat ≤ bytes.length)
    (hfit : data.length % P + size.toNat ≤ P) :
    ∃ w, s.push .data none (some bytes) size =
        .ok { s with downstream := { s.downstream with user := w } } ∧
      k.valid w ∧ k.fill w = s.fill + size ∧
      (s.fill + size).toNat = data.length % P + size.toNat ∧
      k.accesses w = k.accesses s.downstream.user ++
        [.put (headerSize + data.length % P) (bytes.take size.toNat)] := by
  obtain ⟨w, hput, hvalid, hfill, hlog⟩ := hsink.data s.downstream.user .data bytes size h.valid
    hpos hsize (by rw [h.sinkFill, h.fill]; exact hfit)
  rw [h.sinkFill, h.fill] at hfill hlog
  have hsum : (s.fill + size).toNat = data.length % P + size.toNat := by
    rw [UInt16.toNat_add, h.fill]
    omega
  rw [← h.sink] at hput
  exact ⟨w, TxStream.push_of_ok hput, hvalid, UInt16.toNat_inj.mp (hfill.trans hsum.symm), hsum,
    hlog⟩

/-- The sink sends the block. -/
theorem SinkView.Assembles.send (hsink : k.Assembles P) (hs : s.downstream.push = k.push)
    (hvalid : k.valid s.downstream.user) (act : TxAction) (header : HeaderMeta) :
    ∃ w, s.push act (some header) none 0 =
        .ok { s with downstream := { s.downstream with user := w } } ∧
      k.valid w ∧ k.fill w = 0 ∧
      k.accesses w = k.accesses s.downstream.user ++
        [.put 0 (packedHeaderToArray (headerPack header)), .send] := by
  obtain ⟨w, hsend, hrest⟩ := hsink.header s.downstream.user act header hvalid
  rw [← hs] at hsend
  exact ⟨w, TxStream.push_of_ok hsend, hrest⟩

/-- How much one pass takes: what is left of the chunk, as far as it fits. -/
theorem Holding.take_toNat (h : Holding k P start data s) (hP : 0 < P) (hcap : P ≤ 4095)
    {size off : UInt16} (hoff : off.toNat < size.toNat) :
    (if size - off > maxPayload (Config.ofPayload P) - s.fill then
        maxPayload (Config.ofPayload P) - s.fill else size - off).toNat =
      min (size.toNat - off.toNat) (P - data.length % P) := by
  have hlt := Nat.mod_lt data.length hP
  have hsize := size.toNat_lt
  have hrest : (size - off).toNat = size.toNat - off.toNat := by
    rw [UInt16.toNat_sub]
    omega
  have hroom : (maxPayload (Config.ofPayload P) - s.fill).toNat = P - data.length % P := by
    rw [UInt16.toNat_sub, maxPayload_ofPayload hcap, h.fill]
    omega
  split <;> rename_i hgt <;> rw [gt_iff_lt, UInt16.lt_iff_toNat_lt, hrest, hroom] at hgt
  · rw [hroom]
    omega
  · rw [hrest]
    omega

/-- After bytes that do not fill the slice the stream goes on with it. -/
theorem Holding.putOpen (h : Holding k P start data s) (hP : 0 < P) {piece : List UInt8}
    {take : UInt16} {w : ω} (hlen : piece.length = take.toNat)
    (hopen : data.length % P + piece.length < P) (hvalid : k.valid w)
    (hwfill : k.fill w = s.fill + take)
    (hfill : (s.fill + take).toNat = data.length % P + take.toNat)
    (hlog : k.accesses w = k.accesses s.downstream.user ++
      [.put (headerSize + data.length % P) piece]) :
    Holding k P start (data ++ piece)
      ⟨s.config, s.cursor, s.fill + take, ⟨s.downstream.push, w⟩⟩ := by
  obtain ⟨hdiv, hmod⟩ := div_mod_add_of_lt hopen
  refine ⟨h.config, h.sink, ?_, ?_, hwfill, hvalid, ?_⟩
  · rw [List.length_append, hdiv]
    exact h.cursor
  · rw [List.length_append, hmod, hlen]
    exact hfill
  · rw [hlog]
    exact h.log.put hP hopen

/-- After bytes that fill the slice its block goes out. -/
theorem Holding.putFull (h : Holding k P start data s) (hsink : k.Assembles P) (hP : 0 < P)
    (hcap : P ≤ 4095) (fill : UInt16) {piece : List UInt8} {w : ω}
    (hfull : data.length % P + piece.length = P) (hvalid : k.valid w)
    (hlog : k.accesses w = k.accesses s.downstream.user ++
      [.put (headerSize + data.length % P) piece]) :
    ∃ w', TxStream.push ⟨s.config, s.cursor, fill, ⟨s.downstream.push, w⟩⟩ .data
        (some (txMakeHeader s.config s.cursor (UInt16.ofNat P) false)) none 0 =
          .ok ⟨s.config, s.cursor, fill, ⟨s.downstream.push, w'⟩⟩ ∧
      Holding k P start (data ++ piece)
        ⟨s.config, txAdvance s.config s.cursor, 0, ⟨s.downstream.push, w'⟩⟩ := by
  obtain ⟨hdiv, hmod⟩ := div_mod_add_of_eq hP hfull
  obtain ⟨w', hsend, hvalid', hzero, hlog'⟩ := hsink.send
    (s := ⟨s.config, s.cursor, fill, ⟨s.downstream.push, w⟩⟩) h.sink hvalid .data
    (txMakeHeader s.config s.cursor (UInt16.ofNat P) false)
  refine ⟨w', hsend, h.config, h.sink, ?_, ?_, hzero, hvalid', ?_⟩
  · rw [List.length_append, hdiv, h.config, h.cursor]
    exact txAdvance_slice hcap
  · rw [List.length_append, hmod]
    rfl
  · rw [hlog', hlog, h.config, h.cursor]
    exact h.log.putFull hP hfull

/-- **One pass** takes in at least one more byte. -/
theorem Holding.pass (hsink : k.Assembles P) (hP : 0 < P) (hcap : P ≤ 4095)
    {chunk : List UInt8} {size off : UInt16} (hsize : size.toNat ≤ chunk.length)
    (hoff : off.toNat < size.toNat)
    (h : Holding k P start (data ++ chunk.take off.toNat) s) :
    ∃ s' off', txStreamPass chunk size s off = .ok (s', off') ∧
      off.toNat < off'.toNat ∧ off'.toNat ≤ size.toNat ∧
      Holding k P start (data ++ chunk.take off'.toNat) s' := by
  have hlt := Nat.mod_lt (data ++ chunk.take off.toNat).length hP
  have htake := h.take_toNat hP hcap hoff
  have hmax : (maxPayload (Config.ofPayload P)).toNat = P := maxPayload_ofPayload hcap
  simp only [txStreamPass, h.config]
  generalize (if size - off > maxPayload (Config.ofPayload P) - s.fill then
    maxPayload (Config.ofPayload P) - s.fill else size - off) = take at htake
  have hoff' : (off + take).toNat = off.toNat + take.toNat := by
    have := size.toNat_lt
    rw [UInt16.toNat_add]
    omega
  have hgrow : data ++ chunk.take (off + take).toNat =
      data ++ chunk.take off.toNat ++ (chunk.drop off.toNat).take take.toNat := by
    rw [hoff', List.append_assoc, List.take_add]
  have hlen : ((chunk.drop off.toNat).take take.toNat).length = take.toNat := by
    rw [List.length_take, List.length_drop]
    omega
  obtain ⟨w, hput, hvalid, hwfill, hfill, hlog⟩ := h.put hsink hcap (chunk.drop off.toNat)
    take (by omega) (by rw [List.length_drop]; omega) (by omega)
  have hmove : ∀ s', Holding k P start
      (data ++ chunk.take off.toNat ++ (chunk.drop off.toNat).take take.toNat) s' →
      Holding k P start (data ++ chunk.take (off + take).toNat) s' := fun s' h' => hgrow ▸ h'
  generalize data ++ chunk.take off.toNat = d at *
  generalize (chunk.drop off.toNat).take take.toNat = piece at *
  rw [hput, Machine.ok_bind]
  have hcheck : s.fill + take = maxPayload (Config.ofPayload P) ↔
      d.length % P + piece.length = P := by
    rw [← UInt16.toNat_inj, hfill, hmax, hlen]
  by_cases hfull : d.length % P + piece.length = P
  · -- the block is full and goes out
    have hmax' : maxPayload (Config.ofPayload P) = UInt16.ofNat P := by
      apply UInt16.toNat_inj.mp
      rw [hmax, UInt16.toNat_ofNat']
      omega
    obtain ⟨w', hsend, h'⟩ := h.putFull hsink hP hcap (s.fill + take) hfull hvalid hlog
    rw [if_pos (hcheck.mpr hfull), hmax']
    simp only [h.config] at hsend h'
    simp only [txPrepare, h.config, hsend, Machine.ok_bind]
    exact ⟨_, _, rfl, by omega, by omega, hmove _ h'⟩
  · simp only [hcheck, hfull, if_false]
    refine ⟨_, _, rfl, by omega, by omega, hmove _ ?_⟩
    exact h.config ▸ h.putOpen hP hlen (by omega) hvalid hwfill hfill hlog

/-- Every number of passes. -/
theorem Holding.passes (hsink : k.Assembles P) (hP : 0 < P) (hcap : P ≤ 4095)
    {chunk : List UInt8} {size off : UInt16} {n : ℕ} (hsize : size.toNat ≤ chunk.length)
    (hoff : off.toNat ≤ size.toNat) (h : Holding k P start (data ++ chunk.take off.toNat) s) :
    ∃ s' off', txStreamPasses chunk size n s off = .ok (s', off') ∧
      min size.toNat (off.toNat + n) ≤ off'.toNat ∧ off'.toNat ≤ size.toNat ∧
      Holding k P start (data ++ chunk.take off'.toNat) s' := by
  induction n generalizing s off with
  | zero => exact ⟨s, off, rfl, by omega, hoff, h⟩
  | succ n ih =>
      by_cases hlt : off < size
      · have hlt' := UInt16.lt_iff_toNat_lt.mp hlt
        obtain ⟨s₁, off₁, hpass, hgrow, hle, h₁⟩ := h.pass hsink hP hcap hsize hlt'
        obtain ⟨s', off', hpasses, hmin, hle', h'⟩ := ih hle h₁
        exact ⟨s', off', by rw [txStreamPasses, if_pos hlt, hpass]; exact hpasses, by omega, hle',
          h'⟩
      · refine ⟨s, off, by rw [txStreamPasses, if_neg hlt], ?_, hoff, h⟩
        rw [UInt16.lt_iff_toNat_lt] at hlt
        omega

/-- Every number of passes over a chunk, of which the stream sees 16 bits of
the length. -/
theorem Holding.passes_zero (hsink : k.Assembles P) (hP : 0 < P) (hcap : P ≤ 4095)
    (chunk : List UInt8) (n : ℕ) (h : Holding k P start data s) :
    ∃ s' off', txStreamPasses chunk (UInt16.ofNat chunk.length) n s 0 = .ok (s', off') ∧
      min (UInt16.ofNat chunk.length).toNat n ≤ off'.toNat ∧
      off'.toNat ≤ (UInt16.ofNat chunk.length).toNat ∧
      Holding k P start (data ++ chunk.take off'.toNat) s' := by
  have hsize : (UInt16.ofNat chunk.length).toNat ≤ chunk.length := by
    rw [UInt16.toNat_ofNat']
    exact Nat.mod_le _ _
  have h₀ : Holding k P start (data ++ chunk.take (0 : UInt16).toNat) s := by simpa using h
  obtain ⟨s', off', hpasses, hmin, hle, h'⟩ :=
    h₀.passes hsink hP hcap (n := n) hsize (Nat.zero_le _)
  rw [UInt16.toNat_zero, Nat.zero_add] at hmin
  exact ⟨s', off', hpasses, hmin, hle, h'⟩

/-- What `mp_tx_stream_feed` sees of a chunk: its length is a 16-bit argument. -/
def seen (chunk : List UInt8) : List UInt8 := chunk.take (UInt16.ofNat chunk.length).toNat

theorem seen_of_le {chunk : List UInt8} (h : chunk.length ≤ 65535) : seen chunk = chunk := by
  apply List.take_of_length_le
  rw [UInt16.toNat_ofNat']
  omega

theorem map_seen {chunks : List (List UInt8)} (h : ∀ chunk ∈ chunks, chunk.length ≤ 65535) :
    chunks.map seen = chunks := by
  rw [List.map_congr_left fun chunk hc => seen_of_le (h chunk hc), List.map_id']

/-- One chunk. -/
theorem Holding.feed (hsink : k.Assembles P) (hP : 0 < P) (hcap : P ≤ 4095)
    (chunk : List UInt8) (h : Holding k P start data s) :
    ∃ s', txStreamFeed s chunk (UInt16.ofNat chunk.length) = .ok s' ∧
      Holding k P start (data ++ seen chunk) s' := by
  obtain ⟨s', off', hpasses, hmin, hle, h'⟩ :=
    h.passes_zero hsink hP hcap chunk ((UInt16.ofNat chunk.length).toNat + 1)
  -- so many passes reach the end of the chunk
  have hend : off'.toNat = (UInt16.ofNat chunk.length).toNat := by omega
  rw [hend] at h'
  refine ⟨s', ?_, h'⟩
  rw [txStreamFeed, hpasses, Machine.ok_bind]
  exact if_neg (by rw [UInt16.lt_iff_toNat_lt]; omega)

/-- **Chunk after chunk**: the stream knows the concatenation of what it sees
of them only. -/
theorem Holding.feeds (hsink : k.Assembles P) (hP : 0 < P) (hcap : P ≤ 4095)
    (chunks : List (List UInt8)) (h : Holding k P start data s) :
    ∃ s', txStreamFeeds s chunks = .ok s' ∧
      Holding k P start (data ++ (chunks.map seen).flatten) s' := by
  induction chunks generalizing data s with
  | nil => exact ⟨s, rfl, by simpa using h⟩
  | cons chunk chunks ih =>
      obtain ⟨s₁, hfeed, h₁⟩ := h.feed hsink hP hcap chunk
      obtain ⟨s', hfeeds, h'⟩ := ih h₁
      refine ⟨s', ?_, by simpa [List.append_assoc] using h'⟩
      rw [txStreamFeeds, List.foldlM_cons, hfeed]
      exact hfeeds

/-- The last slice. -/
theorem Holding.finalize (hsink : k.Assembles P) (hP : 0 < P) (hcap : P ≤ 4095)
    (h : Holding k P start data s) :
    ∃ s', txStreamFinalize s = .ok s' ∧ s'.fill = 0 ∧ k.fill s'.downstream.user = 0 ∧
      s'.cursor = start.slice P (data.length / P + 1) ∧ k.valid s'.downstream.user ∧
      SessionLog P start data (k.accesses s'.downstream.user) := by
  obtain ⟨w, hsend, hvalid, hzero, hlog⟩ := hsink.send h.sink h.valid .finalize
    (txMakeHeader s.config s.cursor s.fill true)
  refine ⟨_, by simp only [txStreamFinalize, txPrepare, hsend, Machine.ok_bind]; rfl, rfl, hzero,
    ?_, hvalid, ?_⟩
  · show txAdvance s.config s.cursor = _
    rw [h.config, h.cursor]
    exact txAdvance_slice hcap
  · have hfill : s.fill = UInt16.ofNat (data.length % P) := by
      rw [← h.fill, UInt16.ofNat_toNat]
    show SessionLog P start data (k.accesses w)
    rw [hlog, h.config, h.cursor, hfill]
    exact h.log.finalize hP

end Holding

end CustomData
