/-
CustomData/ToolMain.lean

The command lines of the tool (`tools/main.c`): `cmd_config`, which decides
what sessions there are, and `tx_parse_args`.

`getopt_long` and `atoi` turn the arguments into options; what the tool makes
of a list of options is modelled.  Every unit of `7..65535` bytes is accepted,
for either kind of session, and no other (`exists_cmdConfig_iff`).
-/
import CustomData.ToolRx

namespace CustomData

/-! ### `config` -/

/-- An option of `config`, as `getopt_long` reports it.  The number is what
`atoi` reads. -/
inductive ConfigOption
  | mtu (n : ℤ)
  | type (arg : String)
  | help
  | unknown

/-- The kinds of sessions. -/
inductive SessionType
  | tx | rx
  deriving DecidableEq, Repr

/-- `DEFAULT_MTU` -/
def defaultMtu : ℤ := 300

/-- The option loop of `cmd_config`.  An error is the exit status with which
it ends the program. -/
def configOptions : List ConfigOption → ℤ → SessionType → Except ℕ (ℤ × SessionType)
  | [], mtu, type => .ok (mtu, type)
  | .mtu n :: opts, _, type => configOptions opts n type
  | .type arg :: opts, mtu, _ =>
      if arg = "rx" then configOptions opts mtu .rx
      else if arg = "tx" then configOptions opts mtu .tx
      else .error 1
  | .help :: _, _, _ => .error 0
  | .unknown :: _, _, _ => .error 1

/-- `cmd_config`: the kind and the unit of the session that it creates. -/
def cmdConfig (opts : List ConfigOption) : Except ℕ (SessionType × UInt16) := do
  let (mtu, type) ← configOptions opts defaultMtu .tx
  if mtu < headerMetaSize.toNat + 1 then .error 1
  else if mtu > 65535 then .error 1
  else .ok (type, UInt16.ofInt mtu)

/-- A unit that is accepted has room for the unpacked header and a byte. -/
theorem cmdConfig_le {opts : List ConfigOption} {type : SessionType} {tu : UInt16}
    (h : cmdConfig opts = .ok (type, tu)) : 7 ≤ tu.toNat := by
  obtain ⟨⟨mtu, type'⟩, -, hcheck⟩ := Machine.bind_eq_ok.mp h
  have hsize : (headerMetaSize.toNat : ℤ) = 6 := rfl
  dsimp only at hcheck
  rw [hsize] at hcheck
  split at hcheck
  · cases hcheck
  · split at hcheck
    · cases hcheck
    · obtain ⟨-, rfl⟩ := Prod.mk.inj (Except.ok.inj hcheck)
      rw [UInt16.ofInt, UInt16.toNat_ofNat']
      omega

/-- **Accepted units.** -/
theorem exists_cmdConfig_iff (type : SessionType) (tu : UInt16) :
    (∃ opts, cmdConfig opts = .ok (type, tu)) ↔ 7 ≤ tu.toNat := by
  refine ⟨fun ⟨_, h⟩ => cmdConfig_le h, fun hle => ?_⟩
  have htu := tu.toNat_lt
  have hsize : (headerMetaSize.toNat : ℤ) = 6 := rfl
  have hofInt : UInt16.ofInt tu.toNat = tu := by
    apply UInt16.toNat_inj.mp
    rw [UInt16.ofInt, UInt16.toNat_ofNat']
    omega
  refine ⟨[.mtu tu.toNat, .type (match type with | .tx => "tx" | .rx => "rx")], ?_⟩
  have hopts : configOptions [.mtu tu.toNat, .type (match type with | .tx => "tx" | .rx => "rx")]
      defaultMtu .tx = .ok ((tu.toNat : ℤ), type) := by
    cases type <;> rfl
  rw [cmdConfig, hopts, Machine.ok_bind]
  dsimp only
  rw [hsize, if_neg (by omega), if_neg (by omega), hofInt]

/-! ### `tx` -/

/-- An option of `tx`. -/
inductive TxOption
  | session (path : String)
  | stdinBuf (n : ℤ)
  | sender (n : ℤ)
  | help
  | unknown

/-- `DEFAULT_STDIN_BUF_SIZE` -/
def defaultStdinBufSize : UInt16 := 64

/-- The variables that `tx_parse_args` sets. -/
structure TxArgs where
  sessionPath : Option String
  stdinBufSize : UInt16
  senderId : UInt16
  deriving DecidableEq, Repr

/-- The option loop of `tx_parse_args`. -/
def txOptions : List TxOption → TxArgs → Option TxArgs
  | [], args => some args
  | .session path :: opts, args => txOptions opts { args with sessionPath := some path }
  | .stdinBuf n :: opts, args => txOptions opts { args with stdinBufSize := UInt16.ofInt n }
  | .sender n :: opts, args => txOptions opts { args with senderId := UInt16.ofInt n &&& 0x7 }
  | .help :: _, _ => none
  | .unknown :: _, _ => none

/-- `tx_parse_args`; `none` is the null pointer. -/
def txParseArgs (opts : List TxOption) : Option TxArgs := do
  let args ← txOptions opts ⟨none, defaultStdinBufSize, 0⟩
  if args.stdinBufSize = 0 then none
  else if args.sessionPath = none then none
  else some args

end CustomData
