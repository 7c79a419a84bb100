/-
The super block and the mount options (super.c, wprotect.h, nova.h).

# Copies

The super block is kept twice, and `nova_check_integrity` repairs the
first copy from the second. `crc16` is a parameter. The `sb` of the call
is there, so `nova_memlock_super` runs behind each repair; it stores a
checksum and the second copy again (`nova_sync_super`).

# Options

`match_token`, `match_int` and `match_octal` are the kernel's: a pattern
ends with the word, a number is read in the base that its start tells, and
what does not fit into an `int` is a bad value. `make_kuid` and
`make_kgid` are parameters. Of `nova_remount` the time it writes into the
super block is left out.
-/
import Themis.Basic

namespace Themis.Super

-- === copies

/-- The static fields that the checksum covers. -/
structure Statics where
  padding16 : Nat
  magic : Nat
  padding32 : Nat
  blocksize : Nat
  size : Nat
  volumeName : List UInt8
  deriving Repr, DecidableEq

/-- `struct nova_super_block`. -/
structure SuperBlock where
  sum : Nat
  statics : Statics
  startDynamic : Nat
  mtime : Nat
  wtime : Nat
  numFreeBlocks : Nat
  deriving Repr, DecidableEq

/-- `NOVA_SUPER_MAGIC`. -/
def NOVA_SUPER_MAGIC : Nat := 0x4E4F5641

/-- The two copies in NVMM. -/
structure Copies where
  primary : SuperBlock
  redund : SuperBlock
  deriving Repr, DecidableEq

variable (crc16 : Statics → Nat) (now : Nat)

/-- `nova_calc_checksum`: 1 for a mismatch. -/
def novaCalcChecksum (ps : SuperBlock) : Nat := if ps.sum = crc16 ps.statics then 0 else 1

/-- `nova_sync_super`. -/
def novaSyncSuper (ps : SuperBlock) : Copies :=
  let ps := { ps with wtime := now, sum := crc16 ps.statics }
  ⟨ps, ps⟩

/-- The first copy from the second, then `nova_memlock_super`. -/
def repair (c : Copies) : Copies := novaSyncSuper crc16 now c.redund

/-- `nova_check_integrity`. -/
def novaCheckIntegrity (c : Copies) : Nat × Copies :=
  if c.primary.statics.magic ≠ NOVA_SUPER_MAGIC ∧ c.redund.statics.magic ≠ NOVA_SUPER_MAGIC then
    (0, c)
  else
    let c := if c.primary.statics.magic ≠ NOVA_SUPER_MAGIC then repair crc16 now c else c
    if novaCalcChecksum crc16 c.primary ≠ 0 then
      if novaCalcChecksum crc16 c.redund ≠ 0 then (0, c) else (1, repair crc16 now c)
    else (1, c)

-- === options

/-- The value of a digit. -/
def digit (base : Nat) (c : Char) : Option Nat :=
  let v :=
    if '0' ≤ c ∧ c ≤ '9' then c.toNat - 48
    else if 'a' ≤ c ∧ c ≤ 'f' then c.toNat - 87
    else if 'A' ≤ c ∧ c ≤ 'F' then c.toNat - 55
    else 16
  if v < base then some v else none

/-- A word that is a number, in 64-bit arithmetic. -/
def number (base : Nat) (s : List Char) : Option Nat :=
  if s = [] then none
  else s.foldl (fun n c => n.bind fun n => (digit base c).map fun d =>
    (n * base + d) % 2 ^ 64) (some 0)

/-- A number in C notation: `simple_strtoul` with base 0. -/
def numberAuto : List Char → Option Nat
  | '0' :: x :: d :: s =>
    if (x = 'x' ∨ x = 'X') ∧ (digit 16 d).isSome then number 16 (d :: s)
    else number 8 ('0' :: x :: d :: s)
  | '0' :: s => number 8 ('0' :: s)
  | s => number 10 s

/-- The range check of `match_int` and `match_octal`. -/
def matchNumber (n : Nat) : Option Int :=
  let v := (n : Int).bmod (2 ^ 64)
  if -2 ^ 31 ≤ v ∧ v < 2 ^ 31 then some v else none

/-- A word of the option string; a number with a bad value is `none`. -/
inductive Token where
  | bpi (n : Option Int)
  | init
  | mode (n : Option Int)
  | uid (n : Option Int)
  | gid (n : Option Int)
  | wprotect
  | errCont
  | errPanic
  | errRo
  | dbgmask (n : Option Int)
  | err
  deriving Repr, DecidableEq

/-- The words of `tokens` that take a number. -/
def numberToken (p : List Char) : Option Token :=
  let auto (key : String) (f : Option Int → Token) :=
    if key.toList.isPrefixOf p then
      (numberAuto (p.drop key.length)).map fun n => f (matchNumber n)
    else none
  auto "bpi=" .bpi <|> auto "uid=" .uid <|> auto "gid=" .gid <|> auto "dbgmask=" .dbgmask <|>
    if "mode=".toList.isPrefixOf p then
      (number 8 (p.drop 5)).map fun n => .mode (matchNumber n)
    else none

/-- `match_token` on `tokens`. -/
def matchToken (p : List Char) : Token :=
  if p = "init".toList then .init
  else if p = "wprotect".toList then .wprotect
  else if p = "errors=continue".toList then .errCont
  else if p = "errors=panic".toList then .errPanic
  else if p = "errors=remount-ro".toList then .errRo
  else (numberToken p).getD .err

/-- `s_flags` of the super block in memory, and the options. -/
structure Options where
  sFlags : BitVec 64
  mountOpt : BitVec 64
  uid : Nat
  gid : Nat
  mode : BitVec 32
  bpi : Int
  dbgmask : BitVec 32
  deriving Repr, DecidableEq

/-- `NOVA_MOUNT_*`. -/
def MOUNT_PROTECT : BitVec 64 := 0x1
/-- The mount flags, as the source has them. -/
def MOUNT_POSIX_ACL : BitVec 64 := 0x4
/-- Continue on errors. -/
def MOUNT_ERRORS_CONT : BitVec 64 := 0x10
/-- Remount read-only on errors. -/
def MOUNT_ERRORS_RO : BitVec 64 := 0x20
/-- Panic on errors. -/
def MOUNT_ERRORS_PANIC : BitVec 64 := 0x40
/-- Format on mount. -/
def MOUNT_FORMAT : BitVec 64 := 0x200

/-- `MS_POSIXACL`. -/
def MS_POSIXACL : BitVec 64 := 0x10000

/-- One of the three `errors=` options. -/
def Options.setErrors (o : Options) (opt : BitVec 64) : Options :=
  { o with
    mountOpt :=
      o.mountOpt &&& ~~~(MOUNT_ERRORS_CONT ||| MOUNT_ERRORS_RO ||| MOUNT_ERRORS_PANIC) ||| opt }

variable (makeKuid makeKgid : Int → Nat)

/-- One round of the loop of `nova_parse_options`; `none` is a bad option
or a bad value. -/
def applyToken (remount : Bool) (o : Options) : Token → Option Options
  | .bpi n => if remount then none else n.map fun n => { o with bpi := n }
  | .uid n => if remount then none else n.map fun n => { o with uid := makeKuid n }
  | .gid n => n.map fun n => { o with gid := makeKgid n }
  | .mode n => n.map fun n => { o with mode := BitVec.ofInt 32 n &&& 0o1777 }
  | .init =>
    if remount then none else some { o with mountOpt := o.mountOpt ||| MOUNT_FORMAT }
  | .errPanic => some (o.setErrors MOUNT_ERRORS_PANIC)
  | .errRo => some (o.setErrors MOUNT_ERRORS_RO)
  | .errCont => some (o.setErrors MOUNT_ERRORS_CONT)
  | .wprotect =>
    if remount then none else some { o with mountOpt := o.mountOpt ||| MOUNT_PROTECT }
  | .dbgmask n => n.map fun n => { o with dbgmask := BitVec.ofInt 32 n }
  | .err => none

/-- The loop, with the options as the first bad word leaves them. -/
def parseTokens (remount : Bool) : Options → List Token → Int × Options
  | o, [] => (0, o)
  | o, t :: ts =>
    match applyToken makeKuid makeKgid remount o t with
    | none => (-EINVAL, o)
    | some o => parseTokens remount o ts

/-- The words that `strsep` gives, without the empty ones. -/
def tokensOf (options : List Char) : List Token :=
  ((options.splitOn ',').filter (· ≠ [])).map matchToken

/-- `nova_parse_options`; `none` is a NULL string. -/
def novaParseOptions (remount : Bool) (o : Options) : Option (List Char) → Int × Options
  | none => (0, o)
  | some options => parseTokens makeKuid makeKgid remount o (tokensOf options)

/-- `nova_remount`. -/
def novaRemount (o : Options) (data : Option (List Char)) : Int × Options :=
  let r := novaParseOptions makeKuid makeKgid true o data
  if r.1 ≠ 0 then (-EINVAL, { r.2 with sFlags := o.sFlags, mountOpt := o.mountOpt })
  else
    (0, { r.2 with
      sFlags := r.2.sFlags &&& ~~~MS_POSIXACL |||
        if r.2.mountOpt &&& MOUNT_POSIX_ACL ≠ 0 then MS_POSIXACL else 0 })

end Themis.Super
