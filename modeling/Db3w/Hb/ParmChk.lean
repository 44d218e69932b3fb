/-
The checks of the arguments of built-in functions, by the number of the function. How many arguments
there are is checked in both modes of the parser, of what type they are only while the session executes.
-/
import Db3w.Hb.Parse

namespace Db3w.Hb

abbrev MAXFLD : Nat := 1023
abbrev MAXNDX : Nat := 16
abbrev ABS_FCN : Nat := 0x00
abbrev ALIAS_FCN : Nat := 0x01
abbrev ASC_FCN : Nat := 0x02
abbrev AT_FCN : Nat := 0x03
abbrev BETWEEN_FCN : Nat := 0x04
abbrev BOF_FCN : Nat := 0x05
abbrev CDOW_FCN : Nat := 0x06
abbrev CHR_FCN : Nat := 0x07
abbrev CMONTH_FCN : Nat := 0x08
abbrev CRYPT_FCN : Nat := 0x09
abbrev DATE_FCN : Nat := 0x0b
abbrev DAY_FCN : Nat := 0x0c
abbrev DBF_FCN : Nat := 0x0d
abbrev DELETED_FCN : Nat := 0x0e
abbrev DOW_FCN : Nat := 0x0f
abbrev DTOC_FCN : Nat := 0x10
abbrev EOF_FCN : Nat := 0x11
abbrev EXP_FCN : Nat := 0x12
abbrev FIELDCNT_FCN : Nat := 0x13
abbrev FIELDNAME_FCN : Nat := 0x14
abbrev FIELDNO_FCN : Nat := 0x15
abbrev FIELDSIZE_FCN : Nat := 0x16
abbrev FILE_FCN : Nat := 0x17
abbrev FILTER_FCN : Nat := 0x18
abbrev FLOCK_FCN : Nat := 0x19
abbrev FOUND_FCN : Nat := 0x1a
abbrev IIF_FCN : Nat := 0x1b
abbrev INDEX_FCN : Nat := 0x1c
abbrev INT_FCN : Nat := 0x1e
abbrev ISALPHA_FCN : Nat := 0x1f
abbrev ISDIGIT_FCN : Nat := 0x20
abbrev ISLOWER_FCN : Nat := 0x21
abbrev ISUPPER_FCN : Nat := 0x22
abbrev LEFT_FCN : Nat := 0x24
abbrev LOCATE_FCN : Nat := 0x26
abbrev LOG_FCN : Nat := 0x27
abbrev LOG10_FCN : Nat := 0x28
abbrev LOWER_FCN : Nat := 0x29
abbrev LTRIM_FCN : Nat := 0x2a
abbrev MAX_FCN : Nat := 0x2b
abbrev MIN_FCN : Nat := 0x2c
abbrev MOD_FCN : Nat := 0x2d
abbrev MONTH_FCN : Nat := 0x2e
abbrev NDX_FCN : Nat := 0x2f
abbrev OCCURS_FCN : Nat := 0x30
abbrev PADC_FCN : Nat := 0x31
abbrev PADL_FCN : Nat := 0x32
abbrev PADR_FCN : Nat := 0x33
abbrev PATH_FCN : Nat := 0x34
abbrev PI_FCN : Nat := 0x35
abbrev PROPER_FCN : Nat := 0x36
abbrev RAND_FCN : Nat := 0x37
abbrev RECCOUNT_FCN : Nat := 0x38
abbrev RECNO_FCN : Nat := 0x39
abbrev RECSIZE_FCN : Nat := 0x3a
abbrev REPLICATE_FCN : Nat := 0x3b
abbrev RIGHT_FCN : Nat := 0x3c
abbrev RLOCK_FCN : Nat := 0x3d
abbrev ROUND_FCN : Nat := 0x3e
abbrev RTRIM_FCN : Nat := 0x3f
abbrev SERIAL_FCN : Nat := 0x40
abbrev SOUNDEX_FCN : Nat := 0x41
abbrev SPACE_FCN : Nat := 0x42
abbrev SPELLNUM_FCN : Nat := 0x43
abbrev SQRT_FCN : Nat := 0x44
abbrev STR_FCN : Nat := 0x45
abbrev STUFF_FCN : Nat := 0x46
abbrev SUBSTR_FCN : Nat := 0x47
abbrev SYSTEM_FCN : Nat := 0x48
abbrev TIME_FCN : Nat := 0x49
abbrev TTOC_FCN : Nat := 0x4a
abbrev TYPE_FCN : Nat := 0x4b
abbrev UPPER_FCN : Nat := 0x4c
abbrev VAL_FCN : Nat := 0x4d
abbrev YEAR_FCN : Nat := 0x4e
abbrev RANDSTR_FCN : Nat := 0x4f
abbrev EPOCH_FCN : Nat := 0x50
abbrev DISKSIZE_FCN : Nat := 0x51
abbrev DISKSPACE_FCN : Nat := 0x52
abbrev HASH_FCN : Nat := 0x54
abbrev AUTH_FCN : Nat := 0x56
abbrev DEFINED_FCN : Nat := 0x58
abbrev MKTMP_FCN : Nat := 0x59
abbrev PEER_FCN : Nat := 0x5a
abbrev WHOAMI_FCN : Nat := 0x5b
abbrev PARENT_FCN : Nat := 0x5c
abbrev ATROOT_FCN : Nat := 0x5d
abbrev ISEMPTY_FCN : Nat := 0x5e
abbrev WOK_FCN : Nat := 0x5f
abbrev CID_FCN : Nat := 0x60

/-- Functions of exactly one argument. -/
def oneArg : List Nat :=
  [ABS_FCN, ASC_FCN, CDOW_FCN, CHR_FCN, CMONTH_FCN, DAY_FCN, DOW_FCN, DTOC_FCN, EXP_FCN, FIELDNAME_FCN, FIELDNO_FCN, FIELDSIZE_FCN, FILE_FCN,
    HASH_FCN, INT_FCN, ISALPHA_FCN, ISDIGIT_FCN, ISEMPTY_FCN, ISLOWER_FCN, ISUPPER_FCN, LOWER_FCN, LOG_FCN, LOG10_FCN, LTRIM_FCN, MKTMP_FCN,
    MONTH_FCN, NDX_FCN, PARENT_FCN, PROPER_FCN, RANDSTR_FCN, RTRIM_FCN, SERIAL_FCN, SPACE_FCN, SPELLNUM_FCN, SQRT_FCN, TTOC_FCN, TYPE_FCN,
    DEFINED_FCN, UPPER_FCN, VAL_FCN, YEAR_FCN]

/-- Functions without arguments. -/
def noArg : List Nat :=
  [ALIAS_FCN, BOF_FCN, DBF_FCN, DELETED_FCN, DISKSPACE_FCN, DISKSIZE_FCN, EOF_FCN, EPOCH_FCN, FIELDCNT_FCN, FOUND_FCN, RECNO_FCN, FILTER_FCN,
    INDEX_FCN, LOCATE_FCN, PEER_FCN, PI_FCN, RAND_FCN, WHOAMI_FCN, ATROOT_FCN, WOK_FCN, AUTH_FCN]

/-- The first part of `parm_chk`: the number of arguments, so far or in the end. -/
def parmCnt (final : Bool) (fcn : Option Nat) (cnt : Nat) : Bool :=
  match fcn with
  | none => true
  | some fcn =>
    if fcn ∈ [BETWEEN_FCN, IIF_FCN, PADC_FCN, PADL_FCN, PADR_FCN] then !(final && cnt ≠ 3)
    else if fcn = STR_FCN then !(cnt > 3 || (final && cnt < 1))
    else if fcn = SUBSTR_FCN then !(cnt > 3 || (final && cnt < 2))
    else if fcn ∈ [CRYPT_FCN, ROUND_FCN, SYSTEM_FCN] then !(cnt > 2 || (final && cnt < 1))
    else if fcn ∈ [AT_FCN, LEFT_FCN, MAX_FCN, MIN_FCN, MOD_FCN, OCCURS_FCN, REPLICATE_FCN] then !(cnt > 2 || (final && cnt ≠ 2))
    else if fcn ∈ [CID_FCN, DATE_FCN, TIME_FCN, PATH_FCN, FLOCK_FCN, RLOCK_FCN] then !(decide (cnt > 1))
    else if fcn ∈ oneArg then cnt = 1
    else if fcn ∈ noArg then cnt = 0
    else true

/-- `typechk`. -/
def typechk (typ : Nat) : Stack → Except HbErr Stack
  | [] => .error .stackUnderflow
  | v :: st => if v.typ ≠ typ then .error .invalidType else .ok (v :: st)

/-- `push_int((long)pop_int(low, high))`. -/
def intchk (low high : Int) (st : Stack) : Except HbErr Stack := do
  let (i, st) ← popInt low high st
  return .number (.fixed (Int64.ofInt i) 0) :: st

/-- Functions that take strings. -/
def strArgs : List Nat :=
  [ASC_FCN, AT_FCN, FILE_FCN, ISALPHA_FCN, ISDIGIT_FCN, ISEMPTY_FCN, ISLOWER_FCN, ISUPPER_FCN, LTRIM_FCN, MKTMP_FCN, OCCURS_FCN, PROPER_FCN,
    RTRIM_FCN, SERIAL_FCN, SOUNDEX_FCN, SYSTEM_FCN, TYPE_FCN, DEFINED_FCN, VAL_FCN]

/-- Functions that take numbers. -/
def numArgs : List Nat :=
  [ABS_FCN, BETWEEN_FCN, CHR_FCN, EXP_FCN, INT_FCN, LOG_FCN, LOG10_FCN, MOD_FCN, RECCOUNT_FCN, RECSIZE_FCN, SPELLNUM_FCN, SQRT_FCN, TTOC_FCN]

/-- The second part of `parm_chk`: the argument on the stack, the `cnt`th of the function. -/
def parmVal (fcn : Option Nat) (cnt : Nat) (st : Stack) : Except HbErr Stack :=
  match fcn with
  | none => .ok st
  | some fcn =>
    if fcn ∈ [IIF_FCN, DATE_FCN] then if cnt = 1 then typechk LOGIC st else .ok st
    else if fcn ∈ [REPLICATE_FCN, RIGHT_FCN, ROUND_FCN, LEFT_FCN, RANDSTR_FCN, STR_FCN] then
      if cnt > 1 then intchk (if fcn = ROUND_FCN then -MAXSTRLEN else 0) MAXSTRLEN st
      else typechk (if fcn ∈ [ROUND_FCN, STR_FCN, RANDSTR_FCN] then NUMBER else CHARCTR) st
    else if fcn ∈ [PADC_FCN, PADL_FCN, PADR_FCN, SUBSTR_FCN, STUFF_FCN] then
      if cnt = 1 then typechk CHARCTR st
      else if cnt = 2 then intchk 1 MAXSTRLEN st
      else if cnt = 3 then if fcn ∈ [PADC_FCN, PADL_FCN, PADR_FCN] then typechk CHARCTR st else intchk 0 MAXSTRLEN st
      else if fcn = STUFF_FCN ∧ cnt = 4 then typechk CHARCTR st
      else .ok st
    else if fcn ∈ [FIELDNAME_FCN, FIELDSIZE_FCN] then intchk 1 MAXFLD st
    else if fcn = NDX_FCN then intchk 1 MAXNDX st
    else if fcn = SPACE_FCN then intchk 0 MAXSTRLEN st
    else if fcn ∈ strArgs then typechk CHARCTR st
    else if fcn ∈ [CDOW_FCN, CMONTH_FCN, DAY_FCN, DOW_FCN, DTOC_FCN, MONTH_FCN, YEAR_FCN] then typechk DATE st
    else if fcn ∈ numArgs then typechk NUMBER st
    else .ok st

/-! ## What passes -/

/-! ## A small session -/

/-- A session without tables, variables and functions. -/
def Machine.bare (set : Settings) (cap : Nat) : Machine Unit where
  set
  cap
  lookup _ _ := .error (.other 0)
  aliasLookup _ _ _ := .error (.other 0)
  arrayRef w := .error (.other 0, w.state)
  arrayVal w := .error (.other 0, w.state)
  fcn _ _ w := .error (.illFcn, w.state)
  usrfcn _ _ w := .error (.illFcn, w.state)
  cmd _ _ w := .error (.illOpcode, w.state)
  scopeEnd _ := false
  unsetScope := id

/-- The words of a session that knows `MOD`. -/
def Lexicon.bare : Lexicon where
  dfpiOn := true
  strtod _ := none
  functionId s := if s = [77, 79, 68] then some MOD_FCN else none
  parmCnt := Hb.parmCnt
  parmVal := Hb.parmVal
  processDate _ := .error .badExp

/-- A string between quotes. -/
def strTok (s : List UInt8) : Token := ⟨TLIT, 34 :: s ++ [34]⟩

end Db3w.Hb
