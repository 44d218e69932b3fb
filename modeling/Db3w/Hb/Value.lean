/-
The values of expressions, the value stack, and the operators of the machine. A value knows its size on
the stack by its own header, so the stack is a list of values. Numbers are fixed point with up to
`DECI_MAX` decimals, or floating point.
-/
import Db3w.Ndx.Num

namespace Db3w.Hb

/-- The errors that expressions can raise; `other` stands for those of functions and tables. -/
inductive HbErr where
  | typeMismatch | invalidType | invalidOperator | invalidValue | strTooLong | stackOverflow | stackUnderflow | stackFault
  | expTooLong | codeblockOverflow | badExp | missingRparen | missingRbrkt | illFcn | invalidParmcnt | illOpcode | excessSyntax
  | other (code : Nat)
  deriving DecidableEq, Repr

/-! ## Numbers -/

abbrev DECI_MAX : Nat := 18
/-- The `deci` of a `double`. -/
abbrev REAL : Nat := 0x3f
abbrev MAXSTRLEN : Nat := 2046
/-- A string of that length and its header. -/
abbrev STRBUFSZ : Nat := 2048

/-- `number_t`: NULL, a `long` with decimals, or a `double`. -/
inductive Num where
  | null
  | fixed (n : Int64) (deci : Nat)
  | real (r : Float)

/-- A number as a `double`. -/
def Num.toReal : Num → Float
  | .null => 0
  | .fixed n deci => n.toFloat / (power10 deci).toFloat
  | .real r => r

def DBL_EPSILON : Float := Float.ofBits 0x3CB0000000000000
def DBL_MIN : Float := Float.ofBits 0x0010000000000000
def DBL_MAX : Float := Float.ofBits 0x7FEFFFFFFFFFFFFF

def fmin (a b : Float) : Float := if a.isNaN then b else if b.isNaN then a else if a < b then a else b

/-! ## Operators -/

abbrev TAND : Nat := 0x11
abbrev TOR : Nat := 0x12
abbrev TNOT : Nat := 0x13
abbrev REL_OP : Nat := 0x20
abbrev TEQUAL : Nat := 0x21
abbrev TGTREQU : Nat := 0x22
abbrev TGREATER : Nat := 0x23
abbrev TLESSEQU : Nat := 0x24
abbrev TNEQU : Nat := 0x25
abbrev TLESS : Nat := 0x26
abbrev TQUESTN : Nat := 0x27
abbrev ADD_OP : Nat := 0x30
abbrev TPLUS : Nat := 0x31
abbrev TMINUS : Nat := 0x32
abbrev MUL_OP : Nat := 0x40
abbrev TMULT : Nat := 0x41
abbrev TDIV : Nat := 0x42
abbrev TPOWER : Nat := 0x50

def isRelop (op : Nat) : Bool := op &&& 0xf0 = REL_OP
def isAddop (op : Nat) : Bool := op &&& 0xf0 = ADD_OP
def isMulop (op : Nat) : Bool := op &&& 0xf0 = MUL_OP

/-- What a comparison that came out as `i` against 0 says. -/
def relOf (op : Nat) (gt lt : Bool) : Int :=
  if op = TGREATER then gt.toInt
  else if op = TLESS then lt.toInt
  else if op = TEQUAL then (!gt && !lt).toInt
  else if op = TNEQU then (gt || lt).toInt
  else if op = TGTREQU then (!lt).toInt
  else if op = TLESSEQU then (!gt).toInt
  else if op = TQUESTN then if gt then 1 else if lt then -1 else 0
  else 0

/-- `num_rel`; -1 for NULL. -/
def numRel (n1 n2 : Num) (op : Nat) : Int :=
  match n1, n2 with
  | .null, _ | _, .null => -1
  | .fixed l1 d1, .fixed l2 d2 =>
    let l1' := if d1 > d2 then l1 else l1 * power10 (d2 - d1)
    let l2' := if d1 > d2 then l2 * power10 (d1 - d2) else l2
    let diff := l1' - l2'
    relOf op (0 < diff) (diff < 0)
  | n1, n2 =>
    let r1 := n1.toReal
    let r2 := n2.toReal
    let diff := (r1.abs - r2.abs).abs
    let isequal := r1 == r2 || ((r1 == 0 || r2 == 0 || diff < DBL_MIN) && diff < DBL_EPSILON * DBL_MIN) ||
      diff / fmin (r1.abs + r2.abs) DBL_MAX < DBL_EPSILON
    if op = TGREATER then (!isequal && r2 < r1).toInt
    else if op = TLESS then (!isequal && r1 < r2).toInt
    else if op = TEQUAL then isequal.toInt
    else if op = TNEQU then (!isequal).toInt
    else if op = TGTREQU then (isequal || r2 < r1).toInt
    else if op = TLESSEQU then (isequal || r1 < r2).toInt
    else if op = TQUESTN then if isequal then 0 else if r2 < r1 then 1 else -1
    else 0

/-- `num_add`, for `TPLUS` and `TMINUS`. -/
def numAdd (n1 n2 : Num) (op : Nat) : Except HbErr Num :=
  match n1, n2 with
  | .null, _ | _, .null => .ok .null
  | .fixed n1 d1, .fixed n2 d2 =>
    let l2 := if d1 > d2 then n2 * power10 (d1 - d2) else n2
    let l1 := if d1 > d2 then n1 else n1 * power10 (d2 - d1)
    if d1 > d2 ∧ ((0 < n2 ∧ l2 < 0) ∨ (n2 < 0 ∧ 0 < l2)) then .error .invalidValue
    else if ¬d1 > d2 ∧ ((0 < n1 ∧ l1 < 0) ∨ (n1 < 0 ∧ 0 < l1)) then .error .invalidValue
    else
      let n := if op = TPLUS then l1 + l2 else l1 - l2
      if (op = TPLUS ∧ ((0 < l1 ∧ 0 < l2 ∧ n < 0) ∨ (l1 < 0 ∧ l2 < 0 ∧ 0 < n))) ∨
          (op = TMINUS ∧ ((0 < l1 ∧ l2 < 0 ∧ n < 0) ∨ (l1 < 0 ∧ 0 < l2 ∧ 0 < n))) then .error .invalidValue
      else .ok (.fixed n (max d1 d2))
  | n1, n2 => .ok (.real (if op = TPLUS then n1.toReal + n2.toReal else n1.toReal - n2.toReal))

/-- `num_mul`, for `TMULT` and `TDIV`. -/
def numMul (n1 n2 : Num) (op : Nat) : Except HbErr Num :=
  match n1, n2 with
  | .null, _ | _, .null => .ok .null
  | .fixed l1 d1, .fixed l2 d2 =>
    if d1 + d2 > DECI_MAX ∨ op ≠ TMULT then
      .ok (.real (if op = TMULT then n1.toReal * n2.toReal else n1.toReal / n2.toReal))
    else
      let n := l1 * l2
      if (0 < l1 ∧ 0 < l2 ∧ n < 0) ∨ (((0 < l1 ∧ l2 < 0) ∨ (l1 < 0 ∧ 0 < l2)) ∧ 0 < n) then .error .invalidValue
      else .ok (.fixed n (d1 + d2))
  | n1, n2 => .ok (.real (if op = TMULT then n1.toReal * n2.toReal else n1.toReal / n2.toReal))

/-! ## Values and the stack -/

abbrev LOGIC : Nat := 1
abbrev NUMBER : Nat := 2
abbrev DATE : Nat := 3
abbrev CHARCTR : Nat := 4

/-- A type that is none of the four above: `NULLTYP`, `ADDR`, `ARRAYTYP`, `MEMO`, `BLOB` or `UNDEF`. -/
inductive OtherTyp where
  | nulltyp | addr | arraytyp | memo | blob | undef
  deriving DecidableEq, Repr

def OtherTyp.typ : OtherTyp → Nat
  | nulltyp => 0
  | addr => 8
  | arraytyp => 9
  | memo => 10
  | blob => 11
  | undef => 15

/-- `HBVAL`; a value of length 0 is NULL. -/
inductive HbVal where
  | logic (b : Option Bool)
  | number (n : Num)
  | date (d : Option UInt32)
  | charctr (s : List UInt8)
  | other (t : OtherTyp) (buf : List UInt8)

namespace HbVal

def typ : HbVal → Nat
  | logic _ => LOGIC
  | number _ => NUMBER
  | date _ => DATE
  | charctr _ => CHARCTR
  | other t _ => t.typ

/-- `val_size`. -/
def size : HbVal → Nat
  | logic none => 2
  | logic (some _) => 3
  | number .null => 2
  | number _ => 10
  | date none => 2
  | date (some _) => 6
  | charctr s => s.length + 2
  | other .nulltyp _ => 2
  | other _ buf => buf.length + 2

/-- `val_is_integer`, of a number. -/
def isInteger : HbVal → Bool
  | number .null => true
  | number (.fixed _ deci) => deci = 0
  | _ => false

/-- `buf` of a string. -/
def str : HbVal → List UInt8
  | charctr s => s
  | other _ buf => buf
  | _ => []

end HbVal

/-- The stack, its top first. -/
abbrev Stack := List HbVal

/-- The bytes the values take. -/
def Stack.bytes (st : Stack) : Nat := (st.map HbVal.size).sum

/-- `push` on a stack of `cap` bytes. -/
def push (cap : Nat) (v : HbVal) (st : Stack) : Except HbErr Stack :=
  if st.bytes + v.size > cap then .error .stackOverflow else .ok (v :: st)

/-- `pop_stack(DONTCARE)`. -/
def popAny : Stack → Except HbErr (HbVal × Stack)
  | [] => .error .stackUnderflow
  | v :: st => .ok (v, st)

/-- `pop_stack`. -/
def popStack (typ : Nat) : Stack → Except HbErr (HbVal × Stack)
  | [] => .error .stackUnderflow
  | v :: st => if v.typ ≠ typ then .error .invalidType else .ok (v, st)

/-- `pop_logic`. -/
def popLogic : Stack → Except HbErr (Option Bool × Stack)
  | .logic b :: st => .ok (b, st)
  | [] => .error .stackUnderflow
  | _ => .error .invalidType

/-- `pop_number`. -/
def popNumber : Stack → Except HbErr (Num × Stack)
  | .number n :: st => .ok (n, st)
  | [] => .error .stackUnderflow
  | _ => .error .invalidType

/-- `pop_date`. -/
def popDate : Stack → Except HbErr (Num × Stack)
  | .date none :: st => .ok (.null, st)
  | .date (some d) :: st => .ok (.fixed (Int64.ofNat d.toNat) 0, st)
  | [] => .error .stackUnderflow
  | _ => .error .invalidType

/-- The `date_t` of a number; all bits set is NULL. -/
def Num.toDate : Num → Option UInt32
  | .null => none
  | .fixed n _ => if n.toUInt64.toUInt32 = 0xFFFFFFFF then none else some n.toUInt64.toUInt32
  | .real r => if r.toBits.toUInt32 = 0xFFFFFFFF then none else some r.toBits.toUInt32

/-- What `push_real` makes of a `double`. -/
def ofReal (r : Float) : Num := if r.toInt64.toFloat == r then .fixed r.toInt64 0 else .real r

/-- The options that operators look at. -/
structure Settings where
  nullOn : Bool
  exactOn : Bool
  deriving DecidableEq, Repr

/-- The difference of the first `len` bytes. -/
def strDiff : Nat → List UInt8 → List UInt8 → Int
  | len + 1, c1 :: q, c2 :: p => if c1 = c2 then strDiff len q p else (c1.toNat : Int) - c2.toNat
  | _, _, _ => 0

/-- `uop`. -/
def uop (cap : Nat) (op : Nat) (st : Stack) : Except HbErr Stack :=
  if op = TNOT then do
    let (tf, st) ← popLogic st
    push cap (.logic (tf.map not)) st
  else if op = TMINUS then do
    let (num, st) ← popNumber st
    match num with
    | .null => push cap (.number .null) st
    | .fixed n deci => push cap (.number (.fixed (-n) deci)) st
    | .real r => push cap (.number (.real (-r))) st
  else if op = TPLUS then
    match st with
    | [] => .error .stackUnderflow
    | v :: st => if v.typ ≠ NUMBER then .error .invalidType else .ok (v :: st)
  else .error .invalidOperator

/-- The end of a relational operator: -1 is NULL, and -2 for `TQUESTN`. -/
def pushRel (cap : Nat) (op : Nat) (tf : Int) (st : Stack) : Except HbErr Stack :=
  if op = TQUESTN then push cap (.number (if tf = -2 then .null else .fixed (Int64.ofInt tf) 0)) st
  else push cap (.logic (if tf < 0 then none else some (tf ≠ 0))) st

/-! ## The branches of `bop`, on the stack with its operands -/

def bopOr (cap : Nat) (st : Stack) : Except HbErr Stack := do
  let (l1, st) ← popLogic st
  let (l2, st) ← popLogic st
  match l1, l2 with
  | none, l2 => push cap (.logic l2) st
  | l1, none => push cap (.logic l1) st
  | some l1, some l2 => push cap (.logic (some (l2 || l1))) st

def bopAnd (cap : Nat) (st : Stack) : Except HbErr Stack := do
  let (l1, st) ← popLogic st
  let (l2, st) ← popLogic st
  match l1, l2 with
  | some l1, some l2 => push cap (.logic (some (l1 && l2))) st
  | _, _ => push cap (.logic none) st

def bopRel (set : Settings) (cap : Nat) (op : Nat) (opnd1 opnd2 : HbVal) (st : Stack) : Except HbErr Stack :=
  match opnd1 with
  | .number _ => do
    let (n1, st) ← popNumber st
    let (n2, st) ← popNumber st
    pushRel cap op (numRel n2 n1 op) st
  | .date _ => do
    let (n1, st) ← popDate st
    let (n2, st) ← popDate st
    pushRel cap op (numRel n2 n1 op) st
  | .charctr p => do
    let q := opnd2.str
    let len := min p.length q.length
    -- the operands stay on the stack here
    if set.nullOn ∧ len = 0 then pushRel cap op (if op = TQUESTN then -2 else -1) st
    else
      let i := strDiff len q p
      let i := if i = 0 ∧ set.exactOn then (q.length : Int) - p.length else i
      let (_, st) ← popAny st
      let (_, st) ← popAny st
      pushRel cap op (relOf op (0 < i) (i < 0)) st
  | _ => .error .invalidType

def bopAdd (cap : Nat) (op : Nat) (opnd1 opnd2 : HbVal) (st : Stack) : Except HbErr Stack :=
  match opnd1 with
  | .number _ => do
    let (n1, st) ← popNumber st
    if opnd2.typ = DATE then
      let (n2, st) ← popDate st
      push cap (.date (← numAdd n2 n1 op).toDate) st
    else
      let (n2, st) ← popNumber st
      push cap (.number (← numAdd n2 n1 op)) st
  | .charctr p => do
    let q := opnd2.str
    if op ≠ TPLUS then .error .invalidOperator
    else if p.length + q.length > MAXSTRLEN then .error .strTooLong
    else
      let (_, st) ← popAny st
      let (_, st) ← popAny st
      push cap (.charctr (q ++ p)) st
  | .date _ => do
    let (n1, st) ← popDate st
    if opnd2.typ = DATE then
      if op ≠ TMINUS then .error .invalidOperator
      else
        let (n2, st) ← popDate st
        push cap (.number (← numAdd n2 n1 op)) st
    else
      let (n2, st) ← popNumber st
      push cap (.date (← numAdd n2 n1 op).toDate) st
  | _ => .error .invalidType

def bopMul (cap : Nat) (op : Nat) (st : Stack) : Except HbErr Stack := do
  let (n1, st) ← popNumber st
  let (n2, st) ← popNumber st
  push cap (.number (← numMul n2 n1 op)) st

def bopPower (cap : Nat) (st : Stack) : Except HbErr Stack := do
  let (n1, st) ← popNumber st
  let (n2, st) ← popNumber st
  match n1, n2 with
  | .null, _ | _, .null => push cap (.number .null) st
  | n1, n2 => push cap (.number (ofReal (n2.toReal.pow n1.toReal))) st

/-- Types that do not go together; a number of days may be added to a date. -/
def Mismatch (opnd1 opnd2 : HbVal) : Prop :=
  opnd1.typ ≠ opnd2.typ ∧ ¬(opnd2.typ = DATE ∧ opnd1.typ = NUMBER ∧ opnd1.isInteger = true)

instance (a b : HbVal) : Decidable (Mismatch a b) := inferInstanceAs (Decidable (_ ∧ _))

/-- `bop`. -/
def bop (set : Settings) (cap : Nat) (op : Nat) : Stack → Except HbErr Stack
  | opnd1 :: opnd2 :: st =>
    if Mismatch opnd1 opnd2 then .error .typeMismatch
    else if op = TOR then bopOr cap (opnd1 :: opnd2 :: st)
    else if op = TAND then bopAnd cap (opnd1 :: opnd2 :: st)
    else if isRelop op then bopRel set cap op opnd1 opnd2 (opnd1 :: opnd2 :: st)
    else if isAddop op then bopAdd cap op opnd1 opnd2 (opnd1 :: opnd2 :: st)
    else if isMulop op then bopMul cap op (opnd1 :: opnd2 :: st)
    else if op = TPOWER then bopPower cap (opnd1 :: opnd2 :: st)
    else .error .invalidOperator
  | _ => .error .stackFault

end Db3w.Hb
