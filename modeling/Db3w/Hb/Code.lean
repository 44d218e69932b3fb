/-
Code blocks and the machine that runs them. An instruction is a pair of bytes; its operand is an operator,
a count, or the number of a literal, which lies behind the literals before it. What names, arrays and
functions stand for belongs to the tables and variables and is a parameter of the machine.
-/
import Db3w.Hb.Operator

namespace Db3w.Hb

abbrev CODE_LIMIT : Nat := 128
abbrev DATA_LIMIT : Nat := 256
abbrev CBLOCKSZ : Nat := 16384
/-- The size of the head of a block. -/
abbrev BLOCK_HEAD : Nat := 4
abbrev SIZE_LIMIT : Nat := CBLOCKSZ - CODE_LIMIT - BLOCK_HEAD
abbrev STACKSZ : Nat := 65536

abbrev PUSH : Nat := 0x01
abbrev UOP : Nat := 0x02
abbrev BOP : Nat := 0x03
abbrev NRETRV : Nat := 0x04
abbrev FCN : Nat := 0x07
abbrev PUSH_N : Nat := 0x2b
abbrev DRETRV : Nat := 0x2e
abbrev ARRAYCHK : Nat := 0x2f
abbrev USRFCN : Nat := 0x52
abbrev CALL : Nat := 0x80
abbrev RETURN : Nat := 0x81
abbrev JUMP : Nat := 0x82
abbrev JMP_FALSE : Nat := 0x83
abbrev JMP_EOF_0 : Nat := 0x84
abbrev FCNRTN : Nat := 0x85
abbrev OPND_ON_STACK : Nat := 0xff

/-- `PCODE`. -/
structure PCode where
  opcode : Nat
  opnd : Nat
  deriving DecidableEq, Repr

/-- Both halves are bytes. -/
def PCode.mk8 (opcode opnd : Nat) : PCode := ⟨opcode % 256, opnd % 256⟩

/-- `CODE_BLOCK`. -/
structure CodeBlock where
  code : List PCode
  data : List HbVal

/-- The stack, and the rest of what a session works on. -/
structure World (σ : Type) where
  stack : Stack
  state : σ

/-- An error leaves the session in some state. -/
abbrev Res (σ α : Type) := Except (HbErr × σ) α

/-- What the machine relies on outside the expressions. -/
structure Machine (σ : Type) where
  set : Settings
  /-- The room on the stack. -/
  cap : Nat
  /-- The value of a field or variable. -/
  lookup : σ → HbVal → Except HbErr HbVal
  /-- The value of a field of another table. -/
  aliasLookup : σ → HbVal → HbVal → Except HbErr HbVal
  /-- `_vretrv(1)`: an element of an array is chosen. -/
  arrayRef : World σ → Res σ (World σ)
  /-- `retriev(OPND_ON_STACK)`: the chosen element. -/
  arrayVal : World σ → Res σ (World σ)
  /-- `fcn[fcn_no](parm_cnt)`. -/
  fcn : Nat → Nat → World σ → Res σ (World σ)
  /-- `execute_proc` for a user function. -/
  usrfcn : HbVal → Nat → World σ → Res σ (World σ)
  /-- The entries of `hbint` that commands use, by opcode and operand. -/
  cmd : Nat → Nat → World σ → Res σ (World σ)
  /-- `escape || etof(0) || is_scope_end()`. -/
  scopeEnd : σ → Bool
  unsetScope : σ → σ

namespace World

variable {σ : Type}

/-- A step that only works on the stack. -/
def onStack (w : World σ) (f : Stack → Except HbErr Stack) : Res σ (World σ) :=
  match f w.stack with
  | .ok st => .ok ⟨st, w.state⟩
  | .error e => .error (e, w.state)

end World

/-! ## Literals -/

/-- `cb_data_offset`. -/
def cbDataOffset (data : List HbVal) (dataIdx : Nat) : Nat := ((data.take dataIdx).map HbVal.size).sum

/-- The value that lies at an offset. -/
def valAt : List HbVal → Nat → Option HbVal
  | [], _ => none
  | v :: vs, off => if off = 0 then some v else if off < v.size then none else valAt vs (off - v.size)

/-- The literal an operand names. -/
def literal (data : List HbVal) (opnd : Nat) : Except HbErr HbVal :=
  match valAt data (cbDataOffset data opnd) with
  | some v => .ok v
  | none => .error .stackFault

/-- `push_int`. -/
def pushInt (cap : Nat) (n : Int64) (st : Stack) : Except HbErr Stack := push cap (.number (.fixed n 0)) st

/-- `pop_int`; a negative `high` is no bound. -/
def popInt (low high : Int) (st : Stack) : Except HbErr (Int × Stack) := do
  let (num, st) ← popNumber st
  match num with
  | .fixed n 0 =>
    let i := n.toInt32.toInt
    if i < low ∨ (0 ≤ high ∧ high < i) then .error .invalidValue else .ok (i, st)
  | _ => .error .invalidValue

/-! ## Instructions -/

section Machine

variable {σ : Type} (m : Machine σ)

/-- `retriev`, for a name among the literals: the name on the stack is replaced by its value. -/
def retriev (data : List HbVal) (name : Nat) (w : World σ) : Res σ (World σ) :=
  if name = OPND_ON_STACK then m.arrayVal w
  else w.onStack fun st => do
    let v ← literal data name
    let st ← push m.cap v st
    let (n, st) ← popAny st
    push m.cap (← m.lookup w.state n) st

/-- `dretrv`. -/
def dretrv (w : World σ) : Res σ (World σ) :=
  w.onStack fun st => do
    let (a, st) ← popStack CHARCTR st
    let (n, st) ← popAny st
    push m.cap (← m.aliasLookup w.state a n) st

/-- `arraychk`. -/
def arraychk (data : List HbVal) (aname : Nat) (w : World σ) : Res σ (World σ) := do
  let w ← w.onStack fun st => do push m.cap (← literal data aname) st
  m.arrayRef w

/-- `fcn_call`. -/
def fcnCall (fcnNo : Nat) (w : World σ) : Res σ (World σ) :=
  match popInt 0 255 w.stack with
  | .error e => .error (e, w.state)
  | .ok (cnt, st) => m.fcn fcnNo cnt.toNat ⟨st, w.state⟩

/-- `usrfcn`. -/
def usrfcn (data : List HbVal) (name : Nat) (w : World σ) : Res σ (World σ) :=
  match literal data name, popInt 0 255 w.stack with
  | .ok v, .ok (cnt, st) => m.usrfcn v cnt.toNat ⟨st, w.state⟩
  | .error e, _ | _, .error e => .error (e, w.state)

/-- The table `hbint`: the entries that expressions use, and the others. -/
def hbint (opcode opnd : Nat) (data : List HbVal) (w : World σ) : Res σ (World σ) :=
  if opcode = PUSH then w.onStack fun st => do push m.cap (← literal data opnd) st
  else if opcode = UOP then w.onStack (uop m.cap opnd)
  else if opcode = BOP then w.onStack (bop m.set m.cap opnd)
  else if opcode = NRETRV then retriev m data opnd w
  else if opcode = PUSH_N then w.onStack (pushInt m.cap (Int64.ofNat opnd))
  else if opcode = FCN then fcnCall m opnd w
  else if opcode = USRFCN then usrfcn m data opnd w
  else if opcode = DRETRV then dretrv m w
  else if opcode = ARRAYCHK then arraychk m data opnd w
  else m.cmd opcode opnd w

/-! ## Running a block -/

/-- `_execute` from `pc` to `limit`, for at most `fuel` instructions. -/
def executeFrom (code : List PCode) (data : List HbVal) (limit : Nat) : Nat → Nat → World σ → Option (Res σ (World σ))
  | 0, _, _ => none
  | fuel + 1, pc, w =>
    if limit ≤ pc then some (.ok w)
    else
      match code[pc]? with
      | none => some (.error (.illOpcode, w.state))
      | some i =>
        if i.opcode = JMP_EOF_0 then
          if m.scopeEnd w.state then executeFrom code data limit fuel i.opnd ⟨w.stack, m.unsetScope w.state⟩
          else executeFrom code data limit fuel (pc + 1) w
        else if i.opcode = JMP_FALSE then
          match popLogic w.stack with
          | .error e => some (.error (e, w.state))
          -- NULL is not false here
          | .ok (tf, st) => executeFrom code data limit fuel (if tf = some false then i.opnd else pc + 1) ⟨st, w.state⟩
        else if i.opcode = JUMP then executeFrom code data limit fuel i.opnd w
        else if i.opcode = FCNRTN then some (.error (.illOpcode, w.state))
        else if i.opcode = RETURN then some (.ok w)
        else if i.opcode = CALL then
          match executeFrom code data limit fuel i.opnd w with
          | none => none
          | some (.error e) => some (.error e)
          | some (.ok w) => executeFrom code data limit fuel (pc + 1) w
        else
          match hbint m i.opcode i.opnd data w with
          | .error e => some (.error e)
          | .ok w => executeFrom code data limit fuel (pc + 1) w

/-- `execute`. -/
def execute (fuel : Nat) (b : CodeBlock) (w : World σ) : Option (Res σ (World σ)) :=
  executeFrom m b.code b.data b.code.length fuel 0 w

/-- Code without jumps, instruction by instruction. -/
def runCode (data : List HbVal) : List PCode → World σ → Res σ (World σ)
  | [], w => .ok w
  | i :: is, w => (hbint m i.opcode i.opnd data w).bind (runCode data is)

end Machine

/-! ## Literals are found again -/

theorem cbDataOffset_succ {data : List HbVal} {v : HbVal} (vs : List HbVal) (n : Nat) (h : data = v :: vs) :
    cbDataOffset data (n + 1) = v.size + cbDataOffset vs n := by
  subst h
  unfold cbDataOffset
  rw [List.take_succ_cons, List.map_cons, List.sum_cons]

/-- Behind the first literals lies the next one. -/
theorem valAt_offset (data : List HbVal) (n : Nat) : valAt data (cbDataOffset data n) = data[n]? := by
  induction data generalizing n with
  | nil => simp [valAt]
  | cons v vs ih =>
    cases n with
    | zero => simp [cbDataOffset, valAt]
    | succ n =>
      have hv := v.size_pos
      rw [cbDataOffset_succ vs n rfl, valAt, if_neg (by omega), if_neg (by omega), Nat.add_sub_cancel_left, ih,
        List.getElem?_cons_succ]

theorem literal_eq {data : List HbVal} {n : Nat} {v : HbVal} (h : data[n]? = some v) : literal data n = .ok v := by
  unfold literal
  rw [valAt_offset, h]

/-- A literal stays where it is when others are put behind it. -/
theorem literal_append {data : List HbVal} {n : Nat} (h : n < data.length) (more : List HbVal) :
    literal (data ++ more) n = literal data n := by
  have h1 : data[n]? = some (data[n]) := List.getElem?_eq_getElem h
  have h2 : (data ++ more)[n]? = some (data[n]) := by
    rw [List.getElem?_append_left h, h1]
  rw [literal_eq h1, literal_eq h2]

end Db3w.Hb
