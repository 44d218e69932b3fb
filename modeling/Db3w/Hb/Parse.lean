/-
The expression parser, by recursive descent. The same code compiles an expression or evaluates it at
once: where the session executes, every instruction is carried out when it is emitted.
-/
import Db3w.Hb.Code
import Db3w.Hb.Str2num

namespace Db3w.Hb

abbrev TNULLTOK : Nat := 0x00
abbrev TID : Nat := 0x01
abbrev TLOGIC : Nat := 0x02
abbrev TINT : Nat := 0x03
abbrev TNUMBER : Nat := 0x04
abbrev TLIT : Nat := 0x05
abbrev TCOMMA : Nat := 0x06
abbrev TLPAREN : Nat := 0x08
abbrev TRPAREN : Nat := 0x09
abbrev TLBRKT : Nat := 0x0b
abbrev TRBRKT : Nat := 0x0c
abbrev TARROW : Nat := 0x0e
abbrev TPOUND : Nat := 0x0f

/-- A token, and its text in the command. -/
structure Token where
  kind : Nat
  text : List UInt8
  deriving DecidableEq, Repr

/-- What the parser relies on outside expressions. -/
structure Lexicon where
  /-- Decimal floating point is ON. -/
  dfpiOn : Bool
  /-- `strtod`; none for a value out of range. -/
  strtod : List UInt8 → Option Float
  /-- `function_id`; none is a user function. -/
  functionId : List UInt8 → Option Nat
  /-- `parm_chk`, as to the number of arguments. -/
  parmCnt : Bool → Option Nat → Nat → Bool
  /-- `parm_chk`, as to the argument on the stack. -/
  parmVal : Option Nat → Nat → Stack → Except HbErr Stack
  /-- `process_date`, from the token behind the bracket. -/
  processDate : List Token → Except HbErr (Option UInt32 × List Token)

/-- The parser: the tokens from the current one on, what is emitted so far, and, where the session executes, the session. -/
structure PSt (σ : Type) where
  toks : List Token
  code : List PCode
  data : List HbVal
  exe : Option (World σ)

/-- A parser that fails leaves the session, if it executes, in some state. -/
abbrev PRes (σ α : Type) := Except (HbErr × Option σ) α

namespace PSt

variable {σ : Type}

/-- `curr_tok`. -/
def currTok (ps : PSt σ) : Nat := match ps.toks with
  | [] => TNULLTOK
  | t :: _ => t.kind

def currText (ps : PSt σ) : List UInt8 := match ps.toks with
  | [] => []
  | t :: _ => t.text

/-- `get_token`. -/
def getToken (ps : PSt σ) : PSt σ := { ps with toks := ps.toks.tail }

/-- `syn_err`. -/
def synErr {α : Type} (ps : PSt σ) (e : HbErr) : PRes σ α := .error (e, ps.exe.map World.state)

end PSt

section Emit

variable {σ : Type} (m : Machine σ)

/-- `codegen`. -/
def codegen (opcode opnd : Nat) (ps : PSt σ) : PRes σ (PSt σ) :=
  if ps.code.length = CODE_LIMIT then ps.synErr .expTooLong
  else
    match ps.exe with
    | none => .ok { ps with code := ps.code ++ [.mk8 opcode opnd] }
    | some w =>
      match hbint m opcode opnd ps.data w with
      | .error (e, s) => .error (e, some s)
      | .ok w => .ok { ps with code := ps.code ++ [.mk8 opcode opnd], exe := some w }

/-- `data_chk`, and the literal that is put there; its number is given back. -/
def load (v : HbVal) (ps : PSt σ) : PRes σ (Nat × PSt σ) :=
  if ps.data.length ≥ DATA_LIMIT then ps.synErr .expTooLong
  else if cbDataOffset ps.data ps.data.length + v.size ≥ SIZE_LIMIT then ps.synErr .expTooLong
  else .ok (ps.data.length, { ps with data := ps.data ++ [v] })

end Emit

/-! ## Literals -/

def isQuote (c : UInt8) : Bool := c = 39 || c = 34

/-- The string `loadstring` makes of a token. -/
def tokenStr (text : List UInt8) : List UInt8 :=
  match text with
  | c :: s => if isQuote c then s.take (text.length - 2) else text
  | [] => []

/-- `to_upper` of a byte. -/
def upperByte (c : UInt8) : UInt8 := if 97 ≤ c ∧ c ≤ 122 then c - 32 else c

/-- The value `loadlogic` makes of a token. -/
def tokenLogic (text : List UInt8) : Bool :=
  let c := upperByte (text.tail.headD 0)
  c = 89 || c = 84

/-- `str2num`, of the text of a token. -/
def str2num (lx : Lexicon) (s : List UInt8) : Except HbErr Num := Misc.str2num lx.dfpiOn lx.strtod s

/-! ## The grammar -/

section Parser

variable {σ : Type} (m : Machine σ) (lx : Lexicon)

/-- The operators of one level, from left to right; `n` bounds their number by that of the tokens. -/
def binLoop (sub : PSt σ → PRes σ (PSt σ)) (isOp : Nat → Bool) : Nat → PSt σ → PRes σ (PSt σ)
  | 0, ps => .ok ps
  | n + 1, ps =>
    if isOp ps.currTok then do
      let op := ps.currTok
      let ps ← sub ps.getToken
      let ps ← codegen m BOP op ps
      binLoop sub isOp n ps
    else .ok ps

/-- One level of the grammar above the next tighter one. -/
def level (isOp : Nat → Bool) (sub : PSt σ → PRes σ (PSt σ)) (ps : PSt σ) : PRes σ (PSt σ) := do
  let ps ← sub ps
  binLoop m sub isOp ps.toks.length ps

def term1 (factor : PSt σ → PRes σ (PSt σ)) : PSt σ → PRes σ (PSt σ) := level m (· = TPOWER) factor

def term (factor : PSt σ → PRes σ (PSt σ)) : PSt σ → PRes σ (PSt σ) := level m isMulop (term1 m factor)

def simpleExpr (factor : PSt σ → PRes σ (PSt σ)) : PSt σ → PRes σ (PSt σ) := level m isAddop (term m factor)

/-- `rel_expr1`: one relational operator at most. -/
def relExpr1 (factor : PSt σ → PRes σ (PSt σ)) (ps : PSt σ) : PRes σ (PSt σ) := do
  let ps ← simpleExpr m factor ps
  if isRelop ps.currTok then
    let op := ps.currTok
    let ps ← simpleExpr m factor ps.getToken
    codegen m BOP op ps
  else .ok ps

def relExpr (factor : PSt σ → PRes σ (PSt σ)) : PSt σ → PRes σ (PSt σ) := level m (· = TAND) (relExpr1 m factor)

def expression (factor : PSt σ → PRes σ (PSt σ)) : PSt σ → PRes σ (PSt σ) := level m (· = TOR) (relExpr m factor)

/-- Emission of an instruction with a literal. -/
def emitLit (opcode : Nat) (v : HbVal) (ps : PSt σ) : PRes σ (PSt σ) := do
  let (i, ps) ← load v ps
  codegen m opcode i ps

/-- The check of an argument while the session executes. -/
def parmChk (final : Bool) (fcn : Option Nat) (cnt : Nat) (ps : PSt σ) : PRes σ (PSt σ) :=
  if lx.parmCnt final fcn cnt = false then ps.synErr .invalidParmcnt
  else
    match ps.exe with
    | none => .ok ps
    | some w =>
      if final then .ok ps
      else
        match lx.parmVal fcn cnt w.stack with
        | .error e => ps.synErr e
        | .ok st => .ok { ps with exe := some ⟨st, w.state⟩ }

/-- The arguments of a function, from the parenthesis on; their number is given back. -/
def argLoop (expr : PSt σ → PRes σ (PSt σ)) (fcn : Option Nat) : Nat → Nat → PSt σ → PRes σ (Nat × PSt σ)
  | 0, cnt, ps => .ok (cnt, ps)
  | n + 1, cnt, ps => do
    let ps := ps.getToken
    if ps.currTok = TRPAREN ∧ cnt = 0 then .ok (cnt, ps)
    else
      let ps ← expr ps
      let ps ← parmChk lx false fcn (cnt + 1) ps
      if ps.currTok = TCOMMA then argLoop expr fcn n (cnt + 1) ps else .ok (cnt + 1, ps)

/-- The subscripts of an array, from the bracket on. -/
def dimLoop (expr : PSt σ → PRes σ (PSt σ)) : Nat → Nat → PSt σ → PRes σ (Nat × PSt σ)
  | 0, dim, ps => .ok (dim, ps)
  | n + 1, dim, ps => do
    let ps ← expr ps.getToken
    if ps.currTok = TCOMMA then dimLoop expr n (dim + 1) ps else .ok (dim + 1, ps)

/-- A function call in `factor`, at the name of the function. -/
def callFactor (expr : PSt σ → PRes σ (PSt σ)) (ps : PSt σ) : PRes σ (PSt σ) := do
  let fcn := lx.functionId ps.currText
  let (usr, ps) ← match fcn with
    | some _ => .ok (0, ps)
    | none => load (.charctr (tokenStr ps.currText)) ps
  let ps := ps.getToken
  let (cnt, ps) ← argLoop lx expr fcn ps.toks.length 0 ps
  if ps.currTok ≠ TRPAREN then ps.synErr .missingRparen
  else
    let ps ← parmChk lx true fcn cnt ps
    let ps ← codegen m PUSH_N cnt ps
    match fcn with
    | none => codegen m USRFCN usr ps
    | some no => codegen m FCN no ps

/-- A field of another table in `factor`, at the alias. -/
def aliasFactor (ps : PSt σ) : PRes σ (PSt σ) := do
  let (a, ps) ← load (.charctr (tokenStr ps.currText)) ps
  let ps := ps.getToken.getToken
  let ps ← emitLit m PUSH (.charctr (tokenStr ps.currText)) ps
  let ps ← codegen m PUSH a ps
  codegen m DRETRV OPND_ON_STACK ps

/-- `process_array`, at the name of the array, and the retrieval of the element. -/
def arrayFactor (expr : PSt σ → PRes σ (PSt σ)) (ps : PSt σ) : PRes σ (PSt σ) := do
  let (aname, ps) ← load (.charctr (tokenStr ps.currText)) ps
  let ps := ps.getToken
  let (dim, ps) ← dimLoop expr ps.toks.length 0 ps
  if ps.currTok ≠ TRBRKT then ps.synErr .missingRbrkt
  else
    let ps ← codegen m PUSH_N dim ps
    let ps ← codegen m ARRAYCHK aname ps
    codegen m NRETRV OPND_ON_STACK ps

/-- `factor`, without macros; `fuel` bounds the nesting. -/
def factor : Nat → PSt σ → PRes σ (PSt σ)
  | 0, ps => ps.synErr .badExp
  | fuel + 1, ps =>
    if ps.currTok = TPLUS ∨ ps.currTok = TMINUS ∨ ps.currTok = TNOT then do
      let op := ps.currTok
      let ps ← factor fuel ps.getToken
      codegen m UOP op ps
    else if ps.currTok = TLIT then do
      let ps ← emitLit m PUSH (.charctr (tokenStr ps.currText)) ps
      .ok ps.getToken
    else if ps.currTok = TLPAREN then do
      let ps ← expression m (factor fuel) ps.getToken
      if ps.currTok ≠ TRPAREN then ps.synErr .missingRparen else .ok ps.getToken
    else if ps.currTok = TINT ∨ ps.currTok = TNUMBER then
      match str2num lx ps.currText with
      | .error e => ps.synErr e
      | .ok num => do
        let ps ← emitLit m PUSH (.number num) ps
        .ok ps.getToken
    else if ps.currTok = TLOGIC then do
      let ps ← emitLit m PUSH (.logic (some (tokenLogic ps.currText))) ps
      .ok ps.getToken
    else if ps.currTok = TID then do
      let ps ← if ps.getToken.currTok = TLPAREN then callFactor m lx (expression m (factor fuel)) ps
        else if ps.getToken.currTok = TARROW then aliasFactor m ps
        else if ps.getToken.currTok = TLBRKT then arrayFactor m (expression m (factor fuel)) ps
        else emitLit m NRETRV (.charctr (tokenStr ps.currText)) ps
      .ok ps.getToken
    else if ps.currTok = TLBRKT then
      match lx.processDate ps.toks.tail with
      | .error e => ps.synErr e
      | .ok (date, toks) => do
        let ps ← emitLit m PUSH (.date date) { ps with toks }
        if ps.currTok ≠ TRBRKT then ps.synErr .missingRbrkt else .ok ps.getToken
    else ps.synErr .badExp

/-- An expression from the first of its tokens on; no nesting is deeper than the number of tokens. -/
def parse (ps : PSt σ) : PRes σ (PSt σ) := expression m (factor m lx (ps.toks.length + 1)) ps

/-- `put_cond`: the tokens are compiled into a block of `sizeMax` bytes. -/
def putCond (sizeMax : Nat) (toks : List Token) : Except HbErr CodeBlock :=
  match parse m lx ⟨toks, [], [], none⟩ with
  | .error (e, _) => .error e
  | .ok ps =>
    if 2 * ps.code.length + cbDataOffset ps.data ps.data.length + BLOCK_HEAD > sizeMax then .error .codeblockOverflow
    else if ps.currTok ≠ TNULLTOK then .error .excessSyntax
    else .ok ⟨ps.code, ps.data⟩

/-- `evaluate`: the tokens are evaluated at once; a comment may follow. -/
def evaluate (toks : List Token) (w : World σ) : Res σ (World σ) :=
  match parse m lx ⟨toks, [], [], some w⟩ with
  | .error (e, s) => .error (e, s.getD w.state)
  | .ok ps =>
    let w := ps.exe.getD w
    if ps.currTok ≠ TNULLTOK ∧ ps.currTok ≠ TPOUND then .error (.excessSyntax, w.state) else .ok w

end Parser

end Db3w.Hb
