/-
The compiler of control structures (`ec` of proc.c). It reads a procedure line by line and writes code
blocks and jumps to a file. A jump ahead is written without its address; where the address belongs is
put on a stack, and is filled in when the line is reached that the jump goes to. Calls of procedures
not yet defined are chained through their address fields, from the list of names.
-/
import Db3w.Hb.Object
import Db3w.Hb.ProcLib

namespace Db3w.Hb

open Bytes

/-! ## Code in the file -/

abbrev PLACE_HOLDER : Int := -1
/-- How many levels may be open is one less, and so for addresses and calls. -/
abbrev MAXLEVELS : Nat := 32
abbrev PRG_PROC : Nat := 0x01
abbrev PRG_FUNC : Nat := 0x02
abbrev EXIT_CTL : Nat := 0x87
abbrev LOOP_CTL : Nat := 0x8a
/-- The keyword, not the command. -/
abbrev LOOP : Nat := 0x5b

/-- The word that a `cpos_t` is stored as. -/
def cposWord (v : Int) : Nat := (v % 2 ^ 32).toNat

/-- `get_cpos`. -/
def getCpos (bs : List UInt8) : Int := if readWord CPOSSZ bs < 2 ^ 31 then readWord CPOSSZ bs else (readWord CPOSSZ bs : Int) - 2 ^ 32

/-- The block that was compiled for a line, and the number of the line. -/
structure LineBlock where
  e : Emitted
  lineno : Nat

/-- The errors of the compiler. -/
inductive CtlErr where
  | unbalIf | unbalDoWhile | unbalCase | unknownControl | commandUnknown | missingReturn | excessSyntax | badExp | unbalLoop | unbalEnddo
  | missingIf | unbalEndif | missingCase | unbalEndcase | tooManyLevels | stackFault | multiDef | procMismatch | tooManyProcs | missingProc
  deriving DecidableEq, Repr

/-- What a level of `neststack` is for. -/
inductive Ctl where
  | if_ | elseif | else_ | case_ | otherwise | while_
  deriving DecidableEq, Repr

/-- An entry of `neststack`: a CASE has seen a condition, or more than one. -/
structure Level where
  ctl : Ctl
  nfCase : Bool
  sCase : Bool
  deriving DecidableEq, Repr

/-- A line: the command and the blocks that were compiled for it. -/
inductive Cmd where
  | null
  | comment
  | unknown
  | doWhile (cond : LineBlock)
  | doCase
  | doProc (name : Str) (args : LineBlock)
  /-- RETURN, with whether its value starts with `#`. -/
  | return_ (value : Option (Bool × LineBlock))
  | exit
  | loop
  | enddo
  | if_ (cond : LineBlock)
  | elseif (cond : LineBlock)
  | else_
  | endif
  | case_ (cond : LineBlock)
  | otherwise
  | endcase
  | procedure (name : Str)
  | function (name : Str)
  | other (b : LineBlock)

/-- What `ec` works on: the output, the open levels and the addresses to fill in (the innermost first), and the names. -/
structure Ec where
  outfp : List UInt8
  neststack : List Level
  jmpAddr : List Nat
  doList : List DoEntry
  seenRet : Bool

namespace Ec

/-- `ftell`, at the end of the file. -/
def pos (st : Ec) : Nat := st.outfp.length

def write (bs : List UInt8) (st : Ec) : Ec := { st with outfp := st.outfp ++ bs }

/-- An address is filled in. -/
def patch (pos : Nat) (v : Int) (st : Ec) : Ec := { st with outfp := writeAt pos (word CPOSSZ (cposWord v)) st.outfp }

/-- A block is written. -/
def block (dbg : Bool) (b : LineBlock) (st : Ec) : Ec := st.write (writeBlock dbg b.lineno b.e)

/-- A long jump is written. -/
def ljmp (jcode : Nat) (addr : Int) (st : Ec) : Ec := st.write (cgenLjmp jcode (cposWord addr))

def pushAddr (pos : Nat) (st : Ec) : Except CtlErr Ec :=
  if st.jmpAddr.length + 1 ≥ MAXLEVELS then .error .stackFault else .ok { st with jmpAddr := pos :: st.jmpAddr }

def popAddr (st : Ec) : Except CtlErr (Nat × Ec) :=
  match st.jmpAddr with
  | [] => .error .stackFault
  | a :: as => .ok (a, { st with jmpAddr := as })

def pushLevel (l : Level) (st : Ec) : Except CtlErr Ec :=
  if st.neststack.length + 1 = MAXLEVELS then .error .tooManyLevels else .ok { st with neststack := l :: st.neststack }

/-- `chglevel`, and the setting of flags. -/
def chgLevel (l : Level) (st : Ec) : Ec := { st with neststack := l :: st.neststack.tail }

def popLevel (st : Ec) : Ec := { st with neststack := st.neststack.tail }

/-- `mod_addr`: the innermost jump goes here. -/
def modAddr (st : Ec) : Except CtlErr Ec := do
  let (a, st) ← st.popAddr
  return st.patch a st.pos

/-- `mod_jmp`: the jump below the innermost goes here. -/
def modJmp (st : Ec) : Except CtlErr Ec := do
  let (a, st) ← st.popAddr
  let st ← st.modAddr
  st.pushAddr a

/-- `jmp_codegen`: a jump to the end, behind which the innermost jump goes. -/
def jmpCodegen (st : Ec) : Except CtlErr Ec := do
  let st ← (st.ljmp JUMP PLACE_HOLDER).modAddr
  st.pushAddr (st.pos - CPOSSZ)

/-- `cond_codegen`. -/
def condCodegen (dbg : Bool) (b : LineBlock) (st : Ec) : Except CtlErr Ec :=
  let st := (st.block dbg b).ljmp JMP_FALSE PLACE_HOLDER
  st.pushAddr (st.pos - CPOSSZ)

end Ec

/-! ## The list of names -/

def lowerName (name : Str) : Str := name.map Char.toLower

/-- `strcasecmp` finds no difference. -/
def sameName (a b : Str) : Bool := lowerName a == lowerName b

def findEntry (name : Str) (doList : List DoEntry) : Option DoEntry := doList.find? fun de => sameName de.procName name

/-- The address of the entry of a name is set. -/
def setFaddr (name : Str) (faddr : Int) : List DoEntry → List DoEntry
  | [] => []
  | de :: doList => if sameName de.procName name then { de with faddr } :: doList else de :: setFaddr name faddr doList

/-- The loop of `add_do_list` along the chain of calls, which it gives the address of the procedure. -/
def relink (v : Int) : Nat → List UInt8 → Int → List UInt8
  | 0, file, _ => file
  | fuel + 1, file, faddr =>
    let pos := (-faddr).toNat
    let next := getCpos (readAt pos CPOSSZ file)
    let file := writeAt pos (word CPOSSZ (cposWord v)) file
    if next ≠ 0 then relink v fuel file next else file

/-- `add_do_list` for a call, whose address field is at `field`. -/
def addCall (name : Str) (field : Nat) (st : Ec) : Ec :=
  match findEntry name st.doList with
  | none => { st.patch field 0 with doList := st.doList ++ [⟨name, PRG_PROC, -field, 0⟩] }
  | some de =>
    let st := st.patch field de.faddr
    if de.faddr < 0 then { st with doList := setFaddr name (-field) st.doList } else st

/-- `add_do_list` for a definition, whose code is at `faddr`. -/
def addDef (name : Str) (type : Nat) (faddr : Nat) (st : Ec) : Except CtlErr Ec :=
  match findEntry name st.doList with
  | none => .ok { st with doList := st.doList ++ [⟨name, type, faddr, 0⟩] }
  | some de =>
    if de.faddr > 0 then .error .multiDef
    else if de.type ≠ type then .error .procMismatch
    else .ok { st with outfp := relink faddr st.outfp.length st.outfp de.faddr, doList := setFaddr name faddr st.doList }

/-! ## Lines -/

/-- The addresses that a level has on the stack. -/
def Level.entries (l : Level) : Nat :=
  match l.ctl with
  | .if_ | .else_ => 1
  | .elseif => 2
  | .case_ | .otherwise => l.nfCase.toNat + l.sCase.toNat
  | .while_ => 2

/-- How far down the stack the jump out of the innermost loop is to be filled in. -/
def exitSlot : List Level → Option Nat
  | [] => none
  | l :: ls => if l.ctl = .while_ then some 0 else (exitSlot ls).map (· + l.entries)

/-- EXIT and LOOP: a jump that is filled in with that of the loop's condition, which now leads to it. Neither command is `LOOP`. -/
def exitCodegen (cmd : Nat) (st : Ec) : Except CtlErr Ec :=
  match exitSlot st.neststack with
  | none => .error .unbalLoop
  | some i =>
    if cmd = LOOP then .ok (st.ljmp JUMP (st.jmpAddr.getD (i + 1) 0))
    else
      let st := (st.patch (st.jmpAddr.getD i 0) st.pos).ljmp JUMP PLACE_HOLDER
      .ok { st with jmpAddr := st.jmpAddr.set i (st.pos - CPOSSZ) }

/-- `ec` for a line; `stop` lines are left to `ecLines`. -/
def ecCmd (dbg isfcn : Bool) (cmd : Cmd) (st : Ec) : Except CtlErr Ec :=
  match cmd with
  | .null | .comment | .procedure _ | .function _ => .ok st
  | .unknown => .error .commandUnknown
  | .other b => .ok (st.block dbg b)
  | .doWhile c => do
    let st ← st.pushLevel ⟨.while_, false, false⟩
    let st ← st.pushAddr st.pos
    st.condCodegen dbg c
  | .doCase => st.pushLevel ⟨.case_, false, false⟩
  | .doProc name args =>
    let st := (st.block dbg args).ljmp CALL PLACE_HOLDER
    .ok (addCall (name.take Db3w.VNAMELEN) (st.pos - CPOSSZ) st)
  | .return_ none => if isfcn then .error .badExp else .ok { st.ljmp RETURN 0 with seenRet := true }
  | .return_ (some (pound, b)) =>
    if !isfcn && !pound then .error .excessSyntax else .ok { (st.block dbg b).ljmp FCNRTN 0 with seenRet := true }
  | .exit => exitCodegen EXIT_CTL st
  | .loop => exitCodegen LOOP_CTL st
  | .enddo =>
    match st.neststack with
    | ⟨.while_, _, _⟩ :: _ => do
      let (a, st) ← st.popLevel.popAddr
      let (start, st) ← st.popAddr
      let st ← (st.ljmp JUMP start).pushAddr a
      st.modAddr
    | _ => .error .unbalEnddo
  | .if_ c => do
    let st ← st.pushLevel ⟨.if_, false, false⟩
    st.condCodegen dbg c
  | .elseif c =>
    match st.neststack with
    | ⟨.if_, _, _⟩ :: _ => do
      let st ← st.jmpCodegen
      (st.chgLevel ⟨.elseif, false, false⟩).condCodegen dbg c
    | ⟨.elseif, _, _⟩ :: _ => do
      let st ← st.modJmp
      let st ← st.jmpCodegen
      st.condCodegen dbg c
    | _ => .error .missingIf
  | .else_ =>
    match st.neststack with
    | ⟨.if_, _, _⟩ :: _ => do
      let st ← st.jmpCodegen
      return st.chgLevel ⟨.else_, false, false⟩
    | ⟨.elseif, _, _⟩ :: _ => do
      let st ← st.modJmp
      let st ← st.jmpCodegen
      return st.chgLevel ⟨.else_, false, false⟩
    | _ => .error .missingIf
  | .endif =>
    match st.neststack with
    | ⟨.if_, _, _⟩ :: _ | ⟨.else_, _, _⟩ :: _ => do
      let st ← st.modAddr
      return st.popLevel
    | ⟨.elseif, _, _⟩ :: _ => do
      let st ← st.modJmp
      let st ← st.modAddr
      return st.popLevel
    | _ => .error .unbalEndif
  | .case_ c =>
    match st.neststack with
    | ⟨.case_, false, _⟩ :: _ => (st.chgLevel ⟨.case_, true, false⟩).condCodegen dbg c
    | ⟨.case_, true, false⟩ :: _ => do
      let st ← (st.chgLevel ⟨.case_, true, true⟩).jmpCodegen
      st.condCodegen dbg c
    | ⟨.case_, true, true⟩ :: _ => do
      let st ← st.modJmp
      let st ← st.jmpCodegen
      st.condCodegen dbg c
    | _ => .error .missingCase
  | .otherwise =>
    match st.neststack with
    | ⟨.case_, false, _⟩ :: _ => .ok (st.chgLevel ⟨.otherwise, false, false⟩)
    | ⟨.case_, true, false⟩ :: _ => do
      let st ← st.jmpCodegen
      return st.chgLevel ⟨.otherwise, true, false⟩
    | ⟨.case_, true, true⟩ :: _ => do
      let st ← st.modJmp
      let st ← st.jmpCodegen
      return st.chgLevel ⟨.otherwise, true, false⟩
    | _ => .error .missingCase
  | .endcase =>
    match st.neststack with
    | ⟨.case_, false, _⟩ :: _ | ⟨.otherwise, false, _⟩ :: _ => .ok st.popLevel
    | ⟨.case_, true, false⟩ :: _ | ⟨.otherwise, true, false⟩ :: _ => do
      let st ← st.modAddr
      return st.popLevel
    | ⟨.case_, true, true⟩ :: _ | ⟨.otherwise, true, true⟩ :: _ => do
      let st ← st.modJmp
      let st ← st.modAddr
      return st.popLevel
    | _ => .error .unbalEndcase

/-- The end of the file inside an open level. -/
def openAtEnd (l : Level) : CtlErr :=
  match l.ctl with
  | .if_ => .unbalIf
  | .while_ => .unbalDoWhile
  | .case_ => .unbalCase
  | .elseif | .else_ | .otherwise => .unknownControl

/-- The lines of a procedure up to the next one, which are given back. -/
def ecLines (dbg isfcn : Bool) : List Cmd → Ec → Except CtlErr (List Cmd × Ec)
  | [], st =>
    match st.neststack with
    | [] => .ok ([], st)
    | l :: _ => .error (openAtEnd l)
  | cmd :: cmds, st =>
    match cmd with
    | .procedure _ | .function _ => if isfcn && !st.seenRet then .error .missingReturn else .ok (cmd :: cmds, st)
    | _ => (ecCmd dbg isfcn cmd st).bind (ecLines dbg isfcn cmds)

/-- `ec`, from the line after PROCEDURE or FUNCTION. -/
def ec (dbg isfcn : Bool) (cmds : List Cmd) (st : Ec) : Except CtlErr (List Cmd × Ec) := do
  let (cmds, st) ← ecLines dbg isfcn cmds { st with neststack := [], seenRet := false }
  return (cmds, st.ljmp RETURN 0)

end Db3w.Hb
