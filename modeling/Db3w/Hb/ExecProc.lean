/-
Running a procedure (`exec_` of proc.c), and what a structured procedure means. The machine steps
through the bytes of a file: a block is executed, a long jump moves it, and calls put addresses on a
stack. The meaning knows no addresses: it runs lines, branches and loops, and calls procedures by name.
-/
import Db3w.Hb.Library
import Db3w.Hb.Scope
import Db3w.Lib.Stepping

namespace Db3w.Hb

open Bytes Structured

abbrev TOOMANY_LEVELS : HbErr := .other (23 + 37)

/-- `valspec.len`; the decimals of a number stand in its upper six bits. -/
def HbVal.valLen : HbVal → Nat
  | .number (.fixed _ deci) => 8 + 64 * deci
  | .number (.real _) => 8 + 64 * REAL
  | .other _ buf => buf.length
  | v => v.size - 2

/-- How much lies on the stacks of calls; the counts of arguments are told from the innermost call on. -/
structure Depth where
  addrs : Nat
  callers : Nat
  pcount : List Nat

/-- What the code of procedures relies on. A block leaves the stacks of calls as they are, also where a function in it runs a procedure. -/
structure Executor (σ : Type) where
  cap : Nat
  /-- `execute`, of the bytes of a block. -/
  execute : Depth → List UInt8 → World σ → Res σ (World σ)
  escape : σ → Bool
  /-- `release(R_ALL | R_PROC)` at a level. -/
  release : Nat → σ → σ

/-- How a procedure ends: with its RETURN, by an escape, or by an error; or its value is copied over the end of `vbuf`. -/
inductive Done (σ : Type) where
  | returned (w : World σ)
  | escaped (d : Depth) (w : World σ)
  | failed (e : HbErr × σ)
  | overrun (w : World σ)

/-- `jmp_addr`, `pcount` and `call_addr`, the innermost call first. -/
structure Calls where
  jmpAddr : List Int
  pcount : List Nat
  callAddr : List Int

def Calls.depth (f : Calls) : Depth := ⟨f.jmpAddr.length, f.callAddr.length, f.pcount⟩

/-- `next_pbuf`, the stacks of calls, and the session. -/
structure Exec (σ : Type) where
  next : Nat
  calls : Calls
  world : World σ

section Machine

variable {σ : Type} (x : Executor σ)

/-- What a RETURN from a level does to variables and arguments; a function leaves its value. -/
def leave (level cnt : Nat) (rtv : Option HbVal) (w : World σ) : Res σ (World σ) :=
  let state := x.release level w.state
  match rtv with
  | none => .ok ⟨w.stack.drop cnt, state⟩
  | some v =>
    match push x.cap v (w.stack.drop cnt) with
    | .ok st => .ok ⟨st, state⟩
    | .error e => .error (e, state)

/-- The value of FCNRTN is taken from the stack into `vbuf`, `valspec.len` and its header bytes of it. -/
def takeValue (w : World σ) : Except (Done σ) (HbVal × World σ) :=
  match popAny w.stack with
  | .error e => .error (.failed (e, w.state))
  | .ok (rtv, st) => if rtv.valLen + 2 > STRBUFSZ then .error (.overrun w) else .ok (rtv, ⟨st, w.state⟩)

/-- JUMP. -/
def jump (newpos : Int) (s : Exec σ) : Exec σ ⊕ Done σ :=
  if x.escape s.world.state then .inr (.escaped s.calls.depth s.world)
  else if newpos = -1 then .inr (.returned s.world)
  else .inl { s with next := newpos.toNat }

/-- What a CALL checks: the room on the stacks, and the count of the arguments. -/
def enter (d : Depth) (w : World σ) : Res σ (Nat × World σ) :=
  if d.addrs + 1 ≥ MAXLEVELS then .error (.stackFault, w.state)
  else
    match popInt 0 255 w.stack with
    | .error e => .error (e, w.state)
    | .ok (cnt, st) =>
      if d.pcount.length + 1 > MAXLEVELS then .error (TOOMANY_LEVELS, w.state)
      else if d.callers + 1 ≥ MAXLEVELS then .error (.stackFault, w.state)
      else .ok (cnt.toNat, ⟨st, w.state⟩)

/-- CALL. -/
def call (newpos : Int) (s : Exec σ) : Exec σ ⊕ Done σ :=
  if x.escape s.world.state then .inr (.escaped s.calls.depth s.world)
  else
    match enter s.calls.depth s.world with
    | .error e => .inr (.failed e)
    | .ok (cnt, w) =>
      if newpos = -1 then .inr (.returned w)
      else .inl ⟨newpos.toNat, ⟨↑(s.next + JBLOCKSZ) :: s.calls.jmpAddr, cnt :: s.calls.pcount, newpos :: s.calls.callAddr⟩, w⟩

/-- RETURN, and FCNRTN with a value. -/
def ret (rtv : Option HbVal) (s : Exec σ) : Exec σ ⊕ Done σ :=
  match s.calls.jmpAddr with
  | [] => .inr (.failed (.stackFault, s.world.state))
  | newpos :: jmpAddr =>
    match s.calls.pcount, s.calls.callAddr with
    | [], _ => .inr (.failed (.stackFault, x.release 0 s.world.state))
    | _ :: pcount, [] => .inr (.failed (.stackFault, x.release (pcount.length + 1) s.world.state))
    | cnt :: pcount, _ :: callAddr =>
      match leave x (pcount.length + 1) cnt rtv s.world with
      | .error e => .inr (.failed e)
      | .ok w => if newpos = -1 then .inr (.returned w) else .inl ⟨newpos.toNat, ⟨jmpAddr, pcount, callAddr⟩, w⟩

/-- A round of the loop of `exec_`. -/
def step (code : List UInt8) (s : Exec σ) : Exec σ ⊕ Done σ :=
  match (readPiece (code.drop s.next)).1 with
  | .block b =>
    match x.execute s.calls.depth b s.world with
    | .error e => .inr (.failed e)
    | .ok w => .inl ⟨s.next + Bytes.readWord 2 b, s.calls, w⟩
  | .ljmp b =>
    let jmpcode := Bytes.readWord 1 (b.drop 1)
    let newpos := getCpos (b.drop 2)
    if jmpcode = JMP_FALSE then
      match istrue s.world with
      | .error e => .inr (.failed e)
      | .ok (true, w) => .inl ⟨s.next + JBLOCKSZ, s.calls, w⟩
      | .ok (false, w) => jump x newpos ⟨s.next, s.calls, w⟩
    else if jmpcode = JUMP then jump x newpos s
    else if jmpcode = CALL then call x newpos s
    else if jmpcode = RETURN then ret x none s
    else if jmpcode = FCNRTN then
      match takeValue s.world with
      | .error r => .inr r
      | .ok (rtv, w) => ret x (some rtv) ⟨s.next, s.calls, w⟩
    else .inl s

/-! ## The meaning of structured procedures -/

/-- A RETURN in a procedure. -/
def leaves (d : Depth) (rtv : Option HbVal) (w : World σ) : Done σ :=
  match leave x d.pcount.length (d.pcount.headD 0) rtv w with
  | .ok w => .returned w
  | .error e => .failed e

variable (dbg : Bool) (ps : List ProcDef)

/-- A procedure is called by its name, with `run` for what the procedures do. -/
def callBy (run : Depth → ProcDef → World σ → Out (World σ) (Done σ)) (d : Depth) (name : Str) (w : World σ) : Out (World σ) (Done σ) :=
  if x.escape w.state then .stop (.escaped d w)
  else
    match enter d w with
    | .error e => .stop (.failed e)
    | .ok (cnt, w) =>
      match ps.find? fun p => sameName p.name name with
      | none => .stop (.failed (.illOpcode, w.state))
      | some p =>
        match run ⟨d.addrs + 1, d.callers + 1, cnt :: d.pcount⟩ p w with
        | .stop (.returned w) => .next w
        | o => o

/-- A block in a procedure. -/
def runBlock (d : Depth) (b : LineBlock) (w : World σ) : Out (World σ) (Done σ) :=
  match x.execute d (writeBlock dbg b.lineno b.e) w with
  | .ok w => .next w
  | .error e => .stop (.failed e)

/-- An escape ends the procedure where control jumps. -/
def pollEscape (d : Depth) (w : World σ) : Option (Done σ) := if x.escape w.state then some (.escaped d w) else none

/-- What lines and conditions mean. LOOP does what EXIT does. -/
def procSem (run : Depth → ProcDef → World σ → Out (World σ) (Done σ)) (d : Depth) : Sem Act LineBlock (World σ) (Done σ) where
  act
    | .blank _, w => .next w
    | .other b, w => runBlock x dbg d b w
    | .doProc name args, w => (runBlock x dbg d args w).bind (callBy x ps run d (name.take Db3w.VNAMELEN))
    | .ret none, w => .stop (leaves x d none w)
    | .ret (some (_, b)), w => (runBlock x dbg d b w).bind fun w =>
      match takeValue w with
      | .error r => .stop r
      | .ok (rtv, w) => .stop (leaves x d (some rtv) w)
    | .exit, w | .loop, w =>
      match pollEscape x d w with
      | some r => .stop r
      | none => .exit w
  cond c w := do
    let w ← (x.execute d (writeBlock dbg c.lineno c.e) w).mapError Done.failed
    (istrue w).mapError Done.failed
  poll := pollEscape x d

/-- What a procedure does, with at most `n` calls inside each other and `n` rounds of each loop. -/
def procRun : Nat → Depth → ProcDef → World σ → Out (World σ) (Done σ)
  | 0, _, _, _ => .more
  | n + 1, d, p, w =>
    match p.body.run (procSem x dbg ps (procRun n) d) (n + 1) w with
    | .next w | .exit w => .stop (leaves x d none w)
    | o => o

end Machine

end Db3w.Hb
