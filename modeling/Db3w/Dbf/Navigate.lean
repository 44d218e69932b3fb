/-
Navigation in a table and in the tables related to it (rec.c, and `find`, `valid_chk` and `setetof` of db.c). A
context has at most one related context, so the contexts that a command can reach are a chain, the current one in
front. The functions call each other along the chain and around their loops; all calls have one fuel.
-/
import Db3w.Hb.Code
import Db3w.Lib.Bytes
import Db3w.Ndx.Traverse

namespace Db3w.Nav

open Hb (Settings Stack)

/-- The error of an index, or of an expression or the stack; a record number that is out of range; and that the
calls go deeper than the fuel. -/
inductive Fault where
  | index (e : HbErr)
  | value (e : Hb.HbErr)
  | outOfRange
  | outOfFuel

/-- A context. `buf` is the record in the buffer; what depends on a record is given by its number: whether DELETED
or the filter takes it out, what the key expression yields on it and the key made of that (none for NULL), and the
value of the relation. `nextrec` is that of the scope, 0 when it has none. -/
structure Area where
  reccnt : Recno
  crntrec : Recno
  buf : Recno
  eof : Bool
  tof : Bool
  recFound : Bool
  order : Option Ndx
  nextrec : Recno
  exclusive : Bool
  denywrite : Bool
  hidden : Recno → Bool
  keyVals : Recno → List Hb.HbVal
  keyOf : Recno → Option Key
  relation : Recno → Hb.HbVal

/-- The chain of contexts and the stack. -/
structure World where
  cur : Area
  rela : List Area
  stack : Stack

abbrev NavM := EStateM Fault World

/-- The options, the bytes of the stack, the depth of index pages that is looked at, and what is in variables that
are not set: the page of `btxrch`, the key of `find`, and the record of `gotop`. -/
structure Env where
  set : Settings
  uniqueOn : Bool
  cap : Nat
  depth : Nat
  pageJunk : List Bool → Pageno
  keyJunk : Key
  recJunk : Recno

namespace Area

variable (a : Area)

/-- `etof`; `none` asks for either end. -/
def etof : Option Dir → Bool
  | some .forward => a.eof
  | some .backward => a.tof
  | none => a.eof || a.tof

/-- `clretof`. -/
def clretof : Option Dir → Area
  | some .forward => { a with eof := false }
  | some .backward => { a with tof := false }
  | none => { a with eof := false, tof := false }

/-- What `setetof` does to one context. -/
def mark : Option Dir → Area
  | some .forward => { a with eof := true, crntrec := a.reccnt + 1 }
  | some .backward => { a with tof := true, crntrec := 0 }
  | none => { a with eof := true, tof := true }

/-- `gorec`. Past the last record the buffer is blank. -/
def gorec (recno : Recno) : Area := if recno = 0 then a else { a with buf := recno, crntrec := recno }

/-- The key of the record in the buffer, as `ndx_get_key` makes it. -/
def target : Option NdxEntry := (a.keyOf a.buf).map fun key => ⟨0, a.crntrec, key⟩

/-- Which end it is at: `dir` of `go_rel`. -/
def ends : Option Dir :=
  if a.eof then if a.tof then none else some .forward
  else if a.tof then some .backward else none

end Area

/-! ## The parts of a step -/

section Env

variable (env : Env)

def Env.cfg (a : Area) : Cfg := ⟨env.uniqueOn, env.set.exactOn, a.exclusive, a.denywrite⟩

/-- Work on the controlling index of the current context. -/
def onIndex {α : Type} (f : Cfg → NdxM α) : NavM α := fun w =>
  match w.cur.order with
  | none => .error .outOfRange w
  | some st => match f (env.cfg w.cur) st with
    | .ok a st' => .ok a { w with cur := { w.cur with order := some st' } }
    | .error e st' => .error (.index e) { w with cur := { w.cur with order := some st' } }

/-- Work on the stack. -/
def onStack {α : Type} (f : Stack → Except Hb.HbErr (α × Stack)) : NavM α := fun w =>
  match f w.stack with
  | .ok (a, st) => .ok a { w with stack := st }
  | .error e => .error (.value e) w

def pushVal (v : Hb.HbVal) : NavM Unit := onStack fun st => (Hb.push env.cap v st).map ((), ·)

def bopEqual : NavM Unit := onStack fun st => (Hb.bop env.set env.cap Hb.TEQUAL st).map ((), ·)

end Env

/-- `ctx_select` to the related context, and back at the end. -/
def inRela {α : Type} (f : NavM α) : NavM α := fun w =>
  match w.rela with
  | [] => .error .outOfRange w
  | a :: as => match f ⟨a, as, w.stack⟩ with
    | .ok r w' => .ok r ⟨w.cur, w'.cur :: w'.rela, w'.stack⟩
    | .error e w' => .error e ⟨w.cur, w'.cur :: w'.rela, w'.stack⟩

def modifyCur (f : Area → Area) : NavM Unit := modify fun w => { w with cur := f w.cur }

/-- `setetof`: the contexts related to are set as well. -/
def World.setetof (w : World) (d : Option Dir) : World := { w with cur := w.cur.mark d, rela := w.rela.map (·.mark d) }

def setetof (d : Option Dir) : NavM Unit := modify (·.setetof d)

/-- `valid_chk`, of a table in use. -/
def validChk : NavM Unit := do
  let a := (← get).cur
  if !a.etof none && a.reccnt ≠ 0 && a.crntrec = 0 then throw .outOfRange

/-- `pop_long`, as a record number. -/
def popRecno : NavM Recno := do
  match ← onStack Hb.popNumber with
  | .fixed n 0 => return n.toUInt64.toNat
  | _ => throw (.value .invalidValue)

/-- A value is NULL. -/
def isNull : Hb.HbVal → Bool
  | .logic none | .number .null | .date none | .charctr [] | .other .nulltyp _ | .other _ [] => true
  | _ => false

/-- `put_double`. -/
def doubleKey (r : Float) : Key := (List.range 8).map fun i => (r.toBits >>> (8 * i).toUInt64).toUInt8

/-- `get_double`. -/
def keyDouble (k : Key) : Float := Float.ofBits ((k.take 8).foldr (fun b r => r * 256 + b.toUInt64) 0)

/-- What `find(TEQUAL)` makes of one value: the key to search for, or nothing to be found. -/
def relKey (env : Env) (hd : NdxHdr) (v : Hb.HbVal) : Option Key :=
  let part := hd.cmbkey.head?
  if isNull v then none else
  match v with
  | .charctr s =>
    if hd.keytyp = 0 then if s.length > hd.keylen then none else some (findKey env.set.exactOn (some .tequal) s hd.keylen)
    else if hd.keytyp ≠ CMBK ∨ part.map Cmbk.typ ≠ some .charctr then none
    else some (Bytes.writeAt 0 s (Bytes.writeAt 0 (List.replicate ((part.map Cmbk.len).getD 0) 32) env.keyJunk))
  | .date d =>
    if hd.keytyp = 0 ∨ hd.keytyp = CMBK ∧ part.map Cmbk.typ ≠ some .date then none
    else some (Bytes.writeAt 0 (doubleKey (Float.ofNat (d.elim 0 fun d => d.toNat % 2 ^ 16))) env.keyJunk)
  | .number n =>
    if hd.keytyp = 0 ∨ hd.keytyp = CMBK ∧ part.map Cmbk.typ ≠ some .number then none
    else some (Bytes.writeAt 0 (doubleKey n.toReal) env.keyJunk)
  | _ => none

/-- `push_ndx_entry`. -/
def entryVal (hd : NdxHdr) (key : Key) : Hb.HbVal :=
  if hd.keytyp = CMBK then
    match hd.cmbkey.head? with
    | some ⟨.charctr, len⟩ => .charctr (key.take len)
    | _ => .number (.real (keyDouble key))
  else if hd.keytyp ≠ 0 then .number (.real (keyDouble key))
  else .charctr (key.take hd.keylen)

/-- The record that `next` goes to. -/
def nextRecno (env : Env) (dir : Dir) : NavM Recno := do
  let a := (← get).cur
  if a.order.isSome then
    if a.nextrec ≠ 0 then return a.nextrec
    else onIndex env fun cfg => nextndx cfg env.depth dir a.target env.pageJunk
  else return (if dir = .forward then a.crntrec + 1 else a.crntrec + (2 ^ 64 - 1)) % 2 ^ 64

/-- How `next` goes there. -/
def World.goNext (w : World) (dir : Dir) (crntr : Recno) : World :=
  let w := if crntr = 0 then w.setetof (some dir) else if w.cur.reccnt < crntr then w.setetof (some .forward) else w
  let a := if w.cur.etof (some dir) then w.cur
    else (w.cur.gorec crntr).clretof (some (if dir = .forward then .backward else .forward))
  { w with cur := { a with crntrec := crntr } }

/-- What `go` does in the index: nothing when the position is at the record, else it looks for its key. -/
def ndxGo (cfg : Cfg) (fuel : Nat) (recno : Recno) (target : Option NdxEntry) : NdxM Unit := do
  if (← get).fsync then readNdxHdr
  let st ← get
  let here ← if st.pageNo ≠ 0 then (do pure ((← neGetRecno (← getpage st.pageNo) st.entryNo) == recno)) else pure false
  if here then return ()
  match target with
  | none => return ()
  | some target => if (← btsrch cfg fuel st.hdr.rootno .tequal target) = 0 then throw (.ntndx st.seq)

/-! ## The functions that call each other -/

section Calls

variable (env : Env)

mutual

/-- `go_rel`: the record of the related table that the relation leads to, and whether there is one. -/
def goRel : Nat → NavM Bool
  | 0 => throw .outOfFuel
  | fuel + 1 => do
    let w ← get
    if w.rela.isEmpty then return true
    if w.cur.etof none then
      inRela (setetof w.cur.ends)
      return false
    pushVal env (w.cur.relation w.cur.buf)
    inRela do
      let v ← onStack fun st => (Hb.popAny st).map fun r => (r.1, st)
      if isNull v then
        let _ ← onStack Hb.popAny
        modifyCur fun a => { a with eof := true }
        let _ ← goRel fuel
        return false
      else if (← get).cur.order.isSome then
        pushVal env (.number (.fixed 1 0))
        find fuel
        return (← get).cur.recFound
      else
        let _ ← go fuel (← popRecno)
        return !(← get).cur.etof none

/-- `go`. -/
def go : Nat → Recno → NavM Bool
  | 0, _ => throw .outOfFuel
  | fuel + 1, recno => do
    modifyCur fun a => { a with recFound := false }
    if recno = 0 then
      setetof (some .backward)
      return false
    if (← get).cur.reccnt < recno then
      setetof (some .forward)
      return false
    modifyCur fun a => (a.clretof none).gorec recno
    let a := (← get).cur
    if a.hidden a.buf then
      setetof (some .forward)
      return false
    if a.order.isSome then onIndex env fun cfg => ndxGo cfg env.depth recno a.target
    goRel fuel

/-- `next`. -/
def next : Nat → Dir → NavM Unit
  | 0, _ => throw .outOfFuel
  | fuel + 1, dir => do
    modifyCur fun a => ({ a with recFound := false }).clretof (some dir)
    let crntr ← nextRecno env dir
    modify (·.goNext dir crntr)
    nextRel fuel dir

/-- The loop at the end of `next`. -/
def nextRel : Nat → Dir → NavM Unit
  | 0, _ => throw .outOfFuel
  | fuel + 1, dir => do
    if ← goRel fuel then return ()
    next fuel dir
    nextRel fuel dir

/-- `find(TEQUAL)` of the one value that `go_rel` pushes. -/
def find : Nat → NavM Unit
  | 0 => throw .outOfFuel
  | fuel + 1 => do
    validChk
    onIndex env fun _ => readNdxHdr
    modifyCur fun a => { a with recFound := false }
    let _ ← onStack (Hb.popInt 0 255)
    let hd ← onIndex env fun _ => return (← get).hdr
    let v ← onStack Hb.popAny
    match relKey env hd v with
    | none => noFind fuel
    | some key =>
      modifyCur fun a => a.clretof none
      let recno ← onIndex env fun cfg => btsrch cfg env.depth hd.rootno .tequal ⟨0, 0, key⟩
      if recno = 0 then noFind fuel
      else
        modifyCur fun a => a.gorec recno
        if ← findShown fuel then
          if ← goRel fuel then modifyCur fun a => { a with recFound := true }
        else noFind fuel

/-- The label `nofind2` of `find`. -/
def noFind : Nat → NavM Unit
  | 0 => throw .outOfFuel
  | fuel + 1 => do
    modifyCur fun a => { a with eof := true }
    let _ ← goRel fuel

/-- The loop of `find` over the records that are taken out; the values of each key stay on the stack. -/
def findShown : Nat → NavM Bool
  | 0 => throw .outOfFuel
  | fuel + 1 => do
    let a := (← get).cur
    if !a.etof none && a.hidden a.buf then
      next fuel .forward
      let a := (← get).cur
      if a.etof none then return false
      (a.keyVals a.buf).forM (pushVal env)
      let same ← onIndex env fun cfg => do
        let st ← get
        return keycmp st.hdr cfg.exactOn ((a.keyOf a.buf).getD []) (← neGetKey (← getpage st.pageNo) st.entryNo) == 0
      if !same then return false
      findShown fuel
    else return true

end

/-! ## The ends of a table, and SKIP -/

/-- The loop at the end of `gotop` and `gobot`: the first record from here on that is shown. -/
def settle : Nat → Dir → NavM Unit
  | 0, _ => throw .outOfFuel
  | fuel + 1, dir => do
    let a := (← get).cur
    if a.etof (some dir) then return ()
    if a.hidden a.buf then
      next env fuel dir
      settle fuel dir
    else if ← goRel env fuel then return ()
    else settle fuel dir

/-- `gobot`. -/
def gobot (fuel : Nat) : NavM Unit := do
  modifyCur fun a => ({ a with recFound := false }).clretof none
  let a := (← get).cur
  let recno ← if a.order.isSome then (do
      match ← onIndex env fun cfg => ndxbot cfg env.depth with
      | none =>
        setetof none
        pure 0
      | some recno => pure recno)
    else pure a.reccnt
  if recno = 0 then setetof none else modifyCur (·.gorec recno)
  settle env fuel .backward

/-- `gotop`. -/
def gotop (fuel : Nat) : NavM Unit := do
  modifyCur fun a => ({ a with recFound := false }).clretof none
  let a := (← get).cur
  let recno ← if a.reccnt = 0 then (do
      setetof none
      pure env.recJunk)
    else if a.order.isSome then (do
      match ← onIndex env fun cfg => ndxtop cfg env.depth with
      | none =>
        setetof none
        pure 0
      | some recno => pure recno)
    else pure 1
  if recno = 0 then setetof none else modifyCur (·.gorec recno)
  settle env fuel .forward

/-- `skip_rel`: whether a related table could be moved to another record for the current one. -/
def skipRel : Nat → Dir → NavM Bool
  | 0, _ => throw .outOfFuel
  | fuel + 1, dir => do
    let w ← get
    if w.rela.isEmpty || w.cur.etof none || (w.rela.head?.bind Area.order).isNone then return false
    pushVal env (w.cur.relation w.cur.buf)
    inRela do
      if ← skipRel fuel dir then return true
      let a := (← get).cur
      if a.etof (some dir) || a.crntrec = 0 then
        let _ ← onStack Hb.popAny
        return false
      let (recno, key) ← onIndex env fun cfg => nextndxPush cfg env.depth dir a.target env.pageJunk
      match key with
      | none => pure ()
      | some key => pushVal env (entryVal (← onIndex env fun _ => return (← get).hdr) key)
      if recno = 0 then
        let _ ← onStack Hb.popAny
        return false
      bopEqual env
      -- NULL counts as equal
      if (← onStack Hb.popLogic).getD true then
        let _ ← go env fuel recno
        return true
      return false

/-- The loop of `skip`; gives what is left to skip. -/
def skipLoop : Nat → Dir → Nat → NavM Nat
  | 0, _, _ => throw .outOfFuel
  | _ + 1, _, 0 => return 0
  | fuel + 1, dir, n + 1 => do
    if ← skipRel env fuel dir then skipLoop fuel dir n
    else
      next env fuel dir
      let a := (← get).cur
      if a.etof (some dir) then return n
      else if a.hidden a.buf then skipLoop fuel dir (n + 1)
      else skipLoop fuel dir n

/-- `skip`. -/
def skip (fuel : Nat) (n : Int) : NavM Nat := do
  if n = 0 then return 0
  let dir : Dir := if 0 < n then .forward else .backward
  let count := n.natAbs
  if (← get).cur.etof (some (if dir = .forward then .backward else .forward)) then
    if dir = .forward then gotop env fuel else gobot env fuel
    if (← get).cur.etof none then return 0
    return count - (← skipLoop env fuel dir (count - 1))
  return count - (← skipLoop env fuel dir count)

end Calls

end Db3w.Nav
