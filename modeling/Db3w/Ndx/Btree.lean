/-
The B-tree: search, the step to the next leaf, insertion and deletion, each a recursion from a
page into one of its subtrees. A C loop over the entries of a page is a recursion on the number
of entries still to be looked at; the recursion over pages has a fuel, since nothing in a file
keeps a page from being its own descendant.
-/
import Db3w.Ndx.Page

namespace Db3w

/-- The direction of a traversal. -/
inductive Dir where
  | forward | backward
  deriving DecidableEq, Repr

/-- What `btsrin` returns when it raises no error: 0 or DUPKEY. -/
inductive Rc where
  | zero | dupkey
  deriving DecidableEq, Repr

/-- `a > b ? 1 : (a < b ? -1 : 0)` on record numbers. -/
def cmpRecno (a b : Recno) : Int := if a > b then 1 else if a < b then -1 else 0

/-- The loop of `btlr` down to the last leaf below a page. -/
def btlrDown : Nat → NdxPage → NdxM NdxPage
  | 0, _ => throw .outOfFuel
  | fuel + 1, p => do
    if ← isLeaf p then return p
    btlrDown fuel (← getpage (← neGetPageno p p.entryCnt))

/-- Compares a record with that of the last entry below page `pno`. -/
def btlr (fuel : Nat) (pno : Pageno) (recnum : Recno) : NdxM Int := do
  let p ← btlrDown fuel (← getpage pno)
  let recno ← neGetRecno p ((p.entryCnt : Int) - 1)
  return cmpRecno recnum recno

/-! ## Search -/

/-- The locals of the loop of `btsrch`: `r` is the entry looked at, `pn3` the subtree before it,
`r0` and `pn0` those of the entry before, and `e2` is 0 once a key equal to the target has been
passed. -/
structure Srch where
  e : Int
  e2 : Int
  r : Nat
  r0 : Int
  n3 : Recno
  pn3 : Pageno
  pn0 : Pageno

/-- How the loop of `btsrch` ends: at its condition, or by a jump to `found` or to `end`. -/
inductive SrchEnd where
  | cond (s : Srch)
  | found (r : Int)
  | fin (n3 : Recno)

section

variable (cfg : Cfg) (fuel : Nat) (cpg : NdxPage) (mode : RelOp) (target : NdxEntry)

/-- The loop of `btsrch` over the entries of a page. -/
def btsrchLoop : Nat → Srch → NdxM SrchEnd
  | 0, s => return .cond s
  | k + 1, s => do
    let pageno ← neGetPageno cpg (s.r + 1)
    let key ← neGetKey cpg s.r
    let hdr := (← get).hdr
    let e := keycmp hdr cfg.exactOn target.key key
    let next (s : Srch) : Srch := { s with r0 := s.r, r := s.r + 1, pn0 := s.pn3, pn3 := pageno }
    if e = 0 then
      if mode = .tgreater ∨ mode = .tgtrequ then
        btsrchLoop k (next { s with e := 1, e2 := 0 })
      else
        let n3 := target.recno
        let e ← if n3 = 0 then pure e
          else if s.pn3 ≠ 0 then btlr fuel s.pn3 n3
          else pure (cmpRecno n3 (← neGetRecno cpg s.r))
        if e = 0 ∧ s.pn3 = 0 then
          if mode = .tless then
            return if s.r = 0 then .fin n3 else .found s.r0
          else return .found s.r
        else if e > 0 then btsrchLoop k (next { s with e, n3 })
        else return .cond { s with e, n3 }
    else if e > 0 then btsrchLoop k (next { s with e })
    else return .cond { s with e }

/-- The label `found` of `btsrch`: the position is kept for traversal. -/
def btsrchFound (pno : Pageno) (r : Int) : NdxM Recno := do
  modify fun st => { st with pageNo := pno, entryNo := r }
  neGetRecno cpg r

end

/-- What `btsrch` does at page `pno` when its loop has ended at its condition; `call` is the
recursive call. -/
def btsrchCond (cpg : NdxPage) (mode : RelOp) (pno : Pageno) (call : Pageno → NdxM Recno) (s : Srch) : NdxM Recno :=
  if s.pn3 = 0 ∧ mode = .tgreater then
    if s.e < 0 then btsrchFound cpg pno s.r else return s.n3
  else if s.pn3 = 0 ∧ mode = .tgtrequ then
    if s.e > 0 then
      if s.e2 = 0 then btsrchFound cpg pno s.r0 else return 0
    else if s.r ≠ 0 then
      if s.e2 ≠ 0 then btsrchFound cpg pno s.r else btsrchFound cpg pno s.r0
    else return s.n3
  else if s.pn3 = 0 ∧ mode ≠ .tequal ∧ s.r ≠ 0 then btsrchFound cpg pno s.r0
  else do
    let n3 ← call s.pn3
    if n3 = 0 ∧ (mode = .tless ∨ mode = .tgtrequ) ∧ s.r0 ≠ -1 then call s.pn0 else return n3

/-- Searches the subtree at page `pno`: the record of the entry found, or 0. -/
def btsrch (cfg : Cfg) : Nat → Pageno → RelOp → NdxEntry → NdxM Recno
  | 0, _, _, _ => throw .outOfFuel
  | fuel + 1, pno, mode, target =>
    if pno = 0 then return 0 else do
    let cpg ← getpage pno
    let pn3 ← neGetPageno cpg 0
    match ← btsrchLoop cfg fuel cpg mode target cpg.entryCnt ⟨1, -1, 0, -1, 0, pn3, 0⟩ with
    | .found r => btsrchFound cpg pno r
    | .fin n3 => return n3
    | .cond s => btsrchCond cpg mode pno (fun pn => btsrch cfg fuel pn mode target) s

/-! ## The loop over the entries of a page -/

/-- The loop that `btxrch`, `btsrin` and `btsrdel` share: while the comparison is positive and
entries are left, step over the entry and the subtree before it. Gives the last comparison, the
entry the loop stopped at and the subtree before that entry. -/
def slotLoop (cmp : Nat → Pageno → NdxM Int) (p : NdxPage) : Nat → Nat → Pageno → NdxM (Int × Nat × Pageno)
  | 0, r, pn3 => return (1, r, pn3)
  | k + 1, r, pn3 => do
    let pageno ← neGetPageno p (r + 1)
    let e ← cmp r pn3
    if e > 0 then slotLoop cmp p k (r + 1) pageno else return (e, r, pn3)

section

variable (cfg : Cfg) (fuel : Nat) (p : NdxPage) (target : NdxEntry)

/-- The comparison of `btxrch` with entry `r` of an internal page: by key, then by record with the
last entry of the subtree before it. -/
def btxrchCmp (r : Nat) (pn3 : Pageno) : NdxM Int := do
  let key ← neGetKey p r
  let hdr := (← get).hdr
  let e := keycmp hdr cfg.exactOn target.key key
  if e ≠ 0 then return e else btlr fuel pn3 target.recno

/-- The comparison of `btsrdel`: in a leaf the record is that of the entry itself. -/
def btsrdelCmp (r : Nat) (pn3 : Pageno) : NdxM Int := do
  let recno ← neGetRecno p r
  let key ← neGetKey p r
  let hdr := (← get).hdr
  let e := keycmp hdr cfg.exactOn target.key key
  if e ≠ 0 then return e
  else if pn3 = 0 then return cmpRecno target.recno recno
  else btlr fuel pn3 target.recno

/-- The comparison of `btsrin`: with UNIQUE an equal key is a duplicate whatever its record. -/
def btsrinCmp (r : Nat) (pn3 : Pageno) : NdxM Int := do
  let recno ← neGetRecno p r
  let key ← neGetKey p r
  let hdr := (← get).hdr
  let e := keycmp hdr cfg.exactOn target.key key
  if e ≠ 0 then return e
  else if cfg.uniqueOn then return 0
  else if pn3 = 0 then return cmpRecno target.recno recno
  else btlr fuel pn3 target.recno

end

/-! ## The step to the next leaf -/

/-- The loop of `btxrch` backward, with `np` as it stands in this frame and `call` the recursive
call. The left component is an early return, the right one `ppn` and `npn` at the end. -/
def btxrchBack (cfg : Cfg) (fuel : Nat) (call : Pageno → NdxM Pageno) (cpg : NdxPage) (target : NdxEntry) :
    Nat → Pageno → Pageno → Pageno → NdxM (Pageno ⊕ Pageno × Pageno)
  | 0, ppn, npn, _ => return .inr (ppn, npn)
  | k + 1, ppn, npn, np => do
    let key ← neGetKey cpg k
    let hdr := (← get).hdr
    let e := keycmp hdr cfg.exactOn target.key key
    let (e, np, ret) ← if e = 0 then do
        let e ← btlr fuel npn target.recno
        let np ← if e = 0 then call npn else pure np
        pure (e, np, np != 0)
      else pure (e, np, false)
    if ret then return .inl np
    else if e > 0 then return .inr (ppn, npn)
    else
      let npn' ← if k = 0 then pure 0 else neGetPageno cpg ((k : Int) - 1)
      if e < 0 then btxrchBack cfg fuel call cpg target k npn npn' np
      else return .inr (npn, npn')

/-- Finds the page to go on with after (before) the leaf that ends with the target. `junk` is what
the local `np` of each frame holds before it is set, the frames told apart by their calls. -/
def btxrch (cfg : Cfg) : Nat → Dir → (List Bool → Pageno) → Pageno → NdxEntry → NdxM Pageno
  | 0, _, _, _, _ => throw .outOfFuel
  | fuel + 1, dir, junk, pn, target => do
    let cpg ← getpage pn
    if ← isLeaf cpg then return 0
    match dir with
    | .forward =>
      let (e, r, ppn) ← slotLoop (btxrchCmp cfg fuel cpg target) cpg cpg.entryCnt 0 (← neGetPageno cpg 0)
      if e = 0 then neGetPageno cpg (r + 1)
      else btxrch cfg fuel dir junk ppn target
    | .backward =>
      let ppn ← neGetPageno cpg cpg.entryCnt
      let npn ← neGetPageno cpg ((cpg.entryCnt : Int) - 1)
      let call (pn : Pageno) := btxrch cfg fuel dir (fun l => junk (true :: l)) pn target
      match ← btxrchBack cfg fuel call cpg target cpg.entryCnt ppn npn (junk []) with
      | .inl np => return np
      | .inr (ppn, npn) =>
        let np ← btxrch cfg fuel dir (fun l => junk (false :: l)) ppn target
        return if np = 0 then npn else np

end Db3w
