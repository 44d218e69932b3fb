/-
Traversal in index order. The position of a traversal is a page and an entry of it; at the end of
a page the next one is looked for from the root, with the last entry of the page as the target.
-/
import Db3w.Ndx.Btree

namespace Db3w

/-- The header is read again when others may have changed it. -/
def readHdrIfShared (cfg : Cfg) : NdxM Unit :=
  if !cfg.exclusive && !cfg.denywrite then readNdxHdr else pure ()

/-- The descent of `ndxtop` and `ndxbot` to a leaf, by the subtree that `item` names. -/
def descend (item : NdxPage → Int) : Nat → Pageno → NdxPage → NdxM (Pageno × NdxPage)
  | 0, _, _ => throw .outOfFuel
  | fuel + 1, pno, cpg => do
    let pn ← neGetPageno cpg (item cpg)
    if pn = 0 then return (pno, cpg)
    descend item fuel pn (← getpage pn)

/-- `ndxtop`: the record of the first entry; `none` when the index is empty, where the engine also
marks both ends of the table. -/
def ndxtop (cfg : Cfg) (fuel : Nat) : NdxM (Option Recno) := do
  readHdrIfShared cfg
  let pno := (← get).hdr.rootno
  let cpg ← getpage pno
  if cpg.entryCnt = 0 then return none
  let (pno, cpg) ← descend (fun _ => 0) fuel pno cpg
  modify fun st => { st with pageNo := pno, entryNo := 0 }
  return some (← neGetRecno cpg 0)

/-- `ndxbot`: the record of the last entry. -/
def ndxbot (cfg : Cfg) (fuel : Nat) : NdxM (Option Recno) := do
  readHdrIfShared cfg
  let pno := (← get).hdr.rootno
  let cpg ← getpage pno
  if cpg.entryCnt = 0 then return none
  let (pno, cpg) ← descend (fun p => p.entryCnt) fuel pno cpg
  modify fun st => { st with pageNo := pno, entryNo := (cpg.entryCnt : Int) - 1 }
  return some (← neGetRecno cpg ((cpg.entryCnt : Int) - 1))

/-- The loop of `lfind` down to a leaf: the outermost one on the side it comes from. -/
def lfindDown (dir : Dir) : Nat → Pageno → NdxPage → NdxM (Option (Pageno × NdxPage))
  | 0, _, _ => throw .outOfFuel
  | fuel + 1, pn, cpg => do
    if ← isLeaf cpg then return some (pn, cpg)
    let pn ← neGetPageno cpg (if dir = .forward then 0 else cpg.entryCnt)
    if pn = 0 then return none
    lfindDown dir fuel pn (← getpage pn)

/-- `lfind`: the entry to go on with at the end of a page, and the position moved to it. -/
def lfind (cfg : Cfg) (fuel : Nat) (dir : Dir) (junk : List Bool → Pageno) (ne : NdxEntry) : NdxM (Option NdxEntry) := do
  let pn ← btxrch cfg fuel dir junk (← get).hdr.rootno { ne with pno := 0 }
  if pn = 0 then return none
  match ← lfindDown dir fuel pn (← getpage pn) with
  | none => return none
  | some (pn, cpg) =>
    let entryNo : Int := if dir = .forward then 0 else (cpg.entryCnt : Int) - 1
    modify fun st => { st with pageNo := pn, entryNo }
    return some (← getEntry cpg entryNo)

/-- `memcmp` of `len` bytes. -/
def memcmp : Key → Key → Nat → Int
  | _, _, 0 => 0
  | c1 :: p, c2 :: q, len + 1 => if c1 > c2 then 1 else if c1 < c2 then -1 else memcmp p q len
  | _, _, _ => 0

/-- The entries are out of order as their bytes show them. -/
def outOfOrder (hdr : NdxHdr) (dir : Dir) (ne target : NdxEntry) : Bool :=
  let cmp := memcmp ne.key target.key hdr.keylen
  let cmp := if cmp = 0 then cmpRecno ne.recno target.recno else cmp
  match dir with
  | .forward => cmp ≤ 0
  | .backward => cmp ≥ 0

/-- `nextndx`: steps to the next (previous) entry and gives its record, 0 at the end. Without a
position the entry of the current record is looked up first; `cur` is its key, `none` for NULL. -/
def nextndx (cfg : Cfg) (fuel : Nat) (dir : Dir) (cur : Option NdxEntry) (junk : List Bool → Pageno) : NdxM Recno := do
  readHdrIfShared cfg
  let st ← get
  let found ← if st.pageNo ≠ 0 then pure true
    else match cur with
      | none => pure false
      | some target =>
        if (← btsrch cfg fuel st.hdr.rootno .tequal target) = 0 then throw (.ntndx st.seq)
        else pure true
  if !found then return 0
  let st ← get
  let cpg ← getpage st.pageNo
  if st.entryNo = (if dir = .forward then (cpg.entryCnt : Int) - 1 else 0) then
    let target ← getEntry cpg ((cpg.entryCnt : Int) - 1)
    match ← lfind cfg fuel dir junk target with
    | none => return 0
    | some ne => return if outOfOrder (← get).hdr dir ne target then 0 else ne.recno
  else
    let entryNo := st.entryNo + (if dir = .forward then 1 else -1)
    modify fun st => { st with entryNo }
    return (← getEntry cpg entryNo).recno

end Db3w
