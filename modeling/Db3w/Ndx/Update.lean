/-
Insertion into and deletion from an index. `btsrin` puts an entry into the leaf it belongs to and
hands a promoted entry with a new page up when a page was full; `btsrdel` takes an entry out and
hands up the only subtree left of a page that has lost its last separator. Both return the target
as they leave it: it carries what the caller still has to do. `insertNew` and `removeOldInsertNew`
do what is left at the root.
-/
import Db3w.Ndx.Btree

namespace Db3w

/-! ## Moving runs of entries -/

/-- `for (i=r+k; i>r; --i) move_entry(p, i - 1, p, i)`. -/
def shiftUp (r : Nat) : Nat → NdxPage → NdxM NdxPage
  | 0, p => return p
  | k + 1, p => do shiftUp r k (← moveEntry p (r + k) p (r + k + 1))

/-- `for (e=r; e<r+k; ++e) move_entry(p, e + 1, p, e)`. -/
def shiftDown : Nat → Nat → NdxPage → NdxM NdxPage
  | 0, _, p => return p
  | k + 1, r, p => do shiftDown k (r + 1) (← moveEntry p (r + 1) p r)

/-- `for (i=0; i<k; i++) move_entry(p, a + i, q, b + i)`. -/
def copyEntries (p : NdxPage) : Nat → Nat → Nat → NdxPage → NdxM NdxPage
  | 0, _, _, q => return q
  | k + 1, a, b, q => do copyEntries p k (a + 1) (b + 1) (← moveEntry p a q b)

/-! ## Insertion -/

/-- The page with room: the entries from `r` on move up. -/
def insertPage (p : NdxPage) (pno : Pageno) (r : Nat) (target : NdxEntry) : NdxM NdxPage := do
  let p' ← shiftUp r (p.entryCnt - r) { p with entryCnt := p.entryCnt + 1 }
  insertEntry p' pno r target

/-- The moves of a split around the middle `n` of a page of `e` entries: the upper half of what
page `p` would be with the target goes to `q`, the new page `pn3`, and the target becomes the
entry in the middle. -/
def splitMoves (e n : Nat) (pn3 : Pageno) (p q : NdxPage) (pno : Pageno) (r : Nat) (target : NdxEntry) :
    NdxM (NdxPage × NdxPage × NdxEntry) := do
  if r = n then
    let q ← copyEntries p (e - n) n 0 q
    let p ← insertEntry p pno n target
    return (p, q, target)
  else if r < n then
    let q ← copyEntries p (e - n) n 0 q
    let p ← shiftUp r (n - r) p
    let p ← insertEntry p pno r target
    return (p, q, { target with recno := ← neGetRecno p n, key := ← neGetKey p n })
  else
    let q ← copyEntries p (r - n - 1) (n + 1) 0 q
    let q ← insertEntry q pn3 ((r : Int) - n - 1) target
    let q ← copyEntries p (e - r) r (r - n) q
    return (p, q, { target with recno := ← neGetRecno p n, key := ← neGetKey p n })

/-- The full page is split. Gives the page, the new page and the promoted entry. -/
def splitPage (p : NdxPage) (pno : Pageno) (r : Nat) (target : NdxEntry) : NdxM (NdxPage × NdxPage × NdxEntry) := do
  let hdr := (← get).hdr
  let e := hdr.norecpp
  let n := e / 2
  let q ← getpage hdr.pagecnt
  let (p, q, target) ← splitMoves e n hdr.pagecnt p { q with entryCnt := e - n } pno r target
  let q ← nePutPageno q 0 (← neGetPageno p (n + 1))
  let leaf ← isLeaf p
  return ({ p with entryCnt := if leaf then n + 1 else n }, q, target)

/-- Writes the two halves of a split page and gives the number of the new one. -/
def writeSplit (pno : Pageno) (p q : NdxPage) : NdxM Pageno := do
  let pn3 := (← get).hdr.pagecnt
  modify fun st => { st with hdr := { st.hdr with pagecnt := pn3 + 1 } }
  writePage pno p
  writePage pn3 q
  if (← get).fsync then writeNdxHdr else modify fun st => { st with wHdr := true }
  return pn3

/-- Puts what the lower level sent up into page `pno` at `r`, and splits the page if it is full. -/
def putEntry (p : NdxPage) (pno : Pageno) (r : Nat) (target : NdxEntry) : NdxM NdxEntry := do
  if p.entryCnt < (← get).hdr.norecpp then
    writePage pno (← insertPage p pno r target)
    return { target with recno := 0, pno := 0 }
  else
    let (p, q, target) ← splitPage p pno r target
    return { target with pno := ← writeSplit pno p q }

/-- Inserts the target below page `pno`. -/
def btsrin (cfg : Cfg) : Nat → Pageno → NdxEntry → NdxM (Rc × NdxEntry)
  | 0, _, _ => throw .outOfFuel
  | fuel + 1, pno, target =>
    if pno = 0 then return (.zero, target) else do
    let p ← getpage pno
    let pn3 ← neGetPageno p 0
    let (e, r, pn3) ← slotLoop (btsrinCmp cfg fuel p target) p p.entryCnt 0 pn3
    if e = 0 then return (.dupkey, target)
    let (rc, target) ← btsrin cfg fuel pn3 target
    if rc ≠ .zero then return (rc, target)
    -- the lower level may have sent up unfinished work
    else if target.recno ≠ 0 ∨ target.pno ≠ 0 then return (.zero, ← putEntry p pno r target)
    else return (.zero, target)

/-- Marks the header as changed, or writes it when others have the table open too. -/
def saveRoot (cfg : Cfg) : NdxM Unit :=
  if cfg.exclusive then modify fun st => { st with wHdr := true } else writeNdxHdr

/-- The new root of `insert_new`: the old one and what was sent up from it. -/
def newRoot (cfg : Cfg) (target : NdxEntry) : NdxM Unit := do
  let hdr := (← get).hdr
  let cpg ← getpage hdr.pagecnt
  let cpg ← nePutPageno { cpg with entryCnt := 1 } 0 hdr.rootno
  modify fun st => { st with hdr := { hdr with rootno := hdr.pagecnt, pagecnt := hdr.pagecnt + 1 } }
  writePage hdr.pagecnt (← insertEntry cpg 0 0 target)
  saveRoot cfg

/-- `insert_new`: 0 for a duplicate and 1 otherwise. -/
def insertNew (cfg : Cfg) (fuel : Nat) (target : NdxEntry) : NdxM Int := do
  let (rc, target) ← btsrin cfg fuel (← get).hdr.rootno target
  if rc = .dupkey then return 0
  if target.recno ≠ 0 ∨ target.pno ≠ 0 then newRoot cfg target
  return 1

/-! ## Deletion -/

/-- Removes the last entry below page `ppno`, where entry `itmno` of the page `q` at `apno` has
the key of that entry and is given the key of the one before. True when nothing is left of
the page but perhaps a subtree, which the target then carries. -/
def del : Nat → Pageno → Pageno → NdxPage → Nat → NdxEntry → NdxM (Bool × NdxPage × NdxEntry)
  | 0, _, _, _, _, _ => throw .outOfFuel
  | fuel + 1, ppno, apno, q, itmno, target =>
    if ppno = 0 then return (true, q, target) else do
    let p ← getpage ppno
    let pn ← neGetPageno p p.entryCnt
    let (rm, q, target) ← del fuel pn apno q itmno target
    if !rm then return (false, q, target)
    else if p.entryCnt = 0 then return (true, q, target)
    else if pn = 0 then
      let p := { p with entryCnt := p.entryCnt - 1 }
      writePage ppno p
      if p.entryCnt = 0 then return (true, q, target)
      let pn ← neGetPageno q (itmno + 1)
      let q ← moveEntry p ((p.entryCnt : Int) - 1) q itmno
      let q ← nePutRecno q itmno 0
      let q ← nePutPageno q (itmno + 1) pn
      writePage apno q
      return (false, q, target)
    else if target.pno ≠ 0 then
      let p ← nePutPageno p p.entryCnt target.pno
      writePage ppno p
      return (false, q, { target with pno := 0 })
    else
      let pn ← neGetPageno q (itmno + 1)
      let p ← nePutPageno p p.entryCnt pn
      let q ← moveEntry p ((p.entryCnt : Int) - 1) q itmno
      writePage apno q
      let p := { p with entryCnt := p.entryCnt - 1 }
      writePage ppno p
      if p.entryCnt = 0 then return (true, q, { target with pno := ← neGetPageno p 0 })
      else return (false, q, target)

/-- Takes subtree `r` out of a page, and the entry after it or else the last one. -/
def dropSlot (p : NdxPage) (r : Nat) : NdxM NdxPage := do
  let p ← if r < p.entryCnt then do
      let npno ← neGetPageno p (r + 1)
      let p ← shiftDown (p.entryCnt - 1 - r) r p
      nePutPageno p r npno
    else pure p
  return { p with entryCnt := p.entryCnt - 1 }

/-- What `btsrdel` does at page `pno` when nothing is left of the subtree at `r`, or an orphan. -/
def mendPage (p : NdxPage) (pno : Pageno) (r : Nat) (target : NdxEntry) : NdxM (Bool × NdxEntry) := do
  if target.pno ≠ 0 then
    -- the lower level sent up an orphan
    writePage pno (← nePutPageno p r target.pno)
    return (false, { target with pno := 0 })
  else
    let p ← dropSlot p r
    writePage pno p
    if p.entryCnt = 0 then return (true, { target with pno := ← neGetPageno p 0 })
    else return (false, target)

/-- Removes the target below page `pno`; NTNDX when there is no such entry. -/
def btsrdel (cfg : Cfg) : Nat → Pageno → NdxEntry → NdxM (Bool × NdxEntry)
  | 0, _, _ => throw .outOfFuel
  | fuel + 1, pno, target =>
    if pno = 0 then do throw (.ntndx (← get).seq) else do
    let p ← getpage pno
    let pn3 ← neGetPageno p 0
    let (e, r, pn3) ← slotLoop (btsrdelCmp cfg fuel p target) p p.entryCnt 0 pn3
    if e = 0 then
      let (rm, p, target) ← del fuel pn3 pno p r target
      if rm then mendPage p pno r target else return (false, target)
    else
      let (rm, target) ← btsrdel cfg fuel pn3 target
      if rm then mendPage p pno r target else return (false, target)

/-- The part of `remove_old_insert_new` that removes the old entry. -/
def removeOld (cfg : Cfg) (fuel : Nat) (old : NdxEntry) : NdxM Unit := do
  let (rm, old) ← btsrdel cfg fuel (← get).hdr.rootno old
  if rm then
    if old.pno ≠ 0 then modify fun st => { st with hdr := { st.hdr with rootno := old.pno } }
    else modify fun st => { st with hdr := { st.hdr with rootno := 0, pagecnt := 1 } }
    saveRoot cfg

/-- `remove_old_insert_new` with the keys of the old and the new record, `none` for NULL: whether
the index was changed. -/
def removeOldInsertNew (cfg : Cfg) (fuel : Nat) (old new : Option NdxEntry) : NdxM Int := do
  match old, new with
  | none, none => return 0
  | none, some new =>
    let _ ← insertNew cfg fuel new
    return 1
  | some old, none =>
    removeOld cfg fuel old
    return 1
  | some old, some new =>
    let hdr := (← get).hdr
    if keycmp hdr cfg.exactOn old.key new.key = 0 then return 0
    removeOld cfg fuel old
    let _ ← insertNew cfg fuel new
    return 1

end Db3w
