/-
Index pages and the operations on single entries. An index file is a header page followed by
pages of entries; entry `i` of a page holds a record number, a key and the page of the subtree
before it, and the entry after the last one holds only the page of the last subtree. A page whose
first subtree page is zero is a leaf.

Pages are values here: `getpage` gives a copy of the page in the file, and nothing reaches the
file before `writePage`. Operations that raise an error keep the state they reached.
-/
import Db3w.Ndx.Key

namespace Db3w

abbrev Pageno := Nat
abbrev Recno := Nat

/-- `NDX_ENTRY`: the page of the subtree before the key, the record and the key. -/
structure NdxEntry where
  pno : Pageno
  recno : Recno
  key : Key
  deriving DecidableEq, Repr

/-- `NDX_PAGE`: entries `0 … entryCnt`, the last of which is only a subtree page. -/
structure NdxPage where
  entryCnt : Nat
  entries : Nat → NdxEntry

/-- A page of zero bytes. -/
def zeroPage : NdxPage := ⟨0, fun _ => ⟨0, 0, []⟩⟩

/-- Errors that end a command. `invalidEntry` and `ntndx` carry the number `ndx_err` is given;
`outOfFuel` is none of the engine's: it marks a run of the model that was given too few steps. -/
inductive HbErr where
  | invalidEntry (seq : Int)
  | ntndx (seq : Int)
  | outOfFuel
  deriving DecidableEq, Repr

/-- The switches and flags that index code reads: UNIQUE and EXACT, and how the table is open. -/
structure Cfg where
  uniqueOn : Bool
  exactOn : Bool
  exclusive : Bool
  denywrite : Bool
  deriving DecidableEq, Repr

/-- `NDX`: an open index with its file. `hdrPage` is the header as page 0 holds it, `hdr` the copy
in memory, `wHdr` the mark that the two may differ; `seq` is the master order of the table. -/
structure Ndx where
  hdr : NdxHdr
  hdrPage : NdxHdr
  file : Pageno → NdxPage
  wHdr : Bool
  fsync : Bool
  pageNo : Pageno
  entryNo : Int
  seq : Int

/-- Index code: it may raise an error, and changes the open index and its file. -/
abbrev NdxM := EStateM HbErr Ndx

theorem NdxM.bind_apply {α β : Type} (x : NdxM α) (f : α → NdxM β) (st : Ndx) :
    (x >>= f) st = match x st with
      | .ok a st' => f a st'
      | .error e st' => .error e st' := by
  simp only [bind, EStateM.bind]
  cases x st <;> rfl

theorem NdxM.bind_ok {α β : Type} {x : NdxM α} {f : α → NdxM β} {st st' : Ndx} {a : α} (h : x st = .ok a st') :
    (x >>= f) st = f a st' := by rw [NdxM.bind_apply, h]

theorem NdxM.bind_error {α β : Type} {x : NdxM α} {f : α → NdxM β} {st st' : Ndx} {e : HbErr}
    (h : x st = .error e st') : (x >>= f) st = .error e st' := by rw [NdxM.bind_apply, h]

theorem NdxM.pure_apply {α : Type} (a : α) (st : Ndx) : (pure a : NdxM α) st = .ok a st := rfl

theorem NdxM.get_apply (st : Ndx) : (get : NdxM Ndx) st = .ok st st := rfl

theorem NdxM.modify_apply (f : Ndx → Ndx) (st : Ndx) : (modify f : NdxM Unit) st = .ok () (f st) := rfl

theorem NdxM.throw_apply {α : Type} (e : HbErr) (st : Ndx) : (throw e : NdxM α) st = .error e st := rfl

/-! ## Header and pages -/

/-- `read_ndx_hdr`: the parts of a composite key are not stored. -/
def readNdxHdr : NdxM Unit := modify fun st => { st with hdr := { st.hdrPage with cmbkey := st.hdr.cmbkey } }

/-- `write_ndx_hdr`: the key type is cut to its low seven bits, in memory and on disk. -/
def writeNdxHdr : NdxM Unit := modify fun st =>
  let hd := { st.hdr with keytyp := st.hdr.keytyp &&& 0x7f }
  { st with hdr := hd, hdrPage := hd }

/-- `getpage`: a page past the end of the file starts as zeros. -/
def getpage (n : Pageno) : NdxM NdxPage := do
  let st ← get
  return if n ≥ st.hdr.pagecnt then zeroPage else st.file n

/-- `write_page`. -/
def writePage (pno : Pageno) (p : NdxPage) : NdxM Unit :=
  modify fun st => { st with file := Function.update st.file pno p }

/-- `get_entry`: the entry after the last one may be asked for, for its subtree page. -/
def getEntry (p : NdxPage) (item : Int) : NdxM NdxEntry := do
  if item < 0 ∨ item > p.entryCnt then throw (.invalidEntry (← get).seq)
  return p.entries item.toNat

def neGetKey (p : NdxPage) (n : Int) : NdxM Key := return (← getEntry p n).key
def neGetPageno (p : NdxPage) (n : Int) : NdxM Pageno := return (← getEntry p n).pno
def neGetRecno (p : NdxPage) (n : Int) : NdxM Recno := return (← getEntry p n).recno

/-- Page `p` with entry `n` replaced. -/
def NdxPage.set (p : NdxPage) (n : Nat) (e : NdxEntry) : NdxPage := { p with entries := Function.update p.entries n e }

def nePutPageno (p : NdxPage) (n : Int) (pno : Pageno) : NdxM NdxPage :=
  return p.set n.toNat { ← getEntry p n with pno }
def nePutRecno (p : NdxPage) (n : Int) (recno : Recno) : NdxM NdxPage :=
  return p.set n.toNat { ← getEntry p n with recno }
/-- The `memcpy` of a key into entry `n`. -/
def nePutKey (p : NdxPage) (n : Int) (key : Key) : NdxM NdxPage :=
  return p.set n.toNat { ← getEntry p n with key }

/-- `is_leaf`. -/
def isLeaf (p : NdxPage) : NdxM Bool := return (← neGetPageno p 0) == 0

/-- `move_entry`: an entry is moved as its record and key with the subtree page after it. -/
def moveEntry (pg1 : NdxPage) (e1 : Int) (pg2 : NdxPage) (e2 : Int) : NdxM NdxPage := do
  let ep1 ← getEntry pg1 e1
  let ep2 ← getEntry pg2 e2
  let ep3 ← getEntry pg1 (e1 + 1)
  let ep4 ← getEntry pg2 (e2 + 1)
  return (pg2.set (e2 + 1).toNat { ep4 with pno := ep3.pno }).set e2.toNat { ep2 with recno := ep1.recno, key := ep1.key }

/-- `insert_entry`: a leaf takes no entry without a record, an internal page none without a
subtree. The position of an entry put into a leaf is kept for traversal. -/
def insertEntry (p : NdxPage) (pno : Pageno) (r : Int) (target : NdxEntry) : NdxM NdxPage := do
  let leaf ← isLeaf p
  if (leaf ∧ target.recno = 0) ∨ (¬leaf ∧ target.pno = 0) then throw (.invalidEntry pno)
  let p ← nePutRecno p r target.recno
  let p ← nePutKey p r target.key
  let p ← nePutPageno p (r + 1) target.pno
  if ← isLeaf p then modify fun st => { st with pageNo := pno, entryNo := r }
  return p

end Db3w
