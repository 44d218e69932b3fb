/-
The pool of index buffers. A buffer holds the header of an index, the key expression compiled from it
and a position in its tree. Selecting an index looks in one pass for the buffer that has it and for
one that is not in use, and opens the index file where it is not open yet. Closing a table selects
each of its indexes once more to close its file.
-/
import Db3w.Lib.Runs
import Db3w.Ndx.Page

namespace Db3w

abbrev MAXCTX : Nat := 100
abbrev MAXNDX : Nat := 16

/-- A context and the number of one of its indexes. -/
abbrev NdxId := Fin (MAXCTX + 1) × Fin MAXNDX

inductive NdxStat where
  | closed | inUse | swapped
  deriving DecidableEq, Repr

/-- An entry of the file table of a context. `isOpen` stands for `fd != -1`. -/
structure Fctl (F : Type) where
  filename : Option F
  isOpen : Bool
  deriving DecidableEq

/-- What `_chkndx` says of an entry. -/
def Fctl.stat {F : Type} (f : Fctl F) : NdxStat :=
  match f.filename with
  | none => .closed
  | some _ => if f.isOpen then .inUse else .swapped

section Stat

variable {F : Type} {f : Fctl F}

theorem Fctl.stat_inUse : f.stat = .inUse ↔ ∃ x, f = ⟨some x, true⟩ := by
  rcases f with ⟨_ | x, _ | _⟩ <;> simp [Fctl.stat]

theorem Fctl.stat_swapped : f.stat = .swapped ↔ ∃ x, f = ⟨some x, false⟩ := by
  rcases f with ⟨_ | x, _ | _⟩ <;> simp [Fctl.stat]

theorem Fctl.stat_closed : f.stat = .closed ↔ f.filename = none := by
  rcases f with ⟨_ | x, _ | _⟩ <;> simp [Fctl.stat]

end Stat

/-- An index buffer. `owner` are `ctx_id` and `seq`. The last two fields are not in the source: the
file the header was read from, and the file whose tree the position is in. -/
structure NdxBuf (F H : Type) where
  owner : Option NdxId
  age : Nat
  fctl : Option NdxId
  ndxH : H
  wHdr : Bool
  pageNo : Pageno
  entryNo : Int
  hdrFile : Option F
  posFile : Option F

/-- File tables and orders of the contexts, the pool of `k + 1` buffers with the current one, and the
headers in the files. -/
structure PoolSt (F H : Type) (k : Nat) where
  ndxfctl : NdxId → Fctl F
  order : Fin (MAXCTX + 1) → Option (Fin MAXNDX)
  pool : Fin (k + 1) → NdxBuf F H
  currNdx : Option (Fin (k + 1))
  disk : F → H

namespace PoolSt

variable {F H : Type} [DecidableEq F] {k : Nat}

def chkndx (st : PoolSt F H k) : Option NdxId → NdxStat
  | none => .closed
  | some p => (st.ndxfctl p).stat

def setBuf (st : PoolSt F H k) (q : Fin (k + 1)) (b : NdxBuf F H) : PoolSt F H k := { st with pool := Function.update st.pool q b }

def setFctl (st : PoolSt F H k) (p : NdxId) (f : Fctl F) : PoolSt F H k := { st with ndxfctl := Function.update st.ndxfctl p f }

/-- The header of the current index is written when it is to be. -/
def writeHdr (st : PoolSt F H k) : PoolSt F H k :=
  match st.currNdx with
  | none => st
  | some q =>
    match (st.pool q).fctl.bind fun p => (st.ndxfctl p).filename with
    | none => st
    | some f =>
      if (st.pool q).wHdr then
        { st with disk := Function.update st.disk f (st.pool q).ndxH }.setBuf q { st.pool q with wHdr := false }
      else st

def closendx (st : PoolSt F H k) : PoolSt F H k :=
  match st.currNdx with
  | none => st
  | some q =>
    match (st.pool q).fctl with
    | none => st
    | some p =>
      if (st.ndxfctl p).isOpen then
        let st := st.writeHdr
        (st.setBuf q { st.pool q with pageNo := 0 }).setFctl p { st.ndxfctl p with isOpen := false }
      else st

/-- `openidx` on a file that exists. -/
def openidx (st : PoolSt F H k) : PoolSt F H k :=
  match st.currNdx with
  | none => st
  | some q =>
    match (st.pool q).fctl with
    | none => st
    | some p =>
      match (st.ndxfctl p).filename with
      | none => st
      | some f =>
        (st.setBuf q { st.pool q with ndxH := st.disk f, wHdr := false, hdrFile := some f }).setFctl p
          { st.ndxfctl p with isOpen := true }

/-- The pass over the buffers. -/
def scan (st : PoolSt F H k) (p : NdxId) : List (Fin (k + 1)) → Option (Fin (k + 1)) × Bool → Option (Fin (k + 1)) × Bool
  | [], acc => acc
  | m :: ms, (q, found) =>
    let (q, found) := if (st.pool m).owner = some p then (some m, true) else (q, found)
    let q := if q = none ∨ st.chkndx (st.pool m).owner = .closed then some m else q
    st.scan p ms (q, found)

/-- The search for a buffer to take from another index, with the flag `swap`. -/
def swapScan (st : PoolSt F H k) : List (Fin (k + 1)) → Fin (k + 1) → Fin (k + 1) × Bool
  | [], q => (q, true)
  | m :: ms, q =>
    if st.chkndx (st.pool m).owner = .swapped then (m, false)
    else st.swapScan ms (if (st.pool m).age > (st.pool q).age then m else q)

/-- Buffer `q` becomes the current one and is given to index `p`. -/
def take (st : PoolSt F H k) (p : NdxId) (q : Fin (k + 1)) (found swap : Bool) : PoolSt F H k :=
  let st : PoolSt F H k := { st with currNdx := some q }.setBuf q { st.pool q with fctl := some p }
  let st : PoolSt F H k := if swap then st.closendx else st
  let b := { st.pool q with age := 0, owner := some p }
  let st : PoolSt F H k := st.setBuf q (if found then b else { b with pageNo := 0, entryNo := 0 })
  if st.order p.1 ≠ none ∧ st.chkndx (some p) = .swapped then st.openidx else st

def aged (st : PoolSt F H k) : PoolSt F H k := { st with pool := fun m => { st.pool m with age := (st.pool m).age + 1 } }

def ndxSelect (st : PoolSt F H k) (p : NdxId) : PoolSt F H k :=
  match st.scan p (List.finRange (k + 1)) (none, false) with
  | (some q, found) => st.aged.take p q found false
  | (none, found) =>
    let (q, swap) := st.aged.swapScan (List.finRange (k + 1)) 0
    st.aged.take p q found swap

def delfn (st : PoolSt F H k) (p : NdxId) : PoolSt F H k := st.setFctl p { st.ndxfctl p with filename := none }

/-- What `closeindex` does with one entry of the file table. -/
def closeOne (c : Fin (MAXCTX + 1)) (st : PoolSt F H k) (i : Fin MAXNDX) : PoolSt F H k :=
  (if st.chkndx (some (c, i)) = .inUse then (st.ndxSelect (c, i)).closendx else st).delfn (c, i)

def closeindex (st : PoolSt F H k) (c : Fin (MAXCTX + 1)) : PoolSt F H k :=
  let st := (List.finRange MAXNDX).foldl (closeOne c) st
  { st with order := Function.update st.order c none }

end PoolSt

/-! ## Runs -/

/-- What happens to the pool. A table is opened with index files, or its indexes are set: the old ones
are closed, and an order is set when the command names them. -/
inductive PoolOp (F H : Type) where
  | openindex (c : Fin (MAXCTX + 1)) (files : List F) (ordered : Bool)
  | closeindex (c : Fin (MAXCTX + 1))
  | setOrder (c : Fin (MAXCTX + 1)) (i : Option (Fin MAXNDX))
  | select (p : NdxId)
  | change (h : H)
  | write
  | move (pageNo : Pageno) (entryNo : Int)

namespace PoolSt

variable {F H : Type} [DecidableEq F] {k : Nat}

/-- The index files of a command. -/
def setFiles (st : PoolSt F H k) (c : Fin (MAXCTX + 1)) (files : List F) (ordered : Bool) : PoolSt F H k :=
  { st with
    ndxfctl := fun p =>
      match if p.1 = c then files[p.2.val]? else none with
      | some f => { st.ndxfctl p with filename := some f }
      | none => st.ndxfctl p
    order := if ordered ∧ files ≠ [] then Function.update st.order c (some 0) else st.order }

/-- What a command does to the current buffer of an index that is open. -/
def onCurr (st : PoolSt F H k) (f : NdxId → NdxBuf F H → NdxBuf F H) : PoolSt F H k :=
  match st.currNdx with
  | none => st
  | some q =>
    match (st.pool q).fctl with
    | none => st
    | some p => if st.chkndx (some p) = .inUse then st.setBuf q (f p (st.pool q)) else st

end PoolSt

/-- A step. An order is set to an index that is there, and an index that is not there is not selected. -/
def PoolOp.apply {F H : Type} [DecidableEq F] {k : Nat} (st : PoolSt F H k) : PoolOp F H → PoolSt F H k
  | .openindex c files ordered => (st.closeindex c).setFiles c files ordered
  | .closeindex c => st.closeindex c
  | .setOrder c i =>
    if i.any fun i => st.chkndx (some (c, i)) = .closed then st else { st with order := Function.update st.order c i }
  | .select p => if st.chkndx (some p) = .closed then st else st.ndxSelect p
  | .change h => st.onCurr fun _ b => { b with ndxH := h, wHdr := true }
  | .write => if st.currNdx.any fun q => st.chkndx (st.pool q).fctl = .inUse then st.writeHdr else st
  | .move pageNo entryNo => st.onCurr fun p b => { b with pageNo, entryNo, posFile := (st.ndxfctl p).filename }

/-- The pool after `db_init0`; the buffers have not been written yet. -/
def freshPool {F H : Type} {k : Nat} (junk : Fin (k + 1) → NdxBuf F H) (disk : F → H) : PoolSt F H k :=
  ⟨fun _ => ⟨none, false⟩, fun _ => none, fun m => { junk m with owner := none, fctl := none, hdrFile := none, posFile := none }, none, disk⟩

namespace PoolSt

variable {F H : Type} [DecidableEq F] {k : Nat}

def Held (st : PoolSt F H k) (m : Fin (k + 1)) (p : NdxId) : Prop := (st.pool m).owner = some p

/-- Index `p` has been selected: the current buffer is its own and has the header of its open file,
and no position in another tree. -/
def Serves (st : PoolSt F H k) (p : NdxId) : Prop :=
  ∃ q f, st.currNdx = some q ∧ st.Held q p ∧ st.ndxfctl p = ⟨some f, true⟩ ∧ (st.pool q).hdrFile = some f ∧
    ((st.pool q).pageNo = 0 ∨ (st.pool q).posFile = some f)

/-- Every open index has a buffer of its own. -/
def Apart (st : PoolSt F H k) : Prop := ∀ p, st.chkndx (some p) = .inUse → ∃! m, st.Held m p

end PoolSt

/-- A header of file `f` with unsaved changes. -/
def NdxBuf.Unsaved {F H : Type} (b : NdxBuf F H) (f : F) : Prop := b.wHdr = true ∧ b.hdrFile = some f

/-- Selecting index `p` goes right: the right index is served, open indexes keep their buffers, an
index that has a buffer keeps it and its position in it, and no unsaved header is given up. -/
structure SelectRight {F H : Type} [DecidableEq F] {k : Nat} (st : PoolSt F H k) (p : NdxId) : Prop where
  serves : (st.ndxSelect p).Serves p
  apart : (st.ndxSelect p).Apart
  keeps : ∀ m, st.Held m p → (st.ndxSelect p).currNdx = some m ∧ ((st.ndxSelect p).pool m).pageNo = (st.pool m).pageNo ∧
    ((st.ndxSelect p).pool m).entryNo = (st.pool m).entryNo
  saves : ∀ m f, (st.pool m).Unsaved f → ((st.ndxSelect p).pool m).owner ≠ (st.pool m).owner → (st.ndxSelect p).disk f = (st.pool m).ndxH

/-- A step goes right when every index it selects is selected right. -/
def PoolOp.Right {F H : Type} [DecidableEq F] {k : Nat} (st : PoolSt F H k) : PoolOp F H → Prop
  | .openindex c _ _ | .closeindex c =>
    Runs.Along (PoolSt.closeOne c) (fun st i => st.chkndx (some (c, i)) = .inUse → SelectRight st (c, i)) (List.finRange MAXNDX) st
  | .select p => st.chkndx (some p) ≠ .closed → SelectRight st p
  | _ => True

/-- What selecting an index needs: it is open or its context has an order; no buffer behind its own is
free; and without one of its own, some buffer is free or the first one is of an index that is not open. -/
structure SelectOk {F H : Type} {k : Nat} (st : PoolSt F H k) (p : NdxId) : Prop where
  opens : st.order p.1 ≠ none ∨ st.chkndx (some p) = .inUse
  last : ∀ n, st.Held n p → ∀ m > n, st.chkndx (st.pool m).owner ≠ .closed
  free : (∃ m, st.Held m p) ∨ (∃ m, st.chkndx (st.pool m).owner = .closed) ∨ st.chkndx (st.pool 0).owner = .swapped

/-- What closing the indexes of a context needs: behind the buffer of an open one no buffer is free or
of an index closed before it. -/
def CloseOk {F H : Type} {k : Nat} (st : PoolSt F H k) (c : Fin (MAXCTX + 1)) (is : List (Fin MAXNDX)) : Prop :=
  ∀ i ∈ is, st.chkndx (some (c, i)) = .inUse → ∀ n, st.Held n (c, i) → ∀ m > n,
    st.chkndx (st.pool m).owner ≠ .closed ∧ ∀ j ∈ is, j < i → (st.pool m).owner ≠ some (c, j)

def PoolOp.Ok {F H : Type} {k : Nat} (st : PoolSt F H k) : PoolOp F H → Prop
  | .openindex c _ _ | .closeindex c => CloseOk st c (List.finRange MAXNDX)
  | .select p => st.chkndx (some p) ≠ .closed → SelectOk st p
  | _ => True

/-! ## What a selection does -/

namespace PoolSt

variable {F H : Type} [DecidableEq F] {k : Nat} {st st' : PoolSt F H k} {p : NdxId} {q : Fin (k + 1)} {found : Bool}

omit [DecidableEq F] in
/-- The pass ends at the last buffer that is free or of the index, else at the first one. -/
theorem scan_spec (st : PoolSt F H k) (p : NdxId) : ∀ (l : List (Fin (k + 1))) (acc : Option (Fin (k + 1)) × Bool), l.Pairwise (· < ·) →
    ((st.scan p l acc).2 = true ↔ acc.2 = true ∨ ∃ m ∈ l, st.Held m p) ∧
      ((∃ n ∈ l, (st.scan p l acc).1 = some n ∧ (st.Held n p ∨ st.chkndx (st.pool n).owner = .closed) ∧
          ∀ m ∈ l, n < m → ¬st.Held m p ∧ st.chkndx (st.pool m).owner ≠ .closed) ∨
        (∀ m ∈ l, ¬st.Held m p ∧ st.chkndx (st.pool m).owner ≠ .closed) ∧ (st.scan p l acc).1 = acc.1.or l.head?)
  | [], (q, found), _ => by simp [scan]
  | a :: l, (q, found), hs => by
    obtain ⟨hlt, hs⟩ := List.pairwise_cons.mp hs
    rw [scan]
    by_cases hown : (st.pool a).owner = some p
    · rw [if_pos hown]
      dsimp only
      have hq : (if some a = none ∨ st.chkndx (st.pool a).owner = .closed then some a else some a) = some a := ite_self _
      rw [hq]
      obtain ⟨h1, h2⟩ := scan_spec st p l (some a, true) hs
      refine ⟨by simp [h1, Held, hown], Or.inl ?_⟩
      rcases h2 with ⟨n, hn, hr, hat, hbeh⟩ | ⟨hno, hr⟩
      · refine ⟨n, List.mem_cons_of_mem _ hn, hr, hat, ?_⟩
        intro m hm hnm
        rcases List.mem_cons.mp hm with rfl | hm
        · exact absurd hnm (hlt n hn).asymm
        · exact hbeh m hm hnm
      · refine ⟨a, List.mem_cons_self .., hr, Or.inl hown, ?_⟩
        intro m hm ham
        rcases List.mem_cons.mp hm with rfl | hm
        · exact absurd ham (lt_irrefl _)
        · exact hno m hm
    · rw [if_neg hown]
      dsimp only
      obtain ⟨h1, h2⟩ := scan_spec st p l (if q = none ∨ st.chkndx (st.pool a).owner = .closed then some a else q, found) hs
      refine ⟨by simp [h1, Held, hown], ?_⟩
      rcases h2 with ⟨n, hn, hr, hat, hbeh⟩ | ⟨hno, hr⟩
      · left
        refine ⟨n, List.mem_cons_of_mem _ hn, hr, hat, ?_⟩
        intro m hm hnm
        rcases List.mem_cons.mp hm with rfl | hm
        · exact absurd hnm (hlt n hn).asymm
        · exact hbeh m hm hnm
      · by_cases hcl : st.chkndx (st.pool a).owner = .closed
        · left
          refine ⟨a, List.mem_cons_self .., ?_, Or.inr hcl, ?_⟩
          · rw [hr, if_pos (Or.inr hcl)]
            rfl
          · intro m hm ham
            rcases List.mem_cons.mp hm with rfl | hm
            · exact absurd ham (lt_irrefl _)
            · exact hno m hm
        · right
          constructor
          · intro m hm
            rcases List.mem_cons.mp hm with rfl | hm
            · exact ⟨hown, hcl⟩
            · exact hno m hm
          · rw [hr]
            cases q <;> simp [hcl]

/-- What selecting index `p` does: buffer `q` is given to it. -/
structure Taken (st st' : PoolSt F H k) (p : NdxId) (q : Fin (k + 1)) (found : Bool) : Prop where
  curr : st'.currNdx = some q
  disk : st'.disk = st.disk
  order : st'.order = st.order
  filename : ∀ r, (st'.ndxfctl r).filename = (st.ndxfctl r).filename
  isOpen : ∀ r, (st'.ndxfctl r).isOpen = if r = p ∧ st.order p.1 ≠ none ∧ st.chkndx (some p) = .swapped then true else (st.ndxfctl r).isOpen
  other : ∀ m ≠ q, st'.pool m = { st.pool m with age := (st.pool m).age + 1 }
  owner : (st'.pool q).owner = some p
  fctl : (st'.pool q).fctl = some p
  pageNo : (st'.pool q).pageNo = if found then (st.pool q).pageNo else 0
  entryNo : (st'.pool q).entryNo = if found then (st.pool q).entryNo else 0
  posFile : (st'.pool q).posFile = (st.pool q).posFile
  kept : ¬(st.order p.1 ≠ none ∧ st.chkndx (some p) = .swapped) →
    (st'.pool q).hdrFile = (st.pool q).hdrFile ∧ (st'.pool q).wHdr = (st.pool q).wHdr
  opened : st.order p.1 ≠ none ∧ st.chkndx (some p) = .swapped →
    (st'.pool q).hdrFile = (st.ndxfctl p).filename ∧ (st'.pool q).wHdr = false

theorem take_taken (st : PoolSt F H k) (p : NdxId) (q : Fin (k + 1)) (found : Bool) : Taken st (st.aged.take p q found false) p q found := by
  by_cases ho : st.order p.1 ≠ none ∧ st.chkndx (some p) = .swapped
  · obtain ⟨f, hf⟩ := Fctl.stat_swapped.mp ho.2
    have hrun : st.aged.take p q found false = _ := if_pos ho
    rw [hrun]
    cases found <;> constructor <;> simp +contextual [openidx, setBuf, setFctl, aged, hf, ho, Function.update_apply, apply_ite]
  · have hrun : st.aged.take p q found false = _ := if_neg ho
    rw [hrun]
    cases found <;> constructor <;> simp +contextual [setBuf, aged, ho]

/-- `ndx_select` never takes a buffer from another index: the pass always ends at some buffer. -/
theorem ndxSelect_taken (st : PoolSt F H k) (p : NdxId) :
    ∃ q found, Taken st (st.ndxSelect p) p q found ∧ (found = true ↔ ∃ m, st.Held m p) ∧
      (st.Held q p ∨ st.chkndx (st.pool q).owner = .closed ∨ q = 0 ∧ ∀ m, ¬st.Held m p ∧ st.chkndx (st.pool m).owner ≠ .closed) ∧
      ∀ m > q, ¬st.Held m p ∧ st.chkndx (st.pool m).owner ≠ .closed := by
  obtain ⟨hfound, hq⟩ := scan_spec st p (List.finRange (k + 1)) (none, false) (List.pairwise_lt_finRange _)
  unfold ndxSelect
  generalize st.scan p (List.finRange (k + 1)) (none, false) = r at hfound hq
  obtain ⟨o, found⟩ := r
  simp only [List.mem_finRange, true_and, Bool.false_eq_true, false_or, forall_const] at hfound hq
  rcases hq with ⟨q, rfl, hat, hbeh⟩ | ⟨hno, ho⟩
  · exact ⟨q, found, take_taken .., hfound, hat.imp_right Or.inl, hbeh⟩
  · have hhead : (List.finRange (k + 1)).head? = some 0 := by rw [List.finRange_succ]; rfl
    rw [Option.none_or, hhead] at ho
    subst ho
    exact ⟨0, found, take_taken .., hfound, Or.inr (Or.inr ⟨rfl, hno⟩), fun m _ => hno m⟩

omit [DecidableEq F] in
theorem Taken.chkndx (h : Taken st st' p q found) (o : Option NdxId) : st'.chkndx o =
    if o = some p ∧ st.order p.1 ≠ none ∧ st.chkndx (some p) = .swapped then .inUse else st.chkndx o := by
  cases o with
  | none => simp [PoolSt.chkndx]
  | some r =>
    have hr : st'.ndxfctl r = ⟨(st.ndxfctl r).filename, _⟩ := congrArg₂ Fctl.mk (h.filename r) (h.isOpen r)
    rw [PoolSt.chkndx, hr]
    by_cases ho : r = p ∧ st.order p.1 ≠ none ∧ st.chkndx (some p) = .swapped
    · rw [if_pos ho, if_pos (by simpa using ho)]
      obtain ⟨rfl, -, hs⟩ := ho
      obtain ⟨f, hf⟩ := Fctl.stat_swapped.mp hs
      rw [hf]
      rfl
    · rw [if_neg ho, if_neg (by simpa using ho)]
      rfl

/-! ## The invariant -/

omit [DecidableEq F]

/-- The pool keeps the indexes apart. -/
structure Good (st : PoolSt F H k) : Prop where
  shut : ∀ p, (st.ndxfctl p).filename = none → (st.ndxfctl p).isOpen = false
  fctl : ∀ m, (st.pool m).fctl = (st.pool m).owner
  held : ∀ p, st.chkndx (some p) = .inUse → ∃ m, st.Held m p
  uniq : ∀ m n p, st.Held m p → st.Held n p → m = n
  hdr : ∀ m p, st.Held m p → st.chkndx (some p) = .inUse → (st.pool m).hdrFile = (st.ndxfctl p).filename ∧
    ((st.pool m).pageNo = 0 ∨ (st.pool m).posFile = (st.ndxfctl p).filename)
  idle : ∀ m p, st.Held m p → st.chkndx (some p) ≠ .inUse → (st.pool m).pageNo = 0
  saved : ∀ m f, (st.pool m).Unsaved f → st.chkndx (st.pool m).owner = .inUse

theorem Good.apart (h : st.Good) : st.Apart := fun p hp => by
  obtain ⟨m, hm⟩ := h.held p hp
  exact ⟨m, hm, fun n hn => h.uniq n m p hn hm⟩


theorem Taken.held_self (h : Taken st st' p q found) {r : NdxId} : st'.Held q r ↔ r = p := by
  unfold Held
  rw [h.owner, Option.some.injEq, eq_comm]

theorem Taken.held_other (h : Taken st st' p q found) {m : Fin (k + 1)} (hm : m ≠ q) {r : NdxId} : st'.Held m r ↔ st.Held m r := by
  unfold Held
  rw [h.other m hm]

theorem Taken.inUse (h : Taken st st' p q found) {o : Option NdxId} (ho : st.chkndx o = .inUse) : st'.chkndx o = .inUse := by
  rw [h.chkndx]
  split_ifs <;> first | rfl | exact ho

theorem Taken.chkndx_ne (h : Taken st st' p q found) {r : NdxId} (hr : r ≠ p) : st'.chkndx (some r) = st.chkndx (some r) := by
  rw [h.chkndx, if_neg (by simp [hr])]

/-- The buffer that is taken is the index's own, or the index has none and no open index loses it. -/
def Fair (st : PoolSt F H k) (p : NdxId) (q : Fin (k + 1)) (found : Bool) : Prop :=
  found = true ∧ st.Held q p ∨ found = false ∧ (∀ m, ¬st.Held m p) ∧ st.chkndx (st.pool q).owner ≠ .inUse

theorem Fair.other (h : st.Fair p q found) (hg : st.Good) {m : Fin (k + 1)} (hm : m ≠ q) : ¬st.Held m p := by
  rcases h with ⟨-, h⟩ | ⟨-, h, -⟩
  · exact fun hh => hm (hg.uniq m q p hh h)
  · exact h m

theorem Fair.self (h : st.Fair p q found) {r : NdxId} (hr : r ≠ p) (hu : st.chkndx (some r) = .inUse) : ¬st.Held q r := by
  rcases h with ⟨-, h⟩ | ⟨-, -, h⟩ <;> intro hh
  · exact hr (Option.some.inj (hh.symm.trans h))
  · exact h (hh ▸ hu)

/-- What the current buffer has after the selection. -/
theorem Taken.serves (h : Taken st st' p q found) (hf : st.Fair p q found) (hg : st.Good) (hu : st'.chkndx (some p) = .inUse) :
    (st'.pool q).hdrFile = (st'.ndxfctl p).filename ∧ ((st'.pool q).pageNo = 0 ∨ (st'.pool q).posFile = (st'.ndxfctl p).filename) := by
  rw [h.filename, h.pageNo, h.posFile]
  by_cases ho : st.order p.1 ≠ none ∧ st.chkndx (some p) = .swapped
  · refine ⟨(h.opened ho).1, Or.inl ?_⟩
    rcases hf with ⟨rfl, hq⟩ | ⟨rfl, -⟩
    · exact hg.idle q p hq (by rw [ho.2]; decide)
    · rfl
  · rw [(h.kept ho).1]
    have hu' : st.chkndx (some p) = .inUse := by rwa [h.chkndx, if_neg (by simpa using ho)] at hu
    rcases hf with ⟨rfl, hq⟩ | ⟨rfl, hno, -⟩
    · exact hg.hdr q p hq hu'
    · obtain ⟨m, hm⟩ := hg.held p hu'
      exact absurd hm (hno m)

theorem Taken.good (h : Taken st st' p q found) (hf : st.Fair p q found) (hg : st.Good) : st'.Good where
  shut r hr := by
    rw [h.filename] at hr
    rw [h.isOpen]
    split_ifs with ho
    · obtain ⟨rfl, -, hs⟩ := ho
      obtain ⟨f, hf⟩ := Fctl.stat_swapped.mp hs
      rw [hf] at hr
      cases hr
    · exact hg.shut r hr
  fctl m := by
    by_cases hm : m = q
    · subst hm
      rw [h.fctl, h.owner]
    · rw [h.other m hm]
      exact hg.fctl m
  held r hr := by
    by_cases hrp : r = p
    · exact ⟨q, h.held_self.mpr hrp⟩
    · rw [h.chkndx_ne hrp] at hr
      obtain ⟨m, hm⟩ := hg.held r hr
      have hmq : m ≠ q := fun e => hf.self hrp hr (e ▸ hm)
      exact ⟨m, (h.held_other hmq).mpr hm⟩
  uniq m n r hm hn := by
    by_cases hmq : m = q <;> by_cases hnq : n = q
    · rw [hmq, hnq]
    · subst hmq
      rw [h.held_self.mp hm, h.held_other hnq] at hn
      exact absurd hn (hf.other hg hnq)
    · subst hnq
      rw [h.held_self.mp hn, h.held_other hmq] at hm
      exact absurd hm (hf.other hg hmq)
    · exact hg.uniq m n r ((h.held_other hmq).mp hm) ((h.held_other hnq).mp hn)
  hdr m r hm hr := by
    by_cases hmq : m = q
    · subst hmq
      obtain rfl := h.held_self.mp hm
      exact h.serves hf hg hr
    · rw [h.held_other hmq] at hm
      have hrp : r ≠ p := fun e => hf.other hg hmq (e ▸ hm)
      rw [h.chkndx_ne hrp] at hr
      rw [h.other m hmq, h.filename]
      exact hg.hdr m r hm hr
  idle m r hm hr := by
    by_cases hmq : m = q
    · subst hmq
      obtain rfl := h.held_self.mp hm
      rw [h.pageNo]
      rcases hf with ⟨rfl, hq⟩ | ⟨rfl, -⟩
      · exact hg.idle m r hq fun hu => hr (h.inUse hu)
      · rfl
    · rw [h.held_other hmq] at hm
      rw [h.other m hmq]
      exact hg.idle m r hm fun hu => hr (h.inUse hu)
  saved m f hm := by
    by_cases hmq : m = q
    · subst hmq
      by_cases ho : st.order p.1 ≠ none ∧ st.chkndx (some p) = .swapped
      · rw [NdxBuf.Unsaved, (h.opened ho).2] at hm
        cases hm.1
      · obtain ⟨hhdr, hw⟩ := h.kept ho
        rw [NdxBuf.Unsaved, hhdr, hw] at hm
        have hu := hg.saved m f hm
        rcases hf with ⟨-, hq⟩ | ⟨-, -, hq⟩
        · rw [h.owner]
          exact h.inUse (hq ▸ hu)
        · exact absurd hu hq
    · rw [h.other m hmq] at hm ⊢
      exact h.inUse (hg.saved m f hm)

end PoolSt

/-! ## One selection -/

section Select

open PoolSt

variable {F H : Type} [DecidableEq F] {k : Nat} {st st' : PoolSt F H k} {p : NdxId} {q : Fin (k + 1)} {found : Bool}

theorem SelectOk.fair (h : SelectOk st p) : ∃ q found, Taken st (st.ndxSelect p) p q found ∧ st.Fair p q found := by
  obtain ⟨q, found, ht, hfound, hat, hbeh⟩ := ndxSelect_taken st p
  refine ⟨q, found, ht, ?_⟩
  by_cases hheld : ∃ m, st.Held m p
  · refine Or.inl ⟨hfound.mpr hheld, ?_⟩
    obtain ⟨n, hn⟩ := hheld
    rcases lt_trichotomy q n with hlt | rfl | hlt
    · exact absurd hn (hbeh n hlt).1
    · exact hn
    · rcases hat with hq | hq | ⟨-, hno⟩
      · exact hq
      · exact absurd hq (h.last n hn q hlt)
      · exact absurd hn (hno n).1
  · refine Or.inr ⟨by simpa using hfound.not.mpr hheld, not_exists.mp hheld, ?_⟩
    rcases hat with hq | hq | ⟨rfl, hno⟩
    · exact absurd ⟨q, hq⟩ hheld
    · rw [hq]
      decide
    · rcases h.free with hm | ⟨m, hm⟩ | hs
      · exact absurd hm hheld
      · exact absurd hm (hno m).2
      · rw [hs]
        decide

omit [DecidableEq F] in
theorem SelectOk.inUse (h : SelectOk st p) (hc : st.chkndx (some p) ≠ .closed) (ht : Taken st st' p q found) :
    st'.chkndx (some p) = .inUse := by
  rw [ht.chkndx]
  split_ifs with ho
  · rfl
  · rcases h.opens with hord | hu
    · cases hchk : st.chkndx (some p) with
      | closed => exact absurd hchk hc
      | inUse => rfl
      | swapped => exact absurd ⟨rfl, hord, hchk⟩ ho
    · exact hu

/-- **One selection** goes right exactly when it has what it needs. -/
theorem selectRight_iff (hg : st.Good) (hc : st.chkndx (some p) ≠ .closed) : SelectRight st p ↔ SelectOk st p := by
  constructor
  · intro h
    obtain ⟨q, found, ht, hfound, hat, hbeh⟩ := ndxSelect_taken st p
    refine ⟨?_, ?_, ?_⟩
    · by_contra hno
      rw [not_or, not_not] at hno
      obtain ⟨q', f, -, -, hopen, -⟩ := h.serves
      have hu : (st.ndxSelect p).chkndx (some p) = .inUse := Fctl.stat_inUse.mpr ⟨f, hopen⟩
      rw [ht.chkndx, if_neg (fun ho => ho.2.1 hno.1)] at hu
      exact hno.2 hu
    · intro n hn m hnm
      have hcur := (h.keeps n hn).1
      rw [ht.curr, Option.some.injEq] at hcur
      subst hcur
      exact (hbeh m hnm).2
    · by_contra hno
      rw [not_or, not_or] at hno
      obtain ⟨hheld, hclosed, hswap⟩ := hno
      have hq : q = 0 := by
        rcases hat with hq | hq | ⟨hq, -⟩
        · exact absurd ⟨q, hq⟩ hheld
        · exact absurd ⟨q, hq⟩ hclosed
        · exact hq
      subst hq
      -- the first buffer belongs to an open index, which is left without one
      obtain ⟨r, hr⟩ : ∃ r, (st.pool 0).owner = some r := by
        rw [← Option.ne_none_iff_exists']
        intro h0
        exact hclosed ⟨0, by rw [h0]; rfl⟩
      have hu : st.chkndx (some r) = .inUse := by
        rw [← hr]
        cases hchk : st.chkndx (st.pool 0).owner with
        | closed => exact absurd ⟨0, hchk⟩ hclosed
        | inUse => rfl
        | swapped => exact absurd hchk hswap
      obtain ⟨m, hm, -⟩ := h.apart r (ht.inUse hu)
      by_cases hm0 : m = 0
      · subst hm0
        obtain rfl := ht.held_self.mp hm
        exact hheld ⟨0, hr⟩
      · exact hm0 (hg.uniq m 0 r ((ht.held_other hm0).mp hm) hr)
  · intro h
    obtain ⟨q, found, ht, hf⟩ := h.fair
    have hu := h.inUse hc ht
    have hgood := ht.good hf hg
    refine ⟨?_, hgood.apart, ?_, ?_⟩
    · obtain ⟨f, hopen⟩ := Fctl.stat_inUse.mp hu
      have hs := ht.serves hf hg hu
      rw [hopen] at hs
      exact ⟨q, f, ht.curr, ht.owner, hopen, hs⟩
    · intro m hm
      have hmq : m = q := by
        by_contra hmq
        exact hf.other hg hmq hm
      subst hmq
      rcases hf with ⟨rfl, -⟩ | ⟨-, hno, -⟩
      · exact ⟨ht.curr, ht.pageNo, ht.entryNo⟩
      · exact absurd hm (hno m)
    · intro m f hun howner
      by_cases hmq : m = q
      · subst hmq
        rcases hf with ⟨-, hq⟩ | ⟨-, -, hq⟩
        · exact absurd (ht.owner.trans hq.symm) howner
        · exact absurd (hg.saved m f hun) hq
      · exact absurd (by rw [ht.other m hmq]) howner

theorem SelectOk.good (h : SelectOk st p) (hg : st.Good) : (st.ndxSelect p).Good := by
  obtain ⟨q, found, ht, hf⟩ := h.fair
  exact ht.good hf hg

/-! ## Closing -/

omit [DecidableEq F] in
/-- The file of index `p` is taken out of the table. -/
theorem PoolSt.Good.drop (hg : st.Good) (hp : st'.ndxfctl = Function.update st.ndxfctl p ⟨none, false⟩)
    (howner : ∀ m, (st'.pool m).owner = (st.pool m).owner) (hother : ∀ m, ¬st.Held m p → st'.pool m = st.pool m)
    (hown : ∀ m, st.Held m p → (st'.pool m).fctl = some p ∧ (st'.pool m).pageNo = 0 ∧ ∀ f, ¬(st'.pool m).Unsaved f) :
    st'.Good ∧ ∀ o, st'.chkndx o = if o = some p then .closed else st.chkndx o := by
  have hheld : ∀ m r, st'.Held m r ↔ st.Held m r := fun m r => by
    unfold Held
    rw [howner m]
  have hchk : ∀ o, st'.chkndx o = if o = some p then .closed else st.chkndx o := by
    intro o
    cases o with
    | none => rfl
    | some r =>
      rw [PoolSt.chkndx, hp, Function.update_apply]
      by_cases hr : r = p
      · rw [if_pos hr, if_pos (congrArg some hr)]
        rfl
      · rw [if_neg hr, if_neg (by simpa using hr)]
        rfl
  have hne : ∀ r, st'.chkndx (some r) = .inUse → r ≠ p ∧ st.chkndx (some r) = .inUse := by
    intro r hr
    rw [hchk] at hr
    split_ifs at hr with h
    exact ⟨fun e => h (congrArg some e), hr⟩
  refine ⟨⟨?_, ?_, ?_, ?_, ?_, ?_, ?_⟩, hchk⟩
  · intro r hr
    rw [hp, Function.update_apply] at hr ⊢
    split_ifs at hr ⊢ with h
    · rfl
    · exact hg.shut r hr
  · intro m
    by_cases hm : st.Held m p
    · rw [(hown m hm).1, howner m, hm]
    · rw [hother m hm]
      exact hg.fctl m
  · intro r hr
    obtain ⟨m, hm⟩ := hg.held r (hne r hr).2
    exact ⟨m, (hheld m r).mpr hm⟩
  · intro m n r hm hn
    exact hg.uniq m n r ((hheld m r).mp hm) ((hheld n r).mp hn)
  · intro m r hm hr
    obtain ⟨hrp, hu⟩ := hne r hr
    rw [hheld] at hm
    have hmp : ¬st.Held m p := fun h => hrp (Option.some.inj (hm.symm.trans h))
    rw [hother m hmp, hp, Function.update_of_ne hrp]
    exact hg.hdr m r hm hu
  · intro m r hm hr
    rw [hheld] at hm
    by_cases hrp : r = p
    · exact (hown m (hrp ▸ hm)).2.1
    · have hmp : ¬st.Held m p := fun h => hrp (Option.some.inj (hm.symm.trans h))
      rw [hother m hmp]
      refine hg.idle m r hm fun hu => hr ?_
      rw [hchk, if_neg (by simpa using hrp)]
      exact hu
  · intro m f hm
    by_cases hmp : st.Held m p
    · exact absurd hm ((hown m hmp).2.2 f)
    · rw [hother m hmp] at hm
      rw [howner m, hchk, if_neg (show ¬(st.pool m).owner = some p from hmp)]
      exact hg.saved m f hm

theorem closendx_eq {f : F} (hq : st.currNdx = some q) (hp : (st.pool q).fctl = some p) (hf : st.ndxfctl p = ⟨some f, true⟩) :
    st.closendx.ndxfctl = Function.update st.ndxfctl p ⟨some f, false⟩ ∧
      st.closendx.pool = Function.update st.pool q { st.pool q with wHdr := false, pageNo := 0 } := by
  cases hw : (st.pool q).wHdr <;> simp [closendx, writeHdr, setBuf, setFctl, hq, hp, hf, hw]

/-- The current index is closed. -/
theorem PoolSt.Good.close (hg : st.Good) {f : F} (hq : st.currNdx = some q) (hp : st.Held q p) (hf : st.ndxfctl p = ⟨some f, true⟩) :
    (st.closendx.delfn p).Good ∧ (∀ m, ((st.closendx.delfn p).pool m).owner = (st.pool m).owner) ∧
      ∀ o, (st.closendx.delfn p).chkndx o = if o = some p then .closed else st.chkndx o := by
  have hfctl : (st.pool q).fctl = some p := (hg.fctl q).trans hp
  obtain ⟨htbl, hpool⟩ := closendx_eq hq hfctl hf
  have hother : ∀ m ≠ q, (st.closendx.delfn p).pool m = st.pool m := by
    intro m hm
    unfold delfn setFctl
    rw [hpool, Function.update_of_ne hm]
  have hself : (st.closendx.delfn p).pool q = { st.pool q with wHdr := false, pageNo := 0 } := by
    unfold delfn setFctl
    rw [hpool, Function.update_self]
  have howner : ∀ m, ((st.closendx.delfn p).pool m).owner = (st.pool m).owner := by
    intro m
    by_cases hm : m = q
    · rw [hm, hself]
    · rw [hother m hm]
  have hdrop : (st.closendx.delfn p).ndxfctl = Function.update st.ndxfctl p ⟨none, false⟩ := by
    unfold delfn setFctl
    rw [htbl, Function.update_self, Function.update_idem]
  obtain ⟨hgood, hchk⟩ := hg.drop hdrop howner (fun m hm => hother m fun e => hm (by rw [e]; exact hp)) fun m hm => by
    obtain rfl := hg.uniq m q p hm hp
    rw [hself]
    exact ⟨hfctl, rfl, fun f h => Bool.noConfusion h.1⟩
  exact ⟨hgood, howner, hchk⟩

omit [DecidableEq F] in
/-- An index that is not open leaves the table as it is. -/
theorem PoolSt.Good.forget (hg : st.Good) (hu : st.chkndx (some p) ≠ .inUse) :
    (st.delfn p).Good ∧ ∀ o, (st.delfn p).chkndx o = if o = some p then .closed else st.chkndx o := by
  have hshut : (st.ndxfctl p).isOpen = false := by
    cases hfc : (st.ndxfctl p).filename with
    | none => exact hg.shut _ hfc
    | some f =>
      by_contra hopen
      rw [Bool.not_eq_false] at hopen
      exact hu (Fctl.stat_inUse.mpr ⟨f, congrArg₂ Fctl.mk hfc hopen⟩)
  have hdrop : (st.delfn p).ndxfctl = Function.update st.ndxfctl p ⟨none, false⟩ := by
    show Function.update st.ndxfctl p ⟨none, (st.ndxfctl p).isOpen⟩ = _
    rw [hshut]
  refine hg.drop hdrop (fun _ => rfl) (fun _ _ => rfl) fun m hm => ?_
  exact ⟨(hg.fctl m).trans hm, hg.idle m _ hm hu, fun f hf => hu (by rw [← hg.saved m f hf, hm])⟩

/-- One entry of the file table. -/
theorem closeOne_good {c : Fin (MAXCTX + 1)} {i : Fin MAXNDX} (hg : st.Good) (hok : st.chkndx (some (c, i)) = .inUse → SelectOk st (c, i)) :
    (st.closeOne c i).Good ∧ (∀ m, ((st.closeOne c i).pool m).owner = (st.pool m).owner) ∧
      ∀ o, (st.closeOne c i).chkndx o = if o = some (c, i) then .closed else st.chkndx o := by
  unfold closeOne
  by_cases hu : st.chkndx (some (c, i)) = .inUse
  · rw [if_pos hu]
    obtain ⟨q, found, ht, hf⟩ := (hok hu).fair
    have hq : st.Held q (c, i) := by
      rcases hf with ⟨-, hq⟩ | ⟨-, hno, -⟩
      · exact hq
      · obtain ⟨m, hm⟩ := hg.held _ hu
        exact absurd hm (hno m)
    have hchk : ∀ o, (st.ndxSelect (c, i)).chkndx o = st.chkndx o := by
      intro o
      rw [ht.chkndx, if_neg]
      rintro ⟨-, -, hs⟩
      rw [hu] at hs
      cases hs
    obtain ⟨f, hopen⟩ := Fctl.stat_inUse.mp ((hchk _).trans hu)
    obtain ⟨hgood, howner, hclosed⟩ := (ht.good hf hg).close ht.curr ht.owner hopen
    refine ⟨hgood, ?_, ?_⟩
    · intro m
      rw [howner]
      by_cases hm : m = q
      · rw [hm, ht.owner, hq]
      · rw [ht.other m hm]
    · intro o
      rw [hclosed, hchk]
  · rw [if_neg hu]
    exact ⟨(hg.forget hu).1, fun _ => rfl, (hg.forget hu).2⟩

omit [DecidableEq F] in
/-- An open index has a buffer: that no free buffer is behind it is all its closing needs. -/
theorem selectOk_open (hg : st.Good) (hu : st.chkndx (some p) = .inUse) :
    SelectOk st p ↔ ∀ n, st.Held n p → ∀ m > n, st.chkndx (st.pool m).owner ≠ .closed :=
  ⟨fun h => h.last, fun h => ⟨Or.inr hu, h, Or.inl (hg.held p hu)⟩⟩

/-- **Closing the indexes of a context** selects each of them right exactly when it has what it needs. -/
theorem closeRight_iff {c : Fin (MAXCTX + 1)} : ∀ (is : List (Fin MAXNDX)) {st : PoolSt F H k}, is.Pairwise (· < ·) → st.Good →
    (Runs.Along (closeOne c) (fun st i => st.chkndx (some (c, i)) = .inUse → SelectRight st (c, i)) is st ↔ CloseOk st c is)
  | [], _, _, _ => iff_of_true trivial fun _ hi => absurd hi List.not_mem_nil
  | i :: is, st, hs, hg => by
    obtain ⟨hlt, hs⟩ := List.pairwise_cons.mp hs
    have hhead : (st.chkndx (some (c, i)) = .inUse → SelectRight st (c, i)) ↔ (st.chkndx (some (c, i)) = .inUse → SelectOk st (c, i)) :=
      forall_congr' fun hu => selectRight_iff hg (by rw [hu]; decide)
    rw [Runs.Along, hhead]
    constructor
    · rintro ⟨hok, htail⟩
      obtain ⟨hgood, howner, hchk⟩ := closeOne_good hg hok
      rw [closeRight_iff is hs hgood] at htail
      intro j hj hu n hn m hnm
      rcases List.mem_cons.mp hj with rfl | hj
      · refine ⟨(hok hu).last n hn m hnm, fun l hl hlj => ?_⟩
        rcases List.mem_cons.mp hl with rfl | hl
        · exact absurd hlj (lt_irrefl _)
        · exact absurd hlj (hlt l hl).asymm
      · have hne : some (c, j) ≠ some (c, i) := by simpa using (hlt j hj).ne'
        obtain ⟨hclosed, hbefore⟩ := htail j hj (by rw [hchk, if_neg hne]; exact hu) n (by rw [Held, howner]; exact hn) m hnm
        rw [howner] at hbefore
        rw [hchk, howner] at hclosed
        split_ifs at hclosed with hi
        · exact absurd rfl hclosed
        refine ⟨hclosed, fun l hl hlj => ?_⟩
        rcases List.mem_cons.mp hl with rfl | hl
        · exact hi
        · exact hbefore l hl hlj
    · intro h
      have hok : st.chkndx (some (c, i)) = .inUse → SelectOk st (c, i) := fun hu =>
        (selectOk_open hg hu).mpr fun n hn m hnm => (h i (List.mem_cons_self ..) hu n hn m hnm).1
      obtain ⟨hgood, howner, hchk⟩ := closeOne_good hg hok
      rw [closeRight_iff is hs hgood]
      refine ⟨hok, ?_⟩
      intro j hj hu n hn m hnm
      have hne : some (c, j) ≠ some (c, i) := by simpa using (hlt j hj).ne'
      rw [hchk, if_neg hne] at hu
      rw [Held, howner] at hn
      obtain ⟨hclosed, hbefore⟩ := h j (List.mem_cons_of_mem _ hj) hu n hn m hnm
      rw [howner, hchk, if_neg (hbefore i (List.mem_cons_self ..) (hlt j hj))]
      exact ⟨hclosed, fun l hl => hbefore l (List.mem_cons_of_mem _ hl)⟩

/-- The closed indexes leave the pool good and the context without files. -/
theorem closeAll_good {c : Fin (MAXCTX + 1)} : ∀ (is : List (Fin MAXNDX)) {st : PoolSt F H k}, is.Pairwise (· < ·) → st.Good → CloseOk st c is →
    (is.foldl (closeOne c) st).Good ∧
      ∀ o, (is.foldl (closeOne c) st).chkndx o = if ∃ i ∈ is, o = some (c, i) then .closed else st.chkndx o
  | [], st, _, hg, _ => ⟨hg, fun o => by simp⟩
  | i :: is, st, hs, hg, hok => by
    have hright := (closeRight_iff (i :: is) hs hg).mpr hok
    obtain ⟨hlt, hs⟩ := List.pairwise_cons.mp hs
    have hsel : st.chkndx (some (c, i)) = .inUse → SelectOk st (c, i) := fun hu => (selectRight_iff hg (by rw [hu]; decide)).mp (hright.1 hu)
    obtain ⟨hgood, -, hchk⟩ := closeOne_good hg hsel
    obtain ⟨hg', hchk'⟩ := closeAll_good is hs hgood ((closeRight_iff is hs hgood).mp hright.2)
    refine ⟨hg', fun o => ?_⟩
    rw [List.foldl_cons, hchk', hchk]
    by_cases ho : o = some (c, i)
    · simp [ho]
    · simp [ho]

/-! ## Other steps -/

omit [DecidableEq F] in
theorem PoolSt.Good.order (hg : st.Good) (o : Fin (MAXCTX + 1) → Option (Fin MAXNDX)) : Good { st with order := o } :=
  ⟨hg.shut, hg.fctl, hg.held, hg.uniq, hg.hdr, hg.idle, hg.saved⟩

theorem PoolSt.Good.closeindex (hg : st.Good) {c : Fin (MAXCTX + 1)} (hok : CloseOk st c (List.finRange MAXNDX)) :
    (st.closeindex c).Good ∧ ∀ i, ((st.closeindex c).ndxfctl (c, i)).filename = none := by
  obtain ⟨hgood, hchk⟩ := closeAll_good (List.finRange MAXNDX) (List.pairwise_lt_finRange _) hg hok
  refine ⟨hgood.order _, fun i => ?_⟩
  have hi := hchk (some (c, i))
  rw [if_pos ⟨i, List.mem_finRange i, rfl⟩] at hi
  exact Fctl.stat_closed.mp hi

omit [DecidableEq F] in
/-- Index files that are named are not open yet. -/
theorem PoolSt.Good.setFiles (hg : st.Good) {c : Fin (MAXCTX + 1)} (hc : ∀ i, (st.ndxfctl (c, i)).filename = none) (files : List F) (ordered : Bool) :
    (st.setFiles c files ordered).Good := by
  have hstat : ∀ r : NdxId, (st.setFiles c files ordered).ndxfctl r = st.ndxfctl r ∨
      (st.ndxfctl r).filename = none ∧ ((st.setFiles c files ordered).ndxfctl r).isOpen = false := by
    intro r
    unfold PoolSt.setFiles
    dsimp only
    split
    · rename_i f hf
      split_ifs at hf with hr
      · have hnone : (st.ndxfctl r).filename = none := by
          rw [← hc r.2, ← hr]
        exact Or.inr ⟨hnone, hg.shut r hnone⟩
    · exact Or.inl rfl
  have hu : ∀ r, (st.setFiles c files ordered).chkndx (some r) = .inUse ↔ st.chkndx (some r) = .inUse := by
    intro r
    rcases hstat r with h | ⟨h, hopen⟩
    · rw [PoolSt.chkndx, PoolSt.chkndx, h]
    · rw [PoolSt.chkndx, PoolSt.chkndx, Fctl.stat_inUse, Fctl.stat_inUse]
      refine iff_of_false ?_ ?_
      · rintro ⟨f, hf⟩
        rw [hf] at hopen
        cases hopen
      · rintro ⟨f, hf⟩
        rw [hf] at h
        cases h
  have hfile : ∀ r, st.chkndx (some r) = .inUse → (st.setFiles c files ordered).ndxfctl r = st.ndxfctl r := by
    intro r hr
    obtain ⟨f, hf⟩ := Fctl.stat_inUse.mp hr
    refine (hstat r).resolve_right fun h => ?_
    rw [hf] at h
    cases h.1
  refine ⟨?_, hg.fctl, fun r hr => hg.held r ((hu r).mp hr), hg.uniq, ?_, fun m r hm hr => hg.idle m r hm ((hu r).not.mp hr), ?_⟩
  · intro r hr
    rcases hstat r with h | ⟨-, h⟩
    · rw [h] at hr ⊢
      exact hg.shut r hr
    · exact h
  · intro m r hm hr
    rw [hu] at hr
    rw [hfile r hr]
    exact hg.hdr m r hm hr
  · intro m f hm
    have hin := hg.saved m f hm
    cases ho : (st.pool m).owner with
    | none =>
      rw [ho] at hin
      cases hin
    | some r =>
      rw [ho] at hin
      show (st.setFiles c files ordered).chkndx (st.pool m).owner = .inUse
      rw [ho]
      exact (hu r).mpr hin

omit [DecidableEq F] in
/-- The buffer of an open index is changed in what it has of the index. -/
theorem PoolSt.Good.setBuf (hg : st.Good) {b : NdxBuf F H} (hp : st.Held q p) (hu : st.chkndx (some p) = .inUse)
    (howner : b.owner = (st.pool q).owner) (hfctl : b.fctl = (st.pool q).fctl) (hhdr : b.hdrFile = (st.pool q).hdrFile)
    (hpos : b.pageNo = 0 ∨ b.posFile = (st.ndxfctl p).filename) : (st.setBuf q b).Good := by
  have hpool : ∀ m, (st.setBuf q b).pool m = if m = q then b else st.pool m := fun m => Function.update_apply ..
  have hheld : ∀ m r, (st.setBuf q b).Held m r ↔ st.Held m r := by
    intro m r
    unfold Held
    rw [hpool]
    split_ifs with hm
    · rw [howner, hm]
    · rfl
  refine ⟨hg.shut, ?_, ?_, ?_, ?_, ?_, ?_⟩
  · intro m
    rw [hpool]
    split_ifs
    · rw [hfctl, howner, hg.fctl]
    · exact hg.fctl m
  · intro r hr
    obtain ⟨m, hm⟩ := hg.held r hr
    exact ⟨m, (hheld m r).mpr hm⟩
  · intro m n r hm hn
    exact hg.uniq m n r ((hheld m r).mp hm) ((hheld n r).mp hn)
  · intro m r hm hr
    rw [hheld] at hm
    rw [hpool]
    split_ifs with hmq
    · subst hmq
      obtain rfl := Option.some.inj (hm.symm.trans hp)
      rw [hhdr]
      exact ⟨(hg.hdr m r hm hr).1, hpos⟩
    · exact hg.hdr m r hm hr
  · intro m r hm hr
    rw [hheld] at hm
    rw [hpool]
    split_ifs with hmq
    · subst hmq
      obtain rfl := Option.some.inj (hm.symm.trans hp)
      exact absurd hu hr
    · exact hg.idle m r hm hr
  · intro m f hm
    rw [hpool] at hm ⊢
    split_ifs at hm ⊢ with hmq
    · rw [howner, hp]
      exact hu
    · exact hg.saved m f hm

omit [DecidableEq F] in
theorem PoolSt.Good.onCurr (hg : st.Good) {f : NdxId → NdxBuf F H → NdxBuf F H}
    (hf : ∀ q p, st.Held q p → st.chkndx (some p) = .inUse → (f p (st.pool q)).owner = (st.pool q).owner ∧ (f p (st.pool q)).fctl = (st.pool q).fctl ∧
      (f p (st.pool q)).hdrFile = (st.pool q).hdrFile ∧ ((f p (st.pool q)).pageNo = 0 ∨ (f p (st.pool q)).posFile = (st.ndxfctl p).filename)) :
    (st.onCurr f).Good := by
  unfold PoolSt.onCurr
  split
  · exact hg
  · rename_i q _
    split
    · exact hg
    · rename_i p hp
      split_ifs with hu
      · rw [hg.fctl] at hp
        obtain ⟨h1, h2, h3, h4⟩ := hf q p hp hu
        exact hg.setBuf hp hu h1 h2 h3 h4
      · exact hg

theorem PoolSt.Good.writeHdr (hg : st.Good) (hu : ∀ q, st.currNdx = some q → st.chkndx (st.pool q).fctl = .inUse) : st.writeHdr.Good := by
  unfold PoolSt.writeHdr
  split
  · exact hg
  · rename_i q hq
    split
    · exact hg
    · rename_i f hf
      split_ifs
      · obtain ⟨p, hp, -⟩ := Option.bind_eq_some_iff.mp hf
        have hin := hu q hq
        rw [hp] at hin
        rw [hg.fctl] at hp
        have hdisk : Good { st with disk := Function.update st.disk f (st.pool q).ndxH } :=
          ⟨hg.shut, hg.fctl, hg.held, hg.uniq, hg.hdr, hg.idle, hg.saved⟩
        exact hdisk.setBuf hp hin rfl rfl rfl (hg.hdr q p hp hin).2
      · exact hg

/-! ## Runs -/

theorem PoolOp.right_iff (hg : st.Good) (op : PoolOp F H) : op.Right st ↔ op.Ok st := by
  cases op with
  | openindex c files ordered => exact closeRight_iff _ (List.pairwise_lt_finRange _) hg
  | closeindex c => exact closeRight_iff _ (List.pairwise_lt_finRange _) hg
  | select p => exact forall_congr' fun hc => selectRight_iff hg hc
  | setOrder c i => exact Iff.rfl
  | change h => exact Iff.rfl
  | write => exact Iff.rfl
  | move pageNo entryNo => exact Iff.rfl

theorem PoolOp.apply_good (hg : st.Good) (op : PoolOp F H) (hok : op.Ok st) : (op.apply st).Good := by
  cases op with
  | openindex c files ordered =>
    obtain ⟨hgood, hnone⟩ := hg.closeindex hok
    exact hgood.setFiles hnone files ordered
  | closeindex c => exact (hg.closeindex hok).1
  | setOrder c i =>
    rw [PoolOp.apply]
    split_ifs
    · exact hg
    · exact hg.order _
  | select p =>
    rw [PoolOp.apply]
    split_ifs with hc
    · exact hg
    · exact (hok hc).good hg
  | change h =>
    rw [PoolOp.apply]
    exact hg.onCurr fun q p hp hu => ⟨rfl, rfl, rfl, (hg.hdr q p hp hu).2⟩
  | write =>
    rw [PoolOp.apply]
    split_ifs with hu
    · refine hg.writeHdr fun q hq => ?_
      rw [hq] at hu
      simpa using hu
    · exact hg
  | move pageNo entryNo =>
    rw [PoolOp.apply]
    exact hg.onCurr fun q p _ _ => ⟨rfl, rfl, rfl, Or.inr rfl⟩

omit [DecidableEq F] in
theorem freshPool_good (junk : Fin (k + 1) → NdxBuf F H) (disk : F → H) : (freshPool junk disk).Good where
  shut _ _ := rfl
  fctl _ := rfl
  held p hp := by cases hp
  uniq _ _ _ hm := by cases hm
  hdr _ _ hm := by cases hm
  idle _ _ hm := by cases hm
  saved _ _ hm := by cases hm.2

end Select

/-- **In every run** on a pool of any size every index that is selected is served right exactly where
no selection meets a free buffer behind the one it looks for, or a pool with none to give. -/
theorem poolRun_right_iff {F H : Type} [DecidableEq F] {k : Nat} (junk : Fin (k + 1) → NdxBuf F H) (disk : F → H) (ops : List (PoolOp F H)) :
    Runs.Along PoolOp.apply PoolOp.Right ops (freshPool junk disk) ↔ Runs.Along PoolOp.apply PoolOp.Ok ops (freshPool junk disk) := by
  refine Runs.along_iff (I := PoolSt.Good) ?_ ?_ (freshPool_good junk disk)
  · intro st op hg
    exact op.right_iff hg
  · intro st op hg hr
    exact op.apply_good hg ((op.right_iff hg).mp hr)

/-- A pool of seven buffers, and files with their own numbers for headers. -/
def sevenBufs : PoolSt Nat Nat 6 := freshPool (fun _ => ⟨none, 0, none, 0, false, 0, 0, none, none⟩) id

/-- Two tables are opened with an index each, and the first one is closed. -/
def firstClosed : PoolSt Nat Nat 6 :=
  [PoolOp.openindex 0 [10] true, .select (0, 0), .openindex 1 [11] true, .select (1, 0), .closeindex 0].foldl PoolOp.apply sevenBufs

/-- The index of the second table is served from the buffer of the first one, with its header. -/
theorem firstClosed_taken :
    ¬Runs.Along PoolOp.apply PoolOp.Right
      [.openindex 0 [10] true, .select (0, 0), .openindex 1 [11] true, .select (1, 0), .closeindex 0, .select (1, 0)] sevenBufs := by
  rintro ⟨-, -, -, -, -, h, -⟩
  have hsel : SelectRight firstClosed (1, 0) := h (by decide +kernel)
  obtain ⟨q, f, hq, -, hf, hhdr, -⟩ := hsel.serves
  have hcurr : (firstClosed.ndxSelect (1, 0)).currNdx.bind (fun q => ((firstClosed.ndxSelect (1, 0)).pool q).hdrFile) = some 10 := by decide +kernel
  have hfile : (firstClosed.ndxSelect (1, 0)).ndxfctl (1, 0) = ⟨some 11, true⟩ := by decide +kernel
  rw [hq, Option.bind_some, hhdr] at hcurr
  rw [hf, hcurr] at hfile
  cases hfile

end Db3w
