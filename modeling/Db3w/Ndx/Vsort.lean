/-
The external merge sort of vsort.c, on whole sort records: positions in a buffer or a file count
records. The keys are collected in a buffer of `nkeys` records; each time it is full it is sorted
in place and written to the first temporary file. The runs are then merged two by two, from one
file to the other and back, until one run is left. A result `none` means that the code does not come
to an end, or that it reads or writes outside of one of its buffers.
-/
import Db3w.Ndx.Qcomp

namespace Db3w

/-- Shorter parts are sorted by insertion. -/
def INSORTSZ : Nat := 256

def VSORT_ERR_VERIFY : Int := -106

/-- `VSORT_CTL`: the parts of it that the sort uses. A record has a record number of eight bytes before its key. -/
structure VsortCtl where
  nkeys : Nat
  vrecSize : Nat
  qcomp : VsortRec → VsortRec → Int
  descending : Bool
  nkeys_pos : 1 ≤ nkeys
  recno_le : 8 ≤ vrecSize

/-- `keyptrs`: what the pointers of it point to, if they have been set. -/
abbrev Keyptrs := Nat → Option VsortRec

/-- An index one lower, as a `DWORD`. -/
def dec32 (j : Nat) : Nat := if j = 0 then 2 ^ 32 - 1 else j - 1

/-- The records of a file after some are written at `pos`. -/
def writeAt (f : List VsortRec) (pos : Nat) (recs : List VsortRec) : List VsortRec :=
  f.take pos ++ List.replicate (pos - f.length) ⟨0, []⟩ ++ recs ++ f.drop (pos + recs.length)

namespace VsortCtl

variable (v : VsortCtl)

/-- The comparison in the direction of the sort. -/
def cmp (p q : VsortRec) : Int := if v.descending then -v.qcomp p q else v.qcomp p q

/-- `srtbufsz`, the size of a full buffer. -/
def srtbufsz : Nat := v.vrecSize * v.nkeys

/-- The size of the buffers: `mem_alloc` multiplies as a `DWORD`. -/
def allocated : Nat := v.srtbufsz % 2 ^ 32

/-! ## In memory -/

/-- The inner loop of `insort`. -/
def insertBelow (x : VsortRec) (start : Nat) : Nat → Keyptrs → Option Keyptrs
  | 0, K => some (Function.update K 0 (some x))
  | i + 1, K =>
    if i < start then some (Function.update K (i + 1) (some x))
    else do
      let y ← K i
      if v.cmp x y < 0 then insertBelow x start i (Function.update K (i + 1) (some y))
      else some (Function.update K (i + 1) (some x))

def insortFrom (start : Nat) : Nat → Nat → Keyptrs → Option Keyptrs
  | 0, _, K => some K
  | m + 1, k, K => do
    let x ← K (start + k)
    let K ← v.insertBelow x start (start + k) K
    insortFrom start m (k + 1) K

/-- `insort`. -/
def insort (start nitms : Nat) (K : Keyptrs) : Option Keyptrs := v.insortFrom start (nitms - 1) 1 K

def scanUp (x : VsortRec) : Nat → Nat → Keyptrs → Option Nat
  | 0, _, _ => none
  | fuel + 1, i, K => do
    let y ← K i
    if v.cmp y x < 0 then scanUp x fuel (i + 1) K else some i

def scanDown (x : VsortRec) : Nat → Nat → Keyptrs → Option Nat
  | 0, _, _ => none
  | fuel + 1, j, K => do
    let y ← K j
    if v.cmp y x > 0 then scanDown x fuel (dec32 j) K else some j

/-- The loop of `_qsort_` that parts the range at `x`. -/
def part (x : VsortRec) : Nat → Nat → Nat → Keyptrs → Option (Nat × Nat × Keyptrs)
  | 0, _, _, _ => none
  | fuel + 1, i, j, K =>
    if i ≤ j then do
      let i ← v.scanUp x fuel i K
      let j ← v.scanDown x fuel j K
      if i ≤ j then part x fuel (i + 1) (dec32 j) (Function.update (Function.update K i (K j)) j (K i))
      else part x fuel i j K
    else some (i, j, K)

/-- `_qsort_`. -/
def qsortRange : Nat → Nat → Nat → Keyptrs → Option Keyptrs
  | 0, _, _, _ => none
  | fuel + 1, start, nitms, K =>
    if nitms < INSORTSZ then v.insort start nitms K
    else do
      let x ← K (start + nitms / 2)
      let r ← v.part x fuel start (start + nitms - 1) K
      let K ← (if r.2.1 > start then qsortRange fuel start (r.2.1 - start + 1) r.2.2 else some r.2.2)
      if r.1 < start + nitms - 1 then qsortRange fuel r.1 (start + nitms - r.1) K else some K

/-- The records are written in the order of the pointers. -/
def writeKeys (K : Keyptrs) : Nat → Nat → Nat → List VsortRec → Option (List VsortRec)
  | 0, _, _, f => some f
  | m + 1, i, pos, f => do
    let r ← K i
    writeKeys K m (i + 1) (pos + 1) (writeAt f pos [r])

/-- `qsort_`: a full buffer, or the last one, is sorted and written to the first file. -/
def qsort_ (fuel : Nat) (vrecs : List VsortRec) (segment : Nat) (f : List VsortRec) : Option (List VsortRec) := do
  let K ← v.qsortRange fuel 0 vrecs.length fun k => vrecs[k]?
  writeKeys K vrecs.length 0 (segment * v.nkeys) f

/-! ## Between the files -/

/-- A record of bytes 0xff, which is how a buffer ends that a file does not fill. -/
def ffRec : VsortRec := ⟨-1, List.replicate (v.vrecSize - 8) 0xff⟩

/-- `fillbuf`: all of the buffer is filled, as far as it has been allocated. -/
def fillbuf (f : List VsortRec) (pos : Nat) : Option (List VsortRec) :=
  if v.srtbufsz ≤ v.allocated then some (((f.drop pos).take v.nkeys).rightpad v.nkeys v.ffRec) else none

/-- One of the two runs that are merged. -/
structure Run where
  buf : List VsortRec
  p : Nat
  titms : Nat
  pos : Nat
  tpos : Nat
  fill : Bool

/-- Behind a record that has been taken. -/
def next (f : List VsortRec) (n : Nat) (s : Run) : Option Run :=
  if (s.titms + 1) % 2 ^ 32 = n then
    some { s with titms := (s.titms + 1) % 2 ^ 32, p := s.p + 1, pos := s.pos + 2 * n, fill := true }
  else if s.p + 1 ≥ v.nkeys then do
    let b ← v.fillbuf f (s.tpos + v.nkeys)
    some { s with titms := (s.titms + 1) % 2 ^ 32, buf := b, p := 0, tpos := s.tpos + v.nkeys }
  else some { s with titms := (s.titms + 1) % 2 ^ 32, p := s.p + 1 }

/-- The next run is begun, if there is one. -/
def reload (f : List VsortRec) (fsize : Nat) (s : Run) : Option Run :=
  if s.pos < fsize then do
    let b ← v.fillbuf f s.pos
    some { s with buf := b, p := 0, tpos := s.pos, fill := false, titms := 0 }
  else some s

/-- The state of a pass: `out` is what `kbuf` holds below `r`, `file` the file that is written. -/
structure MergeSt where
  one : Run
  two : Run
  out : List VsortRec
  tpos : Nat
  titms : Nat
  file : List VsortRec

/-- From which run the next record is taken: the second one if `true`. -/
def which (s : MergeSt) : Option Bool :=
  if s.one.fill then some true
  else if s.two.fill then some false
  else do
    let p ← s.one.buf[s.one.p]?
    let q ← s.two.buf[s.two.p]?
    some (v.cmp p q > 0)

/-- The record is taken, and both runs begun anew when both are at their ends. -/
def takeNext (f : List VsortRec) (n fsize : Nat) (s : MergeSt) : Option (VsortRec × Run × Run) := do
  let w ← v.which s
  let r ← (if w then s.two.buf[s.two.p]? else s.one.buf[s.one.p]?)
  let one ← (if w then some s.one else v.next f n s.one)
  let two ← (if w then v.next f n s.two else some s.two)
  if one.fill && two.fill then do
    let one ← v.reload f fsize one
    let two ← v.reload f fsize two
    some (r, one, two)
  else some (r, one, two)

/-- `kbuf` is written when it is full. -/
def put (s : MergeSt) (r : VsortRec) (one two : Run) : MergeSt :=
  if (s.out ++ [r]).length ≥ v.nkeys then
    ⟨one, two, [], s.tpos + v.nkeys, (s.titms + 1) % 2 ^ 32, writeAt s.file s.tpos (s.out ++ [r])⟩
  else ⟨one, two, s.out ++ [r], s.tpos, (s.titms + 1) % 2 ^ 32, s.file⟩

def mergeLoop (f : List VsortRec) (n recCount : Nat) : Nat → MergeSt → Option MergeSt
  | 0, _ => none
  | fuel + 1, s =>
    if s.titms < recCount then do
      let r ← v.takeNext f n recCount s
      mergeLoop f n recCount fuel (v.put s r.1 r.2.1 r.2.2)
    else some s

/-- `merge`, from file number `src` with the records `f` to file number `dst` with the records `g`. It returns the number of the
file that is sorted, here with its records. -/
def merge (recCount : Nat) : Nat → Nat → Nat → Nat → List VsortRec → List VsortRec → Option (Nat × List VsortRec)
  | 0, _, _, _, _, _ => none
  | fuel + 1, n, src, dst, f, g => do
    let b1 ← v.fillbuf f 0
    if n ≥ recCount then some (src, f)
    else do
      let b2 ← v.fillbuf f n
      let s ← v.mergeLoop f n recCount fuel ⟨⟨b1, 0, 0, 0, 0, false⟩, ⟨b2, 0, 0, n, n, false⟩, [], 0, 0, g⟩
      merge recCount fuel (n * 2) dst src (writeAt s.file s.tpos s.out) f

/-! ## The sort -/

/-- The state of the loop over the records: `kbuf` holds `nkey` of them. -/
structure Fill where
  kbuf : List VsortRec
  count : Nat
  segment : Nat
  file : List VsortRec

/-- A record whose key has been got. -/
def addKey (fuel : Nat) (s : Fill) (vrec : VsortRec) : Option Fill :=
  if v.allocated < (s.kbuf.length + 1) * v.vrecSize then none
  else if s.kbuf.length + 1 = v.nkeys then do
    let f ← v.qsort_ fuel (s.kbuf ++ [vrec]) s.segment s.file
    some ⟨[], s.count + 1, (s.segment + 1) % 2 ^ 32, f⟩
  else some { s with kbuf := s.kbuf ++ [vrec], count := s.count + 1 }

/-- The loop over the records, `m` of them from number `n` on. An error is the code of `get_record`. -/
def fillLoop (fuel : Nat) (getRecord : Nat → Int) (getKey : Nat → Option VsortRec) : Nat → Nat → Fill → Option (Except Int Fill)
  | 0, _, s => some (.ok s)
  | m + 1, n, s =>
    if getRecord n ≠ 0 then some (.error (getRecord n))
    else match getKey n with
      | none => fillLoop fuel getRecord getKey m (n + 1) s
      | some vrec => do
        let s ← v.addKey fuel s vrec
        fillLoop fuel getRecord getKey m (n + 1) s

/-- The loop that verifies the order, with a result code; `vrec2` is the record before. -/
def verifyLoop (f : List VsortRec) : Nat → Nat → Option VsortRec → Option Int
  | 0, _, _ => some 0
  | m + 1, n, vrec2 =>
    -- the record before is kept behind the record in `kbuf`
    if 0 < n ∧ v.allocated < 2 * v.vrecSize then none
    else match f[n]? with
      | none => some VSORT_ERR_VERIFY
      | some vrec =>
        if (vrec2.map fun q => v.qcomp vrec q).any (· < 0) then some VSORT_ERR_VERIFY
        else verifyLoop f m (n + 1) (some vrec)

/-- `vsort_`: the number of the file that is sorted, or -1, and what it holds. -/
def vsort_ (fuel : Nat) (getRecord : Nat → Int) (getKey : Nat → Option VsortRec) (recCount : Nat) (verify : Bool) :
    Option (Int × List VsortRec) := do
  match ← v.fillLoop fuel getRecord getKey recCount 0 ⟨[], 0, 0, []⟩ with
  | .error _ => some (-1, [])
  | .ok s =>
    let f ← (if s.kbuf ≠ [] then v.qsort_ fuel s.kbuf s.segment s.file else some s.file)
    let r ← v.merge s.count fuel v.nkeys 0 1 f []
    let ccode ← (if verify then v.verifyLoop r.2 s.count 0 none else some 0)
    if ccode ≠ 0 then some (-1, r.2) else some (r.1, r.2)

end VsortCtl

end Db3w
