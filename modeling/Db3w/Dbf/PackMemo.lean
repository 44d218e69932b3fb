/-
PACK of a table with memo fields. A memo is text in blocks of its own, ended by a mark; a record has
the number of its first block as digits. The memos of the records that remain are copied to a new
file, which then takes the place of the old one. The loop over the fields of a record ends at an entry
whose name begins with the end mark of a header on disk. The field list of an open table has none, so
that the loop runs off its end with the first record that remains.
-/
import Db3w.Dbf.Header
import Db3w.Dbf.Pack

namespace Db3w

open Bytes

def BLKSIZE : Nat := 512
def EOF_MKR : UInt8 := 26

variable {σ : Type}

/-! ## Block numbers -/

def isSpace (b : UInt8) : Bool := b = 32 || (9 ≤ b && b ≤ 13)

def isDigit (b : UInt8) : Bool := 48 ≤ b && b ≤ 57

/-- The number the digits in front stand for. -/
def digitsVal (s : List UInt8) : Nat := (s.takeWhile isDigit).foldl (fun n b => 10 * n + (b.toNat - 48)) 0

/-- `atol`. -/
def atol (s : List UInt8) : Int :=
  match s.dropWhile isSpace with
  | 45 :: s => -digitsVal s
  | 43 :: s => digitsVal s
  | s => digitsVal s

/-- The block number, an unsigned word, in a record's field at `tp`; it is 0 when there is no memo. -/
def memoRef (data : List UInt8) (tp : Nat) : Nat := (atol (readAt tp MEMOLEN data) % 2 ^ 64).toNat

/-- `sprintf` of a block number, as far as the field takes it. -/
def blkDigits (blkno : Nat) : List UInt8 :=
  let digits := (Nat.toDigits 10 blkno).map fun c => UInt8.ofNat c.toNat
  padTo MEMOLEN ((List.replicate (MEMOLEN - digits.length) 32 ++ digits).take MEMOLEN)

/-! ## Copying -/

/-- The loop of `memo_copy` at positions `f` and `t` of the two files, with the memo buffer and the
blocks copied so far. The first argument bounds the blocks of the old file. -/
def memoCopyLoop (old : List UInt8) : Nat → List UInt8 → Nat → Nat → List UInt8 → Nat → List UInt8 × Nat
  | 0, _, _, _, new, cnt => (new, cnt)
  | n + 1, memobuf, f, t, new, cnt =>
    let got := readAt f BLKSIZE old
    let short := got.length < BLKSIZE
    -- the rest of a short block is what the buffer held before
    let memobuf := if short then got ++ EOF_MKR :: memobuf.drop (got.length + 1) else got
    let new := writeAt t memobuf new
    if short ∨ EOF_MKR ∈ got then (new, cnt + 1)
    else memoCopyLoop old n memobuf (f + BLKSIZE) (t + BLKSIZE) new (cnt + 1)

/-- `memo_copy`: the new file and the number of blocks copied. The buffer is not initialised, so that
`junk` is any function. -/
def memoCopy (junk : Nat → Fin BLKSIZE → UInt8) (old new : List UInt8) (fblkno tblkno : Nat) :
    Except DbErr (List UInt8 × Nat) :=
  if 2 ^ 63 ≤ fblkno then .error .memoCopy
  else .ok (memoCopyLoop old (old.length / BLKSIZE + 1) (List.ofFn (junk fblkno)) (fblkno * BLKSIZE) (tblkno * BLKSIZE) new 0)

/-- One memo field of a record in the buffer: its memo is copied to `nextblk`, which then becomes
what `memo_copy` returns. -/
def packMemoField (junk : Nat → Fin BLKSIZE → UInt8) (old : List UInt8) (tp : Nat) :
    List UInt8 × List UInt8 × Nat → Except DbErr (List UInt8 × List UInt8 × Nat)
  | (data, new, nextblk) =>
    if memoRef data tp > 0 then do
      let (new, n) ← memoCopy junk old new (memoRef data tp) nextblk
      return (writeAt tp (blkDigits nextblk) data, new, n)
    else .ok (data, new, nextblk)

/-- The loop over the fields of a record, up to an entry that begins with the end mark. Behind the list there are zeros, and then
what is not the table's. -/
def packMemoFields (junk : Nat → Fin BLKSIZE → UInt8) (old : List UInt8) :
    List Field → Nat → List UInt8 × List UInt8 × Nat → Except DbErr (List UInt8 × List UInt8 × Nat)
  | [], _, _ => .error .offEnd
  | f :: fs, tp, st =>
    if f.name.head? = some EOH then .ok st
    else do
      let st ← if f.ftype = 77 then packMemoField junk old tp st else .ok st
      packMemoFields junk old fs (tp + f.tlength.toNat) st

/-- The loop over the records. They are changed in the buffer. -/
def packMemoRecs (junk : Nat → Fin BLKSIZE → UInt8) (old : List UInt8) (fields : List Field) :
    Nat → Nat → Tbl σ × List UInt8 × Nat → Except DbErr (Tbl σ × List UInt8 × Nat)
  | 0, _, st => .ok st
  | n + 1, dst, (t, new, nextblk) => do
    let t ← gorec dst t
    let (data, new, nextblk) ← packMemoFields junk old fields 0 (t.buf.data, new, nextblk)
    packMemoRecs junk old fields n (dst + 1) ({ t with buf := { t.buf with data } }, new, nextblk)

/-- The memo part of `dbpack`: the table and its new memo file, the first bytes of which are the next
free block. -/
def packMemo (junk : Nat → Fin BLKSIZE → UInt8) (fields : List Field) (t : Tbl σ) (old : List UInt8) :
    Except DbErr (Tbl σ × List UInt8) := do
  let (t, new, nextblk) ← packMemoRecs junk old fields t.reccnt 1 (t, writeAt 0 (word 8 1) [], 1)
  return (t, writeAt 0 (word 8 nextblk) new)

/-- `dbpack` of a table with memo fields. -/
def dbpackMemo (upd : UpdNdx σ) (junk : Nat → Fin BLKSIZE → UInt8) (fields : List Field) (t : Tbl σ) (old : List UInt8) :
    Except DbErr (Tbl σ × List UInt8) := do
  let t ← dbpack upd t
  packMemo junk fields t old

/-! ## Memos -/

/-- The text of the memo at a block, if an end mark follows. -/
def memoText (file : List UInt8) (blkno : Nat) : Option (List UInt8) :=
  if 2 ^ 63 ≤ blkno then none
  else
    let rest := file.drop (blkno * BLKSIZE)
    if EOF_MKR ∈ rest then some (rest.takeWhile (· ≠ EOF_MKR)) else none

/-- How many blocks a text takes with its end mark. -/
def textBlks (text : List UInt8) : Nat := text.length / BLKSIZE + 1

/-- How many blocks the memo at a block has. -/
def memoBlks (file : List UInt8) (blkno : Nat) : Nat := ((memoText file blkno).map textBlks).getD 0

/-- The block numbers in the memo fields of a record, from a field at `tp` on. -/
def refsFrom (data : List UInt8) : List Field → Nat → List Nat
  | [], _ => []
  | f :: fs, tp =>
    if f.name.head? = some EOH then []
    else (if f.ftype = 77 then [memoRef data tp] else []) ++ refsFrom data fs (tp + f.tlength.toNat)

/-- The block numbers in the memo fields of a record. -/
def recRefs (fields : List Field) (r : Rec) : List Nat := refsFrom r.data fields 0

/-- The memos of a list of records: their block numbers, in order. -/
def memoRefs (fields : List Field) (recs : List Rec) : List Nat := (recs.flatMap (recRefs fields)).filter (0 < ·)

/-- The memos of a record: for each field nothing, if it has no memo, or the text reached. -/
def recMemos (file : List UInt8) (fields : List Field) (r : Rec) : List (Option (Option (List UInt8))) :=
  (recRefs fields r).map fun b => if b = 0 then none else some (memoText file b)

/-- Each memo is there and has its own run of blocks. -/
structure OwnRuns (file : List UInt8) (refs : List Nat) : Prop where
  text : ∀ b ∈ refs, (memoText file b).isSome
  apart : refs.Pairwise fun b c => b + memoBlks file b ≤ c ∨ c + memoBlks file c ≤ b

/-- What PACK has to do with memos: the records that remain are the live ones with the memos they had,
and each memo has its own run of blocks. -/
structure MemosKept (fields : List Field) (t : Tbl σ) (old : List UInt8) (t' : Tbl σ) (new : List UInt8) : Prop where
  memos : t'.recs.map (recMemos new fields) = (live t.recs).map (recMemos old fields)
  own : OwnRuns new (memoRefs fields t'.recs)

/-- No field name begins with the end mark. -/
def Unmarked (fields : List Field) : Prop := ∀ f ∈ fields, f.name.head? ≠ some EOH

/-- Valid fields up to an entry that begins with the end mark. -/
def EndMarked : List Field → Prop
  | [] => False
  | f :: fs => f.name.head? = some EOH ∨ isValidField f = true ∧ EndMarked fs

/-- An open table has no such entry: at the end mark the fields of a header end. -/
theorem readFields_unmarked {fmt : DbFmt} {size n tp tp' : Nat} {rest rest' : List UInt8} {fs : List Field}
    (h : readFields fmt size n tp rest = some (fs, tp', rest')) : Unmarked fs := by
  induction n generalizing tp rest fs with
  | zero =>
    cases h
    exact fun f hf => nomatch hf
  | succ n ih =>
    unfold readFields at h
    split_ifs at h with hend hvalid
    · cases h
      exact fun f hf => nomatch hf
    · obtain ⟨⟨fs', tp'', rest''⟩, hr, heq⟩ := Option.map_eq_some_iff.mp h
      cases heq
      intro f hf
      rcases List.mem_cons.mp hf with rfl | hf
      · -- the first byte of the name is that of the entry
        intro hname
        refine hend (.inl ?_)
        unfold readField at hname
        cases rest with
        | nil => simp [cstr] at hname
        | cons b rest =>
          cases hlen : fmt.namelen with
          | zero =>
            rw [hlen] at hname
            simp [cstr] at hname
          | succ k =>
            rw [hlen, List.take_succ_cons] at hname
            unfold cstr at hname
            rw [List.takeWhile_cons] at hname
            split at hname
            · exact Option.some.inj hname
            · cases hname
      · exact ih hr f hf

theorem readDbHdr_unmarked {hdr hdr' : Table} {buf : List UInt8} {size : Nat} (h : readDbHdr hdr buf size = some hdr') : Unmarked hdr'.fdlist := by
  obtain ⟨fmt, hfrom⟩ := hdrFrom_of_readDbHdr h
  obtain ⟨rest, hfields, -⟩ := hfrom.fields
  exact readFields_unmarked hfields

/-! ## A copy -/

section Copy

variable {junk : Nat → Fin BLKSIZE → UInt8} {old new : List UInt8}

/-- Of a text and its end mark the loop copies so many blocks. -/
theorem memoCopyLoop_spec {n : Nat} {s l : List UInt8} {f : Nat} (memobuf new : List UInt8) (t cnt : Nat)
    (hold : old.drop f = s ++ EOF_MKR :: l) (hs : EOF_MKR ∉ s) (hn : s.length / BLKSIZE < n) (hbuf : memobuf.length = BLKSIZE) :
    ∃ new', memoCopyLoop old n memobuf f t new cnt = (new', cnt + textBlks s) ∧
      new'.length = max new.length (t + textBlks s * BLKSIZE) ∧
      (∃ l', new'.drop t = s ++ EOF_MKR :: l') ∧ (t ≤ new.length → new'.take t = new.take t) := by
  induction n generalizing memobuf new s f t cnt with
  | zero => exact absurd hn (Nat.not_lt_zero _)
  | succ n ih =>
    have hgot : readAt f BLKSIZE old = (s ++ EOF_MKR :: l).take BLKSIZE := by rw [readAt, hold]
    rw [memoCopyLoop, hgot]
    rcases Nat.lt_or_ge s.length BLKSIZE with hlt | hge
    · -- the mark is in this block
      have hmem : EOF_MKR ∈ (s ++ EOF_MKR :: l).take BLKSIZE := by
        rw [List.take_append, List.take_of_length_le (by omega), List.mem_append]
        right
        obtain ⟨k, hk⟩ : ∃ k, BLKSIZE - s.length = k + 1 := ⟨BLKSIZE - s.length - 1, by omega⟩
        rw [hk, List.take_succ_cons]
        exact List.mem_cons_self ..
      rw [if_pos (.inr hmem)]
      have hblks : textBlks s = 1 := by
        unfold textBlks
        rw [Nat.div_eq_of_lt hlt]
      rw [hblks]
      generalize hb : (if ((s ++ EOF_MKR :: l).take BLKSIZE).length < BLKSIZE then
          (s ++ EOF_MKR :: l).take BLKSIZE ++ EOF_MKR :: memobuf.drop (((s ++ EOF_MKR :: l).take BLKSIZE).length + 1)
        else (s ++ EOF_MKR :: l).take BLKSIZE) = blk
      have hlen : blk.length = BLKSIZE := by
        rw [← hb]
        split
        · rename_i hshort
          rw [List.length_append, List.length_cons, List.length_drop]
          omega
        · rename_i hfull
          have hle := List.length_take_le BLKSIZE (s ++ EOF_MKR :: l)
          omega
      have hpre : ∃ l', blk = s ++ EOF_MKR :: l' := by
        obtain ⟨k, hk⟩ : ∃ k, BLKSIZE - s.length = k + 1 := ⟨BLKSIZE - s.length - 1, by omega⟩
        have htake : (s ++ EOF_MKR :: l).take BLKSIZE = s ++ EOF_MKR :: l.take k := by
          rw [List.take_append, List.take_of_length_le (by omega), hk, List.take_succ_cons]
        rw [← hb, htake]
        split
        · exact ⟨_, by rw [List.append_assoc, List.cons_append]⟩
        · exact ⟨_, rfl⟩
      refine ⟨writeAt t blk new, rfl, ?_, ?_, take_writeAt⟩
      · rw [length_writeAt, hlen, Nat.one_mul]
      · obtain ⟨l', hl'⟩ := hpre
        rw [drop_writeAt]
        exact ⟨l' ++ new.drop (t + blk.length), by rw [hl', List.append_assoc, List.cons_append]⟩
    · -- a whole block of text
      have htake : (s ++ EOF_MKR :: l).take BLKSIZE = s.take BLKSIZE := by
        rw [List.take_append, Nat.sub_eq_zero_of_le hge, List.take_zero, List.append_nil]
      have hlen : (s.take BLKSIZE).length = BLKSIZE := by
        rw [List.length_take, Nat.min_eq_left hge]
      have hno : EOF_MKR ∉ s.take BLKSIZE := fun h => hs (List.mem_of_mem_take h)
      rw [htake, if_neg (by rw [hlen, not_or]; exact ⟨lt_irrefl _, hno⟩), if_neg (by rw [hlen]; exact lt_irrefl _)]
      have hdrop : old.drop (f + BLKSIZE) = s.drop BLKSIZE ++ EOF_MKR :: l := by
        rw [← List.drop_drop, hold, List.drop_append, Nat.sub_eq_zero_of_le hge, List.drop_zero]
      have hblks : textBlks s = textBlks (s.drop BLKSIZE) + 1 := by
        unfold textBlks
        rw [List.length_drop, Nat.div_eq_sub_div (by decide) hge]
      have hdiv : (s.drop BLKSIZE).length / BLKSIZE < n := by
        unfold textBlks at hblks
        omega
      obtain ⟨new', hrun, hlen', ⟨l', hl'⟩, htake'⟩ := ih (s.take BLKSIZE) (writeAt t (s.take BLKSIZE) new) (t + BLKSIZE) (cnt + 1)
        hdrop (fun h => hs (List.mem_of_mem_drop h)) hdiv hlen
      have hnew : t + BLKSIZE ≤ (writeAt t (s.take BLKSIZE) new).length := by
        rw [length_writeAt, hlen]
        omega
      refine ⟨new', ?_, ?_, ⟨l', ?_⟩, ?_⟩
      · rw [hrun, hblks]
        congr 1
        omega
      · rw [hlen', length_writeAt, hlen, hblks, Nat.add_mul, Nat.one_mul]
        omega
      · have hfront : (new'.take (t + BLKSIZE)).drop t = s.take BLKSIZE := by
          rw [htake' hnew, List.drop_take, drop_writeAt, hlen, Nat.add_sub_cancel_left, List.take_left' hlen]
        have hsplit : new'.drop t = (new'.take (t + BLKSIZE)).drop t ++ new'.drop (t + BLKSIZE) := by
          rw [List.drop_take, ← List.drop_drop, Nat.add_sub_cancel_left, List.take_append_drop]
        rw [hsplit, hfront, hl', ← List.append_assoc, List.take_append_drop]
      · intro ht
        have h1 := htake' hnew
        have h2 : (new'.take (t + BLKSIZE)).take t = new'.take t := by
          rw [List.take_take, Nat.min_eq_left (by omega)]
        rw [← h2, h1, List.take_take, Nat.min_eq_left (by omega), take_writeAt ht]

theorem takeWhile_mark {s l : List UInt8} (h : EOF_MKR ∉ s) : (s ++ EOF_MKR :: l).takeWhile (· ≠ EOF_MKR) = s := by
  rw [List.takeWhile_append_of_pos]
  · simp
  · intro x hx
    rw [decide_eq_true_eq]
    rintro rfl
    exact h hx

theorem memoText_eq_some {file text : List UInt8} {b : Nat} :
    memoText file b = some text ↔
      b < 2 ^ 63 ∧ EOF_MKR ∉ text ∧ ∃ l, file.drop (b * BLKSIZE) = text ++ EOF_MKR :: l := by
  unfold memoText
  constructor
  · intro h
    rcases Nat.lt_or_ge b (2 ^ 63) with hlt | hge
    · rw [if_neg (by omega)] at h
      dsimp only at h
      split at h
      · rename_i hmem
        obtain ⟨s, l, hsplit, hno⟩ := List.eq_append_cons_of_mem hmem
        rw [hsplit, takeWhile_mark hno] at h
        obtain rfl := Option.some.inj h
        exact ⟨hlt, hno, l, hsplit⟩
      · cases h
    · rw [if_pos hge] at h
      cases h
  · rintro ⟨hlt, hno, l, hl⟩
    rw [if_neg (by omega)]
    dsimp only
    rw [hl, if_pos (by simp), takeWhile_mark hno]

variable (junk new) in
/-- A memo is copied with all its blocks. -/
theorem memoCopy_spec (t : Nat) {b : Nat} {text : List UInt8} (h : memoText old b = some text) :
    ∃ new', memoCopy junk old new b t = .ok (new', memoBlks old b) ∧
      new'.length = max new.length ((t + memoBlks old b) * BLKSIZE) ∧
      ∃ l', new'.drop (t * BLKSIZE) = text ++ EOF_MKR :: l' := by
  obtain ⟨hlt, hno, l, hl⟩ := memoText_eq_some.mp h
  have hblks : memoBlks old b = textBlks text := by
    unfold memoBlks
    rw [h]
    rfl
  have hn : text.length / BLKSIZE < old.length / BLKSIZE + 1 := by
    have hlen := congrArg List.length hl
    rw [List.length_drop, List.length_append] at hlen
    have := Nat.div_le_div_right (c := BLKSIZE) (show text.length ≤ old.length by omega)
    omega
  obtain ⟨new', hrun, hlen, hdrop, -⟩ := memoCopyLoop_spec (List.ofFn (junk b)) new (t * BLKSIZE) 0
    hl hno hn (by simp)
  refine ⟨new', ?_, ?_, hdrop⟩
  · unfold memoCopy
    rw [if_neg (by omega), hrun, hblks, Nat.zero_add]
  · rw [hlen, hblks, Nat.add_mul]

end Copy

/-! ## All copies -/

/-- The copies for a list of references. -/
def copyRefs (junk : Nat → Fin BLKSIZE → UInt8) (old : List UInt8) :
    List Nat → List UInt8 × Nat → Except DbErr (List UInt8 × Nat)
  | [], st => .ok st
  | b :: bs, (new, nextblk) => do
    let st ← memoCopy junk old new b nextblk
    copyRefs junk old bs st

section Copies

variable {junk : Nat → Fin BLKSIZE → UInt8} {old : List UInt8}

theorem copyRefs_append (bs cs : List Nat) (st : List UInt8 × Nat) :
    copyRefs junk old (bs ++ cs) st = copyRefs junk old bs st >>= copyRefs junk old cs := by
  induction bs generalizing st with
  | nil => rfl
  | cons b bs ih =>
    obtain ⟨new, nextblk⟩ := st
    rw [List.cons_append, copyRefs, copyRefs]
    cases memoCopy junk old new b nextblk with
    | error e => rfl
    | ok st => exact ih st

/-- Fields after one that is rewritten are not touched. -/
theorem refsFrom_writeAt {tp : Nat} (bs : List UInt8) {data : List UInt8} (fs : List Field) {k : Nat} (h : tp + bs.length ≤ k) :
    refsFrom (writeAt tp bs data) fs k = refsFrom data fs k := by
  induction fs generalizing k with
  | nil => rfl
  | cons f fs ih =>
    have href : memoRef (writeAt tp bs data) k = memoRef data k := by
      unfold memoRef readAt
      rw [drop_writeAt_of_le h]
    rw [refsFrom, refsFrom, href, ih (by omega)]

theorem length_blkDigits (blkno : Nat) : (blkDigits blkno).length = MEMOLEN := by
  unfold blkDigits
  exact length_padTo (List.length_take_le ..)

theorem memo_tlength {f : Field} (hv : isValidField f = true) (hm : f.ftype = 77) : f.tlength.toNat = MEMOLEN := by
  unfold isValidField at hv
  rw [hm, if_neg (by decide), if_neg (by decide), if_neg (by decide), if_neg (by decide), if_pos rfl, decide_eq_true_eq] at hv
  rw [hv.2]
  rfl

variable (junk old) in
/-- The fields of a record copy what they refer to. -/
theorem packMemoFields_copies {fs : List Field} (hv : EndMarked fs) (tp : Nat) (data new : List UInt8)
    (nextblk : Nat) :
    (packMemoFields junk old fs tp (data, new, nextblk)).map Prod.snd =
      copyRefs junk old ((refsFrom data fs tp).filter (0 < ·)) (new, nextblk) := by
  induction fs generalizing tp data new nextblk with
  | nil => exact hv.elim
  | cons f fs ih =>
    rw [packMemoFields, refsFrom]
    by_cases heoh : f.name.head? = some EOH
    · rw [if_pos heoh, if_pos heoh]
      rfl
    obtain ⟨hvalid, hv⟩ := hv.resolve_left heoh
    have ih := ih hv
    rw [if_neg heoh, if_neg heoh]
    by_cases hm : f.ftype = 77
    · have hlen := memo_tlength hvalid hm
      rw [if_pos hm, if_pos hm, packMemoField]
      by_cases hpos : memoRef data tp > 0
      · rw [if_pos hpos, List.filter_append, List.filter_cons_of_pos (by simpa using hpos), List.filter_nil,
          List.cons_append, List.nil_append, copyRefs]
        cases memoCopy junk old new (memoRef data tp) nextblk with
        | error e => rfl
        | ok st =>
          obtain ⟨new', n⟩ := st
          rw [← refsFrom_writeAt (blkDigits nextblk) fs (by rw [length_blkDigits, hlen])]
          exact ih ..
      · rw [if_neg hpos, List.filter_append, List.filter_cons_of_neg (by simpa using hpos), List.filter_nil, List.nil_append]
        exact ih ..
    · rw [if_neg hm, if_neg hm, List.nil_append]
      exact ih ..

variable {fields : List Field}

variable (junk old) in
/-- The records copy what they refer to, and stay as they are on disk. -/
theorem packMemoRecs_copies (hv : EndMarked fields) (n dst : Nat) (t : Tbl σ) (new : List UInt8)
    (nextblk : Nat) (hread : n = 0 ∨ t.readable) (hdst : 0 < dst) (hle : dst + n ≤ t.reccnt + 1) :
    (packMemoRecs junk old fields n dst (t, new, nextblk)).map Prod.snd =
        copyRefs junk old (memoRefs fields ((List.range n).map fun i => t.disk (dst + i))) (new, nextblk) ∧
      ∀ t' new' k, packMemoRecs junk old fields n dst (t, new, nextblk) = .ok (t', new', k) → t'.recs = t.recs := by
  induction n generalizing dst t new nextblk with
  | zero =>
    refine ⟨rfl, ?_⟩
    intro t' new' k h
    cases h
    rfl
  | succ n ih =>
    have hg : gorec dst t = .ok { t with buf := t.disk dst, crntrec := dst } := gorec_le (hread.resolve_left (Nat.succ_ne_zero n)) (by omega) (by omega)
    have hfields := packMemoFields_copies junk old hv 0 (t.disk dst).data new nextblk
    have hrefs : memoRefs fields ((List.range (n + 1)).map fun i => t.disk (dst + i)) =
        (refsFrom (t.disk dst).data fields 0).filter (0 < ·) ++
          memoRefs fields ((List.range n).map fun i => t.disk (dst + 1 + i)) := by
      rw [List.range_succ_eq_map]
      unfold memoRefs recRefs
      simp only [List.map_cons, List.flatMap_cons, List.filter_append, List.map_map, Nat.add_zero, Function.comp_def,
        Nat.succ_eq_add_one, Nat.add_assoc, Nat.add_comm 1]
    rw [packMemoRecs, hg, hrefs, copyRefs_append, ← hfields]
    dsimp only [bind, Except.bind]
    cases hrun : packMemoFields junk old fields 0 ((t.disk dst).data, new, nextblk) with
    | error e =>
      refine ⟨rfl, ?_⟩
      intro t' new' k h
      cases h
    | ok st =>
      obtain ⟨data, new', k⟩ := st
      exact ih (dst + 1) { t with buf := { t.disk dst with data }, crntrec := dst } new' k (.inr (hread.resolve_left (Nat.succ_ne_zero n))) (by omega)
        (show dst + 1 + n ≤ t.reccnt + 1 by omega)

/-- The whole memo part as a list of copies. -/
theorem packMemo_copies (hv : EndMarked fields) (t : Tbl σ) (hread : t.reccnt = 0 ∨ t.readable) :
    (∀ new nextblk, copyRefs junk old (memoRefs fields t.recs) (writeAt 0 (word 8 1) [], 1) = .ok (new, nextblk) →
        ∃ t', packMemo junk fields t old = .ok (t', writeAt 0 (word 8 nextblk) new)) ∧
      ∀ t' new', packMemo junk fields t old = .ok (t', new') → t'.recs = t.recs ∧
        ∃ new nextblk, copyRefs junk old (memoRefs fields t.recs) (writeAt 0 (word 8 1) [], 1) = .ok (new, nextblk) ∧
          new' = writeAt 0 (word 8 nextblk) new := by
  obtain ⟨hcopy, hdisk⟩ := packMemoRecs_copies junk old hv t.reccnt 1 t (writeAt 0 (word 8 1) []) 1
    hread (by omega) (by omega)
  have hrecs : (List.range t.reccnt).map (fun i => t.disk (1 + i)) = t.recs := by
    unfold Tbl.recs
    simp only [Nat.add_comm 1]
  rw [hrecs] at hcopy
  unfold packMemo
  rw [← hcopy]
  cases hrun : packMemoRecs junk old fields t.reccnt 1 (t, writeAt 0 (word 8 1) [], 1) with
  | error e =>
    constructor
    · intro new nextblk h
      cases h
    · intro t' new' h
      cases h
  | ok st =>
    obtain ⟨t₁, new₁, k₁⟩ := st
    constructor
    · intro new nextblk h
      cases h
      exact ⟨t₁, rfl⟩
    · intro t' new' h
      cases h
      exact ⟨hdisk _ _ _ hrun, new₁, k₁, rfl, rfl⟩

end Copies

/-! ## Room -/

/-- Runs that lie apart in a set of blocks do not have more blocks than it has. -/
theorem sum_le_of_apart {len : Nat → Nat} {l : List Nat} {s : Finset Nat}
    (hap : l.Pairwise fun b c => b + len b ≤ c ∨ c + len c ≤ b) (hs : ∀ b ∈ l, Finset.Ico b (b + len b) ⊆ s) :
    (l.map len).sum ≤ s.card := by
  induction l generalizing s with
  | nil => simp
  | cons b l ih =>
    obtain ⟨hb, hap⟩ := List.pairwise_cons.mp hap
    have hsub := hs b (List.mem_cons_self ..)
    have hrest : ∀ c ∈ l, Finset.Ico c (c + len c) ⊆ s \ Finset.Ico b (b + len b) := by
      intro c hc x hx
      have hxs := hs c (List.mem_cons_of_mem _ hc) hx
      have hor := hb c hc
      rw [Finset.mem_Ico] at hx
      rw [Finset.mem_sdiff, Finset.mem_Ico]
      exact ⟨hxs, by omega⟩
    have hcard := Finset.card_sdiff_add_card_eq_card hsub
    have hsum := ih hap hrest
    rw [Nat.card_Ico] at hcard
    rw [List.map_cons, List.sum_cons]
    omega

section Room

variable {junk : Nat → Fin BLKSIZE → UInt8} {old new : List UInt8} {refs : List Nat} {fields : List Field}

/-- Where a memo ends, the file has not ended before. -/
theorem memo_in_file {b L : Nat} (h : (memoText new b).isSome) (hL : new.length ≤ L * BLKSIZE) : b + memoBlks new b ≤ L := by
  obtain ⟨text, htext⟩ := Option.isSome_iff_exists.mp h
  obtain ⟨-, -, l, hl⟩ := memoText_eq_some.mp htext
  have hlen := congrArg List.length hl
  rw [List.length_drop, List.length_append, List.length_cons] at hlen
  unfold memoBlks
  rw [htext, Option.map_some, Option.getD_some]
  unfold textBlks BLKSIZE at *
  omega

theorem one_le_memoBlks {b : Nat} (h : (memoText new b).isSome) : 1 ≤ memoBlks new b := by
  obtain ⟨text, htext⟩ := Option.isSome_iff_exists.mp h
  unfold memoBlks textBlks
  rw [htext, Option.map_some, Option.getD_some]
  exact Nat.le_add_left ..

/-- Once a memo has been copied, each further one begins before the end of what has been copied. -/
theorem copyRefs_length (new : List UInt8) (size nextblk : Nat) (htext : ∀ b ∈ refs, (memoText old b).isSome) (h1 : nextblk ≤ size)
    (hlen : new.length ≤ (size + 1) * BLKSIZE) :
    ∃ new' k, copyRefs junk old refs (new, nextblk) = .ok (new', k) ∧
      (refs ≠ [] → new'.length ≤ (size + (refs.map (memoBlks old)).sum) * BLKSIZE) := by
  induction refs generalizing new size nextblk with
  | nil => exact ⟨new, nextblk, rfl, fun h => absurd rfl h⟩
  | cons b bs ih =>
    have hb := htext b (List.mem_cons_self ..)
    obtain ⟨text, ht⟩ := Option.isSome_iff_exists.mp hb
    obtain ⟨new₁, hcopy, hlen₁, -⟩ := memoCopy_spec junk new nextblk ht
    have hone := one_le_memoBlks hb
    have hle : new₁.length ≤ (size + memoBlks old b) * BLKSIZE := by
      rw [hlen₁]
      unfold BLKSIZE at *
      omega
    obtain ⟨new', k, hrun, hres⟩ := ih new₁ (size + memoBlks old b) (memoBlks old b)
      (fun c hc => htext c (List.mem_cons_of_mem _ hc)) (by omega)
      (hle.trans (Nat.mul_le_mul_right _ (Nat.le_succ _)))
    refine ⟨new', k, ?_, ?_⟩
    · rw [copyRefs, hcopy]
      exact hrun
    · intro _
      rw [List.map_cons, List.sum_cons]
      rcases bs with _ | ⟨c, cs⟩
      · cases hrun
        simpa using hle
      · have h := hres (by simp)
        rw [Nat.add_assoc] at h
        exact h

theorem memos_eq_iff {recs : List Rec} :
    recs.map (recMemos new fields) = recs.map (recMemos old fields) ↔
      ∀ b ∈ memoRefs fields recs, memoText new b = memoText old b := by
  rw [List.map_inj_left]
  unfold recMemos memoRefs
  constructor
  · intro h b hb
    rw [List.mem_filter, List.mem_flatMap] at hb
    obtain ⟨⟨r, hr, hbr⟩, hpos⟩ := hb
    rw [decide_eq_true_eq] at hpos
    have heq := List.map_inj_left.mp (h r hr) b hbr
    rw [if_neg (by omega), if_neg (by omega)] at heq
    exact Option.some.inj heq
  · intro h r hr
    rw [List.map_inj_left]
    intro b hb
    rcases Nat.eq_zero_or_pos b with h0 | hpos
    · rw [if_pos h0, if_pos h0]
    · rw [if_neg (by omega), if_neg (by omega), h b]
      rw [List.mem_filter, List.mem_flatMap]
      exact ⟨⟨r, hr, hb⟩, by simpa using hpos⟩

theorem length_putNext {k : Nat} : (writeAt 0 (word 8 k) new).length = max new.length 8 := by
  rw [length_writeAt, length_word, Nat.zero_add]

/-- There is room for the memos copied only when there is at most one, at the first block. -/
theorem refs_of_kept (hpos : ∀ b ∈ refs, 0 < b) (hold : OwnRuns old refs)
    (hrun : ∃ new' k, copyRefs junk old refs (writeAt 0 (word 8 1) [], 1) = .ok (new', k) ∧ new = writeAt 0 (word 8 k) new')
    (hkept : ∀ b ∈ refs, memoText new b = memoText old b) : refs = [] ∨ refs = [1] := by
  obtain ⟨new', k, hcopy, rfl⟩ := hrun
  have hsome : ∀ b ∈ refs, (memoText (writeAt 0 (word 8 k) new') b).isSome := by
    intro b hb
    rw [hkept b hb]
    exact hold.text b hb
  have hblks : ∀ b ∈ refs, memoBlks (writeAt 0 (word 8 k) new') b = memoBlks old b := by
    intro b hb
    unfold memoBlks
    rw [hkept b hb]
  -- the runs lie in the blocks from 1 up to the end of the file
  have hroom : ∀ L, (writeAt 0 (word 8 k) new').length ≤ L * BLKSIZE → (refs.map (memoBlks old)).sum ≤ L - 1 := by
    intro L hL
    rw [← Nat.card_Ico]
    apply sum_le_of_apart hold.apart
    intro b hb x hx
    have hend := memo_in_file (hsome b hb) hL
    rw [hblks b hb] at hend
    have h1 := hpos b hb
    rw [Finset.mem_Ico] at hx ⊢
    omega
  rcases refs with _ | ⟨b, bs⟩
  · exact .inl rfl
  right
  have hb := hold.text b (List.mem_cons_self ..)
  obtain ⟨text, ht⟩ := Option.isSome_iff_exists.mp hb
  have hone := one_le_memoBlks hb
  obtain ⟨new₁, hcopy₁, hlen₁, -⟩ := memoCopy_spec junk (writeAt 0 (word 8 1) []) 1 ht
  rw [length_putNext] at hlen₁
  rw [copyRefs, hcopy₁] at hcopy
  rcases bs with _ | ⟨c, cs⟩
  · cases hcopy
    have hend := memo_in_file (L := 1 + memoBlks old b) (hsome b (List.mem_cons_self ..)) (by
      rw [length_putNext, hlen₁, List.length_nil]
      unfold BLKSIZE
      omega)
    rw [hblks b (List.mem_cons_self ..)] at hend
    have h1 := hpos b (List.mem_cons_self ..)
    rw [show b = 1 by omega]
  · exfalso
    have hc := one_le_memoBlks (hold.text c (List.mem_cons_of_mem _ (List.mem_cons_self ..)))
    obtain ⟨new₂, k₂, hrun₂, hlen₂⟩ := copyRefs_length new₁ (memoBlks old b) (memoBlks old b)
      (fun d hd => hold.text d (List.mem_cons_of_mem _ hd)) le_rfl (by
        rw [hlen₁, List.length_nil]
        unfold BLKSIZE
        omega)
    cases hrun₂.symm.trans hcopy
    have hlen := hlen₂ (by simp)
    have hsum := hroom (memoBlks old b + ((c :: cs).map (memoBlks old)).sum) (by
      rw [length_putNext]
      unfold BLKSIZE at *
      omega)
    rw [List.map_cons, List.sum_cons] at hsum
    omega

variable (junk) in
/-- A single memo at the first block is kept. -/
theorem copyRefs_one {text : List UInt8} (h : memoText old 1 = some text) :
    ∃ new' k, copyRefs junk old [1] (writeAt 0 (word 8 1) [], 1) = .ok (new', k) ∧
      memoText (writeAt 0 (word 8 k) new') 1 = some text := by
  obtain ⟨new', hcopy, -, l, hl⟩ := memoCopy_spec junk (writeAt 0 (word 8 1) []) 1 h
  refine ⟨new', memoBlks old 1, ?_, ?_⟩
  · rw [copyRefs, hcopy]
    rfl
  · rw [memoText_eq_some]
    refine ⟨by decide, (memoText_eq_some.mp h).2.1, l, ?_⟩
    rw [drop_writeAt_of_le (by rw [length_word]; decide), hl]

end Room

/-! ## PACK -/

section DbpackMemo

variable {upd : UpdNdx σ} {junk : Nat → Fin BLKSIZE → UInt8} {fields : List Field} {t : Tbl σ} {old : List UInt8}

theorem memoRefs_pos {recs : List Rec} {b : Nat} (h : b ∈ memoRefs fields recs) : 0 < b := by
  unfold memoRefs at h
  simpa using (List.mem_filter.mp h).2

/-- The fields of a record are left at the end of the list. -/
theorem packMemoFields_unmarked (junk : Nat → Fin BLKSIZE → UInt8) (old : List UInt8) (hf : Unmarked fields) (tp : Nat) (st : List UInt8 × List UInt8 × Nat) :
    ∃ e, packMemoFields junk old fields tp st = .error e := by
  induction fields generalizing tp st with
  | nil => exact ⟨.offEnd, rfl⟩
  | cons f fs ih =>
    have ih := ih fun g hg => hf g (List.mem_cons_of_mem _ hg)
    rw [packMemoFields, if_neg (hf f (List.mem_cons_self ..))]
    split
    · cases packMemoField junk old tp st with
      | error e => exact ⟨e, rfl⟩
      | ok st => exact ih _ st
    · exact ih _ st

/-- So is the first record that remains. -/
theorem packMemo_unmarked (junk : Nat → Fin BLKSIZE → UInt8) (old : List UInt8) (hf : Unmarked fields) (hcnt : t.reccnt ≠ 0) : ∃ e, packMemo junk fields t old = .error e := by
  obtain ⟨n, hn⟩ := Nat.exists_eq_succ_of_ne_zero hcnt
  unfold packMemo
  rw [hn, packMemoRecs]
  cases gorec 1 t with
  | error e => exact ⟨e, rfl⟩
  | ok t₁ =>
    obtain ⟨e, he⟩ := packMemoFields_unmarked junk old hf 0 (t₁.buf.data, writeAt 0 (word 8 1) [], 1)
    dsimp only [bind, Except.bind]
    rw [he]
    exact ⟨e, rfl⟩

theorem length_recs (t : Tbl σ) : t.recs.length = t.reccnt := by
  unfold Tbl.recs
  rw [List.length_map, List.length_range]

theorem kept_unmarked (hf : Unmarked fields) (h : ∃ t' new, dbpackMemo upd junk fields t old = .ok (t', new) ∧ MemosKept fields t old t' new) :
    PackKeeps t ∧ live t.recs = [] := by
  obtain ⟨t', new, hrun, hk⟩ := h
  unfold dbpackMemo at hrun
  by_cases hok : PackKeeps t
  · refine ⟨hok, ?_⟩
    obtain ⟨t₁, ht₁, -, hrecs⟩ := dbpack_live upd hok
    rw [ht₁] at hrun
    by_contra hlive
    have hcnt : t₁.reccnt ≠ 0 := by
      rw [← length_recs, hrecs]
      exact fun h0 => hlive (List.length_eq_zero_iff.mp h0)
    obtain ⟨e, he⟩ := packMemo_unmarked junk old hf hcnt
    cases he.symm.trans hrun
  · exfalso
    rcases dbpack_stuck upd hok with ⟨e, he⟩ | ⟨t₁, ht₁, hlt⟩
    · rw [he] at hrun
      cases hrun
    · rw [ht₁] at hrun
      rw [length_recs] at hlt
      obtain ⟨e, he⟩ := packMemo_unmarked junk old hf (show t₁.reccnt ≠ 0 by omega)
      cases he.symm.trans hrun

/-- PACK keeps the memos of the records that remain if and only if none remains. -/
theorem dbpackMemo_kept_iff (hf : Unmarked fields) :
    (∃ t' new, dbpackMemo upd junk fields t old = .ok (t', new) ∧ MemosKept fields t old t' new) ↔ PackKeeps t ∧ live t.recs = [] := by
  refine ⟨kept_unmarked hf, fun ⟨hok, hlive⟩ => ?_⟩
  obtain ⟨t₁, ht₁, -, hrecs⟩ := dbpack_live upd hok
  have hnone : t₁.recs = [] := hrecs.trans hlive
  have hcnt : t₁.reccnt = 0 := by
    rw [← length_recs, hnone]
    rfl
  have hrun : packMemo junk fields t₁ old = .ok (t₁, writeAt 0 (word 8 1) (writeAt 0 (word 8 1) [])) := by
    unfold packMemo
    rw [hcnt]
    rfl
  refine ⟨t₁, writeAt 0 (word 8 1) (writeAt 0 (word 8 1) []), ?_, ?_, ?_⟩
  · unfold dbpackMemo
    rw [ht₁]
    exact hrun
  · rw [hnone, hlive]
    rfl
  · rw [hnone]
    exact ⟨(fun b hb => nomatch hb), List.Pairwise.nil⟩

/-! ## A list with an end mark -/

/-- What is packed has been read. -/
theorem packMemo_reads {t' : Tbl σ} {new : List UInt8} (h : packMemo junk fields t old = .ok (t', new)) : t.reccnt = 0 ∨ t.readable := by
  by_contra hno
  rw [not_or] at hno
  obtain ⟨n, hn⟩ := Nat.exists_eq_succ_of_ne_zero hno.1
  unfold packMemo at h
  rw [hn, packMemoRecs, gorec_of_le one_ne_zero (by omega), if_neg hno.2] at h
  cases h

theorem kept_marked (hv : EndMarked fields) (hold : OwnRuns old (memoRefs fields (live t.recs)))
    (h : ∃ t' new, dbpackMemo upd junk fields t old = .ok (t', new) ∧ MemosKept fields t old t' new) :
    PackKeeps t ∧ (memoRefs fields (live t.recs) = [] ∨ memoRefs fields (live t.recs) = [1]) := by
  obtain ⟨t', new, hrun, hk⟩ := h
  unfold dbpackMemo at hrun
  have hlen : t'.recs.length = (live t.recs).length := by
    have h := congrArg List.length hk.memos
    rwa [List.length_map, List.length_map] at h
  by_cases hok : PackKeeps t
  · refine ⟨hok, ?_⟩
    obtain ⟨t₁, ht₁, -, hrecs⟩ := dbpack_live upd hok
    rw [ht₁] at hrun
    obtain ⟨hsame, hcopies⟩ := (packMemo_copies hv t₁ (packMemo_reads hrun)).2 t' new hrun
    have hmemos := hk.memos
    rw [hsame, hrecs, memos_eq_iff] at hmemos
    rw [hrecs] at hcopies
    exact refs_of_kept (fun b hb => memoRefs_pos hb) hold hcopies hmemos
  · exfalso
    rcases dbpack_stuck upd hok with ⟨e, he⟩ | ⟨t₁, ht₁, hlt⟩
    · rw [he] at hrun
      cases hrun
    · rw [ht₁] at hrun
      obtain ⟨hsame, -⟩ := (packMemo_copies hv t₁ (packMemo_reads hrun)).2 t' new hrun
      rw [hsame] at hlen
      omega

theorem kept_of_marked (hv : EndMarked fields) (hold : OwnRuns old (memoRefs fields (live t.recs))) (hok : PackKeeps t)
    (hrefs : memoRefs fields (live t.recs) = [] ∨ memoRefs fields (live t.recs) = [1]) :
    ∃ t' new, dbpackMemo upd junk fields t old = .ok (t', new) ∧ MemosKept fields t old t' new := by
  obtain ⟨t₁, ht₁, hread, hrecs⟩ := dbpack_live upd hok
  have hread' : t₁.reccnt = 0 ∨ t₁.readable := by
    refine hread.imp_left fun h0 => ?_
    have hnone : t.recs = [] := by
      rw [recs_eq, h0]
      rfl
    rw [← length_recs, hrecs, hnone]
    rfl
  have hcopies : ∃ new k, copyRefs junk old (memoRefs fields t₁.recs) (writeAt 0 (word 8 1) [], 1) = .ok (new, k) ∧
      ∀ b ∈ memoRefs fields t₁.recs, memoText (writeAt 0 (word 8 k) new) b = memoText old b := by
    rw [hrecs]
    rcases hrefs with hnil | hone
    · rw [hnil]
      exact ⟨_, _, rfl, by simp⟩
    · rw [hone]
      obtain ⟨text, ht⟩ := Option.isSome_iff_exists.mp (hold.text 1 (by rw [hone]; exact List.mem_singleton_self _))
      obtain ⟨new, k, hrun, htext⟩ := copyRefs_one junk ht
      refine ⟨new, k, hrun, ?_⟩
      intro b hb
      obtain rfl := List.mem_singleton.mp hb
      rw [htext, ht]
  obtain ⟨new, k, hrun, htext⟩ := hcopies
  obtain ⟨t', ht'⟩ := (packMemo_copies hv t₁ hread').1 new k hrun
  obtain ⟨hsame, -⟩ := (packMemo_copies hv t₁ hread').2 _ _ ht'
  refine ⟨t', writeAt 0 (word 8 k) new, ?_, ?_, ?_⟩
  · unfold dbpackMemo
    rw [ht₁]
    exact ht'
  · rw [hsame, hrecs, memos_eq_iff, ← hrecs]
    exact htext
  · rw [hsame]
    constructor
    · intro b hb
      rw [htext b hb]
      exact hold.text b (hrecs ▸ hb)
    · rw [hrecs]
      rcases hrefs with hnil | hone
      · rw [hnil]
        exact .nil
      · rw [hone]
        exact List.pairwise_singleton ..

/-- Were the fields of a table followed by an end mark, its memos would be kept if and only if the records that remain had at most
one memo between them, in the first block of the memo file. -/
theorem dbpackMemo_marked_iff (hv : EndMarked fields) (hold : OwnRuns old (memoRefs fields (live t.recs))) :
    (∃ t' new, dbpackMemo upd junk fields t old = .ok (t', new) ∧ MemosKept fields t old t' new) ↔
      PackKeeps t ∧ (memoRefs fields (live t.recs) = [] ∨ memoRefs fields (live t.recs) = [1]) :=
  ⟨kept_marked hv hold, fun h => kept_of_marked hv hold h.1 h.2⟩

/-- A memo field. -/
def memoField : List Field := [⟨[77], 77, 10, 0⟩]

/-- A table of live records that refer to the given blocks. -/
def memoTbl (blks : List UInt8) : Tbl Unit :=
  { byprec := 11, reccnt := blks.length, disk := fun i => ⟨VAL_MKR, List.replicate 9 32 ++ [blks.getD (i - 1) 32]⟩
    buf := ⟨VAL_MKR, []⟩, crntrec := 1, eof := false, tof := false, mode := .none, rbkRecno := 0, rbkBuf := ⟨VAL_MKR, []⟩
    log := none, indexActive := false, ndx := () }

/-- A memo file with the texts A and B in its first two blocks. -/
def memoFile : List UInt8 := padTo BLKSIZE [] ++ (padTo BLKSIZE [65, EOF_MKR] ++ [66, EOF_MKR])

theorem memoFile_text : memoText memoFile 1 = some [65] ∧ memoText memoFile 2 = some [66] := by
  have h0 : (padTo BLKSIZE []).length = BLKSIZE := length_padTo (by decide)
  have h1 : (padTo BLKSIZE [65, EOF_MKR]).length = BLKSIZE := length_padTo (by decide)
  have hdrop1 : memoFile.drop (1 * BLKSIZE) = padTo BLKSIZE [65, EOF_MKR] ++ [66, EOF_MKR] := by
    rw [Nat.one_mul, memoFile, List.drop_left' h0]
  have hdrop2 : memoFile.drop (2 * BLKSIZE) = [66, EOF_MKR] := by
    rw [show 2 * BLKSIZE = 1 * BLKSIZE + BLKSIZE by decide, ← List.drop_drop, hdrop1, List.drop_left' h1]
  rw [memoText_eq_some, memoText_eq_some, hdrop1, hdrop2]
  exact ⟨⟨by decide, by decide, _, by rw [padTo, List.append_assoc]; rfl⟩, by decide, by decide, [], rfl⟩

theorem memoField_unmarked : Unmarked memoField := by
  unfold Unmarked
  decide

/-- A table of records that are all deleted. -/
def deletedMemos : Tbl Unit := { memoTbl [49, 50] with disk := fun i => ⟨DEL_MKR, List.replicate 9 32 ++ [[49, 50].getD (i - 1) 32]⟩ }

/-- Of deleted records nothing is left. -/
theorem deletedMemos_kept : ∃ t' new, dbpackMemo noUpd (fun _ _ => 0) memoField deletedMemos memoFile = .ok (t', new) ∧
    MemosKept memoField deletedMemos memoFile t' new :=
  (dbpackMemo_kept_iff memoField_unmarked).mpr ⟨.inr ⟨by decide, by rw [if_neg (by decide)]; decide⟩, by decide⟩

theorem memoTbl_one_refs : memoRefs memoField (live (memoTbl [49]).recs) = [1] := by decide

/-- The memo of a single record is lost. -/
theorem memoTbl_one_lost : OwnRuns memoFile (memoRefs memoField (live (memoTbl [49]).recs)) ∧
    ¬ ∃ t' new, dbpackMemo noUpd (fun _ _ => 0) memoField (memoTbl [49]) memoFile = .ok (t', new) ∧ MemosKept memoField (memoTbl [49]) memoFile t' new := by
  constructor
  · rw [memoTbl_one_refs]
    refine ⟨?_, List.pairwise_singleton ..⟩
    intro b hb
    obtain rfl := List.mem_singleton.mp hb
    rw [memoFile_text.1]
    rfl
  · intro h
    have hlive := (kept_unmarked memoField_unmarked h).2
    revert hlive
    decide

end DbpackMemo

end Db3w
