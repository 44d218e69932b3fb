/-
The header of an index file. It is built from the values its key expression yields and stored on
page 0 of the file; every command that navigates an index reads it back. The kind of the key is the
branch that `keycmp`, `ndx_get_key` and `find` take. Writing a header cuts its key type to seven
bits, which every kind but that of composite keys survives.
-/
import Db3w.Lib.Bytes
import Db3w.Ndx.Page

namespace Db3w

open Bytes

def HBPAGESIZE : Nat := 4096
def MAXKEYSZ : Nat := 1024
def MAXCMBK : Nat := 16

/-- The types of values on the stack. -/
inductive ValTyp where
  | nulltyp | logic | number | date | charctr | addr | arraytyp | memo | blob
  deriving DecidableEq, Repr

/-- The types a key can be made of. -/
def ValTyp.keyTyp : ValTyp → Option KeyTyp
  | charctr => some .charctr
  | number => some .number
  | date => some .date
  | _ => none

/-- The head of a value: its type and `valspec.len`. -/
structure ValSpec where
  typ : ValTyp
  len : Nat
  deriving DecidableEq, Repr

/-- An `NDX_HDR` with the size of its entries and the text of the key expression. -/
structure IdxHdr extends NdxHdr where
  entrySize : Nat
  ndxexp : List UInt8
  deriving DecidableEq, Repr

/-- Errors of `ndx_put_key`. -/
inductive KeyErr where
  | badExp | dbInvalidType | keyTooLong
  deriving DecidableEq, Repr

/-! ## Building a header -/

/-- The length of a composite key. -/
def keylenOf (ks : List Cmbk) : Nat := (ks.map Cmbk.len).sum

/-- The loop of `ndx_put_key` over a composite key. A part is recorded when the comma after it has
been seen, so that the last value is evaluated but not recorded. -/
def putParts : List Cmbk → List ValSpec → Except KeyErr (List Cmbk)
  | ks, v :: w :: vs =>
    match v.typ.keyTyp with
    | none => .error .dbInvalidType
    | some typ =>
      if ks.length ≥ MAXCMBK ∨ keylenOf ks + v.len ≥ MAXKEYSZ then .error .keyTooLong
      else putParts (ks ++ [⟨typ, if typ = .charctr then v.len else 8⟩]) (w :: vs)
  | ks, _ => .ok ks

/-- `ndx_put_key` for an expression that yields the given values, one for each comma-separated part. -/
def ndxPutKey (vals : List ValSpec) (hd : IdxHdr) : Except KeyErr IdxHdr :=
  match vals with
  | [] => .error .badExp
  | [v] =>
    match v.typ.keyTyp with
    | none => .error .dbInvalidType
    | some typ =>
      if v.len > MAXKEYSZ then .error .keyTooLong
      else
        .ok { hd with
          keytyp := (if typ ≠ .charctr then 1 else 0) ||| (if typ = .date then 0x80 else 0)
          keylen := if typ = .charctr then v.len else 8 }
  | vals =>
    match putParts [] vals with
    | .error e => .error e
    | .ok ks => .ok { hd with keytyp := CMBK, keylen := keylenOf ks, cmbkey := ks }

/-- The size of an entry: its page, its record and the key up to whole `int`s. -/
def idxEntrySize (keylen : Nat) : Nat := 8 + 8 + keylen / 4 * 4 + if keylen % 4 ≠ 0 then 4 else 0

/-- The header `openidx` makes for a new file, with the buffer's last header `hd` in place. -/
def newIdxHdr (vals : List ValSpec) (exp : List UInt8) (hd : IdxHdr) : Except KeyErr IdxHdr :=
  match ndxPutKey vals { hd with ndxexp := cstr exp } with
  | .error e => .error e
  | .ok hd =>
    .ok { hd with
      rootno := 0
      pagecnt := 1
      entrySize := idxEntrySize hd.keylen
      norecpp := (HBPAGESIZE - 2 - 2 - 8) / idxEntrySize hd.keylen }

/-! ## Page 0 -/

/-- `write_ndx_hdr`: the page written, over what its buffer held, and the header it leaves in memory. -/
def writeIdxHdr (buf : List UInt8) (hd : IdxHdr) : List UInt8 × IdxHdr :=
  let keytyp := hd.keytyp &&& 0x7f
  let page := word 8 hd.rootno ++ (word 8 hd.pagecnt ++ (word 4 0 ++ (word 2 hd.keylen ++ (word 2 hd.norecpp ++
    (word 2 keytyp ++ (word 2 hd.entrySize ++ (word 4 0 ++ (hd.ndxexp ++ [0]))))))))
  (page ++ buf.drop page.length, { hd with keytyp })

/-- `read_ndx_hdr`: what the page does not hold stays as it was. -/
def readIdxHdr (page : List UInt8) (hd : IdxHdr) : IdxHdr :=
  { hd with
    rootno := readWord 8 page
    pagecnt := readWord 8 (page.drop 8)
    keylen := readWord 2 (page.drop 20)
    norecpp := readWord 2 (page.drop 22)
    keytyp := readWord 2 (page.drop 24)
    entrySize := readWord 2 (page.drop 26)
    ndxexp := cstr (page.drop 32) }

/-- A header whose numbers fit their words and whose text holds no NUL. -/
structure IdxHdr.Fits (hd : IdxHdr) : Prop where
  rootno : hd.rootno < 2 ^ 64
  pagecnt : hd.pagecnt < 2 ^ 64
  keylen : hd.keylen < 2 ^ 16
  norecpp : hd.norecpp < 2 ^ 16
  entrySize : hd.entrySize < 2 ^ 16
  ndxexp : 0 ∉ hd.ndxexp

theorem drop_word (n w : Nat) (l : List UInt8) : (word n w ++ l).drop n = l := List.drop_left' (length_word n w)

/-- Page 0 gives back the header that the write left in memory. -/
theorem readIdxHdr_write {hd : IdxHdr} (h : hd.Fits) (buf : List UInt8) (hd' : IdxHdr) :
    readIdxHdr (writeIdxHdr buf hd).1 hd' = { (writeIdxHdr buf hd).2 with cmbkey := hd'.cmbkey } := by
  have hk : hd.keytyp &&& 0x7f < 256 ^ 2 := Nat.and_le_right.trans_lt (by decide)
  simp only [readIdxHdr, writeIdxHdr, List.append_assoc]
  generalize hbuf : List.drop _ buf = b
  have h0 := h.ndxexp
  have hadd : ∀ (m n w : Nat) (l : List UInt8), (word m w ++ l).drop (m + n) = l.drop n := fun m n w l => by
    rw [← List.drop_drop, drop_word]
  rw [readWord_append h.rootno, hadd 8 0, List.drop_zero, readWord_append h.pagecnt, hadd 8 12, hadd 8 4, hadd 4 0, List.drop_zero,
    readWord_append h.keylen, hadd 8 14, hadd 8 6, hadd 4 2, hadd 2 0, List.drop_zero, readWord_append h.norecpp, hadd 8 16, hadd 8 8,
    hadd 4 4, hadd 2 2, hadd 2 0, List.drop_zero, readWord_append hk, hadd 8 18, hadd 8 10, hadd 4 6, hadd 2 4, hadd 2 2, hadd 2 0,
    List.drop_zero, readWord_append h.entrySize, hadd 8 24, hadd 8 16, hadd 4 12, hadd 2 10, hadd 2 8, hadd 2 6, hadd 2 4, hadd 4 0,
    List.drop_zero, List.singleton_append, cstr_append h0]

/-- The write and the read that navigation uses are those of page 0. -/
theorem readNdxHdr_page {st st' : Ndx} {hd hd' : IdxHdr} (h : hd.Fits) (buf : List UInt8) (hw : writeNdxHdr st = .ok () st')
    (hst : st.hdr = hd.toNdxHdr) (hc : hd'.cmbkey = hd.cmbkey) :
    st'.hdr = (writeIdxHdr buf hd).2.toNdxHdr ∧
      ∃ st'', readNdxHdr st' = .ok () st'' ∧ st''.hdr = (readIdxHdr (writeIdxHdr buf hd).1 hd').toNdxHdr := by
  rw [readIdxHdr_write h, hc]
  cases hw
  constructor
  · dsimp only
    rw [hst]
    rfl
  · refine ⟨_, rfl, ?_⟩
    dsimp only
    rw [hst]
    rfl

/-! ## The kind of a key -/

/-- The branches of `keycmp`, `ndx_get_key` and `find`. -/
inductive KeyKind where
  | charctr | numeric | composite
  deriving DecidableEq, Repr

def IdxHdr.kind (hd : IdxHdr) : KeyKind := if hd.keytyp = CMBK then .composite else if hd.keytyp = 0 then .charctr else .numeric

/-- Two headers describe the same index: all that page 0 holds, the type of the key up to its kind. -/
structure IdxHdr.Agrees (hd hd' : IdxHdr) : Prop where
  rootno : hd'.rootno = hd.rootno
  pagecnt : hd'.pagecnt = hd.pagecnt
  keylen : hd'.keylen = hd.keylen
  norecpp : hd'.norecpp = hd.norecpp
  entrySize : hd'.entrySize = hd.entrySize
  ndxexp : hd'.ndxexp = hd.ndxexp
  kind : hd'.kind = hd.kind

theorem keylenOf_putParts {vals : List ValSpec} {ks ks' : List Cmbk} (h : putParts ks vals = .ok ks') (hk : keylenOf ks < MAXKEYSZ + 8) :
    keylenOf ks' < MAXKEYSZ + 8 := by
  fun_induction putParts ks vals with
  | case1 => cases h
  | case2 => cases h
  | case3 ks v w vs typ ht hlt ih =>
    refine ih h ?_
    rw [keylenOf, List.map_append, List.sum_append, ← keylenOf]
    simp only [not_or, not_le] at hlt
    simp only [List.map_cons, List.map_nil, List.sum_cons, List.sum_nil, MAXKEYSZ] at hlt ⊢
    split_ifs <;> omega
  | case4 =>
    cases h
    exact hk

/-- The key type that is built for a single value, and for several. -/
theorem ndxPutKey_spec {vals : List ValSpec} {hd hd' : IdxHdr} (h : ndxPutKey vals hd = .ok hd') :
    hd' = { hd with keytyp := hd'.keytyp, keylen := hd'.keylen, cmbkey := hd'.cmbkey } ∧ hd'.keylen < MAXKEYSZ + 8 ∧
      (vals.length = 1 ∧ hd'.keytyp ∈ [0, 1, 0x81] ∨ 2 ≤ vals.length ∧ hd'.keytyp = CMBK) := by
  unfold ndxPutKey at h
  split at h
  · cases h
  · rename_i v
    split at h
    · cases h
    · rename_i typ ht
      rcases lt_or_ge MAXKEYSZ v.len with hlen | hlen
      · rw [if_pos hlen] at h
        cases h
      · rw [if_neg (not_lt.2 hlen)] at h
        cases h
        refine ⟨rfl, ?_, Or.inl ⟨rfl, ?_⟩⟩
        · simp only [MAXKEYSZ] at hlen ⊢
          split_ifs <;> omega
        · dsimp only
          cases typ <;> decide
  · rename_i hnil hone
    split at h
    · cases h
    · rename_i ks hks
      cases h
      refine ⟨rfl, keylenOf_putParts hks (by decide), Or.inr ⟨?_, rfl⟩⟩
      rcases vals with _ | ⟨v, _ | ⟨w, vals⟩⟩
      · exact absurd rfl hnil
      · exact absurd rfl (hone v)
      · simp

/-- The seven bits of a key type that is not composite keep its kind. -/
theorem IdxHdr.kind_write {hd : IdxHdr} (h : hd.keytyp ∈ [0, 1, 0x81]) (buf : List UInt8) : (writeIdxHdr buf hd).2.kind = hd.kind := by
  simp only [List.mem_cons, List.not_mem_nil, or_false] at h
  unfold writeIdxHdr IdxHdr.kind
  rcases h with h | h | h <;> rw [h] <;> rfl

theorem IdxHdr.kind_write_composite {hd : IdxHdr} (h : hd.keytyp = CMBK) (buf : List UInt8) :
    (writeIdxHdr buf hd).2.kind = .charctr ∧ hd.kind = .composite := by
  unfold writeIdxHdr IdxHdr.kind
  rw [h]
  exact ⟨rfl, rfl⟩

/-! ## Sessions -/

/-- An index header in memory and on page 0. -/
structure IdxFile where
  mem : IdxHdr
  page : List UInt8

/-- What is done to a header: it is written over what the page buffer held, read again, or read
and completed by `ndx_put_key` when a session opens the file. -/
inductive HdrOp where
  | write (buf : List UInt8) | read | reopen
  deriving DecidableEq, Repr

def HdrOp.apply (vals : List ValSpec) (st : IdxFile) : HdrOp → Except KeyErr IdxFile
  | .write buf => let r := writeIdxHdr buf st.mem; .ok ⟨r.2, r.1⟩
  | .read => .ok { st with mem := readIdxHdr st.page st.mem }
  | .reopen =>
    match ndxPutKey vals (readIdxHdr st.page st.mem) with
    | .error e => .error e
    | .ok hd => .ok { st with mem := hd }

/-- Steps from a header that has just been written. -/
def hdrRun (vals : List ValSpec) (hd : IdxHdr) (buf : List UInt8) (ops : List HdrOp) : Except KeyErr IdxFile :=
  ops.foldlM (HdrOp.apply vals) ⟨(writeIdxHdr buf hd).2, (writeIdxHdr buf hd).1⟩

/-- The header in memory and the one read from the page both describe the index. -/
def IdxFile.Keeps (hd : IdxHdr) (st : IdxFile) : Prop := hd.Agrees st.mem ∧ hd.Agrees (readIdxHdr st.page st.mem)

/-- What a key is made of does not depend on the header it is put into. -/
theorem ndxPutKey_again {vals : List ValSpec} {hd hd' : IdxHdr} (h : ndxPutKey vals hd = .ok hd') (hd₂ : IdxHdr) :
    ∃ hd₃, ndxPutKey vals hd₂ = .ok hd₃ ∧ hd₃.keytyp = hd'.keytyp ∧ hd₃.keylen = hd'.keylen := by
  unfold ndxPutKey at h ⊢
  split at h
  · cases h
  · rename_i v
    split at h
    · cases h
    · rename_i typ ht
      rcases lt_or_ge MAXKEYSZ v.len with hlen | hlen
      · rw [if_pos hlen] at h
        cases h
      · rw [if_neg (not_lt.2 hlen)] at h
        cases h
        rw [if_neg (not_lt.2 hlen)]
        exact ⟨_, rfl, rfl, rfl⟩
  · split at h
    · cases h
    · rename_i ks hks
      cases h
      exact ⟨_, rfl, rfl, rfl⟩

/-- The header is that of the index up to bits of its key type that do not tell the kind, and the
parts of a composite key. -/
structure IdxHdr.Like (hd m : IdxHdr) : Prop where
  eq : m = { hd with keytyp := m.keytyp, cmbkey := m.cmbkey }
  keytyp : m.keytyp ∈ [0, 1, 0x81]
  kind : m.kind = hd.kind

section Session

variable {vals : List ValSpec} {hd m : IdxHdr} {buf : List UInt8} {st st' : IdxFile}

theorem IdxHdr.Like.fits (h : hd.Like m) (hf : hd.Fits) : m.Fits := by
  rw [h.eq]
  exact ⟨hf.rootno, hf.pagecnt, hf.keylen, hf.norecpp, hf.entrySize, hf.ndxexp⟩

theorem IdxHdr.Like.agrees (h : hd.Like m) : hd.Agrees m := by
  refine ⟨?_, ?_, ?_, ?_, ?_, ?_, h.kind⟩ <;> rw [h.eq]

/-- A write leaves such a header in memory. -/
theorem IdxHdr.Like.write (h : hd.Like m) (buf : List UInt8) : hd.Like (writeIdxHdr buf m).2 := by
  refine ⟨?_, ?_, (IdxHdr.kind_write h.keytyp buf).trans h.kind⟩
  · exact congrArg (fun x => (writeIdxHdr buf x).2) h.eq
  · have hk := h.keytyp
    simp only [List.mem_cons, List.not_mem_nil, or_false] at hk
    show m.keytyp &&& 0x7f ∈ [0, 1, 0x81]
    rcases hk with hk | hk | hk <;> rw [hk] <;> decide

/-- The page holds such a header. -/
def IdxFile.Holds (hd : IdxHdr) (st : IdxFile) : Prop := ∃ buf m, hd.Like m ∧ st.page = (writeIdxHdr buf m).1

theorem IdxFile.Holds.read (h : st.Holds hd) (hf : hd.Fits) (m : IdxHdr) : hd.Like (readIdxHdr st.page m) := by
  obtain ⟨buf, m', hm, hp⟩ := h
  have hw := hm.write buf
  rw [hp, readIdxHdr_write (hm.fits hf)]
  refine ⟨?_, hw.keytyp, hw.kind⟩
  nth_rewrite 1 [hw.eq]
  rfl

/-- One step keeps the header in memory and on the page. -/
theorem HdrOp.apply_like (hf : hd.Fits) (hk : hd.keytyp ∈ [0, 1, 0x81])
    (hp : ∀ hd₂, ∃ hd₃, ndxPutKey vals hd₂ = .ok hd₃ ∧ hd₃.keytyp = hd.keytyp ∧ hd₃.keylen = hd.keylen) (hm : hd.Like st.mem) (h : st.Holds hd)
    (op : HdrOp) : ∃ st', op.apply vals st = .ok st' ∧ hd.Like st'.mem ∧ st'.Holds hd := by
  cases op with
  | write buf => exact ⟨_, rfl, hm.write buf, buf, st.mem, hm, rfl⟩
  | read => exact ⟨_, rfl, h.read hf st.mem, h⟩
  | reopen =>
    have hr := h.read hf st.mem
    obtain ⟨hd₃, hput, htyp, hlen⟩ := hp (readIdxHdr st.page st.mem)
    refine ⟨{ st with mem := hd₃ }, ?_, ⟨?_, ?_, ?_⟩, h⟩
    · simp only [HdrOp.apply, hput]
    · have h1 := (ndxPutKey_spec hput).1
      rw [hr.eq, hlen] at h1
      exact h1
    · rw [htyp]
      exact hk
    · unfold IdxHdr.kind
      rw [htyp]

theorem hdrRun_like (hf : hd.Fits) (hk : hd.keytyp ∈ [0, 1, 0x81])
    (hp : ∀ hd₂, ∃ hd₃, ndxPutKey vals hd₂ = .ok hd₃ ∧ hd₃.keytyp = hd.keytyp ∧ hd₃.keylen = hd.keylen) :
    ∀ (ops : List HdrOp) {st : IdxFile}, hd.Like st.mem → st.Holds hd →
      ∃ st', ops.foldlM (HdrOp.apply vals) st = .ok st' ∧ hd.Like st'.mem ∧ st'.Holds hd
  | [], st, hm, h => ⟨st, rfl, hm, h⟩
  | op :: ops, st, hm, h => by
    obtain ⟨st₁, h1, hm1, hh1⟩ := HdrOp.apply_like hf hk hp hm h op
    rw [List.foldlM_cons, h1]
    exact hdrRun_like hf hk hp ops hm1 hh1

/-- A header that `openidx` has built, with any root and page count, fits its page. -/
theorem newIdxHdr_fits {exp : List UInt8} {hd₀ : IdxHdr} {rootno pagecnt : Pageno} (h : newIdxHdr vals exp hd₀ = .ok hd) (hr : rootno < 2 ^ 64)
    (hp : pagecnt < 2 ^ 64) : IdxHdr.Fits { hd with rootno, pagecnt } := by
  unfold newIdxHdr at h
  split at h
  · cases h
  · rename_i hd' hput
    obtain ⟨heq, hlen, -⟩ := ndxPutKey_spec hput
    cases h
    simp only [MAXKEYSZ] at hlen
    have hsize : idxEntrySize hd'.keylen < 2 ^ 16 := by
      unfold idxEntrySize
      split_ifs <;> omega
    refine ⟨hr, hp, ?_, ?_, hsize, ?_⟩
    · show hd'.keylen < 2 ^ 16
      omega
    · exact (Nat.div_le_self _ _).trans_lt (by decide)
    · show 0 ∉ hd'.ndxexp
      rw [heq]
      intro h0
      simpa using List.mem_takeWhile_imp h0

end Session

/-- **A header keeps its kind** through every sequence of writes, reads and openings exactly where
its key has a single part. -/
theorem hdrRun_keeps_iff {vals : List ValSpec} {exp : List UInt8} {hd₀ hd : IdxHdr} {rootno pagecnt : Pageno} (h : newIdxHdr vals exp hd₀ = .ok hd)
    (hr : rootno < 2 ^ 64) (hp : pagecnt < 2 ^ 64) :
    (∀ buf ops, ∃ st, hdrRun vals { hd with rootno, pagecnt } buf ops = .ok st ∧ st.Keeps { hd with rootno, pagecnt }) ↔ vals.length = 1 := by
  have hf := newIdxHdr_fits h hr hp
  have hput : ∃ hd₁, ndxPutKey vals { hd₀ with ndxexp := cstr exp } = .ok hd₁ ∧ hd₁.keytyp = hd.keytyp ∧ hd₁.keylen = hd.keylen := by
    unfold newIdxHdr at h
    split at h
    · cases h
    · rename_i hd' hput
      cases h
      exact ⟨hd', hput, rfl, rfl⟩
  obtain ⟨hd₁, hput, htyp, hlen⟩ := hput
  obtain ⟨-, -, hk⟩ := ndxPutKey_spec hput
  rw [htyp] at hk
  constructor
  · intro hall
    rcases hk with hk | hk
    · exact hk.1
    · obtain ⟨st, hrun, hkeep, -⟩ := hall [] []
      cases hrun
      obtain ⟨h1, h2⟩ := IdxHdr.kind_write_composite (show ({ hd with rootno, pagecnt } : IdxHdr).keytyp = CMBK from hk.2) []
      have hkind := hkeep.kind
      dsimp only at hkind
      rw [h1, h2] at hkind
      cases hkind
  · intro hone buf ops
    rcases hk with hk | hk
    · have hlike : IdxHdr.Like { hd with rootno, pagecnt } { hd with rootno, pagecnt } := ⟨rfl, hk.2, rfl⟩
      have hholds : IdxFile.Holds { hd with rootno, pagecnt }
          ⟨(writeIdxHdr buf { hd with rootno, pagecnt }).2, (writeIdxHdr buf { hd with rootno, pagecnt }).1⟩ := ⟨buf, _, hlike, rfl⟩
      obtain ⟨st, hrun, hm, hh⟩ := hdrRun_like hf hk.2 (fun hd₂ => by
        obtain ⟨hd₃, h3, h4, h5⟩ := ndxPutKey_again hput hd₂
        exact ⟨hd₃, h3, h4.trans htyp, h5.trans hlen⟩) ops
        (hlike.write buf) hholds
      exact ⟨st, hrun, hm.agrees, (hh.read hf st.mem).agrees⟩
    · omega

/-- An index on two character columns. -/
def twoParts : List ValSpec := [⟨.charctr, 4⟩, ⟨.charctr, 6⟩]

def blankHdr : IdxHdr := ⟨⟨0, 0, 0, 0, 0, []⟩, 0, []⟩

theorem twoParts_not_kept :
    ∃ hd, newIdxHdr twoParts [65, 44, 66] blankHdr = .ok hd ∧ hd.kind = .composite ∧ (writeIdxHdr [] hd).2.kind = .charctr ∧
      ¬∀ buf ops, ∃ st, hdrRun twoParts hd buf ops = .ok st ∧ st.Keeps hd := by
  refine ⟨_, rfl, rfl, rfl, fun hall => ?_⟩
  obtain ⟨st, hrun, hkeep, -⟩ := hall [] []
  cases hrun
  cases hkeep.kind

theorem hdrRun_keeps_date :
    ∃ hd, newIdxHdr [⟨.date, 4⟩] [68] blankHdr = .ok hd ∧
      ∀ buf ops, ∃ st, hdrRun [⟨.date, 4⟩] { hd with rootno := 5, pagecnt := 9 } buf ops = .ok st ∧
        st.Keeps { hd with rootno := 5, pagecnt := 9 } :=
  ⟨_, rfl, (hdrRun_keeps_iff (show newIdxHdr [⟨.date, 4⟩] [68] blankHdr = .ok _ from rfl) (by decide) (by decide)).2 rfl⟩

end Db3w
