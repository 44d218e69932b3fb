/-
The header of a table file. There are two formats, with words and fields of different widths; an end
mark closes the fields unless there are as many as a header can hold. Two bytes of a field are its
length and its decimals, which for character fields the reader takes as one length.
-/
import Db3w.Lib.Bytes
import Mathlib.Data.List.GetD

namespace Db3w

open Bytes

def EOH : UInt8 := 13
def MAXFLD : Nat := 1023
def MAXHDLEN : Nat := 65536
def MAXRECSZ : Nat := 65536
def MAXSTRLEN : Nat := 2046
def MAXDIGITS : Nat := 20
def DATELEN : Nat := 8
def MEMOLEN : Nat := 10
/-- The least room for meta data, and what it leaves free after the end mark. -/
def MIN_META_LEN : Nat := 37
def META_HDR_ALIGN : Nat := 3

/-- A field. Its name is the text in front of the NUL. -/
structure Field where
  name : List UInt8
  ftype : UInt8
  tlength : Int
  dlength : Int
  deriving DecidableEq, Repr

/-- The header in memory; the fields are counted by their list. -/
structure Table where
  id : Nat
  reccnt : Nat
  hdlen : Int
  doffset : Int
  metaLen : Int
  byprec : Int
  fdlist : List Field
  deriving DecidableEq, Repr

/-! ## Formats -/

/-- `DB3_MKR` and `DB5_MKR`. -/
inductive DbFmt where
  | db3 | db5
  deriving DecidableEq, Repr

/-- The format an `id` names. -/
def dbFmt (id : Nat) : Option DbFmt :=
  if id &&& 7 = 3 then some .db3 else if id &&& 7 = 5 then some .db5 else none

namespace DbFmt

/-- `FLD3NAMLEN` and `FLDNAMELEN`. -/
def namelen : DbFmt → Nat
  | db3 => 10
  | db5 => 20

/-- `FLD3WD` and `FLDWD`. -/
def fldwd : DbFmt → Nat
  | db3 => 32
  | db5 => 64

/-- `HD3SZ` and `HDRSZ`. -/
def hdrsz : DbFmt → Nat
  | db3 => 32
  | db5 => 64

/-- The width of the record count. -/
def cntwd : DbFmt → Nat
  | db3 => 4
  | db5 => 8

/-- The width of the data offset and of the record length. -/
def intwd : DbFmt → Nat
  | db3 => 2
  | db5 => 4

end DbFmt

/-! ## Fields -/

/-- `is_valid_field`; the types are C, N, L, D and M. -/
def isValidField (f : Field) : Bool :=
  if f.ftype = 67 then decide (f.dlength = 0 ∧ 1 ≤ f.tlength ∧ f.tlength ≤ MAXSTRLEN)
  else if f.ftype = 78 then decide (1 ≤ f.tlength ∧ f.tlength ≤ MAXDIGITS ∧ f.dlength < f.tlength)
  else if f.ftype = 76 then decide (f.dlength = 0 ∧ f.tlength = 1)
  else if f.ftype = 68 then decide (f.dlength = 0 ∧ f.tlength = DATELEN)
  else if f.ftype = 77 then decide (f.dlength = 0 ∧ f.tlength = MEMOLEN)
  else false

/-- What a byte keeps of an `int`. -/
def lowByte (n : Int) : UInt8 := UInt8.ofNat (n % 256).toNat

/-- A field on disk: name, type, two words that are not used, length and decimals. -/
def fieldBytes (fmt : DbFmt) (f : Field) : List UInt8 :=
  strncpy f.name fmt.namelen ++ (0 :: f.ftype :: (word 2 0 ++ (word 2 0 ++
    (lowByte f.tlength :: lowByte f.dlength :: List.replicate (fmt.fldwd - fmt.namelen - 8) 0))))

/-- The field at the front of `tp`. The decimals are set for every type, as the branch for the other
types ends with the length. -/
def readField (fmt : DbFmt) (tp : List UInt8) : Field :=
  let ftype := tp.getD (fmt.namelen + 1) 0
  let low := (tp.getD (fmt.namelen + 6) 0).toNat
  let high := (tp.getD (fmt.namelen + 7) 0).toNat
  { name := cstr (tp.take fmt.namelen)
    ftype
    tlength := if ftype = 67 then low + 256 * high else low
    dlength := high }

/-! ## Writing -/

/-- The loop of `write_db_hdr`; it refuses the field that would fill the buffer. -/
def writeFields (fmt : DbFmt) (size : Nat) : Nat → List Field → Option (List UInt8)
  | _, [] => some []
  | tp, f :: fs =>
    if tp + fmt.fldwd ≥ size then none
    else (writeFields fmt size (tp + fmt.fldwd) fs).map (fieldBytes fmt f ++ ·)

/-- The first bytes of the header. -/
def fixedBytes (fmt : DbFmt) (hdr : Table) : List UInt8 :=
  UInt8.ofNat hdr.id :: 80 :: 1 :: 1 :: (word fmt.cntwd hdr.reccnt ++
    (word fmt.intwd (hdr.doffset % 2 ^ 32).toNat ++ word fmt.intwd (hdr.byprec % 2 ^ 32).toNat))

/-- `write_db_hdr`: the header it leaves in memory, the buffer and the length of what it holds. -/
def writeDbHdr (hdr : Table) (size : Nat) : Option (Table × List UInt8 × Nat) :=
  match dbFmt hdr.id with
  | none => none
  | some fmt =>
    let doffset := if hdr.doffset < 0 then (MAXHDLEN : Int) else hdr.doffset
    let hdr := { hdr with doffset := if doffset < hdr.hdlen then hdr.hdlen else doffset }
    match writeFields fmt size fmt.hdrsz hdr.fdlist with
    | none => none
    | some fields =>
      let bytes := padTo fmt.hdrsz (fixedBytes fmt hdr) ++ (fields ++ if hdr.fdlist.length < MAXFLD then [EOH] else [])
      some (hdr, padTo size bytes, bytes.length)

/-! ## Reading -/

/-- The `int` of 32 bits. -/
def toInt32 (n : Nat) : Int := if n < 2 ^ 31 then n else n - 2 ^ 32

/-- `read_db_hdr` up to `fixed`: the format and the header with what its first bytes say. -/
def readDbFixed (hdr : Table) (buf : List UInt8) (size : Nat) : Option (DbFmt × Table) :=
  match dbFmt (buf.headD 0).toNat with
  | none => none
  | some fmt =>
    if fmt = .db3 ∧ size < DbFmt.db3.hdrsz ∨ size < DbFmt.db5.hdrsz then none
    else
      let reccnt := readWord fmt.cntwd (buf.drop 4)
      let offset := toInt32 (readWord fmt.intwd (buf.drop (4 + fmt.cntwd)))
      let byprec := toInt32 (readWord fmt.intwd (buf.drop (4 + fmt.cntwd + fmt.intwd)))
      if offset < 0 then none
      else if byprec < 0 ∨ byprec > MAXRECSZ then none
      else if reccnt = 2 ^ 64 - 1 then none
      else some (fmt, { hdr with id := (buf.headD 0).toNat, reccnt, doffset := offset, byprec })

/-- The loop of `read_db_hdr` at `tp`, where `rest` is what the buffer holds from there on: the
fields, the end of the last one and what follows it. -/
def readFields (fmt : DbFmt) (size : Nat) : Nat → Nat → List UInt8 → Option (List Field × Nat × List UInt8)
  | 0, tp, rest => some ([], tp, rest)
  | n + 1, tp, rest =>
    if rest.headD 0 = EOH ∨ tp + fmt.fldwd > size then some ([], tp, rest)
    else if isValidField (readField fmt rest) then
      (readFields fmt size n (tp + fmt.fldwd) (rest.drop fmt.fldwd)).map fun r => (readField fmt rest :: r.1, r.2)
    else none

/-- `read_db_hdr`. -/
def readDbHdr (hdr : Table) (buf : List UInt8) (size : Nat) : Option Table :=
  match readDbFixed hdr buf size with
  | none => none
  | some (fmt, hdr) =>
    match readFields fmt size MAXFLD fmt.hdrsz (buf.drop fmt.hdrsz) with
    | none => none
    | some (fs, tp, rest) =>
      if fs.length < 1 then none
      else if fs.length < MAXFLD ∧ rest.headD 0 ≠ EOH then none
      else
        let hdlen : Int := if fs.length < MAXFLD then tp + 1 else tp
        if hdr.doffset < hdlen then none
        else
          let metaLen : Int := hdr.doffset - hdlen - if fs.length < MAXFLD then (META_HDR_ALIGN : Int) else 0
          -- an unsigned comparison, so that a negative length stays
          some { hdr with fdlist := fs, hdlen, metaLen := if 0 ≤ metaLen ∧ metaLen < MIN_META_LEN then 0 else metaLen }

/-- The room a header leaves for meta data in front of the records. -/
def metaSize (hdr : Table) : Int := hdr.doffset - hdr.hdlen - if hdr.fdlist.length < MAXFLD then (META_HDR_ALIGN : Int) else 0

/-! ## Fields come back -/

/-- A field of a header that is to be written: valid, with a name that fits. -/
structure Field.Ok (fmt : DbFmt) (f : Field) : Prop where
  valid : isValidField f = true
  name_ne : f.name ≠ []
  text : 0 ∉ f.name
  fits : f.name.length ≤ fmt.namelen

/-- A field that comes back: its name does not begin with the end mark, its length fits a byte and its
decimals are not negative. -/
structure Field.Kept (f : Field) : Prop where
  name : f.name.head? ≠ some EOH
  tlength : f.ftype = 67 → f.tlength ≤ 255
  dlength : 0 ≤ f.dlength

/-- The field that is read back. -/
def storedField (f : Field) : Field :=
  { f with
    tlength := if f.ftype = 67 then f.tlength % 256 + 256 * (f.dlength % 256) else f.tlength % 256
    dlength := f.dlength % 256 }

section Fields

variable {fmt : DbFmt} {f : Field}

theorem toNat_lowByte (n : Int) : ((lowByte n).toNat : Int) = n % 256 := by
  unfold lowByte
  rw [UInt8.toNat_ofNat']
  omega

theorem namelen_le (fmt : DbFmt) : fmt.namelen + 8 ≤ fmt.fldwd := by
  cases fmt <;> decide

theorem length_fieldBytes (fmt : DbFmt) (f : Field) : (fieldBytes fmt f).length = fmt.fldwd := by
  have h := namelen_le fmt
  simp only [fieldBytes, List.length_append, List.length_cons, length_strncpy, length_word, List.length_replicate]
  omega

theorem readField_fieldBytes (hf : f.Ok fmt) (l : List UInt8) : readField fmt (fieldBytes fmt f ++ l) = storedField f := by
  have hlen := length_strncpy f.name fmt.namelen
  have hget : ∀ k, (fieldBytes fmt f ++ l).getD (fmt.namelen + k) 0 =
      ((0 :: f.ftype :: (word 2 0 ++ (word 2 0 ++ (lowByte f.tlength :: lowByte f.dlength ::
        List.replicate (fmt.fldwd - fmt.namelen - 8) 0)))) ++ l).getD k 0 := by
    intro k
    unfold fieldBytes
    rw [List.append_assoc, List.getD_append_right _ _ _ _ (by omega), hlen, Nat.add_sub_cancel_left]
  unfold readField
  rw [hget 1, hget 6, hget 7]
  have htake : cstr ((fieldBytes fmt f ++ l).take fmt.namelen) = f.name := by
    unfold fieldBytes
    rw [List.append_assoc, List.take_left' hlen, cstr_strncpy hf.text hf.fits]
  rw [htake]
  have hty : ((0 :: f.ftype :: (word 2 0 ++ (word 2 0 ++ (lowByte f.tlength :: lowByte f.dlength ::
        List.replicate (fmt.fldwd - fmt.namelen - 8) 0)))) ++ l).getD 1 0 = f.ftype := rfl
  have hlow : ((0 :: f.ftype :: (word 2 0 ++ (word 2 0 ++ (lowByte f.tlength :: lowByte f.dlength ::
        List.replicate (fmt.fldwd - fmt.namelen - 8) 0)))) ++ l).getD 6 0 = lowByte f.tlength := rfl
  have hhigh : ((0 :: f.ftype :: (word 2 0 ++ (word 2 0 ++ (lowByte f.tlength :: lowByte f.dlength ::
        List.replicate (fmt.fldwd - fmt.namelen - 8) 0)))) ++ l).getD 7 0 = lowByte f.dlength := rfl
  rw [hty, hlow, hhigh]
  unfold storedField
  simp only [toNat_lowByte]

/-- A valid field is read back as it was if and only if its length fits a byte and its decimals are
not negative. -/
theorem storedField_eq_iff (hv : isValidField f = true) :
    storedField f = f ↔ (f.ftype = 67 → f.tlength ≤ 255) ∧ 0 ≤ f.dlength := by
  have hl : (storedField f = f) ↔ (storedField f).tlength = f.tlength ∧ (storedField f).dlength = f.dlength := by
    constructor
    · intro h
      rw [h]
      exact ⟨rfl, rfl⟩
    · rintro ⟨h1, h2⟩
      cases f
      unfold storedField at h1 h2 ⊢
      rw [Field.mk.injEq]
      exact ⟨rfl, rfl, h1, h2⟩
  rw [hl]
  have hd : (storedField f).dlength = f.dlength % 256 := rfl
  unfold isValidField MAXSTRLEN MAXDIGITS DATELEN MEMOLEN at hv
  by_cases hc : f.ftype = 67
  · have ht : (storedField f).tlength = f.tlength % 256 + 256 * (f.dlength % 256) := if_pos hc
    rw [if_pos hc, decide_eq_true_eq] at hv
    rw [ht, hd]
    simp only [hc, true_imp_iff]
    omega
  · have ht : (storedField f).tlength = f.tlength % 256 := if_neg hc
    rw [if_neg hc] at hv
    rw [ht, hd]
    simp only [hc, false_imp_iff, true_and]
    split_ifs at hv <;> simp only [decide_eq_true_eq] at hv <;> omega

theorem fieldBytes_headD (hf : f.Ok fmt) (l : List UInt8) : f.name.head? = some ((fieldBytes fmt f ++ l).headD 0) := by
  obtain ⟨b, bs, hb⟩ := List.exists_cons_of_ne_nil hf.name_ne
  have hn : fmt.namelen = fmt.namelen - 1 + 1 := by cases fmt <;> rfl
  unfold fieldBytes strncpy
  rw [cstr_eq_self hf.text, hb, hn, List.take_succ_cons]
  rfl

end Fields

/-! ## The loops -/

section Loops

variable {fmt : DbFmt} {size tp : Nat}

theorem writeFields_some {fs : List Field} (h : tp + fs.length * fmt.fldwd < size) :
    writeFields fmt size tp fs = some (fs.flatMap (fieldBytes fmt)) := by
  induction fs generalizing tp with
  | nil => rfl
  | cons f fs ih =>
    rw [List.length_cons, Nat.add_mul, Nat.one_mul] at h
    rw [writeFields, if_neg (by omega), ih (by omega)]
    rfl

/-- Fields that fill the buffer are refused. -/
theorem writeFields_none {fs : List Field} (hne : fs ≠ []) (h : size ≤ tp + fs.length * fmt.fldwd) :
    writeFields fmt size tp fs = none := by
  induction fs generalizing tp with
  | nil => exact absurd rfl hne
  | cons f fs ih =>
    rw [List.length_cons, Nat.add_mul, Nat.one_mul] at h
    rw [writeFields]
    split
    · rfl
    rcases fs with _ | ⟨g, gs⟩
    · simp only [List.length_nil, Nat.zero_mul] at h
      omega
    · rw [ih (by simp) (by omega)]
      rfl

theorem length_flatMap_fieldBytes (fs : List Field) : (fs.flatMap (fieldBytes fmt)).length = fs.length * fmt.fldwd := by
  induction fs with
  | nil => simp
  | cons f fs ih =>
    rw [List.flatMap_cons, List.length_append, length_fieldBytes, ih, List.length_cons, Nat.add_mul, Nat.one_mul]
    omega

theorem Field.Ok.kept_iff {f : Field} (hf : f.Ok fmt) : f.Kept ↔ f.name.head? ≠ some EOH ∧ storedField f = f := by
  rw [storedField_eq_iff hf.valid]
  constructor
  · intro h
    exact ⟨h.name, h.tlength, h.dlength⟩
  · rintro ⟨h1, h2, h3⟩
    exact ⟨h1, h2, h3⟩

/-- Fields that are kept are read back, up to the end of the header. -/
theorem readFields_kept {fs : List Field} {n : Nat} {tail : List UInt8} (hok : ∀ f ∈ fs, f.Ok fmt) (hk : ∀ f ∈ fs, f.Kept)
    (hn : fs.length ≤ n) (hend : fs.length = n ∨ tail.headD 0 = EOH) (hsz : tp + fs.length * fmt.fldwd ≤ size) :
    readFields fmt size n tp (fs.flatMap (fieldBytes fmt) ++ tail) = some (fs, tp + fs.length * fmt.fldwd, tail) := by
  induction fs generalizing n tp with
  | nil =>
    simp only [List.flatMap_nil, List.nil_append, List.length_nil, Nat.zero_mul, Nat.add_zero]
    cases n with
    | zero => rfl
    | succ n =>
      rw [readFields, if_pos]
      rcases hend with h | h
      · cases h
      · exact .inl h
  | cons f fs ih =>
    have hf := hok f (List.mem_cons_self ..)
    obtain ⟨hname, hst⟩ := hf.kept_iff.mp (hk f (List.mem_cons_self ..))
    rw [List.length_cons, Nat.add_mul, Nat.one_mul] at hsz
    obtain ⟨n, rfl⟩ : ∃ m, n = m + 1 := ⟨n - 1, by simp only [List.length_cons] at hn; omega⟩
    rw [List.flatMap_cons, List.append_assoc, readFields, if_neg, readField_fieldBytes hf, hst, if_pos hf.valid,
      List.drop_left' (length_fieldBytes fmt f),
      ih (fun g hg => hok g (List.mem_cons_of_mem _ hg)) (fun g hg => hk g (List.mem_cons_of_mem _ hg))
        (by simpa using hn) (by simpa using hend) (by omega)]
    · simp only [Option.map_some, List.length_cons, Nat.add_mul, Nat.one_mul]
      congr 3
      omega
    · rw [not_or]
      refine ⟨?_, by omega⟩
      intro h
      rw [fieldBytes_headD hf (fs.flatMap (fieldBytes fmt) ++ tail), h] at hname
      exact hname rfl

/-- Only fields that are kept are all read back. -/
theorem kept_of_readFields {fs : List Field} {n tp' : Nat} {tail rest : List UInt8} (hok : ∀ f ∈ fs, f.Ok fmt)
    (h : readFields fmt size n tp (fs.flatMap (fieldBytes fmt) ++ tail) = some (fs, tp', rest)) : ∀ f ∈ fs, f.Kept := by
  induction fs generalizing n tp with
  | nil =>
    intro f hf
    cases hf
  | cons f fs ih =>
    have hf := hok f (List.mem_cons_self ..)
    cases n with
    | zero => simp [readFields] at h
    | succ n =>
      rw [List.flatMap_cons, List.append_assoc, readFields] at h
      split at h
      · simp at h
      · rename_i hcont
        rw [readField_fieldBytes hf, List.drop_left' (length_fieldBytes fmt f)] at h
        split at h
        · rw [Option.map_eq_some_iff] at h
          obtain ⟨⟨fs', r⟩, hr, heq⟩ := h
          simp only [Prod.mk.injEq, List.cons.injEq] at heq
          obtain ⟨⟨hst, rfl⟩, rfl⟩ := heq
          have hname : f.name.head? ≠ some EOH := by
            rw [fieldBytes_headD hf (fs'.flatMap (fieldBytes fmt) ++ tail)]
            intro he
            exact hcont (.inl (Option.some.inj he))
          intro g hg
          rcases List.mem_cons.mp hg with rfl | hg
          · exact hf.kept_iff.mpr ⟨hname, hst⟩
          · exact ih (fun g hg => hok g (List.mem_cons_of_mem _ hg)) hr g hg
        · cases h

end Loops

/-! ## Headers come back -/

/-- Where a header of `n` fields ends. -/
def headerEnd (fmt : DbFmt) (n : Nat) : Nat := fmt.hdrsz + n * fmt.fldwd + if n < MAXFLD then 1 else 0

section Read

variable {fmt : DbFmt} {size size' n tp tp' : Nat} {buf buf' rest rest' : List UInt8} {fs : List Field} {old r : Table}

/-- The fields that are read lie one behind the other, in what is there. -/
theorem readFields_end (h : readFields fmt size n tp rest = some (fs, tp', rest')) :
    tp' = tp + fs.length * fmt.fldwd ∧ fs.length ≤ n ∧ (fs ≠ [] → tp' ≤ size) ∧ rest' = rest.drop (fs.length * fmt.fldwd) := by
  induction n generalizing tp rest fs with
  | zero =>
    simp only [readFields, Option.some.injEq, Prod.mk.injEq] at h
    obtain ⟨rfl, rfl, rfl⟩ := h
    simp
  | succ n ih =>
    rw [readFields] at h
    split at h
    · simp only [Option.some.injEq, Prod.mk.injEq] at h
      obtain ⟨rfl, rfl, rfl⟩ := h
      simp
    rename_i hgo
    split at h
    · obtain ⟨⟨gs, r⟩, hr, heq⟩ := Option.map_eq_some_iff.mp h
      simp only [Prod.mk.injEq] at heq
      obtain ⟨rfl, rfl⟩ := heq
      obtain ⟨h1, h2, h3, h4⟩ := ih hr
      rw [List.length_cons, Nat.add_mul, Nat.one_mul]
      refine ⟨by omega, by omega, ?_, ?_⟩
      · intro _
        rcases List.eq_nil_or_concat gs with rfl | ⟨gs, g, rfl⟩
        · rw [List.length_nil, Nat.zero_mul] at h1
          omega
        · exact h3 (by simp)
      · rw [h4, List.drop_drop, Nat.add_comm]
    · cases h

/-- What a header consists of that has been read. -/
structure HdrFrom (fmt : DbFmt) (old : Table) (buf : List UInt8) (size : Nat) (r : Table) : Prop where
  fixed : ∃ hdr, readDbFixed old buf size = some (fmt, hdr) ∧
    r = { hdr with fdlist := r.fdlist, hdlen := r.hdlen, metaLen := r.metaLen }
  fields : ∃ rest, readFields fmt size MAXFLD fmt.hdrsz (buf.drop fmt.hdrsz) = some (r.fdlist, fmt.hdrsz + r.fdlist.length * fmt.fldwd, rest) ∧
    (r.fdlist.length < MAXFLD → rest.headD 0 = EOH)
  nonempty : 1 ≤ r.fdlist.length
  hdlen : r.hdlen = headerEnd fmt r.fdlist.length
  doffset : r.hdlen ≤ r.doffset
  metaLen : r.metaLen = if 0 ≤ metaSize r ∧ metaSize r < MIN_META_LEN then 0 else metaSize r

theorem hdrFrom_of_readDbHdr (h : readDbHdr old buf size = some r) : ∃ fmt, HdrFrom fmt old buf size r := by
  unfold readDbHdr at h
  split at h
  · cases h
  rename_i fmt hdr hfix
  split at h
  · cases h
  rename_i fs tp rest hfs
  obtain ⟨rfl, -⟩ := readFields_end hfs
  dsimp only at h
  by_cases hnone : fs.length < 1
  · rw [if_pos hnone] at h
    cases h
  rw [if_neg hnone] at h
  by_cases hmark : fs.length < MAXFLD ∧ rest.headD 0 ≠ EOH
  · rw [if_pos hmark] at h
    cases h
  rw [if_neg hmark] at h
  by_cases hoff : hdr.doffset < if fs.length < MAXFLD then ((fmt.hdrsz + fs.length * fmt.fldwd : Nat) : Int) + 1 else (fmt.hdrsz + fs.length * fmt.fldwd : Nat)
  · rw [if_pos hoff] at h
    cases h
  rw [if_neg hoff] at h
  obtain rfl := Option.some.inj h
  refine ⟨fmt, ⟨hdr, hfix, rfl⟩, ⟨rest, hfs, ?_⟩, not_lt.mp hnone, ?_, not_lt.mp hoff, rfl⟩
  · intro hlt
    by_contra hne
    exact hmark ⟨hlt, hne⟩
  · simp only [headerEnd]
    split <;> push_cast <;> ring

theorem readDbHdr_of_hdrFrom (h : HdrFrom fmt old buf size r) : readDbHdr old buf size = some r := by
  obtain ⟨⟨hdr, hfix, hr⟩, ⟨rest, hfs, hmark⟩, hone, hlen, hoff, hmeta⟩ := h
  have hdoff : hdr.doffset = r.doffset := by rw [hr]
  have hend : (if r.fdlist.length < MAXFLD then ((fmt.hdrsz + r.fdlist.length * fmt.fldwd : Nat) : Int) + 1
      else (fmt.hdrsz + r.fdlist.length * fmt.fldwd : Nat)) = r.hdlen := by
    rw [hlen]
    unfold headerEnd
    split <;> push_cast <;> ring
  unfold readDbHdr
  rw [hfix]
  dsimp only
  rw [hfs]
  dsimp only
  rw [hend, if_neg (by omega), if_neg (fun hm => hm.2 (hmark hm.1)), if_neg (by omega)]
  have hsize : hdr.doffset - r.hdlen - (if r.fdlist.length < MAXFLD then (META_HDR_ALIGN : Int) else 0) = metaSize r := by
    rw [hdoff, metaSize]
  rw [hsize, ← hmeta]
  exact congrArg some hr.symm

end Read

/-- A header that can be written: valid fields and numbers in the range of their words and of `int`. -/
structure Table.Ok (fmt : DbFmt) (hdr : Table) : Prop where
  format : dbFmt hdr.id = some fmt
  id : hdr.id < 256
  nonempty : 1 ≤ hdr.fdlist.length
  few : hdr.fdlist.length ≤ MAXFLD
  fields : ∀ f ∈ hdr.fdlist, f.Ok fmt
  reccnt : hdr.reccnt < 256 ^ fmt.cntwd
  byprec : 0 ≤ hdr.byprec ∧ hdr.byprec ≤ MAXRECSZ ∧ hdr.byprec < 256 ^ fmt.intwd
  hdlen : headerEnd fmt hdr.fdlist.length ≤ hdr.hdlen
  doffset : hdr.hdlen ≤ hdr.doffset ∧ hdr.doffset < 2 ^ 31 ∧ hdr.doffset < 256 ^ fmt.intwd

/-- The header read is the one written. -/
structure SameHdr (hdr hdr' : Table) : Prop where
  id : hdr'.id = hdr.id
  reccnt : hdr'.reccnt = hdr.reccnt
  doffset : hdr'.doffset = hdr.doffset
  byprec : hdr'.byprec = hdr.byprec
  fdlist : hdr'.fdlist = hdr.fdlist

/-- The header is written, and read back from what is written, whatever was in memory before. -/
def RoundTrips (hdr : Table) : Prop :=
  ∃ hdr' buf len, writeDbHdr hdr MAXHDLEN = some (hdr', buf, len) ∧
    ∀ old size, len ≤ size → size ≤ MAXHDLEN → ∃ r, readDbHdr old buf size = some r ∧ SameHdr hdr r

section Headers

variable {fmt : DbFmt} {hdr : Table}

theorem length_fixedBytes (fmt : DbFmt) (hdr : Table) : (fixedBytes fmt hdr).length = 4 + fmt.cntwd + 2 * fmt.intwd := by
  simp only [fixedBytes, List.length_cons, List.length_append, length_word]
  omega

theorem fixed_le (fmt : DbFmt) : 4 + fmt.cntwd + 2 * fmt.intwd ≤ fmt.hdrsz := by
  cases fmt <;> decide

/-- The numbers of a header are read back. -/
theorem readDbFixed_fixedBytes (h : hdr.Ok fmt) (hcnt : hdr.reccnt ≠ 2 ^ 64 - 1) (old : Table) (l : List UInt8) {size : Nat}
    (hsize : 64 ≤ size) :
    readDbFixed old (fixedBytes fmt hdr ++ l) size =
      some (fmt, { old with id := hdr.id, reccnt := hdr.reccnt, doffset := hdr.doffset, byprec := hdr.byprec }) := by
  obtain ⟨hb0, hb1, hb2⟩ := h.byprec
  obtain ⟨hd0, hd1, hd2⟩ := h.doffset
  have hend := h.hdlen
  unfold MAXRECSZ at hb1
  have hid : ((fixedBytes fmt hdr ++ l).headD 0).toNat = hdr.id := by
    show (UInt8.ofNat hdr.id).toNat = hdr.id
    exact UInt8.toNat_ofNat_of_lt' h.id
  have h4 : (fixedBytes fmt hdr ++ l).drop 4 = word fmt.cntwd hdr.reccnt ++
      (word fmt.intwd (hdr.doffset % 2 ^ 32).toNat ++ (word fmt.intwd (hdr.byprec % 2 ^ 32).toNat ++ l)) := by
    simp [fixedBytes]
  have hoff : (hdr.doffset % 2 ^ 32).toNat < 256 ^ fmt.intwd := by zify; omega
  have hbyp : (hdr.byprec % 2 ^ 32).toNat < 256 ^ fmt.intwd := by zify; omega
  have hr1 : readWord fmt.cntwd ((fixedBytes fmt hdr ++ l).drop 4) = hdr.reccnt := by
    rw [h4, readWord_append h.reccnt]
  have hr2 : readWord fmt.intwd ((fixedBytes fmt hdr ++ l).drop (4 + fmt.cntwd)) = (hdr.doffset % 2 ^ 32).toNat := by
    rw [← List.drop_drop, h4, List.drop_left' (length_word ..), readWord_append hoff]
  have hr3 : readWord fmt.intwd ((fixedBytes fmt hdr ++ l).drop (4 + fmt.cntwd + fmt.intwd)) =
      (hdr.byprec % 2 ^ 32).toNat := by
    rw [← List.drop_drop, ← List.drop_drop, h4, List.drop_left' (length_word ..), List.drop_left' (length_word ..),
      readWord_append hbyp]
  have hint : ∀ n : Int, 0 ≤ n → n < 2 ^ 31 → toInt32 (n % 2 ^ 32).toNat = n := by
    intro n h0 h1
    unfold toInt32
    rw [if_pos (by omega)]
    omega
  unfold readDbFixed
  rw [hid, h.format]
  dsimp only
  rw [hr1, hr2, hr3, hint _ (by omega) (by omega), hint _ hb0 (by omega), if_neg, if_neg (by omega),
    if_neg (by unfold MAXRECSZ; omega), if_neg hcnt]
  rintro (⟨-, h⟩ | h)
  · simp only [DbFmt.hdrsz] at h
    omega
  · simp only [DbFmt.hdrsz] at h
    omega

/-- What `write_db_hdr` puts in front of the buffer. -/
def hdrBytes (fmt : DbFmt) (hdr : Table) : List UInt8 :=
  padTo fmt.hdrsz (fixedBytes fmt hdr) ++ (hdr.fdlist.flatMap (fieldBytes fmt) ++
    if hdr.fdlist.length < MAXFLD then [EOH] else [])

theorem length_hdrBytes (fmt : DbFmt) (hdr : Table) : (hdrBytes fmt hdr).length = headerEnd fmt hdr.fdlist.length := by
  have hfix := fixed_le fmt
  rw [← length_fixedBytes fmt hdr] at hfix
  unfold hdrBytes headerEnd
  rw [List.length_append, length_padTo hfix, List.length_append, length_flatMap_fieldBytes]
  split
  · rw [List.length_singleton]
    omega
  · rw [List.length_nil]
    omega

theorem fields_lt (few : hdr.fdlist.length ≤ MAXFLD) (h5 : fmt = .db5 → hdr.fdlist.length < MAXFLD) :
    fmt.hdrsz + hdr.fdlist.length * fmt.fldwd < MAXHDLEN := by
  unfold MAXFLD at few h5
  unfold MAXHDLEN
  cases fmt with
  | db3 =>
    simp only [DbFmt.hdrsz, DbFmt.fldwd]
    omega
  | db5 =>
    have h := h5 rfl
    simp only [DbFmt.hdrsz, DbFmt.fldwd]
    omega

theorem writeDbHdr_some (h : hdr.Ok fmt) (h5 : fmt = .db5 → hdr.fdlist.length < MAXFLD) :
    writeDbHdr hdr MAXHDLEN = some (hdr, padTo MAXHDLEN (hdrBytes fmt hdr), headerEnd fmt hdr.fdlist.length) := by
  have hoff : ¬ hdr.doffset < 0 := by
    have hle := h.doffset.1
    have hend := h.hdlen
    omega
  unfold writeDbHdr
  rw [h.format]
  dsimp only
  rw [if_neg hoff, if_neg (by have hle := h.doffset.1; omega), writeFields_some (fields_lt h.few h5)]
  dsimp only
  rw [← length_hdrBytes]
  rfl

/-- In the new format a header with all the fields it can hold is refused. -/
theorem writeDbHdr_full (h : hdr.Ok .db5) (hfull : hdr.fdlist.length = MAXFLD) : writeDbHdr hdr MAXHDLEN = none := by
  unfold writeDbHdr
  rw [h.format]
  dsimp only
  rw [writeFields_none]
  · intro hnil
    rw [hnil] at hfull
    cases hfull
  · rw [hfull]
    decide

/-- What follows the fields in the buffer. -/
def hdrTail (fmt : DbFmt) (hdr : Table) : List UInt8 :=
  (if hdr.fdlist.length < MAXFLD then [EOH] else []) ++
    List.replicate (MAXHDLEN - headerEnd fmt hdr.fdlist.length) 0

theorem buf_front (fmt : DbFmt) (hdr : Table) :
    ∃ l, padTo MAXHDLEN (hdrBytes fmt hdr) = fixedBytes fmt hdr ++ l := by
  unfold padTo hdrBytes padTo
  simp only [List.append_assoc]
  exact ⟨_, rfl⟩

theorem buf_fields (fmt : DbFmt) (hdr : Table) :
    (padTo MAXHDLEN (hdrBytes fmt hdr)).drop fmt.hdrsz = hdr.fdlist.flatMap (fieldBytes fmt) ++ hdrTail fmt hdr := by
  have hfix := fixed_le fmt
  rw [← length_fixedBytes fmt hdr] at hfix
  unfold hdrTail
  rw [padTo, length_hdrBytes]
  unfold hdrBytes
  rw [List.append_assoc, List.drop_left' (length_padTo hfix), List.append_assoc]

/-- When a header comes back: all its fields do, and in the new format it has neither the full number
of fields nor the highest record count. -/
structure HdrKept (fmt : DbFmt) (hdr : Table) : Prop where
  fields : ∀ f ∈ hdr.fdlist, f.Kept
  few : fmt = .db5 → hdr.fdlist.length < MAXFLD
  reccnt : fmt = .db5 → hdr.reccnt ≠ 2 ^ 64 - 1

theorem readDbFixed_buf (h : hdr.Ok fmt) (old : Table) {size : Nat} (hlen : headerEnd fmt hdr.fdlist.length ≤ size)
    (hcnt : hdr.reccnt ≠ 2 ^ 64 - 1) :
    readDbFixed old (padTo MAXHDLEN (hdrBytes fmt hdr)) size =
      some (fmt, { old with id := hdr.id, reccnt := hdr.reccnt, doffset := hdr.doffset, byprec := hdr.byprec }) := by
  obtain ⟨l, hl⟩ := buf_front fmt hdr
  rw [hl, readDbFixed_fixedBytes h hcnt]
  have hone := h.nonempty
  unfold headerEnd at hlen
  cases fmt <;> simp only [DbFmt.hdrsz, DbFmt.fldwd] at hlen <;> omega

theorem roundTrips_of_kept (h : hdr.Ok fmt) (hk : HdrKept fmt hdr) : RoundTrips hdr := by
  refine ⟨hdr, _, _, writeDbHdr_some h hk.few, ?_⟩
  intro old size hlen hsize
  have hcnt : hdr.reccnt ≠ 2 ^ 64 - 1 := by
    cases fmt with
    | db3 =>
      have hr := h.reccnt
      simp only [DbFmt.cntwd] at hr
      omega
    | db5 => exact hk.reccnt rfl
  have hend : hdr.fdlist.length = MAXFLD ∨ (hdrTail fmt hdr).headD 0 = EOH := by
    rcases Nat.eq_or_lt_of_le h.few with heq | hlt
    · exact .inl heq
    · right
      unfold hdrTail
      rw [if_pos hlt]
      rfl
  have hend' := h.hdlen
  have hle := h.doffset.1
  unfold headerEnd at hlen hend'
  unfold readDbHdr
  rw [readDbFixed_buf h old hlen hcnt]
  dsimp only
  rw [buf_fields, readFields_kept h.fields hk.fields h.few hend (by omega)]
  dsimp only
  have hone := h.nonempty
  rw [if_neg (by omega), if_neg, if_neg]
  · exact ⟨_, rfl, rfl, rfl, rfl, rfl, rfl⟩
  · split at hend' <;> rename_i hlt
    · rw [if_pos hlt]
      omega
    · rw [if_neg hlt]
      omega
  · rintro ⟨hlt, hne⟩
    rcases hend with heq | he
    · omega
    · exact hne he

theorem reccnt_of_readDbFixed {old hdr' : Table} {buf : List UInt8} {size : Nat}
    (h : readDbFixed old buf size = some (fmt, hdr')) : hdr'.reccnt ≠ 2 ^ 64 - 1 := by
  unfold readDbFixed at h
  split at h
  · cases h
  dsimp only at h
  split_ifs at h with _ _ _ hcnt
  rw [Option.some.injEq, Prod.mk.injEq] at h
  rw [← h.2]
  exact hcnt

theorem kept_of_roundTrips (h : hdr.Ok fmt) (hr : RoundTrips hdr) : HdrKept fmt hdr := by
  obtain ⟨hdr', buf, len, hw, hread⟩ := hr
  have hfew : fmt = .db5 → hdr.fdlist.length < MAXFLD := by
    rintro rfl
    rcases Nat.eq_or_lt_of_le h.few with heq | hlt
    · rw [writeDbHdr_full h heq] at hw
      cases hw
    · exact hlt
  rw [writeDbHdr_some h hfew] at hw
  simp only [Option.some.injEq, Prod.mk.injEq] at hw
  obtain ⟨rfl, rfl, rfl⟩ := hw
  have hle : headerEnd fmt hdr.fdlist.length ≤ MAXHDLEN := by
    have hlt := fields_lt h.few hfew
    unfold headerEnd
    split <;> omega
  obtain ⟨r, hr, hsame⟩ := hread hdr MAXHDLEN hle le_rfl
  obtain ⟨fmt', ⟨hdr', hfix, hr'⟩, ⟨rest, hfs, -⟩, -⟩ := hdrFrom_of_readDbHdr hr
  have hcnt : hdr.reccnt ≠ 2 ^ 64 - 1 := by
    have hrec : r.reccnt = hdr'.reccnt := by rw [hr']
    rw [← hsame.reccnt, hrec]
    exact reccnt_of_readDbFixed hfix
  rw [readDbFixed_buf h hdr hle hcnt, Option.some.injEq, Prod.mk.injEq] at hfix
  obtain ⟨rfl, -⟩ := hfix
  rw [buf_fields, hsame.fdlist] at hfs
  exact ⟨kept_of_readFields h.fields hfs, hfew, fun _ => hcnt⟩

/-- A header that can be written comes back if and only if no name of a field begins with the end mark,
no character field is longer than a byte can tell, no field has negative decimals and, in the new
format, there are fewer fields than a header can hold and the record count is not the highest one. -/
theorem roundTrips_iff (h : hdr.Ok fmt) : RoundTrips hdr ↔ HdrKept fmt hdr :=
  ⟨kept_of_roundTrips h, roundTrips_of_kept h⟩

/-- A header with one character field. -/
def oneField (tlength : Int) : Table :=
  { id := 5, reccnt := 3, hdlen := 132, doffset := 132, metaLen := 0, byprec := 301, fdlist := [⟨[65], 67, tlength, 0⟩] }

theorem oneField_ok {tlength : Int} (h : 1 ≤ tlength) (h' : tlength ≤ 2046) : (oneField tlength).Ok .db5 where
  format := show dbFmt 5 = some .db5 by decide
  id := show 5 < 256 by decide
  nonempty := le_rfl
  few := show 1 ≤ MAXFLD by decide
  fields := by
    intro f hf
    obtain rfl : f = ⟨[65], 67, tlength, 0⟩ := List.mem_singleton.mp hf
    refine ⟨?_, by simp, by simp, show 1 ≤ 20 by decide⟩
    simp only [isValidField, MAXSTRLEN]
    simp
    omega
  reccnt := show 3 < 256 ^ 8 by decide
  byprec := show (0 : Int) ≤ 301 ∧ (301 : Int) ≤ MAXRECSZ ∧ (301 : Int) < 256 ^ 4 by decide
  hdlen := show (headerEnd .db5 1 : Int) ≤ 132 by decide
  doffset := show (132 : Int) ≤ 132 ∧ (132 : Int) < 2 ^ 31 ∧ (132 : Int) < 256 ^ 4 by decide

theorem oneField_kept : HdrKept .db5 (oneField 255) where
  fields := by
    intro f hf
    obtain rfl : f = ⟨[65], 67, 255, 0⟩ := List.mem_singleton.mp hf
    exact ⟨by decide, by decide, by decide⟩
  few := by decide
  reccnt := by decide

theorem oneField_roundTrips : RoundTrips (oneField 255) :=
  (roundTrips_iff (oneField_ok (by decide) (by decide))).mpr oneField_kept

/-- A character field of 300 bytes comes back with 44. -/
theorem longField_cut :
    readField .db5 (fieldBytes .db5 ⟨[65], 67, 300, 0⟩) = ⟨[65], 67, 44, 0⟩ ∧ ¬ RoundTrips (oneField 300) := by
  refine ⟨by decide, ?_⟩
  intro hr
  have hk := kept_of_roundTrips (oneField_ok (by decide) (by decide)) hr
  have h := (hk.fields ⟨[65], 67, 300, 0⟩ (List.mem_singleton_self _)).tlength rfl
  revert h
  decide

end Headers

/-! ## A header depends on its own bytes only -/

section Congr

variable {fmt : DbFmt} {size size' n tp tp' : Nat} {buf buf' rest rest' : List UInt8} {fs : List Field} {old r : Table}

theorem getD_of_take {k m : Nat} {l l' : List UInt8} (h : l'.take m = l.take m) (hk : k < m) : l'.getD k 0 = l.getD k 0 := by
  have hget := congrArg (·[k]?) h
  simp only [List.getElem?_take_of_lt hk] at hget
  rw [List.getD_eq_getElem?_getD, List.getD_eq_getElem?_getD, hget]

theorem take_of_take {k m : Nat} {l l' : List UInt8} (h : l'.take m = l.take m) (hk : k ≤ m) : l'.take k = l.take k := by
  have htake := congrArg (List.take k) h
  rwa [List.take_take, List.take_take, Nat.min_eq_left hk] at htake

theorem drop_of_take {k m : Nat} {l l' : List UInt8} (h : l'.take (k + m) = l.take (k + m)) : (l'.drop k).take m = (l.drop k).take m := by
  rw [List.take_drop, List.take_drop, h]

theorem headD_of_take {m : Nat} {l l' : List UInt8} (h : l'.take m = l.take m) (hm : 0 < m) : l'.headD 0 = l.headD 0 := by
  simp only [List.headD_eq_head?_getD, List.head?_eq_getElem?, ← List.getD_eq_getElem?_getD]
  exact getD_of_take h hm

theorem readField_congr (h : rest'.take fmt.fldwd = rest.take fmt.fldwd) : readField fmt rest' = readField fmt rest := by
  have hlen := namelen_le fmt
  unfold readField
  rw [getD_of_take h (by omega), getD_of_take h (by omega), getD_of_take h (by omega), take_of_take h (by omega)]

theorem readFields_congr {r : List UInt8} (h : readFields fmt size n tp rest = some (fs, tp', r)) (hmark : fs.length < n → r.headD 0 = EOH)
    (hsize : size ≤ size')
    (hrest : rest'.take (fs.length * fmt.fldwd + if fs.length < n then 1 else 0) = rest.take (fs.length * fmt.fldwd + if fs.length < n then 1 else 0)) :
    ∃ r', readFields fmt size' n tp rest' = some (fs, tp', r') ∧ (fs.length < n → r'.headD 0 = EOH) := by
  have hwd := namelen_le fmt
  induction n generalizing tp rest rest' fs with
  | zero =>
    simp only [readFields, Option.some.injEq, Prod.mk.injEq] at h
    obtain ⟨rfl, rfl, rfl⟩ := h
    exact ⟨rest', rfl, fun hlt => absurd hlt (Nat.not_lt_zero _)⟩
  | succ n ih =>
    rw [readFields] at h ⊢
    split at h
    · simp only [Option.some.injEq, Prod.mk.injEq] at h
      obtain ⟨rfl, rfl, rfl⟩ := h
      -- the loop ends at the end mark, which is there still
      have hhead : rest'.headD 0 = EOH := by
        rw [headD_of_take hrest (by simp)]
        exact hmark (Nat.zero_lt_succ n)
      rw [if_pos (.inl hhead)]
      exact ⟨rest', rfl, fun _ => hhead⟩
    rename_i hgo
    split at h
    · rename_i hvalid
      obtain ⟨⟨gs, s⟩, hr, heq⟩ := Option.map_eq_some_iff.mp h
      simp only [Prod.mk.injEq] at heq
      obtain ⟨rfl, rfl⟩ := heq
      simp only [List.length_cons, Nat.add_mul, Nat.one_mul, Nat.add_lt_add_iff_right] at hmark hrest ⊢
      rw [Nat.add_comm _ fmt.fldwd, Nat.add_assoc] at hrest
      obtain ⟨r', hr', hm'⟩ := ih hr hmark (drop_of_take hrest)
      rw [if_neg, readField_congr (take_of_take hrest (Nat.le_add_right ..)), if_pos hvalid, hr']
      · exact ⟨r', rfl, hm'⟩
      · rw [headD_of_take hrest (by omega)]
        rintro (heoh | hfull)
        · exact hgo (.inl heoh)
        · exact hgo (.inr (hfull.trans_le' hsize))
    · cases h

theorem readDbFixed_congr {hdr : Table} (h : readDbFixed old buf size = some (fmt, hdr)) (hsize : size ≤ size')
    (hbuf : buf'.take fmt.hdrsz = buf.take fmt.hdrsz) : readDbFixed old buf' size' = some (fmt, hdr) := by
  have hle := fixed_le fmt
  have hwd : 0 < fmt.hdrsz := by cases fmt <;> decide
  have hword : ∀ k w, k + w ≤ fmt.hdrsz → readWord w (buf'.drop k) = readWord w (buf.drop k) := by
    intro k w hk
    unfold readWord
    rw [drop_of_take (take_of_take hbuf hk)]
  unfold readDbFixed at h ⊢
  rw [headD_of_take hbuf hwd]
  split at h
  · cases h
  rename_i fmt' hfmt
  dsimp only at h ⊢
  have hf : fmt' = fmt := by
    split_ifs at h
    exact (Prod.mk.injEq .. ▸ Option.some.inj h).1
  subst hf
  rw [hword _ _ (by omega), hword _ _ (by omega), hword _ _ (by omega)]
  split_ifs at h with hs h1 h2 h3
  rw [if_neg, if_neg h1, if_neg h2, if_neg h3, h]
  rintro (⟨hdb3, hlt⟩ | hlt)
  · exact hs (.inl ⟨hdb3, hsize.trans_lt hlt⟩)
  · exact hs (.inr (hsize.trans_lt hlt))

/-- A header is read again from whatever begins with it. -/
theorem readDbHdr_congr (h : readDbHdr old buf size = some r) (hsize : size ≤ size')
    (hbuf : buf'.take r.hdlen.toNat = buf.take r.hdlen.toNat) : readDbHdr old buf' size' = some r := by
  obtain ⟨fmt, ⟨hdr, hfix, hr⟩, ⟨rest, hfs, hmark⟩, hone, hlen, hoff, hmeta⟩ := hdrFrom_of_readDbHdr h
  rw [hlen, Int.toNat_natCast] at hbuf
  unfold headerEnd at hbuf
  rw [Nat.add_assoc] at hbuf
  obtain ⟨rest', hfs', hmark'⟩ := readFields_congr hfs hmark hsize (drop_of_take hbuf)
  apply readDbHdr_of_hdrFrom
  exact ⟨⟨hdr, readDbFixed_congr hfix hsize (take_of_take hbuf (Nat.le_add_right ..)), hr⟩, ⟨rest', hfs', hmark'⟩, hone, hlen, hoff, hmeta⟩

/-- A header that has been read lies in what was read. -/
theorem hdlen_le (h : readDbHdr old buf size = some r) (hbuf : size ≤ buf.length ∨ MAXHDLEN ≤ buf.length) : r.hdlen ≤ buf.length := by
  obtain ⟨fmt, -, ⟨rest, hfs, hmark⟩, hone, hlen, -, -⟩ := hdrFrom_of_readDbHdr h
  obtain ⟨-, hle, hend, hrest⟩ := readFields_end hfs
  rw [hlen]
  unfold headerEnd
  split
  · rename_i hlt
    have hne : rest ≠ [] := by
      rintro rfl
      exact absurd (hmark hlt) (by decide)
    rw [hrest, List.drop_drop, ne_eq, List.drop_eq_nil_iff] at hne
    omega
  · have h1 := hend (List.ne_nil_of_length_pos hone)
    rcases hbuf with hbuf | hbuf
    · omega
    · refine Int.ofNat_le.mpr (le_trans ?_ hbuf)
      have h2 : r.fdlist.length = 1023 := by
        unfold MAXFLD at *
        omega
      rw [h2]
      cases fmt <;> decide

theorem toInt32_lt {n : Nat} (h : n < 2 ^ 32) : toInt32 n < 2 ^ 31 := by
  unfold toInt32
  split <;> omega

theorem pow_intwd_le (fmt : DbFmt) : 256 ^ fmt.intwd ≤ 2 ^ 32 := by
  cases fmt <;> decide

/-- A data offset is an `int`. -/
theorem doffset_lt (h : readDbHdr old buf size = some r) : r.doffset < 2 ^ 31 := by
  obtain ⟨fmt, ⟨hdr, hfix, hr⟩, -⟩ := hdrFrom_of_readDbHdr h
  have hdoff : r.doffset = hdr.doffset := by rw [hr]
  unfold readDbFixed at hfix
  split at hfix
  · cases hfix
  dsimp only at hfix
  split_ifs at hfix
  simp only [Option.some.injEq, Prod.mk.injEq] at hfix
  obtain ⟨rfl, rfl⟩ := hfix
  rw [hdoff]
  exact toInt32_lt ((readWord_lt _ _).trans_le (pow_intwd_le _))

end Congr

end Db3w
