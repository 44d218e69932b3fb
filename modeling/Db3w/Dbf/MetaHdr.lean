/-
The meta area of a table. It lies between the header and the records, three bytes behind the end mark
if there is one, and holds the names of the indexes the table was used with: a mark, their number, two
bytes that are not set, one entry a name and an end mark. `update_hdr` writes it and the next `USE`
reads it. Its room is an `int`, which is compared as an unsigned number.
-/
import Db3w.Dbf.Header
import Db3w.Dbf.Fio
import Mathlib.Tactic

namespace Db3w.MetaHdr

open Bytes
open Fio (dbread MINRECSZ)

def EOM : UInt8 := 0x7f
def META_NDX : UInt8 := 1
def META_ENTRY_OFF : Nat := 4
def META_ENTRY_LEN : Nat := 32
def MAXNDX : Nat := 16
/-- The size of the auxiliary buffer. -/
def MAXBUFSZ : Nat := 65536
def MAXNRECS : Nat := 2 ^ 64 - 2

/-! ## Opening a table -/

/-- A header before it is read. -/
def noHdr : Table := { id := 0, reccnt := 0, hdlen := 0, doffset := 0, metaLen := 0, byprec := 0, fdlist := [] }

/-- `opendb`: the header of the table in a file. -/
def opendb (file : List UInt8) : Option Table :=
  match dbread file 0 MAXHDLEN with
  | (none, _) => none
  | (some hdlen, buf) =>
    match readDbHdr noHdr buf hdlen with
    | none => none
    | some hdr =>
      if hdr.byprec < MINRECSZ ∨ hdr.byprec > Db3w.MAXRECSZ then none
      else if hdr.reccnt > MAXNRECS then none
      else some hdr

/-- A table in use, with its header as it was read. -/
structure OpenTable where
  file : List UInt8
  hdr : Table
  opened : opendb file = some hdr

/-! ## The meta data -/

/-- The offset of the meta data in the file. -/
def metaStart (hdr : Table) : Nat := hdr.hdlen.toNat + if hdr.fdlist.length < MAXFLD then META_HDR_ALIGN else 0

/-- The file names of the indexes that are open: C strings that fit an entry. -/
structure IndexList where
  names : List (List UInt8)
  few : names.length ≤ MAXNDX
  text : ∀ ndxfn ∈ names, 0 ∉ ndxfn
  fits : ∀ ndxfn ∈ names, ndxfn.length < META_ENTRY_LEN

/-- The loop of `update_hdr` at `tp` bytes from the start: the entries that it fills. -/
def metaEntries (size : Int) : Nat → List (List UInt8) → List (List UInt8)
  | _, [] => []
  | tp, ndxfn :: names =>
    if (tp + META_ENTRY_LEN + 1 : Int) > size then []
    else strncpy ndxfn META_ENTRY_LEN :: metaEntries size (tp + META_ENTRY_LEN) names

/-- What is written; `u` and `v` are what the buffer held in the two bytes that are not set. -/
def metaBytes (u v : UInt8) (entries : List (List UInt8)) : List UInt8 :=
  if entries = [] then [EOM]
  else META_NDX :: UInt8.ofNat entries.length :: u :: v :: (entries.flatten ++ [EOM])

/-- `update_hdr` with `setndx`, for a table whose header has not changed. -/
def updateHdr (u v : UInt8) (hdr : Table) (names : List (List UInt8)) (file : List UInt8) : List UInt8 :=
  -- an unsigned comparison, which a negative size passes
  if metaSize hdr < 0 ∨ MIN_META_LEN ≤ metaSize hdr then
    Bytes.writeAt (metaStart hdr) (metaBytes u v (metaEntries (metaSize hdr) META_ENTRY_OFF names)) file
  else file

/-- The loop of `meta_chk_set_index` at `tp` bytes from the start, where `rest` is what the buffer
holds from there on. -/
def metaNames (len : Nat) : Nat → Nat → List UInt8 → List (List UInt8)
  | 0, _, _ => []
  | n + 1, tp, rest =>
    if tp + META_ENTRY_LEN > len then []
    else if rest.headD 0 = EOM then []
    else cstr rest :: metaNames len n (tp + META_ENTRY_LEN) (rest.drop META_ENTRY_LEN)

/-- `meta_entry_cnt`; a `char` is signed. -/
def metaEntryCnt (buf : List UInt8) : Nat := if buf.getD 1 0 < 128 then (buf.getD 1 0).toNat else 0

/-- `meta_chk_set_index`: the names that are restored, unless more is read than the buffer holds. -/
def metaChkSetIndex (file : List UInt8) (hdr : Table) : Option (List (List UInt8)) :=
  if hdr.metaLen = 0 then some []
  else
    -- a negative length becomes a large one
    match dbread file (metaStart hdr) (hdr.metaLen % 2 ^ 64).toNat with
    | (none, _) => none
    | (some len, buf) =>
      if buf.length > MAXBUFSZ then none
      else if MIN_META_LEN ≤ len ∧ buf.headD 0 = META_NDX then
        some (metaNames len (metaEntryCnt buf) META_ENTRY_OFF (buf.drop META_ENTRY_OFF))
      else some []

/-! ## What is to come back -/

/-- The number of entries the meta area has room for. -/
def capacity (hdr : Table) : Nat := ((metaSize hdr - META_ENTRY_OFF - 1) / META_ENTRY_LEN).toNat

/-- After the names are written and the table is opened again, as many of them as there is room for are
restored, and no byte of the file has changed outside the meta area. -/
structure MetaRight (t : OpenTable) (names : List (List UInt8)) (file : List UInt8) : Prop where
  restored : ∃ hdr, opendb file = some hdr ∧ metaChkSetIndex file hdr = some (names.take (capacity t.hdr))
  outside : ∀ k < t.file.length, k < metaStart t.hdr ∨ t.hdr.doffset ≤ k → file[k]? = t.file[k]?

/-- When it does: the byte the end mark goes to when there is no meta area holds one already, what is
read of the area fits the buffer, and no name begins with an end mark. -/
structure Kept (t : OpenTable) (names : List (List UInt8)) : Prop where
  mark : metaSize t.hdr < 0 → ∀ b, t.file[metaStart t.hdr]? = some b → b = EOM
  buffer : min (metaSize t.hdr) (t.file.length - metaStart t.hdr : Nat) ≤ MAXBUFSZ
  names : ∀ ndxfn ∈ names.take (capacity t.hdr), ndxfn.head? ≠ some EOM

/-! ## The table is opened again -/

section Open

variable {file file' : List UInt8} {hdr : Table}

theorem dbread_hdr (file : List UInt8) :
    dbread file 0 MAXHDLEN = (some (if MAXHDLEN ≤ file.length then 81920 else file.length), file.take MAXHDLEN) := by
  obtain ⟨h2, h1⟩ := Fio.dbread_spec file 0 MAXHDLEN
  have hcnt : Fio.pieceCount MAXHDLEN = 4 := by decide
  have hmod : MAXHDLEN % Fio.IOBUFSIZE = 0 := by decide
  have hmul : 4 * Fio.IOBUFSIZE = MAXHDLEN := by decide
  rw [hcnt, hmod, hmul, List.drop_zero] at h2
  rw [hcnt, hmod, hmul, Nat.sub_zero, if_neg (by decide), Fio.counted] at h1
  rw [Prod.ext_iff, h1, h2]
  refine ⟨?_, rfl⟩
  by_cases hle : MAXHDLEN ≤ file.length
  · rw [if_pos ⟨rfl, hle⟩, if_pos hle]
    rfl
  · rw [if_neg (fun h => hle h.2), if_neg hle, Nat.add_zero, min_eq_right (by omega)]

theorem opendb_eq_some_iff : opendb file = some hdr ↔
    readDbHdr noHdr (file.take MAXHDLEN) (if MAXHDLEN ≤ file.length then 81920 else file.length) = some hdr ∧
      ¬(hdr.byprec < MINRECSZ ∨ hdr.byprec > Db3w.MAXRECSZ) ∧ ¬ hdr.reccnt > MAXNRECS := by
  unfold opendb
  rw [dbread_hdr]
  dsimp only
  constructor
  · intro h
    split at h
    · cases h
    rename_i hdr' hread
    split_ifs at h with h1 h2
    obtain rfl := Option.some.inj h
    exact ⟨hread, h1, h2⟩
  · rintro ⟨hread, h1, h2⟩
    rw [hread]
    dsimp only
    rw [if_neg h1, if_neg h2]

/-- The header of an open table lies in its file. -/
theorem OpenTable.hdlen_le (t : OpenTable) : t.hdr.hdlen.toNat ≤ min t.file.length MAXHDLEN := by
  obtain ⟨hread, -⟩ := opendb_eq_some_iff.mp t.opened
  have h := Db3w.hdlen_le hread (by rw [List.length_take]; split <;> omega)
  rw [List.length_take] at h
  omega

/-- It is found in every file that begins with it. -/
theorem OpenTable.reopen (t : OpenTable) (hlen : t.file.length ≤ file'.length)
    (hfile : file'.take t.hdr.hdlen.toNat = t.file.take t.hdr.hdlen.toNat) : opendb file' = some t.hdr := by
  obtain ⟨hread, h1, h2⟩ := opendb_eq_some_iff.mp t.opened
  have hle := t.hdlen_le
  have hmax : MAXHDLEN = 65536 := rfl
  rw [opendb_eq_some_iff]
  refine ⟨readDbHdr_congr hread (by split_ifs <;> omega) ?_, h1, h2⟩
  rw [List.take_take, List.take_take, min_eq_left (by omega), hfile]

end Open

/-! ## The entries -/

section Entries

variable {size : Int} {tp len : Nat} {names : List (List UInt8)}

/-- The entries that are filled are those of the names there is room for. -/
theorem metaEntries_eq (size : Int) (tp : Nat) (names : List (List UInt8)) :
    metaEntries size tp names = (names.take ((size - tp - 1) / META_ENTRY_LEN).toNat).map (strncpy · META_ENTRY_LEN) := by
  have hlen : META_ENTRY_LEN = 32 := rfl
  induction names generalizing tp with
  | nil => simp [metaEntries]
  | cons ndxfn names ih =>
    rw [metaEntries]
    split_ifs with hfull <;> rw [hlen] at hfull
    · have hroom : ((size - tp - 1) / META_ENTRY_LEN).toNat = 0 := by
        rw [hlen]
        omega
      rw [hroom]
      rfl
    · have hroom : ((size - tp - 1) / META_ENTRY_LEN).toNat = ((size - (tp + META_ENTRY_LEN : Nat) - 1) / META_ENTRY_LEN).toNat + 1 := by
        rw [hlen]
        omega
      rw [ih, hroom]
      rfl

theorem length_flatten_entries (names : List (List UInt8)) :
    (names.map (strncpy · META_ENTRY_LEN)).flatten.length = META_ENTRY_LEN * names.length := by
  induction names with
  | nil => rfl
  | cons ndxfn names ih =>
    rw [List.map_cons, List.flatten_cons, List.length_append, length_strncpy, ih, List.length_cons]
    ring

theorem strncpy_headD {ndxfn : List UInt8} (h0 : 0 ∉ ndxfn) (l : List UInt8) :
    (strncpy ndxfn META_ENTRY_LEN ++ l).headD 0 = EOM ↔ ndxfn.head? = some EOM := by
  cases ndxfn with
  | nil => simp [strncpy, cstr, META_ENTRY_LEN, List.replicate_succ, EOM]
  | cons b bs =>
    have hb : cstr (b :: bs) = b :: bs := cstr_eq_self h0
    simp [strncpy, hb, META_ENTRY_LEN]

/-- The names that are read are those in front of the first one that begins with an end mark. -/
theorem metaNames_entries (text : ∀ ndxfn ∈ names, 0 ∉ ndxfn) (fits : ∀ ndxfn ∈ names, ndxfn.length < META_ENTRY_LEN) (tail : List UInt8)
    (hlen : tp + META_ENTRY_LEN * names.length ≤ len) :
    metaNames len names.length tp ((names.map (strncpy · META_ENTRY_LEN)).flatten ++ tail) = names.takeWhile (·.head? ≠ some EOM) := by
  induction names generalizing tp with
  | nil => rfl
  | cons ndxfn names ih =>
    rw [List.length_cons, Nat.mul_succ] at hlen
    have h0 := text ndxfn (List.mem_cons_self ..)
    have hfit := fits ndxfn (List.mem_cons_self ..)
    have hcstr : ∀ l, cstr (strncpy ndxfn META_ENTRY_LEN ++ l) = ndxfn := by
      intro l
      -- a NUL follows the name in its entry
      obtain ⟨k, hk⟩ := Nat.exists_eq_add_of_lt hfit
      rw [strncpy, cstr_eq_self h0, List.take_of_length_le hfit.le, show META_ENTRY_LEN - ndxfn.length = k + 1 by omega,
        List.replicate_succ, List.append_assoc, List.cons_append, cstr_append h0]
    rw [List.length_cons, metaNames, if_neg (by omega), List.map_cons, List.flatten_cons, List.append_assoc]
    by_cases hmark : ndxfn.head? = some EOM
    · rw [if_pos ((strncpy_headD h0 _).mpr hmark), List.takeWhile_cons, if_neg (by simpa using hmark)]
    · rw [if_neg (mt (strncpy_headD h0 _).mp hmark), List.takeWhile_cons, if_pos (by simpa using hmark), hcstr,
        List.drop_left' (length_strncpy ..),
        ih (fun f hf => text f (List.mem_cons_of_mem _ hf)) (fun f hf => fits f (List.mem_cons_of_mem _ hf)) (by omega)]

end Entries

/-! ## What is written and read again -/

section Area

variable {hdr : Table} {file tail : List UInt8} {u v : UInt8} {names : List (List UInt8)} {len : Nat}

/-- The bytes for the names there is room for. -/
theorem metaBytes_entries (u v : UInt8) (hdr : Table) (names : List (List UInt8)) :
    metaBytes u v (metaEntries (metaSize hdr) META_ENTRY_OFF names) =
      metaBytes u v ((names.take (capacity hdr)).map (strncpy · META_ENTRY_LEN)) := by
  rw [metaEntries_eq]
  rfl

theorem length_metaBytes (u v : UInt8) (names : List (List UInt8)) :
    (metaBytes u v (names.map (strncpy · META_ENTRY_LEN))).length = if names = [] then 1 else 5 + META_ENTRY_LEN * names.length := by
  unfold metaBytes
  simp only [List.map_eq_nil_iff]
  split_ifs
  · rfl
  · simp only [List.length_cons, List.length_append, length_flatten_entries, List.length_nil]
    omega

/-- The names are read from what is written of them, unless more is read than the buffer holds. -/
theorem metaChkSetIndex_eq (few : names.length ≤ MAXNDX) (text : ∀ ndxfn ∈ names, 0 ∉ ndxfn) (fits : ∀ ndxfn ∈ names, ndxfn.length < META_ENTRY_LEN)
    (hlen : hdr.metaLen ≠ 0)
    (hread : dbread file (metaStart hdr) (hdr.metaLen % 2 ^ 64).toNat = (some len, metaBytes u v (names.map (strncpy · META_ENTRY_LEN)) ++ tail))
    (hle : (metaBytes u v (names.map (strncpy · META_ENTRY_LEN))).length ≤ len) :
    metaChkSetIndex file hdr = if (metaBytes u v (names.map (strncpy · META_ENTRY_LEN)) ++ tail).length > MAXBUFSZ then none
      else some (names.takeWhile (·.head? ≠ some EOM)) := by
  have hsize := length_metaBytes u v names
  unfold metaChkSetIndex
  rw [if_neg hlen, hread]
  dsimp only
  by_cases hbig : (metaBytes u v (names.map (strncpy · META_ENTRY_LEN)) ++ tail).length > MAXBUFSZ
  · rw [if_pos hbig, if_pos hbig]
  rw [if_neg hbig, if_neg hbig]
  rcases names with _ | ⟨ndxfn, names⟩
  · -- the end mark stands for the mark of the indexes
    rw [if_neg]
    · rfl
    · rintro ⟨-, hmark⟩
      exact absurd hmark (show EOM ≠ META_NDX by decide)
  have hbytes : metaBytes u v ((ndxfn :: names).map (strncpy · META_ENTRY_LEN)) ++ tail = META_NDX :: UInt8.ofNat (ndxfn :: names).length :: u :: v ::
      (((ndxfn :: names).map (strncpy · META_ENTRY_LEN)).flatten ++ (EOM :: tail)) := by
    rw [metaBytes, if_neg (by simp)]
    simp
  rw [if_neg (List.cons_ne_nil ndxfn names)] at hsize
  have hroom : META_ENTRY_OFF + META_ENTRY_LEN * (ndxfn :: names).length ≤ len ∧ MIN_META_LEN ≤ len := by
    simp only [META_ENTRY_OFF, META_ENTRY_LEN, MIN_META_LEN, List.length_cons] at hsize hle ⊢
    omega
  have hcnt : metaEntryCnt (metaBytes u v ((ndxfn :: names).map (strncpy · META_ENTRY_LEN)) ++ tail) = (ndxfn :: names).length := by
    have hsmall : (ndxfn :: names).length < 128 := few.trans_lt (by decide)
    have hval : (UInt8.ofNat (ndxfn :: names).length).toNat = (ndxfn :: names).length := UInt8.toNat_ofNat_of_lt' (hsmall.trans (by decide))
    have hsign : UInt8.ofNat (ndxfn :: names).length < 128 := UInt8.lt_iff_toNat_lt.mpr (by rw [hval]; exact hsmall)
    unfold metaEntryCnt
    rw [hbytes, List.getD_cons_succ, List.getD_cons_zero, if_pos hsign, hval]
  rw [if_pos, hcnt, hbytes]
  · exact congrArg some (metaNames_entries text fits (EOM :: tail) hroom.1)
  · rw [hbytes]
    exact ⟨hroom.2, rfl⟩

end Area

/-! ## When the names come back -/

section Main

variable (t : OpenTable) (u v : UInt8)

theorem OpenTable.hdlen_nonneg : 0 ≤ t.hdr.hdlen := by
  obtain ⟨hread, -⟩ := opendb_eq_some_iff.mp t.opened
  obtain ⟨fmt, -, -, -, hlen, -⟩ := hdrFrom_of_readDbHdr hread
  rw [hlen]
  exact Int.natCast_nonneg _

theorem OpenTable.hdlen_le_doffset : t.hdr.hdlen ≤ t.hdr.doffset := by
  obtain ⟨hread, -⟩ := opendb_eq_some_iff.mp t.opened
  obtain ⟨fmt, -, -, -, -, hoff, -⟩ := hdrFrom_of_readDbHdr hread
  exact hoff

theorem OpenTable.doffset_lt : t.hdr.doffset < 2 ^ 31 :=
  Db3w.doffset_lt (opendb_eq_some_iff.mp t.opened).1

theorem OpenTable.metaLen_eq : t.hdr.metaLen = if 0 ≤ metaSize t.hdr ∧ metaSize t.hdr < MIN_META_LEN then 0 else metaSize t.hdr := by
  obtain ⟨hread, -⟩ := opendb_eq_some_iff.mp t.opened
  obtain ⟨fmt, -, -, -, -, -, hmeta⟩ := hdrFrom_of_readDbHdr hread
  exact hmeta

/-- The meta area ends where the records begin. -/
theorem OpenTable.start_add : (metaStart t.hdr : Int) + metaSize t.hdr = t.hdr.doffset := by
  have h0 := t.hdlen_nonneg
  unfold metaStart metaSize
  split <;> omega

theorem OpenTable.hdlen_le_start : t.hdr.hdlen.toNat ≤ metaStart t.hdr := Nat.le_add_right _ _

/-- The header is as it was. -/
theorem opendb_updateHdr (names : List (List UInt8)) : opendb (updateHdr u v t.hdr names t.file) = some t.hdr := by
  unfold updateHdr
  split
  · apply t.reopen
    · rw [length_writeAt]
      exact le_max_left ..
    · exact take_writeAt_of_le t.hdlen_le_start (t.hdlen_le.trans (min_le_left ..))
  · exact t.opened

theorem metaRight_iff_read {names : List (List UInt8)} : MetaRight t names (updateHdr u v t.hdr names t.file) ↔
    metaChkSetIndex (updateHdr u v t.hdr names t.file) t.hdr = some (names.take (capacity t.hdr)) ∧
      ∀ k < t.file.length, k < metaStart t.hdr ∨ t.hdr.doffset ≤ k → (updateHdr u v t.hdr names t.file)[k]? = t.file[k]? := by
  constructor
  · rintro ⟨⟨hdr, hopen, hread⟩, hout⟩
    rw [opendb_updateHdr, Option.some.injEq] at hopen
    subst hopen
    exact ⟨hread, hout⟩
  · rintro ⟨hread, hout⟩
    exact ⟨⟨t.hdr, opendb_updateHdr t u v names, hread⟩, hout⟩

/-- Where there is no room for a name nothing is written, and nothing restored. -/
theorem metaRight_small (h0 : 0 ≤ metaSize t.hdr) (h : metaSize t.hdr < MIN_META_LEN) (names : List (List UInt8)) :
    MetaRight t names (updateHdr u v t.hdr names t.file) := by
  have hmin : MIN_META_LEN = 37 := rfl
  have hsame : updateHdr u v t.hdr names t.file = t.file := if_neg (by omega)
  have hcap : capacity t.hdr = 0 := by
    unfold capacity META_ENTRY_OFF META_ENTRY_LEN
    omega
  rw [metaRight_iff_read, hsame, hcap, List.take_zero]
  constructor
  · have hlen : t.hdr.metaLen = 0 := by rw [t.metaLen_eq, if_pos ⟨h0, h⟩]
    exact if_pos hlen
  · intros
    rfl

/-- The lengths that a negative room becomes. -/
theorem pieces_of_neg {n : Int} (hn : n = -1 ∨ n = -2 ∨ n = -3) :
    Fio.pieceCount (n % 2 ^ 64).toNat = 0 ∧ 0 < (n % 2 ^ 64).toNat % Fio.IOBUFSIZE ∧ (n % 2 ^ 64).toNat % Fio.IOBUFSIZE ≤ MAXBUFSZ := by
  rcases hn with rfl | rfl | rfl <;> decide

/-- Where the records begin behind the end mark at once, or one or two bytes further, the end mark of
the meta data goes into the records. -/
theorem metaRight_neg (h : metaSize t.hdr < 0) (names : List (List UInt8)) :
    MetaRight t names (updateHdr u v t.hdr names t.file) ↔ ∀ b, t.file[metaStart t.hdr]? = some b → b = EOM := by
  have hoff := t.hdlen_le_doffset
  have hcap : capacity t.hdr = 0 := by
    unfold capacity META_ENTRY_OFF META_ENTRY_LEN
    omega
  have hfile : updateHdr u v t.hdr names t.file = Bytes.writeAt (metaStart t.hdr) [EOM] t.file := by
    unfold updateHdr
    rw [if_pos (.inl h), metaBytes_entries, hcap, List.take_zero]
    rfl
  have hread : metaChkSetIndex (updateHdr u v t.hdr names t.file) t.hdr = some [] := by
    have hn : metaSize t.hdr = -1 ∨ metaSize t.hdr = -2 ∨ metaSize t.hdr = -3 := by
      have halign : META_HDR_ALIGN = 3 := rfl
      unfold metaSize at h ⊢
      split_ifs at h ⊢ <;> omega
    obtain ⟨hpc, hpos, hmax⟩ := pieces_of_neg hn
    have hlen : t.hdr.metaLen = metaSize t.hdr := by
      rw [t.metaLen_eq, if_neg (by omega)]
    obtain ⟨h2, h1⟩ := Fio.dbread_spec (updateHdr u v t.hdr names t.file) (metaStart t.hdr) (metaSize t.hdr % 2 ^ 64).toNat
    rw [hpc, Nat.zero_mul, Nat.zero_add] at h2
    rw [hpc, if_pos rfl, Nat.zero_mul, Fio.counted, if_neg (by omega), Nat.zero_add] at h1
    generalize (metaSize t.hdr % 2 ^ 64).toNat % Fio.IOBUFSIZE = k at hpos hmax h1 h2
    obtain ⟨k, rfl⟩ : ∃ j, k = j + 1 := ⟨k - 1, by omega⟩
    rw [hfile, drop_writeAt, List.singleton_append, List.take_succ_cons] at h2
    rw [hfile, length_writeAt, List.length_singleton] at h1
    have hbuf := @metaChkSetIndex_eq t.hdr (updateHdr u v t.hdr names t.file) _ u v [] _ (by simp) (by simp) (by simp) (by omega)
      (by rw [hlen, hfile]; exact Prod.ext h1 h2) (show 1 ≤ _ by omega)
    rw [hbuf, if_neg]
    · rfl
    · rw [List.length_append, length_metaBytes, if_pos rfl, List.length_take]
      omega
  rw [metaRight_iff_read, hread, hcap, List.take_zero, and_iff_right rfl, hfile]
  have hstart := t.start_add
  constructor
  · intro hout b hb
    have hlt := (List.getElem?_eq_some_iff.mp hb).1
    have hk := hout _ hlt (.inr (by omega))
    rw [hb, ← Nat.add_zero (metaStart t.hdr), ← List.getElem?_drop, Nat.add_zero, drop_writeAt] at hk
    exact (Option.some.inj hk).symm
  · intro hmark k hk _
    rcases Nat.lt_trichotomy k (metaStart t.hdr) with hlt | rfl | hgt
    · exact getElem?_writeAt_of_lt hlt hk
    · rw [← Nat.add_zero (metaStart t.hdr), ← List.getElem?_drop, Nat.add_zero, drop_writeAt, List.getElem?_eq_getElem hk, hmark _ (List.getElem?_eq_getElem hk)]
      rfl
    · exact getElem?_writeAt_of_le (by rw [List.length_singleton]; omega)

/-- The buffer is left when the area is, as what is written is small. -/
theorem overrun_iff {d n left start : Nat} (hd : d ≤ min n 517) :
    d + min (n - d) (left - (start + d)) > MAXBUFSZ ↔ ¬min (n : Int) (left - start : Nat) ≤ MAXBUFSZ := by
  have hmax : MAXBUFSZ = 65536 := rfl
  omega

/-- Where there is room for a name the meta area is written as far as it goes. -/
theorem metaRight_room (h : MIN_META_LEN ≤ metaSize t.hdr) (l : IndexList) : MetaRight t l.names (updateHdr u v t.hdr l.names t.file) ↔
    min (metaSize t.hdr) (t.file.length - metaStart t.hdr : Nat) ≤ MAXBUFSZ ∧
      ∀ ndxfn ∈ l.names.take (capacity t.hdr), ndxfn.head? ≠ some EOM := by
  have hmin : MIN_META_LEN = 37 := rfl
  have hent : META_ENTRY_LEN = 32 := rfl
  have hstart := t.start_add
  have hlt := t.doffset_lt
  have hfile : updateHdr u v t.hdr l.names t.file =
      Bytes.writeAt (metaStart t.hdr) (metaBytes u v ((l.names.take (capacity t.hdr)).map (strncpy · META_ENTRY_LEN))) t.file := by
    unfold updateHdr
    rw [if_pos (.inr h), metaBytes_entries]
  have hcap : (l.names.take (capacity t.hdr)).length ≤ ((metaSize t.hdr - 4 - 1) / 32).toNat := List.length_take_le ..
  have hfew : (l.names.take (capacity t.hdr)).length ≤ 16 := (List.length_take_le' ..).trans l.few
  have hsub : ∀ ndxfn ∈ l.names.take (capacity t.hdr), ndxfn ∈ l.names := fun _ hf => List.mem_of_mem_take hf
  rw [metaRight_iff_read]
  generalize l.names.take (capacity t.hdr) = names at *
  obtain ⟨n, hn⟩ : ∃ n : Nat, metaSize t.hdr = n := ⟨(metaSize t.hdr).toNat, by omega⟩
  have hlen : t.hdr.metaLen = metaSize t.hdr := by
    rw [t.metaLen_eq, if_neg (by omega)]
  -- what is written ends in the meta area and is small
  have hfits : (metaBytes u v (names.map (strncpy · META_ENTRY_LEN))).length ≤ min n 517 := by
    rw [length_metaBytes, hent]
    split_ifs <;> omega
  have hout : ∀ k < t.file.length, k < metaStart t.hdr ∨ t.hdr.doffset ≤ k → (updateHdr u v t.hdr l.names t.file)[k]? = t.file[k]? := by
    rintro k hk (hbefore | hafter)
    · rw [hfile, getElem?_writeAt_of_lt hbefore hk]
    · rw [hfile, getElem?_writeAt_of_le (by omega)]
  obtain ⟨len, hread, hle⟩ := Fio.dbread_some (updateHdr u v t.hdr l.names t.file) (metaStart t.hdr) (show 0 < n by omega) (show n < 2 ^ 45 by omega)
  rw [hfile, length_writeAt] at hle
  rw [hfile, drop_writeAt, List.take_append, List.take_of_length_le (hfits.trans (min_le_left ..)), ← hfile] at hread
  have hbuf := @metaChkSetIndex_eq t.hdr _ _ u v _ _ hfew (fun f hf => l.text f (hsub f hf)) (fun f hf => l.fits f (hsub f hf)) (by omega)
    (by rw [hlen, hn, Int.emod_eq_of_lt (by omega) (by omega), Int.toNat_natCast]; exact hread) (by omega)
  rw [and_iff_left hout, hbuf, List.length_append, List.length_take, List.length_drop, hn]
  by_cases hok : min (n : Int) (t.file.length - metaStart t.hdr : Nat) ≤ MAXBUFSZ
  · rw [if_neg (mt (overrun_iff hfits).mp (not_not.mpr hok)), and_iff_right hok, Option.some_inj, List.takeWhile_eq_self_iff]
    simp only [decide_eq_true_eq]
  · rw [if_pos ((overrun_iff hfits).mpr hok)]
    simp [hok]

/-- The names that fit come back from the meta area, and nothing else is written, if and only if the
area does not begin in the records (unless an end mark is there), no more of it is read than the
buffer holds, and none of the names begins with an end mark. -/
theorem metaRight_iff (l : IndexList) : (∀ u v, MetaRight t l.names (updateHdr u v t.hdr l.names t.file)) ↔ Kept t l.names := by
  have hmin : MIN_META_LEN = 37 := rfl
  have hmax : MAXBUFSZ = 65536 := rfl
  have hcap : metaSize t.hdr < MIN_META_LEN → capacity t.hdr = 0 := by
    unfold capacity META_ENTRY_OFF META_ENTRY_LEN
    omega
  rcases lt_or_ge (metaSize t.hdr) 0 with hneg | h0
  · constructor
    · intro hr
      exact ⟨fun _ => (metaRight_neg t 0 0 hneg l.names).mp (hr 0 0), by omega, by rw [hcap (by omega)]; simp⟩
    · intro hk u v
      exact (metaRight_neg t u v hneg l.names).mpr (hk.mark hneg)
  · rcases lt_or_ge (metaSize t.hdr) MIN_META_LEN with hsmall | hroom
    · constructor
      · intro _
        exact ⟨fun hneg => absurd hneg (not_lt.mpr h0), by omega, by rw [hcap hsmall]; simp⟩
      · intro _ u v
        exact metaRight_small t u v h0 hsmall l.names
    · constructor
      · intro hr
        obtain ⟨hbuf, hnames⟩ := (metaRight_room t 0 0 hroom l).mp (hr 0 0)
        exact ⟨fun hneg => absurd hneg (not_lt.mpr h0), hbuf, hnames⟩
      · intro hk u v
        exact (metaRight_room t u v hroom l).mpr ⟨hk.buffer, hk.names⟩

end Main

/-- A table of one field whose records begin behind the end mark at once, and its one record. -/
def tightFile : List UInt8 :=
  3 :: 80 :: 1 :: 1 :: (word 4 1 ++ (word 2 65 ++ (word 2 5 ++ (List.replicate 20 0 ++
    (fieldBytes .db3 ⟨[65], 67, 4, 0⟩ ++ [EOH, 32, 119, 120, 121, 122])))))

def tightTable : OpenTable where
  file := tightFile
  hdr := { id := 3, reccnt := 1, hdlen := 65, doffset := 65, metaLen := -3, byprec := 5, fdlist := [⟨[65], 67, 4, 0⟩] }
  opened := by decide +kernel

def oneIndex : IndexList where
  names := [[97]]
  few := by decide
  text := by decide
  fits := by decide

/-- The third letter of the record becomes an end mark. -/
theorem metaRight_tight : ¬(∀ u v, MetaRight tightTable oneIndex.names (updateHdr u v tightTable.hdr oneIndex.names tightTable.file)) ∧
    tightFile[68]? = some 121 ∧ (updateHdr 0 0 tightTable.hdr oneIndex.names tightFile)[68]? = some EOM := by
  refine ⟨?_, by decide +kernel, by decide +kernel⟩
  intro h
  have hmark := (metaRight_neg tightTable 0 0 (by decide) oneIndex.names).mp (h 0 0) 121 (by decide +kernel)
  exact absurd hmark (by decide)

end Db3w.MetaHdr
