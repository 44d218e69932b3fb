/-
Reading a table in chunks (fio.c). The bytes come in pieces of `IOBUFSIZE` and a rest, and their count
is put together from the number of full pieces and what the last call has brought. When there is no
rest the last full piece is counted twice.
-/
import Mathlib.Tactic

namespace Db3w.Fio

def IOBUFSIZE : Nat := 0x4000
abbrev MINRECSZ : Nat := 2
abbrev MAXRECSZ : Nat := 65536

theorem iobufsize_eq : IOBUFSIZE = 16384 := rfl

/-- `read` at a position of a file: as many bytes as are asked for, or as there are. -/
def read (file : List UInt8) (pos n : Nat) : List UInt8 := (file.drop pos).take n

/-- The pieces of `dbread` that are left, and the rest of `k` bytes. `j` is what the last call has brought, if there was one. -/
def pieces (file : List UInt8) (k : Nat) : Nat → Nat → Option Nat → List UInt8 → Option Nat × List UInt8
  | 0, i, j, buf =>
    if 0 < k then
      let b := read file buf.length k
      (some (i * IOBUFSIZE + b.length), buf ++ b)
    else (j.map (i * IOBUFSIZE + ·), buf)
  | n + 1, i, _, buf =>
    let b := read file buf.length IOBUFSIZE
    if b.length < IOBUFSIZE then (some (i * IOBUFSIZE + b.length), buf ++ b)
    else pieces file k n (i + 1) (some b.length) (buf ++ b)

/-- The number of pieces is an `int`. -/
def pieceCount (nbytes : Nat) : Nat := ((nbytes / IOBUFSIZE : Nat) : Int).bmod (2 ^ 32) |>.toNat

/-- `dbread`: the count that is returned, unless it was never set, and the buffer. -/
def dbread (file : List UInt8) (offset nbytes : Nat) : Option Nat × List UInt8 :=
  pieces (file.drop offset) (nbytes % IOBUFSIZE) (pieceCount nbytes) 0 none []

/-- A table on the disk. -/
structure Table where
  file : List UInt8
  doffset : Nat
  byprec : Nat
  reccnt : Nat
  byprec_ge : MINRECSZ ≤ byprec
  byprec_le : byprec ≤ MAXRECSZ

/-- `gorec`: the record that is in the buffer then, unless it could not be read. -/
def gorec (t : Table) (recno : Nat) (buf : List UInt8) : Option (List UInt8) :=
  if recno = 0 then some buf
  else if recno ≤ t.reccnt then
    let r := dbread t.file ((recno - 1) * t.byprec + t.doffset) t.byprec
    if r.1 ≠ some t.byprec then none else some r.2
  else some (List.replicate t.byprec 32)

/-! ## The pieces -/

variable {file : List UInt8} {k n i : Nat} {j : Option Nat} {buf : List UInt8}

theorem take_read (file : List UInt8) (pos n : Nat) : file.take pos ++ read file pos n = file.take (pos + n) := by
  unfold read
  rw [List.take_add]

theorem length_read (pos n : Nat) : (read file pos n).length = min n (file.length - pos) := by
  unfold read
  rw [List.length_take, List.length_drop]

/-- What the count is when nothing is short: the last full piece is counted again when there is no rest. -/
def counted (k m : Nat) (j : Option Nat) (left : Nat) : Option Nat :=
  if k = 0 ∧ m ≤ left then j.map (m + ·) else some (min (m + k) left)

/-- All that is asked for is read, as far as there is something. -/
theorem pieces_spec (hbuf : buf = file.take (i * IOBUFSIZE)) (hi : i * IOBUFSIZE ≤ file.length) :
    (pieces file k n i j buf).2 = file.take ((i + n) * IOBUFSIZE + k) ∧
      (pieces file k n i j buf).1 = counted k ((i + n) * IOBUFSIZE) (if n = 0 then j else some IOBUFSIZE) file.length := by
  have hpos : buf.length = i * IOBUFSIZE := by rw [hbuf, List.length_take, min_eq_left hi]
  induction n generalizing i j buf with
  | zero =>
    unfold pieces
    dsimp only
    rw [hpos, Nat.add_zero, if_pos rfl]
    by_cases hk0 : 0 < k
    · rw [if_pos hk0, counted, if_neg (by omega), length_read, hbuf, take_read]
      exact ⟨rfl, congrArg some (by omega)⟩
    · rw [if_neg hk0, counted, if_pos ⟨by omega, hi⟩, hbuf]
      exact ⟨by rw [show k = 0 by omega, Nat.add_zero], rfl⟩
  | succ n ih =>
    unfold pieces
    dsimp only
    rw [hpos, length_read]
    have hmul : (i + (n + 1)) * IOBUFSIZE = i * IOBUFSIZE + IOBUFSIZE + n * IOBUFSIZE := by ring
    have hread : buf ++ read file (i * IOBUFSIZE) IOBUFSIZE = file.take (i * IOBUFSIZE + IOBUFSIZE) := by rw [hbuf, take_read]
    by_cases hshort : min IOBUFSIZE (file.length - i * IOBUFSIZE) < IOBUFSIZE
    · -- the file ends in this piece
      rw [if_pos hshort, if_neg (Nat.succ_ne_zero n), hread, counted, if_neg (by omega)]
      exact ⟨by rw [List.take_of_length_le (by omega), List.take_of_length_le (by omega)], congrArg some (by omega)⟩
    · have hnext : i * IOBUFSIZE + IOBUFSIZE = (i + 1) * IOBUFSIZE := by ring
      rw [hnext] at hread
      have hle : (i + 1) * IOBUFSIZE ≤ file.length := by
        rw [← hnext]
        omega
      obtain ⟨h2, h1⟩ := ih (j := some (min IOBUFSIZE (file.length - i * IOBUFSIZE))) hread hle (by rw [hread, List.length_take, min_eq_left hle])
      rw [if_neg hshort, h1, h2, if_neg (Nat.succ_ne_zero n), show i + 1 + n = i + (n + 1) by omega,
        show min IOBUFSIZE (file.length - i * IOBUFSIZE) = IOBUFSIZE by omega, ite_self]
      exact ⟨rfl, rfl⟩

theorem dbread_spec (file : List UInt8) (offset nbytes : Nat) :
    (dbread file offset nbytes).2 = (file.drop offset).take (pieceCount nbytes * IOBUFSIZE + nbytes % IOBUFSIZE) ∧
      (dbread file offset nbytes).1 = counted (nbytes % IOBUFSIZE) (pieceCount nbytes * IOBUFSIZE)
        (if pieceCount nbytes = 0 then none else some IOBUFSIZE) (file.length - offset) := by
  have h := @pieces_spec (file.drop offset) (nbytes % IOBUFSIZE) (pieceCount nbytes) 0 none [] (by rw [Nat.zero_mul, List.take_zero]) (by rw [Nat.zero_mul]; exact Nat.zero_le _)
  rwa [Nat.zero_add, List.length_drop] at h

/-! ## When the count is right -/

/-- As many bytes as are asked for and there are, and their number. -/
def ReadRight (file : List UInt8) (offset nbytes : Nat) : Prop :=
  dbread file offset nbytes = (some (min nbytes (file.length - offset)), (file.drop offset).take nbytes)

/-- A record that is in the file as a whole. -/
def Complete (t : Table) (recno : Nat) : Prop := 0 < recno ∧ recno ≤ t.reccnt ∧ t.doffset + recno * t.byprec ≤ t.file.length

/-- The record is found. -/
def GorecRight (t : Table) (recno : Nat) (buf : List UInt8) : Prop :=
  gorec t recno buf = some ((t.file.drop ((recno - 1) * t.byprec + t.doffset)).take t.byprec)

/-- The bytes that are asked for, as `int` counts the pieces. -/
def asked (nbytes : Nat) : Nat := pieceCount nbytes * IOBUFSIZE + nbytes % IOBUFSIZE

theorem asked_eq {nbytes : Nat} (h : nbytes < 2 ^ 45) : asked nbytes = nbytes := by
  unfold asked pieceCount
  have hlt : nbytes / IOBUFSIZE < 2 ^ 31 := by
    rw [iobufsize_eq]
    omega
  have hsum := Nat.div_add_mod nbytes IOBUFSIZE
  generalize nbytes / IOBUFSIZE = m at hlt hsum ⊢
  rw [Int.bmod_eq_of_le (by omega) (by omega), Int.toNat_natCast, Nat.mul_comm]
  exact hsum

/-- Whatever the count is, it is no less than what there is to read. -/
theorem dbread_some (file : List UInt8) (offset : Nat) {nbytes : Nat} (h0 : 0 < nbytes) (h : nbytes < 2 ^ 45) :
    ∃ len, dbread file offset nbytes = (some len, (file.drop offset).take nbytes) ∧ min nbytes (file.length - offset) ≤ len := by
  have hasked := asked_eq h
  have hio := iobufsize_eq
  obtain ⟨h2, h1⟩ := dbread_spec file offset nbytes
  unfold asked at hasked
  rw [hasked] at h2
  by_cases hfull : nbytes % IOBUFSIZE = 0 ∧ pieceCount nbytes * IOBUFSIZE ≤ file.length - offset
  · have hpc : pieceCount nbytes ≠ 0 := by
      intro hz
      rw [hz] at hasked
      omega
    rw [counted, if_pos hfull, if_neg hpc, Option.map_some] at h1
    exact ⟨_, Prod.ext h1 h2, by omega⟩
  · rw [counted, if_neg hfull] at h1
    exact ⟨_, Prod.ext h1 h2, by omega⟩

/-- What is asked for is read, and counted once, if the file ends in it or there is a rest. -/
theorem readRight_iff (file : List UInt8) (offset nbytes : Nat) :
    ReadRight file offset nbytes ↔
      (asked nbytes = nbytes ∨ file.length - offset ≤ min nbytes (asked nbytes)) ∧ ¬(nbytes % IOBUFSIZE = 0 ∧ asked nbytes ≤ file.length - offset) := by
  have hio := iobufsize_eq
  obtain ⟨h2, h1⟩ := dbread_spec file offset nbytes
  have hbuf : (dbread file offset nbytes).2 = (file.drop offset).take nbytes ↔ asked nbytes = nbytes ∨ file.length - offset ≤ min nbytes (asked nbytes) := by
    rw [h2]
    constructor
    · intro h
      have hlen := congrArg List.length h
      rw [List.length_take, List.length_take, List.length_drop] at hlen
      unfold asked
      omega
    · rintro (h | h)
      · rw [← asked, h]
      · rw [← asked, List.take_of_length_le (by rw [List.length_drop]; omega), List.take_of_length_le (by rw [List.length_drop]; omega)]
  unfold ReadRight
  rw [Prod.ext_iff, hbuf, h1, and_comm]
  refine and_congr_right fun hfull => ?_
  unfold counted
  by_cases hz : nbytes % IOBUFSIZE = 0 ∧ pieceCount nbytes * IOBUFSIZE ≤ file.length - offset
  · have hz' : nbytes % IOBUFSIZE = 0 ∧ asked nbytes ≤ file.length - offset := ⟨hz.1, by unfold asked; omega⟩
    rw [if_pos hz]
    refine iff_of_false (fun h => ?_) (not_not.mpr hz')
    split at h
    · cases h
    · have hcount := Option.some_injective _ h
      unfold asked at hfull hz'
      dsimp only at hcount
      omega
  · have hz' : ¬(nbytes % IOBUFSIZE = 0 ∧ asked nbytes ≤ file.length - offset) := by
      unfold asked
      omega
    rw [if_neg hz]
    refine iff_of_true (congrArg some ?_) hz'
    unfold asked at hfull
    omega

theorem gorecRight_iff {t : Table} {recno : Nat} {buf : List UInt8} (h : Complete t recno) : GorecRight t recno buf ↔ t.byprec % IOBUFSIZE ≠ 0 := by
  obtain ⟨h0, hle, hend⟩ := h
  have hge := t.byprec_ge
  have hmax := t.byprec_le
  have hrecsz : MAXRECSZ = 65536 := rfl
  have hrec : (recno - 1) * t.byprec + t.byprec = recno * t.byprec := by
    obtain ⟨r, rfl⟩ : ∃ r, recno = r + 1 := ⟨recno - 1, by omega⟩
    rw [Nat.add_sub_cancel, Nat.add_mul, Nat.one_mul]
  have hasked := @asked_eq t.byprec (by omega)
  have hread := readRight_iff t.file ((recno - 1) * t.byprec + t.doffset) t.byprec
  rw [hasked, and_iff_right (.inl rfl)] at hread
  have hleft : t.byprec ≤ t.file.length - ((recno - 1) * t.byprec + t.doffset) := by omega
  have hright : ReadRight t.file ((recno - 1) * t.byprec + t.doffset) t.byprec ↔ t.byprec % IOBUFSIZE ≠ 0 :=
    hread.trans (not_congr (and_iff_left hleft))
  rw [← hright]
  unfold GorecRight gorec ReadRight
  rw [if_neg (by omega), if_pos hle, min_eq_left hleft, Prod.ext_iff]
  dsimp only
  by_cases hcount : (dbread t.file ((recno - 1) * t.byprec + t.doffset) t.byprec).1 = some t.byprec
  · rw [if_neg (not_not.mpr hcount), and_iff_right hcount, Option.some_inj]
  · rw [if_pos hcount]
    refine iff_of_false ?_ fun h => hcount h.1
    exact Option.some_ne_none _ ∘ Eq.symm

/-- A read of some bytes and a record of a table come out right exactly if neither is counted twice at its end. -/
theorem reads_iff {file : List UInt8} {offset nbytes : Nat} {t : Table} {recno : Nat} {buf : List UInt8} (h : Complete t recno) :
    ReadRight file offset nbytes ∧ GorecRight t recno buf ↔
      ((asked nbytes = nbytes ∨ file.length - offset ≤ min nbytes (asked nbytes)) ∧ ¬(nbytes % IOBUFSIZE = 0 ∧ asked nbytes ≤ file.length - offset)) ∧
        t.byprec % IOBUFSIZE ≠ 0 := by
  rw [readRight_iff, gorecRight_iff h]

/-- A table of one record of `IOBUFSIZE` bytes. -/
def oneRec : Table := ⟨List.replicate 16384 32, 0, 16384, 1, by decide, by decide⟩

theorem oneRec_complete : Complete oneRec 1 :=
  ⟨by decide, le_rfl, by rw [show oneRec.file.length = 16384 from List.length_replicate]; decide⟩

theorem reads_iff_oneRec : ReadRight oneRec.file 1 16384 ∧ GorecRight oneRec 1 [] ↔
    ((asked 16384 = 16384 ∨ oneRec.file.length - 1 ≤ min 16384 (asked 16384)) ∧ ¬(16384 % IOBUFSIZE = 0 ∧ asked 16384 ≤ oneRec.file.length - 1)) ∧
      oneRec.byprec % IOBUFSIZE ≠ 0 := reads_iff oneRec_complete

/-- The record is there and is not found. -/
theorem reads_fails : Complete oneRec 1 ∧ ¬GorecRight oneRec 1 [] :=
  ⟨oneRec_complete, fun h => (gorecRight_iff oneRec_complete).mp h rfl⟩

end Db3w.Fio
