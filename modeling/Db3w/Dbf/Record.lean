/-
Records of an open table. The current record is in a buffer; it is written to the file as a whole,
or its first byte alone, which at once tells whether the record is valid, deleted or part of a
transaction. Before an update the record is copied to a second buffer and, in a transaction,
appended to the log of the table.

One session works on the table, so that every lock it asks for is granted; its locks are left out.
Indexes are a parameter: a state, the function that brings it up to date for a record, and the search
for a record in the index that controls the table.
-/
import Db3w.Dbf.Fio

namespace Db3w

def VAL_MKR : UInt8 := 32
def DEL_MKR : UInt8 := 42
def TRANS_MKR : UInt8 := 33

/-- A record: its first byte and its fields. -/
structure Rec where
  mark : UInt8
  data : List UInt8
  deriving DecidableEq, Repr

/-- Why a record is saved, `lock.mode`. -/
inductive SaveMode where
  | none | append | update | pack | delrcal
  deriving DecidableEq, Repr

/-- Errors of record commands; `index` is one that index code raises, `offEnd` stands for a loop that has left its list. -/
inductive DbErr where
  | outOfRange | transacExcl | invalidRec | dbread | rbkInval | memoCopy | offEnd | index
  deriving DecidableEq, Repr

/-- What commands on records ask of the indexes: the loop of `updndx`, with the flags of the table, whether an old key is
removed, the record, its fields before and now; the search of `go` for a record in the controlling index; and whether a
filter hides a record, by its fields. -/
structure UpdNdx (σ : Type) where
  update : Bool → Bool → Bool → Nat → List UInt8 → List UInt8 → σ → Except DbErr σ
  locate : Nat → List UInt8 → σ → Except DbErr σ
  hidden : Nat → List UInt8 → Bool

/-- A table in use, with its file and indexes. `rbkRecno` and `rbkBuf` are the copy of the record that
is being updated, `log` the transaction log of the table when there is one, oldest entry first. -/
structure Tbl (σ : Type) where
  byprec : Nat
  reccnt : Nat
  disk : Nat → Rec
  buf : Rec
  crntrec : Nat
  eof : Bool
  tof : Bool
  mode : SaveMode
  rbkRecno : Nat
  rbkBuf : Rec
  log : Option (List (Nat × Rec))
  indexActive : Bool
  ndx : σ

/-- Indexes that are never changed. -/
def noUpd : UpdNdx Unit := ⟨fun _ _ _ _ _ _ s => .ok s, fun _ _ s => .ok s, fun _ _ => false⟩

variable {σ : Type}

/-- `etof(0)`. -/
def Tbl.etof (t : Tbl σ) : Bool := t.eof || t.tof

def Tbl.isdelete (t : Tbl σ) : Bool := t.buf.mark = DEL_MKR

/-- `valid_chk` of a table in use. -/
def validChk (t : Tbl σ) : Except DbErr Unit := if !t.etof ∧ t.reccnt ≠ 0 ∧ t.crntrec = 0 then .error .outOfRange else .ok ()

/-- The count of `dbread` is not the size of a record when that is a multiple of the size of its pieces. -/
def Tbl.readable (t : Tbl σ) : Prop := t.byprec % Fio.IOBUFSIZE ≠ 0

instance (t : Tbl σ) : Decidable t.readable := inferInstanceAs (Decidable (_ ≠ _))

/-- `gorec`: a record after the last one is blank. -/
def gorec (recno : Nat) (t : Tbl σ) : Except DbErr (Tbl σ) :=
  if recno = 0 then .ok t
  else if recno ≤ t.reccnt then
    if t.readable then .ok { t with buf := t.disk recno, crntrec := recno } else .error .dbread
  else .ok { t with buf := ⟨32, List.replicate (t.byprec - 1) 32⟩, crntrec := recno }

/-- `go` to a record that is there. -/
def go (upd : UpdNdx σ) (recno : Nat) (t : Tbl σ) : Except DbErr (Tbl σ) := do
  let t ← gorec recno { t with eof := false, tof := false }
  if upd.hidden recno t.buf.data then return { t with eof := true, crntrec := t.reccnt + 1 }
  if t.indexActive then return { t with ndx := ← upd.locate recno t.buf.data t.ndx }
  return t

/-- `updndx`, which goes to the current record again. -/
def Tbl.updndx (upd : UpdNdx σ) (del : Bool) (t : Tbl σ) : Except DbErr (Tbl σ) := do
  let t := { t with ndx := ← upd.update t.eof t.tof del t.crntrec t.rbkBuf.data t.buf.data t.ndx }
  if t.crntrec ≤ t.reccnt then go upd t.crntrec t else return t

/-- `write_rec`. -/
def writeRec (markOnly : Bool) (t : Tbl σ) : Tbl σ :=
  { t with disk := Function.update t.disk t.crntrec (if markOnly then { t.disk t.crntrec with mark := t.buf.mark } else t.buf) }

/-- `save_rec`. A record marked by a transaction stays so for all the tries that are made. -/
def saveRec (mode : SaveMode) (t : Tbl σ) : Except DbErr (Tbl σ) :=
  if mode = .update then
    if t.etof then .error .outOfRange
    else if t.buf.mark = TRANS_MKR then .error .transacExcl
    else if t.buf.mark ≠ VAL_MKR then .error .invalidRec
    else
      let t := { t with rbkBuf := t.buf, rbkRecno := t.crntrec }
      match t.log with
      | none => .ok { t with mode }
      | some log => .ok { writeRec true { t with log := some (log ++ [(t.crntrec, t.buf)]), buf := { t.buf with mark := TRANS_MKR } } with mode }
  else .ok { t with mode }

/-- The bytes of a field. -/
structure Store where
  offset : Nat
  bytes : List UInt8
  deriving DecidableEq, Repr

/-- The fields of a record with one of them replaced. -/
def Store.put (s : Store) (data : List UInt8) : List UInt8 :=
  data.take s.offset ++ s.bytes ++ data.drop (s.offset + s.bytes.length)

/-- `dbstore`. -/
def dbstore (s : Store) (t : Tbl σ) : Except DbErr (Tbl σ) :=
  if t.etof then .ok t
  else
    match if t.rbkRecno = t.crntrec then .ok t else saveRec .update t with
    | .error e => .error e
    | .ok t => .ok { t with buf := { t.buf with data := s.put t.buf.data } }

/-- `store_rec`. -/
def storeRec (upd : UpdNdx σ) (t : Tbl σ) : Except DbErr (Tbl σ) :=
  let mode := t.mode
  let t := writeRec false t
  let t := if mode = .append then { t with reccnt := t.reccnt + 1, mode := .none } else t
  if mode = .pack then .ok t
  else
    let t := if mode = .update then { t with rbkRecno := 0 } else t
    if (mode = .append ∨ t.buf.data ≠ t.rbkBuf.data) ∧ t.indexActive then t.updndx upd (mode = .update) else .ok t

/-- `del_recall`. -/
def delRecall (mark : UInt8) (t : Tbl σ) : Except DbErr (Tbl σ) := do
  validChk t
  if !t.etof ∧ t.buf.mark ≠ mark then
    let t ← saveRec .delrcal t
    return writeRec true { t with buf := { t.buf with mark } }
  else return t

/-- A record that is there is read when its size is no multiple of the pieces. -/
theorem gorec_of_le {t : Tbl σ} {recno : Nat} (h0 : recno ≠ 0) (hle : recno ≤ t.reccnt) :
    gorec recno t = if t.readable then .ok { t with buf := t.disk recno, crntrec := recno } else .error .dbread := by
  unfold gorec
  rw [if_neg h0, if_pos hle]

/-- So it is on the disk: a record that is in the file as a whole is found exactly then. -/
theorem gorec_fio {t : Tbl σ} {file : Fio.Table} (hsize : file.byprec = t.byprec) {recno : Nat} (h : Fio.Complete file recno) (hle : recno ≤ t.reccnt)
    (buf : List UInt8) : Fio.GorecRight file recno buf ↔ ∃ t', gorec recno t = .ok t' := by
  rw [Fio.gorecRight_iff h, hsize, gorec_of_le (Nat.ne_of_gt h.1) hle]
  change t.readable ↔ _
  split
  · rename_i hr
    exact iff_of_true hr ⟨_, rfl⟩
  · rename_i hr
    exact iff_of_false hr fun ⟨t', ht'⟩ => nomatch ht'

/-- The records of the table. -/
def Tbl.recs (t : Tbl σ) : List Rec := (List.range t.reccnt).map fun i => t.disk (i + 1)

end Db3w
