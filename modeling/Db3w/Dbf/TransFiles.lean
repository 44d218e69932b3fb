/-
The files of a transaction: the transaction file, named after the id, and one rollback file for each
table open for writing. START creates them, USE adds to them while a transaction is active, and
COMMIT, ROLLBACK and CANCEL remove them again. A rollback file is found again by the name of the table
and the id that is given, not by its descriptor.
-/
import Db3w.Hb.Names
import Db3w.Lib.Runs
import Db3w.Dbf.Texts

namespace Db3w.TransFiles

def FULFNLEN : Nat := 1024
def EXTLEN : Nat := 3
def TRANSID_LEN : Nat := VNAMELEN
def TRANS_DIR : Str := "transactions".toList

/-- The errors of the transaction commands; `record` stands for those of the loops over records. -/
inductive TransErr where
  | nameTooLong | mkdirFailed | dbOpen | alrdyOn | exist | notFound | noEnd | fail | noRbk | dbReadonly | dbWrite | noCtx | stillOpen | record
  deriving DecidableEq, Repr

/-- A character of an identifier. -/
def IdChar (c : Char) : Prop := c.isAlphanum = true ∨ c = '_'

instance (c : Char) : Decidable (IdChar c) := inferInstanceAs (Decidable (_ ∨ _))

/-- The name a transaction is started with: a token `TID`. -/
structure Ident where
  chars : Str
  nonempty : chars ≠ []
  idChars : ∀ c ∈ chars, IdChar c

/-- What a context knows of its table and the rollback file. -/
structure RbkCtx where
  /-- `dbfctl.filename` of an open table. -/
  filename : Option Str
  readonly : Bool
  /-- `rbkctl.fd`, by the path it was opened at. -/
  rbkFd : Option Str
  /-- `rbkctl.recno`. -/
  recno : Nat
  deriving DecidableEq, Repr

def RbkCtx.closed : RbkCtx := ⟨none, false, none, 0⟩

/-- The active id, the files and the contexts. -/
structure TransSt where
  transId : Str
  files : Str → Option Str
  ctx : CtxId → RbkCtx

/-- The contexts that the loops over `table_ctx` go through: all but `AUX`. -/
def workCtx : List CtxId := (List.finRange MAXCTX).map Fin.castSucc

/-! ## Names of files -/

/-- `strrchr(s, '.')`: the text before the last point and the text from it. -/
def strrchrDot : Str → Option (Str × Str)
  | [] => none
  | c :: s =>
    match strrchrDot s with
    | some (a, b) => some (c :: a, b)
    | none => if c = '.' then some ([], c :: s) else none

/-- `form_rbk_fn`. -/
def formRbkFn (tid basefn : Str) : Option Str :=
  let stem := match strrchrDot basefn with
    | some (a, _) => a
    | none => basefn
  if stem.length + 1 + tid.length + 1 + EXTLEN > FULFNLEN then none
  else
    let rbkfn := stem ++ '.' :: tid
    match strrchrDot rbkfn with
    | some (a, b) => some (a ++ chgcase b ++ ".rbk".toList)
    | none => some rbkfn

/-- `transaction_get_path`. -/
def transactionGetPath (rootpath tid : Str) : Option Str :=
  if rootpath.length + 1 + TRANS_DIR.length + 1 + tid.length ≥ FULFNLEN then none
  else some (rootpath ++ '/' :: TRANS_DIR ++ '/' :: chgcase tid)

/-! ## Steps on the state -/

namespace TransSt

def setCtx (st : TransSt) (i : CtxId) (c : RbkCtx) : TransSt := { st with ctx := Function.update st.ctx i c }

/-- `unlink`. -/
def unlink (st : TransSt) (p : Str) : TransSt := { st with files := Function.update st.files p none }

/-- What is written to a file goes to its end. -/
def write (st : TransSt) (p : Str) (s : Str) : TransSt :=
  { st with files := Function.update st.files p ((st.files p).map (· ++ s)) }

/-- Closing the rollback file of a context; the record number is only reset with it. -/
def closeRbk (st : TransSt) (i : CtxId) : TransSt :=
  if (st.ctx i).rbkFd.isSome then st.setCtx i { st.ctx i with rbkFd := none, recno := 0 } else st

end TransSt

/-- A call that may fail: the error, if any, and the state it leaves. -/
abbrev Res := Option TransErr × TransSt

/-- `open` with `O_CREAT | O_EXCL`. -/
def openNew (can : Str → Bool) (p : Str) (st : TransSt) : Option TransSt :=
  if st.files p = none ∧ can p = true then some { st with files := Function.update st.files p (some []) } else none

/-- `rbk_open` with `NEW_FILE`, for the table `fn` of context `i`. -/
def rbkOpen (can : Str → Bool) (tid : Str) (i : CtxId) (fn : Str) (st : TransSt) : Res :=
  match formRbkFn tid fn with
  | none => (some .nameTooLong, st)
  | some p =>
    match openNew can p st with
    | none => (some .noRbk, st.setCtx i { st.ctx i with rbkFd := none })
    | some st => (none, st.setCtx i { st.ctx i with rbkFd := some p })

/-- `transaction_is_match`. -/
def transactionIsMatch (tid : Str) (st : TransSt) : Bool := namecmp tid st.transId tid.length TRANSID_LEN = 0

/-- The second loop of `transaction_cancel`. -/
def cancelLoop (tid : Str) : List CtxId → TransSt → Res
  | [], st => (none, st)
  | i :: is, st =>
    match (st.ctx i).filename with
    | none => cancelLoop tid is st
    | some fn =>
      match formRbkFn tid fn with
      | none => (some .nameTooLong, st.closeRbk i)
      | some p => cancelLoop tid is ((st.closeRbk i).unlink p)

/-- A table with a record that is being changed. -/
def Unstored (st : TransSt) (i : CtxId) : Prop :=
  (st.ctx i).filename ≠ none ∧ (st.ctx i).rbkFd ≠ none ∧ (st.ctx i).recno ≠ 0

instance (st : TransSt) (i : CtxId) : Decidable (Unstored st i) := inferInstanceAs (Decidable (_ ∧ _ ∧ _))

/-- The end of CANCEL and COMMIT: the transaction file goes, and no transaction is active. -/
def clear (rootpath tid : Str) (st : TransSt) : Res :=
  match transactionGetPath rootpath tid with
  | none => (some .nameTooLong, st)
  | some tp => (none, { st.unlink tp with transId := [] })

/-- `transaction_cancel`. -/
def transactionCancel (rootpath tid : Str) (st : TransSt) : Res :=
  if ¬transactionIsMatch tid st then (some .notFound, st)
  else if ∃ i ∈ workCtx, Unstored st i then (some .noEnd, st)
  else
    match cancelLoop tid workCtx st with
    | (some e, st) => (some e, st)
    | (none, st) => clear rootpath tid st

/-! ## START -/

/-- The loop of `transaction_start`, with the lines written to the stream of the transaction file. -/
def startLoop (can : Str → Bool) (tid : Str) : List CtxId → Str → TransSt → Option TransErr × Str × TransSt
  | [], lines, st => (none, lines, st)
  | i :: is, lines, st =>
    match (st.ctx i).filename with
    | none => startLoop can tid is lines st
    | some fn =>
      if (st.ctx i).readonly then startLoop can tid is lines st
      else
        match rbkOpen can tid i fn st with
        | (some e, st) => (some e, lines, st)
        | (none, st) => startLoop can tid is (lines ++ fn ++ ['\n']) st

/-- What the file system lets the session do. -/
structure FsPerm where
  /-- The directory of the transactions is there, or `mkdir` makes it. -/
  dirOk : Bool
  /-- A file can be created at the path. -/
  can : Str → Bool

/-- `transaction_start`. -/
def transactionStart (rootpath : Str) (fs : FsPerm) (tid : Str) (st : TransSt) : Res :=
  if st.transId ≠ [] then (some .alrdyOn, st)
  else if tid.length > TRANSID_LEN then (some .nameTooLong, st)
  else
    let st := { st with transId := chgcase tid }
    if ¬fs.dirOk then (some .mkdirFailed, st)
    else
      match transactionGetPath rootpath tid with
      | none => (some .nameTooLong, st)
      | some tp =>
        match openNew fs.can tp st with
        | none => (some (if (st.files tp).isSome then .exist else .dbOpen), st)
        | some st =>
          match startLoop fs.can tid workCtx [] st with
          | (none, lines, st) => (none, st.write tp lines)
          -- an id that makes a name too long is reported from within the loop
          | (some .nameTooLong, _, st) => (some .nameTooLong, st)
          | (some _, lines, st) =>
            match transactionCancel rootpath tid (st.write tp lines) with
            | (some e, st) => (some e, st)
            | (none, st) => (some .fail, st)

/-! ## COMMIT -/

/-- The loop of `transaction_commit`; `recs i` tells whether the loop over the records of table `i` comes to its end. -/
def commitLoop (recs : CtxId → Bool) (tid : Str) : List CtxId → TransSt → Res
  | [], st => (none, st)
  | i :: is, st =>
    match (st.ctx i).filename with
    | none => commitLoop recs tid is st
    | some fn =>
      if (st.ctx i).rbkFd = none then commitLoop recs tid is st
      else if ¬recs i then (some .record, st)
      else
        match formRbkFn tid fn with
        | none => (some .nameTooLong, st.closeRbk i)
        | some p => commitLoop recs tid is ((st.closeRbk i).unlink p)

/-- `transaction_commit`. -/
def transactionCommit (rootpath : Str) (recs : CtxId → Bool) (tid : Str) (st : TransSt) : Res :=
  if ¬transactionIsMatch tid st then (some .notFound, st)
  else
    match commitLoop recs tid workCtx st with
    | (some e, st) => (some e, st)
    | (none, st) => clear rootpath tid st

/-! ## Identifiers and the names made of them -/

theorem idChar_iff {c : Char} : IdChar c ↔ (48 ≤ c.toNat ∧ c.toNat ≤ 57) ∨ (65 ≤ c.toNat ∧ c.toNat ≤ 90) ∨
    (97 ≤ c.toNat ∧ c.toNat ≤ 122) ∨ c.toNat = 95 := by
  have hle (a b : Char) : a.val ≤ b.val ↔ a.toNat ≤ b.toNat := UInt32.le_iff_toNat_le
  have h : IdChar c ↔ ((('A'.val ≤ c.val ∧ c.val ≤ 'Z'.val) ∨ 'a'.val ≤ c.val ∧ c.val ≤ 'z'.val) ∨ '0'.val ≤ c.val ∧ c.val ≤ '9'.val) ∨
      c.toNat = '_'.toNat := by
    have hcls : c.isAlphanum = ((decide ('A'.val ≤ c.val ∧ c.val ≤ 'Z'.val) || decide ('a'.val ≤ c.val) && decide (c.val ≤ 'z'.val)) ||
        decide ('0'.val ≤ c.val) && decide (c.val ≤ '9'.val)) := rfl
    unfold IdChar
    rw [hcls, Char.toNat_inj]
    simp only [Bool.or_eq_true, Bool.and_eq_true, decide_eq_true_eq]
  rw [h, hle, hle, hle, hle, hle, hle]
  show (((65 ≤ c.toNat ∧ c.toNat ≤ 90) ∨ 97 ≤ c.toNat ∧ c.toNat ≤ 122) ∨ 48 ≤ c.toNat ∧ c.toNat ≤ 57) ∨ c.toNat = 95 ↔ _
  omega

/-- A text that only has characters of identifiers. -/
def IdStr (s : Str) : Prop := ∀ c ∈ s, IdChar c

instance (s : Str) : Decidable (IdStr s) := List.decidableBAll IdChar s

theorem idChar_toUpper {c : Char} : IdChar c.toUpper ↔ IdChar c := by
  rw [idChar_iff, idChar_iff, toNat_toUpper]
  split <;> omega

theorem idStr_chgcase {s : Str} : IdStr (chgcase s) ↔ IdStr s := by
  unfold IdStr chgcase
  rw [List.forall_mem_map]
  exact forall₂_congr fun c _ => idChar_toUpper

theorem IdStr.of_prefix {s t : Str} (h : IdStr t) (hp : s <+: t) : IdStr s := fun c hc => h c (hp.subset hc)

theorem IdStr.noDot {s : Str} (h : IdStr s) : '.' ∉ s := fun hd => absurd (h _ hd) (by decide)

theorem IdStr.noWild {s : Str} (h : IdStr s) : NoWild s := by
  intro c hc
  constructor
  · rintro rfl
    exact absurd (h _ hc) (by decide)
  · rintro rfl
    exact absurd (h _ hc) (by decide)

theorem IdStr.isStr {s : Str} (h : IdStr s) : IsStr s := fun hd => absurd (h _ hd) (by decide)

theorem strrchrDot_none {s : Str} (h : '.' ∉ s) : strrchrDot s = none := by
  induction s with
  | nil => rfl
  | cons c s ih =>
    rw [List.mem_cons, not_or] at h
    rw [strrchrDot, ih h.2]
    dsimp only
    rw [if_neg (Ne.symm h.1)]

theorem strrchrDot_append {t : Str} (h : '.' ∉ t) (a : Str) : strrchrDot (a ++ '.' :: t) = some (a, '.' :: t) := by
  induction a with
  | nil =>
    rw [List.nil_append, strrchrDot, strrchrDot_none h]
    rfl
  | cons c a ih => rw [List.cons_append, strrchrDot, ih]

/-- The name of a table's file without its extension. -/
def stem (basefn : Str) : Str :=
  match strrchrDot basefn with
  | some (a, _) => a
  | none => basefn

theorem formRbkFn_eq {tid : Str} (h : '.' ∉ tid) (fn : Str) : formRbkFn tid fn =
    if (stem fn).length + 1 + tid.length + 1 + EXTLEN > FULFNLEN then none
    else some (stem fn ++ '.' :: chgcase tid ++ ".rbk".toList) := by
  have h1 : formRbkFn tid fn = if (stem fn).length + 1 + tid.length + 1 + EXTLEN > FULFNLEN then none
      else match strrchrDot (stem fn ++ '.' :: tid) with
        | some (a, b) => some (a ++ chgcase b ++ ".rbk".toList)
        | none => some (stem fn ++ '.' :: tid) := rfl
  rw [h1, strrchrDot_append h]
  rfl

/-- The case of the id makes no difference to the name of a rollback file. -/
theorem formRbkFn_congr {s t : Str} (hs : '.' ∉ s) (ht : '.' ∉ t) (h : chgcase s = chgcase t) : formRbkFn s = formRbkFn t := by
  have hl : s.length = t.length := by rw [← chgcase_length s, h, chgcase_length]
  funext fn
  rw [formRbkFn_eq hs, formRbkFn_eq ht, h, hl]

theorem transactionGetPath_congr {s t : Str} (h : chgcase s = chgcase t) (root : Str) :
    transactionGetPath root s = transactionGetPath root t := by
  have hl : s.length = t.length := by rw [← chgcase_length s, h, chgcase_length]
  unfold transactionGetPath
  rw [h, hl]

/-- No rollback file has the path of a transaction file. -/
theorem formRbkFn_ne_path {root s t fn p : Str} (ht : '.' ∉ t) (hp : formRbkFn t fn = some p) :
    transactionGetPath root s ≠ some p := by
  intro h
  rw [formRbkFn_eq ht] at hp
  unfold transactionGetPath at h
  split at hp
  · cases hp
  split at h
  · cases h
  have hlast : (stem fn ++ '.' :: chgcase t ++ ".rbk".toList).getLast? = (root ++ '/' :: TRANS_DIR ++ '/' :: chgcase s).getLast? :=
    congrArg List.getLast? ((Option.some.inj hp).trans (Option.some.inj h).symm)
  rw [List.getLast?_append, show ".rbk".toList.getLast? = some 'k' from rfl, Option.some_or,
    List.getLast?_append, List.getLast?_cons] at hlast
  cases hg : (chgcase s).getLast? with
  | none =>
    rw [hg] at hlast
    exact absurd (Option.some.inj hlast) (by decide)
  | some c =>
    rw [hg] at hlast
    -- the last letter of the id is written large, that of the extension small
    obtain rfl : c = 'k' := (Option.some.inj hlast).symm
    obtain ⟨d, -, hd⟩ := List.mem_map.mp (List.mem_of_getLast? hg)
    have hup := toUpper_toUpper d
    rw [hd] at hup
    exact absurd hup (by decide)

/-! ## The id that is active -/

/-- An id as it is kept: of characters of identifiers, in capitals. -/
structure KeptId (s : Str) : Prop where
  idStr : IdStr s
  upper : chgcase s = s

theorem Ident.kept (t : Ident) : KeptId (chgcase t.chars) := ⟨idStr_chgcase.mpr t.idChars, chgcase_chgcase _⟩

theorem KeptId.nil : KeptId [] := ⟨fun _ h => absurd h List.not_mem_nil, rfl⟩

/-- The id that is given matches when it is a beginning of the active one. -/
theorem transactionIsMatch_iff {st : TransSt} (hid : KeptId st.transId) (s : CStr) :
    transactionIsMatch s.chars st = true ↔ chgcase s.chars <+: st.transId := by
  unfold transactionIsMatch namecmp
  rw [if_neg fun h => absurd h.1 (by decide), decide_eq_true_iff, namecmpLoop_prefix s.isStr (by decide) (by decide), hid.upper]
  constructor
  · rintro ⟨-, h⟩
    exact h
  · intro h
    exact ⟨(idStr_chgcase.mp (hid.idStr.of_prefix h)).noWild, h⟩

theorem idStr_of_match {st : TransSt} (hid : KeptId st.transId) {s : CStr} (h : transactionIsMatch s.chars st = true) :
    IdStr s.chars := idStr_chgcase.mp (hid.idStr.of_prefix ((transactionIsMatch_iff hid s).mp h))

/-! ## Closing and removing rollback files -/

/-- The rollback file of a table that is open. -/
def rbkPath (st : TransSt) (tid : Str) (i : CtxId) : Option Str := (st.ctx i).filename.bind (formRbkFn tid)

/-- A table that has its rollback file open. -/
def Held (st : TransSt) (i : CtxId) : Prop := (st.ctx i).filename ≠ none ∧ (st.ctx i).rbkFd ≠ none

instance (st : TransSt) (i : CtxId) : Decidable (Held st i) := inferInstanceAs (Decidable (_ ∧ _))

theorem rbkPath_some {st : TransSt} {tid : Str} {i : CtxId} {fn : Str} (h : (st.ctx i).filename = some fn) :
    rbkPath st tid i = formRbkFn tid fn := by
  unfold rbkPath
  rw [h, Option.bind_some]

theorem filename_of_rbkPath {st : TransSt} {tid : Str} {i : CtxId} {p : Str} (h : rbkPath st tid i = some p) :
    (st.ctx i).filename ≠ none := by
  intro hn
  unfold rbkPath at h
  rw [hn] at h
  cases h

/-- The tables of `A` have their rollback files closed and removed. -/
structure Swept (tid : Str) (A : Set CtxId) (st st' : TransSt) : Prop where
  transId : st'.transId = st.transId
  filename : ∀ i, (st'.ctx i).filename = (st.ctx i).filename
  fd_mem : ∀ i ∈ A, (st'.ctx i).rbkFd = none
  ctx_notMem : ∀ i ∉ A, st'.ctx i = st.ctx i
  file_mem : ∀ i ∈ A, ∀ p, rbkPath st tid i = some p → st'.files p = none
  file_notMem : ∀ p, (∀ i ∈ A, rbkPath st tid i ≠ some p) → st'.files p = st.files p

section Sweep

variable {tid : Str} {A B : Set CtxId} {st st₁ st₂ : TransSt}

theorem Swept.rbkPath_eq (h : Swept tid A st st₁) (t : Str) (i : CtxId) : rbkPath st₁ t i = rbkPath st t i := by
  unfold rbkPath
  rw [h.filename]

theorem Swept.refl : Swept tid ∅ st st where
  transId := rfl
  filename _ := rfl
  fd_mem _ h := h.elim
  ctx_notMem _ _ := rfl
  file_mem _ h := h.elim
  file_notMem _ _ := rfl

theorem Swept.trans (h₁ : Swept tid A st st₁) (h₂ : Swept tid B st₁ st₂) : Swept tid (A ∪ B) st st₂ where
  transId := h₂.transId.trans h₁.transId
  filename i := (h₂.filename i).trans (h₁.filename i)
  fd_mem i hi := by
    by_cases hB : i ∈ B
    · exact h₂.fd_mem i hB
    · rw [h₂.ctx_notMem i hB]
      exact h₁.fd_mem i (hi.resolve_right hB)
  ctx_notMem i hi := by
    rw [Set.mem_union, not_or] at hi
    rw [h₂.ctx_notMem i hi.2, h₁.ctx_notMem i hi.1]
  file_mem i hi p hp := by
    by_cases hB : ∃ j ∈ B, rbkPath st₁ tid j = some p
    · obtain ⟨j, hj, hjp⟩ := hB
      exact h₂.file_mem j hj p hjp
    · rw [h₂.file_notMem p fun j hj hjp => hB ⟨j, hj, hjp⟩]
      refine hi.elim (fun hA => h₁.file_mem i hA p hp) fun hB' => absurd ⟨i, hB', ?_⟩ hB
      rwa [h₁.rbkPath_eq]
  file_notMem p hp := by
    rw [h₂.file_notMem p fun i hi => by rw [h₁.rbkPath_eq]; exact hp i (.inr hi), h₁.file_notMem p fun i hi => hp i (.inl hi)]

theorem closeRbk_ctx (st : TransSt) (i : CtxId) : ((st.closeRbk i).ctx i).filename = (st.ctx i).filename ∧
    ((st.closeRbk i).ctx i).rbkFd = none ∧ (∀ j, j ≠ i → (st.closeRbk i).ctx j = st.ctx j) ∧
    (st.closeRbk i).transId = st.transId ∧ (st.closeRbk i).files = st.files := by
  unfold TransSt.closeRbk
  split
  · simp +contextual [TransSt.setCtx]
  · rename_i h
    exact ⟨rfl, by simpa using h, fun _ _ => rfl, rfl, rfl⟩

theorem closeRbk_filename (st : TransSt) (i j : CtxId) : ((st.closeRbk i).ctx j).filename = (st.ctx j).filename := by
  obtain ⟨hfn, -, hj, -, -⟩ := closeRbk_ctx st i
  by_cases h : j = i
  · rw [h, hfn]
  · rw [hj j h]

/-- One table of the loops. -/
theorem Swept.single {i : CtxId} {p : Str} (hp : rbkPath st tid i = some p) : Swept tid {i} st ((st.closeRbk i).unlink p) := by
  obtain ⟨-, hfd, hj, hid, hfiles⟩ := closeRbk_ctx st i
  constructor
  case transId => exact hid
  case filename => exact closeRbk_filename st i
  case fd_mem =>
    rintro _ rfl
    exact hfd
  case ctx_notMem => exact fun j hji => hj j hji
  case file_mem =>
    rintro _ rfl q hq
    obtain rfl : p = q := Option.some.inj (hp.symm.trans hq)
    exact Function.update_self ..
  case file_notMem =>
    intro q hq
    have hne : q ≠ p := by
      rintro rfl
      exact hq i rfl hp
    exact (Function.update_of_ne hne _ _).trans (congrFun hfiles q)

/-- The loop of CANCEL sweeps all open tables, if the names of their rollback files can be made. -/
theorem cancelLoop_spec (tid : Str) (is : List CtxId) (st : TransSt) :
    ((∃ i ∈ is, (st.ctx i).filename ≠ none ∧ rbkPath st tid i = none) ∧
      ∃ st', cancelLoop tid is st = (some .nameTooLong, st') ∧ st'.transId = st.transId) ∨
    (∀ i ∈ is, (st.ctx i).filename ≠ none → rbkPath st tid i ≠ none) ∧
      ∃ st', cancelLoop tid is st = (none, st') ∧ Swept tid {i | i ∈ is ∧ (st.ctx i).filename ≠ none} st st' := by
  induction is generalizing st with
  | nil =>
    refine .inr ⟨fun _ h => absurd h List.not_mem_nil, st, rfl, ?_⟩
    convert Swept.refl using 1
    simp
  | cons i is ih =>
    rw [cancelLoop]
    cases hfn : (st.ctx i).filename with
    | none =>
      dsimp only
      rcases ih st with ⟨⟨j, hj, hbad⟩, hr⟩ | ⟨hok, st', hr, hs⟩
      · exact .inl ⟨⟨j, List.mem_cons_of_mem _ hj, hbad⟩, hr⟩
      · refine .inr ⟨?_, st', hr, ?_⟩
        · rintro j hj hne
          rcases List.mem_cons.mp hj with rfl | hj
          · exact absurd hfn hne
          · exact hok j hj hne
        · convert hs using 1
          ext j
          simp only [List.mem_cons, Set.mem_ofPred_eq]
          constructor
          · rintro ⟨rfl | hj, hne⟩
            · exact absurd hfn hne
            · exact ⟨hj, hne⟩
          · rintro ⟨hj, hne⟩
            exact ⟨.inr hj, hne⟩
    | some fn =>
      dsimp only
      have hin : (st.ctx i).filename ≠ none := by simp [hfn]
      rw [← rbkPath_some hfn]
      cases hp : rbkPath st tid i with
      | none =>
        exact .inl ⟨⟨i, List.mem_cons_self, hin, hp⟩, _, rfl, (closeRbk_ctx st i).2.2.2.1⟩
      | some p =>
        dsimp only
        have h₁ := Swept.single hp
        rcases ih ((st.closeRbk i).unlink p) with ⟨⟨j, hj, hbad⟩, st', hr, hid⟩ | ⟨hok, st', hr, hs⟩
        · rw [h₁.filename, h₁.rbkPath_eq] at hbad
          exact .inl ⟨⟨j, List.mem_cons_of_mem _ hj, hbad⟩, st', hr, hid.trans h₁.transId⟩
        · refine .inr ⟨?_, st', hr, ?_⟩
          · intro j hj hne
            rcases List.mem_cons.mp hj with rfl | hj
            · simp [hp]
            · have := hok j hj
              rw [h₁.filename, h₁.rbkPath_eq] at this
              exact this hne
          · convert h₁.trans hs using 1
            ext j
            simp only [List.mem_cons, Set.mem_ofPred_eq, Set.mem_union, Set.mem_singleton_iff, h₁.filename]
            constructor
            · rintro ⟨rfl | hj, hne⟩
              · exact .inl rfl
              · exact .inr ⟨hj, hne⟩
            · rintro (rfl | ⟨hj, hne⟩)
              · exact ⟨.inl rfl, hin⟩
              · exact ⟨.inr hj, hne⟩

end Sweep

/-- What CANCEL does: it is refused, it stops on the way with the id left, or all is swept. -/
inductive CancelPost (rootpath : Str) (tid : Str) (st : TransSt) : Res → Prop where
  | notFound (h : transactionIsMatch tid st = false) : CancelPost rootpath tid st (some .notFound, st)
  | noEnd (hm : transactionIsMatch tid st = true) (h : ∃ i ∈ workCtx, Unstored st i) : CancelPost rootpath tid st (some .noEnd, st)
  | tooLong (hm : transactionIsMatch tid st = true)
      (h : (∃ i ∈ workCtx, (st.ctx i).filename ≠ none ∧ rbkPath st tid i = none) ∨ transactionGetPath rootpath tid = none) {st' : TransSt}
      (hid : st'.transId = st.transId) : CancelPost rootpath tid st (some .nameTooLong, st')
  | done (hm : transactionIsMatch tid st = true) (hstored : ∀ i ∈ workCtx, ¬Unstored st i)
      (hname : ∀ i ∈ workCtx, (st.ctx i).filename ≠ none → rbkPath st tid i ≠ none) {tp : Str}
      (htp : transactionGetPath rootpath tid = some tp) {st' : TransSt}
      (hs : Swept tid {i | i ∈ workCtx ∧ (st.ctx i).filename ≠ none} st st') :
      CancelPost rootpath tid st (none, { st'.unlink tp with transId := [] })

theorem transactionCancel_post (rootpath tid : Str) (st : TransSt) : CancelPost rootpath tid st (transactionCancel rootpath tid st) := by
  unfold transactionCancel
  cases hm : transactionIsMatch tid st with
  | false => exact .notFound hm
  | true =>
    rw [if_neg (not_not.mpr rfl)]
    split
    · rename_i h
      exact .noEnd hm h
    rename_i h
    push Not at h
    rcases cancelLoop_spec tid workCtx st with ⟨hbad, st', hr, hid⟩ | ⟨hname, st', hr, hs⟩
    · rw [hr]
      exact .tooLong hm (.inl hbad) hid
    · rw [hr]
      dsimp only
      unfold clear
      cases htp : transactionGetPath rootpath tid with
      | none => exact .tooLong hm (.inr htp) hs.transId
      | some tp => exact .done hm h hname htp hs

end Db3w.TransFiles
