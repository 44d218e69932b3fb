/-
The end of a transaction. COMMIT, ROLLBACK and CANCEL accept every beginning of the active id, also the
empty one, and make file names of what they are given. COMMIT only looks for the rollback files of
tables that have theirs open; a table that was closed and opened again read-only keeps its file.
-/
import Db3w.Dbf.TransFiles
import Db3w.Dbf.TransStart

namespace Db3w.TransFiles

/-! ## What a session does besides -/

/-- `cleandb`: the table is closed, and its rollback file stays. -/
def cleandb (i : CtxId) (st : TransSt) : TransSt :=
  if (st.ctx i).filename = none then st else st.setCtx i .closed

/-- `transaction_add_table`. -/
def transactionAddTable (rootpath tblPath : Str) (addOk : Bool) (st : TransSt) : Res :=
  match transactionGetPath rootpath st.transId with
  | none => (some .nameTooLong, st)
  | some tp =>
    if ¬addOk then (some .dbOpen, st)
    else (none, { st with files := Function.update st.files tp (some ((st.files tp).getD [] ++ tblPath ++ ['\n'])) })

/-- `opendb`, as to rollback files: the table is open, and its record number reset. -/
def opendb (rootpath : Str) (can : Str → Bool) (addOk : Bool) (i : CtxId) (fn : Str) (readonly : Bool) (st : TransSt) : Res :=
  let st := st.setCtx i { st.ctx i with filename := some fn, readonly := readonly }
  let reset (st : TransSt) : TransSt := if i = Fin.last MAXCTX then st else st.setCtx i { st.ctx i with recno := 0 }
  if readonly = true ∨ st.transId = [] then (none, reset st)
  else
    match rbkOpen can st.transId i fn st with
    | (some e, st) => (some e, st)
    | (none, st) =>
      match transactionAddTable rootpath fn addOk st with
      | (some e, st) => (some e, st)
      | (none, st) => (none, reset st)

/-- `use`; the table is closed again after an error of the tables. -/
def use (rootpath : Str) (can : Str → Bool) (addOk : Bool) (i : CtxId) (fn : Str) (readonly : Bool) (st : TransSt) : Res :=
  if st.transId ≠ [] ∧ Held st i ∧ (st.ctx i).recno > 0 then (some .noEnd, st)
  else
    match opendb rootpath can addOk i fn readonly (cleandb i st) with
    | (some .nameTooLong, st) => (some .nameTooLong, st)
    | (some e, st) => (some e, cleandb i st)
    | (none, st) => (none, st)

/-- `save_rec(R_UPDATE)` for record `recno`, as to rollback files: the record is written to the open one. -/
def saveRec (i : CtxId) (recno : Nat) (image : Str) (st : TransSt) : Res :=
  if (st.ctx i).filename = none then (some .dbOpen, st)
  else if (st.ctx i).readonly then (some .dbReadonly, st)
  else
    let st := st.setCtx i { st.ctx i with recno := recno }
    if st.transId = [] then (none, st)
    else
      match (st.ctx i).rbkFd with
      | none => (some .dbWrite, st)
      | some p => (none, st.write p image)

/-- `store_rec`, as to rollback files. -/
def storeRec (i : CtxId) (st : TransSt) : TransSt := st.setCtx i { st.ctx i with recno := 0 }

/-! ## ROLLBACK -/

/-- The loop of `transaction_rollback` over the tables of an active transaction; `recs i` tells whether the loop over the records of
table `i` comes to its end. -/
def rollbackLoop (recs : CtxId → Bool) : List CtxId → TransSt → Res
  | [], st => (none, st)
  | i :: is, st =>
    if (st.ctx i).filename = none ∨ (st.ctx i).rbkFd = none then rollbackLoop recs is st
    else if ¬recs i then (some .record, st)
    else rollbackLoop recs is (st.closeRbk i)

/-- What becomes of the tables when a transaction is recovered: whether they can be opened, and the loop over their records. -/
structure Recovery where
  readonly : Bool
  useOk : Str → Bool
  recs : Str → Bool

/-- The loop of `transaction_rollback` over the lines of the transaction file, in context `i`. -/
def recoverLoop (rootpath : Str) (rc : Recovery) (tid : Str) (i : CtxId) : List Str → TransSt → Res
  | [], st => (none, st)
  | fn :: fns, st =>
    if workCtx.any fun j => (st.ctx j).filename == some fn then (some .stillOpen, st)
    else if ¬rc.useOk fn then (some .dbOpen, cleandb i st)
    else
      -- no transaction is active, so no rollback file is made
      match use rootpath (fun _ => false) false i fn rc.readonly st with
      | (some e, st) => (some e, st)
      | (none, st) =>
        match formRbkFn tid fn with
        | none => (some .nameTooLong, st)
        | some p =>
          if st.files p = none then (some .noRbk, st.setCtx i { st.ctx i with rbkFd := none })
          else
            let st := st.setCtx i { st.ctx i with rbkFd := some p }
            if ¬rc.recs fn then (some .record, st) else recoverLoop rootpath rc tid i fns (st.closeRbk i)

/-- What `fgets` makes of a text, without the newlines. -/
def fileLines (s : Str) : List Str :=
  let l := s.splitOn '\n'
  if l.getLast? = some [] then l.dropLast else l

/-- `transaction_rollback` while no transaction is active. -/
def recover (rootpath : Str) (rc : Recovery) (tid : Str) (st : TransSt) : Res :=
  match transactionGetPath rootpath tid with
  | none => (some .nameTooLong, st)
  | some tp =>
    match st.files tp with
    | none => (some .notFound, st)
    | some content =>
      match workCtx.find? fun i => (st.ctx i).filename = none with
      | none => (some .noCtx, st)
      | some i => recoverLoop rootpath rc tid i (fileLines content) st

/-- `transaction_rollback`. -/
def transactionRollback (rootpath : Str) (recs : CtxId → Bool) (rc : Recovery) (tid : Str) (st : TransSt) : Res :=
  if st.transId ≠ [] ∧ ¬transactionIsMatch tid st then (some .notFound, st)
  else
    match if st.transId ≠ [] then rollbackLoop recs workCtx st else recover rootpath rc tid st with
    | (some e, st) => (some e, st)
    | (none, st) =>
      if tid.length > TRANSID_LEN then (some .nameTooLong, st)
      else transactionCancel rootpath tid { st with transId := chgcase tid }

/-! ## Runs of a session -/

/-- The commands of a session that have to do with rollback files. -/
inductive TransOp where
  | start (fs : FsPerm) (t : Ident)
  | commit (recs : CtxId → Bool) (s : CStr)
  | rollback (recs : CtxId → Bool) (rc : Recovery) (s : CStr)
  | cancel (s : CStr)
  | use (can : Str → Bool) (addOk : Bool) (i : CtxId) (fn : Str) (readonly : Bool)
  | close (i : CtxId)
  | save (i : CtxId) (recno : Nat) (image : Str)
  | store (i : CtxId)

def opRun (rootpath : Str) (st : TransSt) : TransOp → Res
  | .start fs t => transactionStart rootpath fs t.chars st
  | .commit recs s => transactionCommit rootpath recs s.chars st
  | .rollback recs rc s =>
    -- only the token of an identifier asks for a transaction that is not active; there is no file of any other name
    if st.transId = [] ∧ ¬IdStr s.chars then (some .notFound, st) else transactionRollback rootpath recs rc s.chars st
  | .cancel s => transactionCancel rootpath s.chars st
  | .use can addOk i fn readonly => use rootpath can addOk i fn readonly st
  | .close i => (none, cleandb i st)
  | .save i recno image => saveRec i recno image st
  | .store i => (none, storeRec i st)

def opStep (rootpath : Str) (st : TransSt) (op : TransOp) : TransSt := (opRun rootpath st op).2

/-- The id given to a command that ends a transaction. -/
def TransOp.ends : TransOp → Option CStr
  | .commit _ s | .rollback _ _ s | .cancel s => some s
  | _ => none

/-- A session begins with no table open and no transaction; any files may be there. -/
def newSession (files : Str → Option Str) : TransSt := ⟨[], files, fun _ => .closed⟩

/-! ## The right end of a transaction -/

/-- No transaction is active, and there is no transaction file of the id and no rollback file of it for an open table. -/
structure Cleaned (rootpath tid : Str) (st : TransSt) : Prop where
  inactive : st.transId = []
  transFile : ∀ p, transactionGetPath rootpath tid = some p → st.files p = none
  rbkFile : ∀ i ∈ workCtx, ∀ p, rbkPath st tid i = some p → st.files p = none

/-- The id given is the active one but for case, or the command is refused and nothing changes; a command that succeeds cleans up. -/
structure EndRight (rootpath : Str) (s : CStr) (st : TransSt) (r : Res) : Prop where
  refused : chgcase s.chars ≠ chgcase st.transId → r = (some .notFound, st)
  cleaned : r.1 = none → Cleaned rootpath st.transId r.2

/-- A command is right if it does not end the active transaction, or ends it rightly. -/
def EndsRight (rootpath : Str) (st : TransSt) (op : TransOp) : Prop :=
  st.transId ≠ [] → ∀ s, op.ends = some s → EndRight rootpath s st (opRun rootpath st op)

/-- COMMIT comes to its end: the loops over the records do, and the names can be made. -/
def GoesThrough (rootpath : Str) (recs : CtxId → Bool) (st : TransSt) : Prop :=
  (∀ i ∈ workCtx, Held st i → recs i = true ∧ rbkPath st st.transId i ≠ none) ∧ transactionGetPath rootpath st.transId ≠ none

/-- The rollback files of open tables are those of the tables that have theirs open. -/
def NoStray (st : TransSt) : Prop :=
  ∀ i ∈ workCtx, ∀ p, rbkPath st st.transId i = some p → st.files p ≠ none →
    ∃ j ∈ workCtx, Held st j ∧ rbkPath st st.transId j = some p

/-- The id given is the active one or not even a beginning of it. -/
def NotShort (s : CStr) (st : TransSt) : Prop := chgcase s.chars <+: st.transId → chgcase s.chars = st.transId

/-- The condition under which a command ends the active transaction rightly. -/
def EndsWhen (rootpath : Str) (st : TransSt) (op : TransOp) : Prop :=
  st.transId ≠ [] →
    match op with
    | .commit recs s => NotShort s st ∧ (chgcase s.chars = st.transId → GoesThrough rootpath recs st → NoStray st)
    | .rollback _ _ s | .cancel s => NotShort s st
    | _ => True

/-! ## The loops of COMMIT and ROLLBACK -/

section Loops

variable {rootpath : Str} {recs : CtxId → Bool} {tid : Str} {st : TransSt}

theorem held_closeRbk {i j : CtxId} (h : j ≠ i) : Held (st.closeRbk i) j ↔ Held st j := by
  unfold Held
  rw [(closeRbk_ctx st i).2.2.1 j h]

theorem insert_held {i : CtxId} {is : List CtxId} (hi : Held st i) :
    {j | j ∈ i :: is ∧ Held st j} = {i} ∪ {j | j ∈ is ∧ Held st j} := by
  ext j
  simp only [List.mem_cons, Set.mem_ofPred_eq, Set.mem_union, Set.mem_singleton_iff]
  constructor
  · rintro ⟨rfl | hj, hh⟩
    · exact .inl rfl
    · exact .inr ⟨hj, hh⟩
  · rintro (rfl | ⟨hj, hh⟩)
    · exact ⟨.inl rfl, hi⟩
    · exact ⟨.inr hj, hh⟩

theorem skip_held {i : CtxId} {is : List CtxId} (hi : ¬Held st i) : {j | j ∈ i :: is ∧ Held st j} = {j | j ∈ is ∧ Held st j} := by
  ext j
  simp only [List.mem_cons, Set.mem_ofPred_eq]
  constructor
  · rintro ⟨rfl | hj, hh⟩
    · exact absurd hh hi
    · exact ⟨hj, hh⟩
  · rintro ⟨hj, hh⟩
    exact ⟨.inr hj, hh⟩

/-- The loop of COMMIT sweeps the tables that have their rollback files open, unless one of them stops it. -/
theorem commitLoop_spec (is : List CtxId) (hn : is.Nodup) (st : TransSt) :
    ((∃ i ∈ is, Held st i ∧ ¬(recs i = true ∧ rbkPath st tid i ≠ none)) ∧
      ∃ e st', commitLoop recs tid is st = (some e, st') ∧ e ≠ .notFound ∧ st'.transId = st.transId) ∨
    (∀ i ∈ is, Held st i → recs i = true ∧ rbkPath st tid i ≠ none) ∧
      ∃ st', commitLoop recs tid is st = (none, st') ∧ Swept tid {i | i ∈ is ∧ Held st i} st st' := by
  induction is generalizing st with
  | nil =>
    refine .inr ⟨fun _ h => absurd h List.not_mem_nil, st, rfl, ?_⟩
    convert Swept.refl using 1
    simp
  | cons i is ih =>
    obtain ⟨hi, hn⟩ := List.nodup_cons.mp hn
    have hskip : ¬Held st i → commitLoop recs tid (i :: is) st = commitLoop recs tid is st := by
      intro h
      rw [commitLoop]
      cases hfn : (st.ctx i).filename with
      | none => rfl
      | some fn =>
        dsimp only
        rw [if_pos]
        by_contra hfd
        exact h ⟨by simp [hfn], hfd⟩
    by_cases hh : Held st i
    swap
    · rw [hskip hh, skip_held hh]
      rcases ih hn st with ⟨⟨j, hj, hbad⟩, hr⟩ | ⟨hok, hr⟩
      · exact .inl ⟨⟨j, List.mem_cons_of_mem _ hj, hbad⟩, hr⟩
      · refine .inr ⟨fun j hj hj' => ?_, hr⟩
        rcases List.mem_cons.mp hj with rfl | hj
        · exact absurd hj' hh
        · exact hok j hj hj'
    rw [commitLoop]
    obtain ⟨fn, hfn⟩ := Option.ne_none_iff_exists'.mp hh.1
    rw [hfn]
    dsimp only
    rw [if_neg hh.2, ← rbkPath_some hfn]
    by_cases hrec : recs i = true
    swap
    · rw [if_pos hrec]
      exact .inl ⟨⟨i, List.mem_cons_self, hh, fun h => hrec h.1⟩, _, _, rfl, by decide, rfl⟩
    rw [if_neg (not_not.mpr hrec)]
    cases hp : rbkPath st tid i with
    | none => exact .inl ⟨⟨i, List.mem_cons_self, hh, fun h => h.2 hp⟩, _, _, rfl, by decide, (closeRbk_ctx st i).2.2.2.1⟩
    | some p =>
      dsimp only
      have h₁ := Swept.single hp
      -- the later tables are as they were
      have hheld : ∀ j ∈ is, Held ((st.closeRbk i).unlink p) j ↔ Held st j :=
        fun j hj => held_closeRbk fun h => hi (h ▸ hj)
      rcases ih hn ((st.closeRbk i).unlink p) with ⟨⟨j, hj, hjh, hbad⟩, e, st', hr, he, hid⟩ | ⟨hok, st', hr, hs⟩
      · rw [h₁.rbkPath_eq] at hbad
        exact .inl ⟨⟨j, List.mem_cons_of_mem _ hj, (hheld j hj).mp hjh, hbad⟩, e, st', hr, he, hid.trans h₁.transId⟩
      · refine .inr ⟨fun j hj hjh => ?_, st', hr, ?_⟩
        · rcases List.mem_cons.mp hj with rfl | hj
          · exact ⟨hrec, by simp [hp]⟩
          · rw [← h₁.rbkPath_eq]
            exact hok j hj ((hheld j hj).mpr hjh)
        · rw [insert_held hh]
          convert h₁.trans hs using 2
          ext j
          exact and_congr_right fun hj => (hheld j hj).symm

/-- The loop of ROLLBACK leaves no rollback file open, unless a record stops it. -/
theorem rollbackLoop_spec (recs : CtxId → Bool) (is : List CtxId) (st : TransSt) : ∃ e st', rollbackLoop recs is st = (e, st') ∧
    (e = some .record ∨ e = none ∧ ∀ i ∈ is, (st'.ctx i).filename ≠ none → (st'.ctx i).rbkFd = none) ∧
    st'.transId = st.transId ∧ st'.files = st.files ∧ (∀ i, (st'.ctx i).filename = (st.ctx i).filename) ∧
    ∀ i, (st.ctx i).rbkFd = none → (st'.ctx i).rbkFd = none := by
  induction is generalizing st with
  | nil => exact ⟨none, st, rfl, .inr ⟨rfl, fun _ h => absurd h List.not_mem_nil⟩, rfl, rfl, fun _ => rfl, fun _ h => h⟩
  | cons i is ih =>
    rw [rollbackLoop]
    by_cases hsk : (st.ctx i).filename = none ∨ (st.ctx i).rbkFd = none
    · rw [if_pos hsk]
      obtain ⟨e, st', hr, hend, hid, hf, hfn, hfd⟩ := ih st
      refine ⟨e, st', hr, hend.imp_right fun ⟨he, hall⟩ => ⟨he, fun j hj hne => ?_⟩, hid, hf, hfn, hfd⟩
      rcases List.mem_cons.mp hj with rfl | hj
      · rcases hsk with hsk | hsk
        · exact absurd ((hfn j).trans hsk) hne
        · exact hfd j hsk
      · exact hall j hj hne
    rw [if_neg hsk]
    by_cases hrec : recs i = true
    swap
    · rw [if_pos hrec]
      exact ⟨_, _, rfl, .inl rfl, rfl, rfl, fun _ => rfl, fun _ h => h⟩
    rw [if_neg (not_not.mpr hrec)]
    obtain ⟨-, hnone, hother, hid₁, hf₁⟩ := closeRbk_ctx st i
    obtain ⟨e, st', hr, hend, hid, hf, hfn, hfd⟩ := ih (st.closeRbk i)
    have hstay : ∀ j, (st.ctx j).rbkFd = none → (st'.ctx j).rbkFd = none := by
      intro j hj
      apply hfd
      by_cases hji : j = i
      · rw [hji]
        exact hnone
      · rw [hother j hji]
        exact hj
    refine ⟨e, st', hr, hend.imp_right fun ⟨he, hall⟩ => ⟨he, fun j hj hne => ?_⟩, hid.trans hid₁, hf.trans hf₁,
      fun j => (hfn j).trans (closeRbk_filename st i j), hstay⟩
    rcases List.mem_cons.mp hj with rfl | hj
    · exact hfd j hnone
    · exact hall j hj hne

end Loops

/-! ## One command -/

section Ends

variable {rootpath : Str} {recs : CtxId → Bool} {s : CStr} {st : TransSt} {r : Res}

/-- Once the id matches, what CANCEL does when it succeeds. -/
theorem CancelPost.cleaned {tid : Str} (h : CancelPost rootpath tid st r) (hr : r.1 = none) (hdot : '.' ∉ tid) : Cleaned rootpath tid r.2 := by
  cases h with
  | notFound => cases hr
  | noEnd => cases hr
  | tooLong => cases hr
  | @done _ _ _ tp htp st' hs =>
    constructor
    case inactive => rfl
    case transFile =>
      intro p hp
      obtain rfl : tp = p := Option.some.inj (htp.symm.trans hp)
      exact Function.update_self ..
    case rbkFile =>
      intro i hi p hp
      have hp' : rbkPath st' tid i = some p := hp
      have hin : (st.ctx i).filename ≠ none := by
        rw [← hs.filename]
        exact filename_of_rbkPath hp'
      obtain ⟨fn, hfn⟩ := Option.ne_none_iff_exists'.mp hin
      rw [hs.rbkPath_eq] at hp'
      have hne : p ≠ tp := by
        rintro rfl
        exact formRbkFn_ne_path hdot (by rw [← rbkPath_some hfn]; exact hp') htp
      exact (Function.update_of_ne hne _ _).trans (hs.file_mem i ⟨hi, hin⟩ p hp')

theorem CancelPost.ne_notFound {tid : Str} (h : CancelPost rootpath tid st r) (hm : transactionIsMatch tid st = true) :
    r.1 ≠ some .notFound := by
  cases h with
  | notFound h => rw [h] at hm; cases hm
  | noEnd => exact (fun h => by cases h)
  | tooLong => exact (fun h => by cases h)
  | done => exact (fun h => by cases h)

/-- The ids are one but for case. -/
theorem Cleaned.congr {s t : Str} (h : Cleaned rootpath s st) (hs : '.' ∉ s) (ht : '.' ∉ t) (heq : chgcase s = chgcase t) :
    Cleaned rootpath t st where
  inactive := h.inactive
  transFile p hp := h.transFile p (by rwa [transactionGetPath_congr heq])
  rbkFile i hi p hp := h.rbkFile i hi p (by
    unfold rbkPath at hp ⊢
    rwa [formRbkFn_congr hs ht heq])

/-- A command that is refused unless the id matches, and is not refused when it does. -/
theorem endRight_iff (hid : KeptId st.transId) (hrun : transactionIsMatch s.chars st = false → r = (some .notFound, st))
    (hne : transactionIsMatch s.chars st = true → r.1 ≠ some .notFound) : EndRight rootpath s st r ↔
      NotShort s st ∧ (chgcase s.chars = st.transId → r.1 = none → Cleaned rootpath st.transId r.2) := by
  have hmatch := transactionIsMatch_iff hid s
  constructor
  · intro h
    refine ⟨fun hp => ?_, fun _ => h.cleaned⟩
    by_contra hsne
    have hr := h.refused (by rwa [hid.upper])
    exact hne (hmatch.mpr hp) (by rw [hr])
  · rintro ⟨hshort, hclean⟩
    constructor
    case refused =>
      intro hsne
      rw [hid.upper] at hsne
      apply hrun
      rw [← Bool.not_eq_true]
      exact fun hm => hsne (hshort (hmatch.mp hm))
    case cleaned =>
      intro hr
      refine hclean ?_ hr
      -- what is not refused matches
      cases hm : transactionIsMatch s.chars st with
      | true => exact hshort (hmatch.mp hm)
      | false =>
        rw [hrun hm] at hr
        cases hr

theorem cancel_right_iff (hid : KeptId st.transId) : EndRight rootpath s st (transactionCancel rootpath s.chars st) ↔ NotShort s st := by
  have hpost := transactionCancel_post rootpath s.chars st
  have hrefuse : transactionIsMatch s.chars st = false → transactionCancel rootpath s.chars st = (some .notFound, st) := by
    intro hm
    unfold transactionCancel
    rw [if_pos (by simp [hm])]
  rw [endRight_iff hid hrefuse hpost.ne_notFound]
  refine and_iff_left fun heq hr => ?_
  have hs : IdStr s.chars := idStr_chgcase.mp (heq ▸ hid.idStr)
  exact (hpost.cleaned hr hs.noDot).congr hs.noDot hid.idStr.noDot (heq.trans hid.upper.symm)

/-- What ROLLBACK does of an active transaction: it is refused, stops on the way, or goes on as CANCEL. -/
theorem transactionRollback_post (rootpath : Str) (recs : CtxId → Bool) (rc : Recovery) (s : CStr) (hid : KeptId st.transId)
    (hact : st.transId ≠ []) :
    (transactionIsMatch s.chars st = false ∧ transactionRollback rootpath recs rc s.chars st = (some .notFound, st)) ∨
    (transactionIsMatch s.chars st = true ∧ ∃ e st', transactionRollback rootpath recs rc s.chars st = (some e, st') ∧ e ≠ .notFound ∧
      st'.transId = st.transId) ∨
    (transactionIsMatch s.chars st = true ∧ ∃ st', st'.transId = chgcase s.chars ∧ transactionIsMatch s.chars st' = true ∧
      transactionRollback rootpath recs rc s.chars st = transactionCancel rootpath s.chars st') := by
  unfold transactionRollback
  rw [if_pos hact]
  cases hm : transactionIsMatch s.chars st with
  | false => exact .inl ⟨rfl, by rw [if_pos ⟨hact, by simp⟩]⟩
  | true =>
    rw [if_neg fun h => h.2 rfl]
    refine .inr ?_
    obtain ⟨e, st₁, hl, hend, hid₁, -, -, -⟩ := rollbackLoop_spec recs workCtx st
    rw [hl]
    rcases hend with rfl | ⟨rfl, -⟩
    · exact .inl ⟨rfl, _, st₁, rfl, by decide, hid₁⟩
    dsimp only
    by_cases hlen : s.chars.length > TRANSID_LEN
    · rw [if_pos hlen]
      exact .inl ⟨rfl, _, st₁, rfl, by decide, hid₁⟩
    · rw [if_neg hlen]
      have hkept : KeptId (chgcase s.chars) := ⟨idStr_chgcase.mpr (idStr_of_match hid hm), chgcase_chgcase _⟩
      have hm' : transactionIsMatch s.chars { st₁ with transId := chgcase s.chars } = true :=
        (transactionIsMatch_iff hkept s).mpr (List.prefix_refl _)
      exact .inr ⟨rfl, _, rfl, hm', rfl⟩

theorem rollback_right_iff {rc : Recovery} (hid : KeptId st.transId) (hact : st.transId ≠ []) :
    EndRight rootpath s st (transactionRollback rootpath recs rc s.chars st) ↔ NotShort s st := by
  rcases transactionRollback_post rootpath recs rc s hid hact with ⟨hm, hr⟩ | ⟨hm, e, st', hr, he, -⟩ | ⟨hm, st', -, hm', hr⟩
  · rw [hr, endRight_iff hid (fun _ => rfl) (fun h => by rw [hm] at h; cases h)]
    exact and_iff_left fun _ h => by cases h
  · rw [hr, endRight_iff hid (fun h => by rw [hm] at h; cases h) fun _ h => he (Option.some.inj h)]
    exact and_iff_left fun _ h => by cases h
  · have hpost := transactionCancel_post rootpath s.chars st'
    rw [hr, endRight_iff hid (fun h => by rw [hm] at h; cases h) fun _ => hpost.ne_notFound hm']
    refine and_iff_left fun heq hr => ?_
    have hs : IdStr s.chars := idStr_chgcase.mp (heq ▸ hid.idStr)
    exact (hpost.cleaned hr hs.noDot).congr hs.noDot hid.idStr.noDot (heq.trans hid.upper.symm)

/-- What COMMIT does: it is refused, stops on the way, or sweeps the tables that have their rollback files open. -/
theorem transactionCommit_post (rootpath : Str) (recs : CtxId → Bool) (tid : Str) (st : TransSt) :
    (transactionIsMatch tid st = false ∧ transactionCommit rootpath recs tid st = (some .notFound, st)) ∨
    (transactionIsMatch tid st = true ∧
      ¬((∀ i ∈ workCtx, Held st i → recs i = true ∧ rbkPath st tid i ≠ none) ∧ transactionGetPath rootpath tid ≠ none) ∧
      ∃ e st', transactionCommit rootpath recs tid st = (some e, st') ∧ e ≠ .notFound ∧ st'.transId = st.transId) ∨
    (transactionIsMatch tid st = true ∧ (∀ i ∈ workCtx, Held st i → recs i = true ∧ rbkPath st tid i ≠ none) ∧
      ∃ tp st', transactionGetPath rootpath tid = some tp ∧ Swept tid {i | i ∈ workCtx ∧ Held st i} st st' ∧
        transactionCommit rootpath recs tid st = (none, { st'.unlink tp with transId := [] })) := by
  have hnodup : workCtx.Nodup := (List.nodup_finRange _).map (Fin.castSucc_injective _)
  unfold transactionCommit
  cases hm : transactionIsMatch tid st with
  | false => exact .inl ⟨rfl, by rw [if_pos (by simp)]⟩
  | true =>
    rw [if_neg (not_not.mpr rfl)]
    refine .inr ?_
    rcases commitLoop_spec workCtx hnodup st with ⟨⟨i, hi, hh, hbad⟩, e, st', hr, he, hid⟩ | ⟨hok, st', hr, hs⟩
    · rw [hr]
      exact .inl ⟨rfl, fun h => hbad (h.1 i hi hh), e, st', rfl, he, hid⟩
    · rw [hr]
      dsimp only
      unfold clear
      cases htp : transactionGetPath rootpath tid with
      | none => exact .inl ⟨rfl, fun h => h.2 rfl, _, st', rfl, by decide, hs.transId⟩
      | some tp => exact .inr ⟨rfl, hok, tp, st', rfl, hs, rfl⟩

theorem rbkPath_congr {t : Str} (hs : IdStr s.chars) (ht : IdStr t) (h : chgcase s.chars = chgcase t) (i : CtxId) :
    rbkPath st s.chars i = rbkPath st t i := by
  unfold rbkPath
  rw [formRbkFn_congr hs.noDot ht.noDot h]

theorem commit_right_iff (hid : KeptId st.transId) : EndRight rootpath s st (transactionCommit rootpath recs s.chars st) ↔
    NotShort s st ∧ (chgcase s.chars = st.transId → GoesThrough rootpath recs st → NoStray st) := by
  have hsame : chgcase s.chars = st.transId → IdStr s.chars ∧ (∀ i, rbkPath st s.chars i = rbkPath st st.transId i) ∧
      transactionGetPath rootpath s.chars = transactionGetPath rootpath st.transId := by
    intro heq
    have hs : IdStr s.chars := idStr_chgcase.mp (heq ▸ hid.idStr)
    have hup := heq.trans hid.upper.symm
    exact ⟨hs, rbkPath_congr hs hid.idStr hup, transactionGetPath_congr hup rootpath⟩
  rcases transactionCommit_post rootpath recs s.chars st with ⟨hm, hr⟩ | ⟨hm, hnot, e, st', hr, he, -⟩ | ⟨hm, hok, tp, st', htp, hs, hr⟩
  · rw [hr, endRight_iff hid (fun _ => rfl) (fun h => by rw [hm] at h; cases h)]
    refine and_congr_right fun _ => imp_congr_right fun heq => iff_of_true (fun h => by cases h) fun _ => ?_
    have hmt := (transactionIsMatch_iff hid s).mpr (by rw [heq])
    rw [hm] at hmt
    cases hmt
  · rw [hr, endRight_iff hid (fun h => by rw [hm] at h; cases h) fun _ h => he (Option.some.inj h)]
    refine and_congr_right fun _ => imp_congr_right fun heq => iff_of_true (fun h => by cases h) fun hgo => ?_
    refine absurd ⟨fun i hi hh => ?_, ?_⟩ hnot
    · rw [(hsame heq).2.1]
      exact hgo.1 i hi hh
    · rw [(hsame heq).2.2]
      exact hgo.2
  · rw [hr, endRight_iff hid (fun h => by rw [hm] at h; cases h) fun _ h => by cases h]
    refine and_congr_right fun _ => imp_congr_right fun heq => ?_
    obtain ⟨hstr, hpath, htid⟩ := hsame heq
    have hgo : GoesThrough rootpath recs st := by
      refine ⟨fun i hi hh => ?_, ?_⟩
      · rw [← hpath]
        exact hok i hi hh
      · rw [← htid, htp]
        exact Option.some_ne_none _
    have hfile : ∀ i p, rbkPath st st.transId i = some p → Function.update st'.files tp none p = st'.files p := by
      intro i p hp
      obtain ⟨fn, hfn⟩ := Option.ne_none_iff_exists'.mp (filename_of_rbkPath hp)
      refine Function.update_of_ne ?_ _ _
      rintro rfl
      exact formRbkFn_ne_path hstr.noDot (by rw [← rbkPath_some hfn, hpath]; exact hp) htp
    have hpath' : ∀ i, rbkPath { st'.unlink tp with transId := [] } st.transId i = rbkPath st st.transId i :=
      fun i => hs.rbkPath_eq st.transId i
    constructor
    · intro hc _ i hi p hp hne
      have hgone := (hc rfl).rbkFile i hi p (by rw [hpath']; exact hp)
      -- the file is gone, so it was one of those removed
      by_contra hno
      push Not at hno
      have hkept := hs.file_notMem p fun j hj => by rw [hpath]; exact hno j hj.1 hj.2
      exact hne (hkept.symm.trans ((hfile i p hp).symm.trans hgone))
    · intro hstray _
      constructor
      case inactive => rfl
      case transFile =>
        intro p hp
        rw [← htid, htp] at hp
        obtain rfl : tp = p := Option.some.inj hp
        exact Function.update_self ..
      case rbkFile =>
        intro i hi p hp
        rw [hpath'] at hp
        refine (hfile i p hp).trans ?_
        by_contra hne
        have hfrom : st.files p ≠ none := by
          intro hnone
          by_cases hj : ∃ j ∈ {i | i ∈ workCtx ∧ Held st i}, rbkPath st s.chars j = some p
          · obtain ⟨j, hj, hjp⟩ := hj
            exact hne (hs.file_mem j hj p hjp)
          · exact hne ((hs.file_notMem p fun j hj' hjp => hj ⟨j, hj', hjp⟩).trans hnone)
        obtain ⟨j, hj, hjh, hjp⟩ := hstray hgo i hi p hp hfrom
        exact hne (hs.file_mem j ⟨hj, hjh⟩ p (by rw [hpath]; exact hjp))

end Ends

/-! ## Runs -/

section Runs

variable {rootpath : Str} {st : TransSt}

theorem CancelPost.kept {tid : Str} {r : Res} (h : CancelPost rootpath tid st r) (hid : KeptId st.transId) : KeptId r.2.transId := by
  cases h with
  | notFound => exact hid
  | noEnd => exact hid
  | tooLong _ _ hid' => exact hid' ▸ hid
  | done => exact .nil

theorem start_kept (fs : FsPerm) (t : Ident) (hid : KeptId st.transId) :
    KeptId (transactionStart rootpath fs t.chars st).2.transId := by
  by_cases hid' : st.transId = []
  swap
  · rw [show transactionStart rootpath fs t.chars st = (some .alrdyOn, st) from if_pos hid']
    exact hid
  by_cases hmade : ∃ tp, t.chars.length ≤ TRANSID_LEN ∧ fs.dirOk = true ∧ transactionGetPath rootpath t.chars = some tp ∧
      st.files tp = none ∧ fs.can tp = true
  swap
  · -- the transaction file is not made
    unfold transactionStart
    rw [if_neg (not_not.mpr hid')]
    split
    · exact hid
    dsimp only
    split
    · exact t.kept
    split
    · exact t.kept
    rename_i hlen hdir _ tp htp
    rw [show openNew fs.can tp { st with transId := chgcase t.chars } = none from
      if_neg fun h => hmade ⟨tp, by omega, by simpa using hdir, htp, h⟩]
    exact t.kept
  obtain ⟨tp, hlen, hdir, htp, hfree, hcan⟩ := hmade
  have hpost : LoopPost fs.can t.chars (started t tp st) (writables st workCtx)
      (startLoop fs.can t.chars workCtx [] (started t tp st)) := startLoop_started
  rw [transactionStart_eq hid' hlen hdir htp hfree hcan]
  generalize startLoop fs.can t.chars workCtx [] (started t tp st) = res at hpost
  cases hpost with
  | all _ ho => exact ho.transId ▸ t.kept
  | tooLong _ _ _ ho => exact ho.transId ▸ t.kept
  | @failed A B k _ _ _ lines st' ho =>
    have hk : KeptId ((st'.setCtx k { st'.ctx k with rbkFd := none }).write tp lines).transId := ho.transId ▸ t.kept
    have hc := (transactionCancel_post rootpath t.chars _).kept hk
    dsimp only
    generalize transactionCancel rootpath t.chars _ = res at hc
    obtain ⟨e, st''⟩ := res
    cases e <;> exact hc

theorem cleandb_transId (i : CtxId) : (cleandb i st).transId = st.transId := by
  unfold cleandb
  split <;> rfl

theorem rbkOpen_transId (can : Str → Bool) (tid : Str) (i : CtxId) (fn : Str) : (rbkOpen can tid i fn st).2.transId = st.transId := by
  unfold rbkOpen openNew
  split
  · rfl
  · split_ifs <;> rfl

theorem transactionAddTable_transId (fn : Str) (addOk : Bool) : (transactionAddTable rootpath fn addOk st).2.transId = st.transId := by
  unfold transactionAddTable
  split
  · rfl
  · split <;> rfl

theorem opendb_transId (can : Str → Bool) (addOk : Bool) (i : CtxId) (fn : Str) (readonly : Bool) :
    (opendb rootpath can addOk i fn readonly st).2.transId = st.transId := by
  unfold opendb
  dsimp only
  split
  · split <;> rfl
  have h₁ : (rbkOpen can st.transId i fn (st.setCtx i { st.ctx i with filename := some fn, readonly := readonly })).2.transId = st.transId :=
    rbkOpen_transId can st.transId i fn
  rw [show (st.setCtx i { st.ctx i with filename := some fn, readonly := readonly }).transId = st.transId from rfl]
  generalize rbkOpen can _ i fn _ = r₁ at h₁
  obtain ⟨e, st₁⟩ := r₁
  cases e with
  | some e => exact h₁
  | none =>
    dsimp only at h₁ ⊢
    have h₂ : (transactionAddTable rootpath fn addOk st₁).2.transId = st₁.transId := transactionAddTable_transId fn addOk
    generalize transactionAddTable rootpath fn addOk st₁ = r₂ at h₂
    obtain ⟨e, st₂⟩ := r₂
    cases e with
    | some e => exact h₂.trans h₁
    | none =>
      dsimp only at h₂ ⊢
      split
      · exact h₂.trans h₁
      · exact h₂.trans h₁

theorem use_transId (can : Str → Bool) (addOk : Bool) (i : CtxId) (fn : Str) (readonly : Bool) :
    (use rootpath can addOk i fn readonly st).2.transId = st.transId := by
  unfold use
  split
  · rfl
  have h : (opendb rootpath can addOk i fn readonly (cleandb i st)).2.transId = st.transId :=
    (opendb_transId can addOk i fn readonly).trans (cleandb_transId i)
  split
  · rename_i hr
    rw [hr] at h
    exact h
  · rename_i hr
    rw [hr] at h
    exact (cleandb_transId i).trans h
  · rename_i hr
    rw [hr] at h
    exact h

theorem saveRec_transId (i : CtxId) (recno : Nat) (image : Str) : (saveRec i recno image st).2.transId = st.transId := by
  unfold saveRec
  split
  · rfl
  split
  · rfl
  dsimp only
  split
  · rfl
  split <;> rfl

theorem recoverLoop_transId (rc : Recovery) (tid : Str) (i : CtxId) (fns : List Str) (st : TransSt) :
    (recoverLoop rootpath rc tid i fns st).2.transId = st.transId := by
  induction fns generalizing st with
  | nil => rfl
  | cons fn fns ih =>
    rw [recoverLoop]
    split
    · rfl
    split
    · exact cleandb_transId i
    have h : (use rootpath (fun _ => false) false i fn rc.readonly st).2.transId = st.transId := use_transId _ _ _ _ _
    generalize use rootpath _ false i fn rc.readonly st = r at h
    obtain ⟨e, st₁⟩ := r
    cases e with
    | some e => exact h
    | none =>
      dsimp only at h ⊢
      split
      · exact h
      split
      · exact h
      split
      · exact h
      · exact (ih _).trans ((closeRbk_ctx _ i).2.2.2.1.trans h)

theorem recover_transId (rc : Recovery) (tid : Str) : (recover rootpath rc tid st).2.transId = st.transId := by
  unfold recover
  split
  · rfl
  split
  · rfl
  split
  · rfl
  · exact recoverLoop_transId rc tid _ _ st

theorem recovered_kept {recs : CtxId → Bool} {rc : Recovery} {s : CStr} (hact : st.transId = []) (hs : IdStr s.chars) :
    KeptId (transactionRollback rootpath recs rc s.chars st).2.transId := by
  have h : (recover rootpath rc s.chars st).2.transId = st.transId := recover_transId rc s.chars
  unfold transactionRollback
  rw [if_neg fun h => h.1 hact, if_neg (not_not.mpr hact)]
  generalize recover rootpath rc s.chars st = r at h
  obtain ⟨e, st₁⟩ := r
  have hnil : KeptId st₁.transId := by
    rw [show st₁.transId = [] from h.trans hact]
    exact .nil
  cases e with
  | some e => exact hnil
  | none =>
    dsimp only
    split
    · exact hnil
    · exact (transactionCancel_post rootpath s.chars _).kept ⟨idStr_chgcase.mpr hs, chgcase_chgcase _⟩

/-- The active id stays one that is made of an identifier. -/
theorem opStep_kept (rootpath : Str) (st : TransSt) (op : TransOp) (hid : KeptId st.transId) : KeptId (opStep rootpath st op).transId := by
  unfold opStep
  cases op with
  | start fs t => exact start_kept fs t hid
  | commit recs s =>
    show KeptId (transactionCommit rootpath recs s.chars st).2.transId
    rcases transactionCommit_post rootpath recs s.chars st with ⟨-, hr⟩ | ⟨-, -, e, st', hr, -, hid'⟩ | ⟨-, -, tp, st', -, -, hr⟩
    · rw [hr]
      exact hid
    · rw [hr]
      exact hid' ▸ hid
    · rw [hr]
      exact .nil
  | rollback recs rc s =>
    show KeptId (if st.transId = [] ∧ ¬IdStr s.chars then (some .notFound, st) else transactionRollback rootpath recs rc s.chars st).2.transId
    split
    · exact hid
    rename_i hgo
    by_cases hact : st.transId = []
    · exact recovered_kept hact (by_contra fun h => hgo ⟨hact, h⟩)
    rcases transactionRollback_post rootpath recs rc s hid hact with ⟨-, hr⟩ | ⟨-, e, st', hr, -, hid'⟩ | ⟨hm, st', hid', -, hr⟩
    · rw [hr]
      exact hid
    · rw [hr]
      exact hid' ▸ hid
    · rw [hr]
      refine (transactionCancel_post rootpath s.chars st').kept ?_
      rw [hid']
      exact ⟨idStr_chgcase.mpr (idStr_of_match hid hm), chgcase_chgcase _⟩
  | cancel s => exact (transactionCancel_post rootpath s.chars st).kept hid
  | use can addOk i fn readonly =>
    show KeptId (use rootpath can addOk i fn readonly st).2.transId
    rw [use_transId]
    exact hid
  | close i =>
    show KeptId (cleandb i st).transId
    rw [cleandb_transId]
    exact hid
  | save i recno image =>
    show KeptId (saveRec i recno image st).2.transId
    rw [saveRec_transId]
    exact hid
  | store i => exact hid

theorem endsRight_iff (rootpath : Str) (st : TransSt) (op : TransOp) (hid : KeptId st.transId) :
    EndsRight rootpath st op ↔ EndsWhen rootpath st op := by
  unfold EndsRight EndsWhen
  refine imp_congr_right fun hact => ?_
  have hone : ∀ {s : CStr} {P : CStr → Prop}, (∀ s', some s = some s' → P s') ↔ P s :=
    ⟨fun h => h _ rfl, fun h s' hs => Option.some.inj hs ▸ h⟩
  have hnone : ∀ {P : CStr → Prop}, (∀ s', none = some s' → P s') ↔ True := ⟨fun _ => trivial, fun _ _ h => by cases h⟩
  cases op with
  | commit recs s => exact hone.trans (commit_right_iff hid)
  | rollback recs rc s =>
    refine hone.trans ?_
    rw [show opRun rootpath st (.rollback recs rc s) = transactionRollback rootpath recs rc s.chars st from if_neg fun h => hact h.1]
    exact rollback_right_iff hid hact
  | cancel s => exact hone.trans (cancel_right_iff hid)
  | start => exact hnone
  | use => exact hnone
  | close => exact hnone
  | save => exact hnone
  | store => exact hnone

/-- In a session every transaction is ended rightly exactly when none is ended by a part of its id, and none is committed while
an open table that has no rollback file open has one on disk. -/
theorem ends_right_iff (rootpath : Str) (files : Str → Option Str) (ops : List TransOp) :
    Runs.Along (opStep rootpath) (EndsRight rootpath) ops (newSession files) ↔
      Runs.Along (opStep rootpath) (EndsWhen rootpath) ops (newSession files) :=
  Runs.along_iff (endsRight_iff rootpath) (fun st op hid _ => opStep_kept rootpath st op hid) .nil

end Runs

/-! ## Two ends that are not right -/

/-- COMMIT with a beginning of the id; and COMMIT after the table was closed and opened again read-only. -/
theorem commit_stray :
    ¬Runs.Along (opStep "/r".toList) (EndsRight "/r".toList)
      [.start allPerm idT1, .commit (fun _ => true) ⟨['t'], by unfold IsStr; decide +kernel⟩] (newSession fun _ => none) ∧
    ¬Runs.Along (opStep "/r".toList) (EndsRight "/r".toList)
      [.use (fun _ => true) true ⟨0, by decide⟩ "/a.dbf".toList false, .start allPerm idT1, .close ⟨0, by decide⟩, .use (fun _ => true) true ⟨0, by decide⟩ "/a.dbf".toList true,
        .commit (fun _ => true) ⟨['t', '1'], by unfold IsStr; decide +kernel⟩] (newSession fun _ => none) := by
  constructor
  · intro h
    have hend := (h.2.1 (by decide +kernel) _ rfl).refused (by decide +kernel)
    exact absurd (congrArg Prod.fst hend) (by decide +kernel)
  · intro h
    have hend := (h.2.2.2.2.1 (by decide +kernel) _ rfl).cleaned (by decide +kernel)
    exact absurd (hend.rbkFile ⟨0, by decide⟩ (by decide +kernel) "/a.T1.rbk".toList (by decide +kernel)) (by decide +kernel)

end Db3w.TransFiles
