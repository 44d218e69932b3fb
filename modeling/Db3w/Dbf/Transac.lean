/-
Transactions on a table by one session. Before a record is replaced in a transaction it is appended to
the log of the table and its first byte, in the buffer and on disk, is set to the mark of a
transaction; what deletes or recalls a record sets that byte too. COMMIT makes every logged record
valid; ROLLBACK writes back what the log holds. Both go through the log from its last entry to its
first one.
-/
import Db3w.Dbf.Record

namespace Db3w

variable {σ : Type}

/-! ## Commands -/

/-- What a command does with a record. -/
inductive OpKind where
  | repl | del | rcal
  deriving DecidableEq, Repr

/-- A command on an existing record: REPLACE with the fields it stores, DELETE or RECALL. -/
inductive RecOp where
  | repl (recno : Nat) (field : Store) (fields : List Store)
  | del (recno : Nat)
  | rcal (recno : Nat)
  deriving DecidableEq, Repr

def RecOp.recno : RecOp → Nat
  | repl r _ _ => r
  | del r => r
  | rcal r => r

def RecOp.kind : RecOp → OpKind
  | repl .. => .repl
  | del _ => .del
  | rcal _ => .rcal

/-- `go` to a record that is there and shown. -/
def goRec (upd : UpdNdx σ) (recno : Nat) (t : Tbl σ) : Except DbErr (Tbl σ) := do
  let t ← gorec recno { t with eof := false, tof := false }
  if t.indexActive then return { t with ndx := ← upd.locate recno t.buf.data t.ndx }
  return t

/-- The fields a REPLACE stores, one after the other. -/
def dbstores (fields : List Store) (t : Tbl σ) : Except DbErr (Tbl σ) := fields.foldlM (fun t s => dbstore s t) t

def opRun (upd : UpdNdx σ) : RecOp → Tbl σ → Except DbErr (Tbl σ)
  | .repl r s ss, t => do storeRec upd (← dbstores (s :: ss) (← goRec upd r t))
  | .del r, t => do delRecall DEL_MKR (← goRec upd r t)
  | .rcal r, t => do delRecall VAL_MKR (← goRec upd r t)

def opsRun (upd : UpdNdx σ) (ops : List RecOp) (t : Tbl σ) : Except DbErr (Tbl σ) := ops.foldlM (fun t op => opRun upd op t) t

/-! ## Transactions -/

/-- `transaction_start`: the log is there and empty. -/
def transactionStart (t : Tbl σ) : Tbl σ := { t with log := some [] }

/-- One step of `transaction_commit`. -/
def commitEntry (e : Nat × Rec) (t : Tbl σ) : Except DbErr (Tbl σ) := do
  let t ← gorec e.1 { t with rbkRecno := e.1, rbkBuf := e.2 }
  return writeRec true { t with buf := { t.buf with mark := VAL_MKR } }

/-- `transaction_commit`. -/
def transactionCommit (t : Tbl σ) : Except DbErr (Tbl σ) :=
  match t.log with
  | none => .ok t
  | some log => do return { ← log.foldrM commitEntry t with log := none, rbkRecno := 0 }

/-- One step of `rbk_rollback`; the first byte of a record does not take part in the comparison. -/
def rollbackEntry (upd : UpdNdx σ) (e : Nat × Rec) (t : Tbl σ) : Except DbErr (Tbl σ) := do
  let t ← gorec e.1 { t with rbkRecno := e.1, rbkBuf := e.2 }
  if t.rbkBuf.data ≠ t.buf.data then
    let t := writeRec false { t with buf := t.rbkBuf, rbkBuf := t.buf }
    if t.indexActive then t.updndx upd true else return t
  else return t

/-! ## One command -/

/-- The fields of a record after all that a REPLACE stores. -/
def puts (fields : List Store) (data : List UInt8) : List UInt8 := fields.foldl (fun d s => s.put d) data

/-- The mark a replaced record has: in a transaction it is that of a transaction. -/
def replMark (t : Tbl σ) : UInt8 := if t.log.isSome then TRANS_MKR else VAL_MKR

/-- The table after record `r` has been replaced, but for its indexes; with `hid` a filter hides it then. -/
def replaced (hid : Bool) (r : Nat) (data : List UInt8) (t : Tbl σ) : Tbl σ :=
  { t with
    disk := Function.update t.disk r ⟨replMark t, data⟩
    buf := ⟨replMark t, data⟩
    crntrec := if hid then t.reccnt + 1 else r
    eof := hid
    tof := false
    mode := .update
    rbkRecno := 0
    rbkBuf := t.disk r
    log := t.log.map (· ++ [(r, t.disk r)]) }

/-- The indexes once a command has gone to record `r`. -/
def located (upd : UpdNdx σ) (r : Nat) (t : Tbl σ) : Except DbErr σ :=
  if t.indexActive then upd.locate r (t.disk r).data t.ndx else .ok t.ndx

/-- A REPLACE changes the record, and indexes are to be brought up to date. -/
def Reindexes (r : Nat) (new : List UInt8) (t : Tbl σ) : Prop := new ≠ (t.disk r).data ∧ t.indexActive = true

instance (r : Nat) (new : List UInt8) (t : Tbl σ) : Decidable (Reindexes r new t) := inferInstanceAs (Decidable (_ ∧ _))

/-- Bringing the indexes up to date, and going to the record again. -/
def reindex (upd : UpdNdx σ) (eof tof del : Bool) (r : Nat) (old new : List UInt8) (ndx : σ) : Except DbErr σ := do
  let ndx ← upd.update eof tof del r old new ndx
  if upd.hidden r new then return ndx else upd.locate r new ndx

/-- The indexes after a record has been replaced. -/
def reindexed (upd : UpdNdx σ) (r : Nat) (new : List UInt8) (t : Tbl σ) : Except DbErr σ := do
  let ndx ← located upd r t
  if Reindexes r new t then reindex upd false false true r (t.disk r).data new ndx else return ndx

/-- A filter hides the record once it has been replaced. -/
def hides (upd : UpdNdx σ) (r : Nat) (new : List UInt8) (t : Tbl σ) : Bool := Reindexes r new t && upd.hidden r new

/-- The table with the cursor on record `r`. -/
def atRec (r : Nat) (t : Tbl σ) : Tbl σ := { t with eof := false, tof := false, buf := t.disk r, crntrec := r }

section Op

variable {upd : UpdNdx σ} {t : Tbl σ} {r : Nat}

/-- The indexes depend on the fields of the record only. -/
theorem located_congr {u : Tbl σ} (hdata : (u.disk r).data = (t.disk r).data) (hact : u.indexActive = t.indexActive) (hndx : u.ndx = t.ndx) :
    located upd r u = located upd r t := by
  unfold located
  rw [hdata, hact, hndx]

theorem reindexed_congr {u : Tbl σ} (hdata : (u.disk r).data = (t.disk r).data) (hact : u.indexActive = t.indexActive) (hndx : u.ndx = t.ndx)
    (new : List UInt8) : reindexed upd r new u = reindexed upd r new t := by
  have hre : Reindexes r new u ↔ Reindexes r new t := by
    unfold Reindexes
    rw [hdata, hact]
  unfold reindexed
  rw [located_congr hdata hact hndx, hdata]
  simp only [hre]

/-- Further fields only change the buffer. -/
theorem dbstores_saved (fields : List Store) (he : t.etof = false) (hs : t.rbkRecno = t.crntrec) :
    dbstores fields t = .ok { t with buf := { t.buf with data := puts fields t.buf.data } } := by
  unfold dbstores puts
  induction fields generalizing t with
  | nil => rfl
  | cons s ss ih =>
    rw [List.foldlM_cons]
    have hstep : dbstore s t = .ok { t with buf := { t.buf with data := s.put t.buf.data } } := by
      unfold dbstore
      rw [he, if_neg (by simp), if_pos hs]
    rw [hstep]
    exact ih he hs

theorem goRec_eq (hread : t.readable) (hr : r ≠ 0) (hle : r ≤ t.reccnt) :
    goRec upd r t = (located upd r t).map fun ndx => atRec r { t with ndx } := by
  have hgo : gorec r { t with eof := false, tof := false } = .ok (atRec r t) := by
    rw [gorec_of_le (t := { t with eof := false, tof := false }) hr hle]
    exact if_pos hread
  unfold goRec
  rw [hgo]
  dsimp only [bind, Except.bind, atRec, pure, Except.pure]
  unfold located
  split
  · cases upd.locate r (t.disk r).data t.ndx with
    | error e => rfl
    | ok ndx => rfl
  · rfl

/-- A command that succeeds has read its record. -/
theorem goRec_unreadable (hread : ¬t.readable) (hr : r ≠ 0) (hle : r ≤ t.reccnt) : goRec upd r t = .error .dbread := by
  have hgo : gorec r { t with eof := false, tof := false } = .error .dbread := by
    rw [gorec_of_le (t := { t with eof := false, tof := false }) hr hle]
    exact if_neg hread
  unfold goRec
  rw [hgo]
  rfl

/-- The table after record `r` has been saved for an update. -/
def savedFor (r : Nat) (t : Tbl σ) : Tbl σ :=
  { t with
    disk := if t.log.isSome then Function.update t.disk r { t.disk r with mark := TRANS_MKR } else t.disk
    buf := { t.disk r with mark := replMark t }
    crntrec := r
    eof := false
    tof := false
    mode := .update
    rbkRecno := r
    rbkBuf := t.disk r
    log := t.log.map (· ++ [(r, t.disk r)]) }

/-- The first field of a REPLACE. -/
theorem dbstore_first (s : Store) (hr : r ≠ 0) (hk : t.rbkRecno = 0) (hv : (t.disk r).mark = VAL_MKR) :
    dbstore s (atRec r t) = .ok { savedFor r t with buf := ⟨replMark t, s.put (t.disk r).data⟩ } := by
  have hk' : ¬ (0 = r) := fun h => hr h.symm
  unfold dbstore saveRec savedFor replMark writeRec atRec
  cases hlog : t.log with
  | none => simp [Tbl.etof, hk, hk', hv, VAL_MKR, TRANS_MKR]
  | some log => simp [Tbl.etof, hk, hk', hv, VAL_MKR, TRANS_MKR]

/-- All fields of a REPLACE. -/
theorem dbstores_eq (s : Store) (ss : List Store) (hr : r ≠ 0) (hk : t.rbkRecno = 0) (hv : (t.disk r).mark = VAL_MKR) :
    dbstores (s :: ss) (atRec r t) = .ok { savedFor r t with buf := ⟨replMark t, puts (s :: ss) (t.disk r).data⟩ } := by
  unfold dbstores
  rw [List.foldlM_cons, dbstore_first s hr hk hv]
  exact dbstores_saved ss rfl rfl

/-- `updndx` of a record that has just been written. -/
theorem updndx_eq {del : Bool} (hread : t.readable) (hr : t.crntrec ≠ 0) (hle : t.crntrec ≤ t.reccnt) (hact : t.indexActive = true)
    (hbuf : t.disk t.crntrec = t.buf) : t.updndx upd del =
      (reindex upd t.eof t.tof del t.crntrec t.rbkBuf.data t.buf.data t.ndx).map fun ndx =>
        { t with
          ndx
          eof := upd.hidden t.crntrec t.buf.data
          tof := false
          crntrec := if upd.hidden t.crntrec t.buf.data then t.reccnt + 1 else t.crntrec } := by
  unfold Tbl.updndx reindex
  dsimp only [bind, Except.bind, pure, Except.pure]
  cases upd.update t.eof t.tof del t.crntrec t.rbkBuf.data t.buf.data t.ndx with
  | error e => rfl
  | ok ndx =>
    have hgo : gorec t.crntrec { t with ndx, eof := false, tof := false } = .ok { t with ndx, eof := false, tof := false } := by
      rw [gorec_of_le (t := { t with ndx, eof := false, tof := false }) hr hle]
      exact (if_pos hread).trans (congrArg (fun b => Except.ok { t with ndx, eof := false, tof := false, buf := b }) hbuf)
    dsimp only
    rw [if_pos hle]
    unfold go
    dsimp only [bind, Except.bind, pure, Except.pure]
    rw [hgo]
    dsimp only
    cases upd.hidden t.crntrec t.buf.data with
    | true => rfl
    | false =>
      rw [if_neg Bool.false_ne_true, if_neg Bool.false_ne_true, if_pos hact]
      cases upd.locate t.crntrec t.buf.data ndx with
      | error e => rfl
      | ok ndx' => rfl

/-- `store_rec` of an update. -/
theorem storeRec_update (hread : t.readable) (hr : r ≠ 0) (hle : r ≤ t.reccnt) (data : List UInt8) (ndx : σ) :
    storeRec upd { savedFor r { t with ndx } with buf := ⟨replMark t, data⟩ } =
      (if Reindexes r data t then reindex upd false false true r (t.disk r).data data ndx else .ok ndx).map fun ndx =>
        { replaced (hides upd r data t) r data t with ndx } := by
  have hdisk : Function.update (savedFor r t).disk r ⟨replMark t, data⟩ = Function.update t.disk r ⟨replMark t, data⟩ := by
    unfold savedFor
    dsimp only
    split
    · exact Function.update_idem ..
    · rfl
  have hstore : storeRec upd { savedFor r { t with ndx } with buf := ⟨replMark t, data⟩ } =
      if Reindexes r data t then ({ replaced false r data t with ndx } : Tbl σ).updndx upd true else .ok { replaced false r data t with ndx } := by
    have hwritten : writeRec false { savedFor r { t with ndx } with buf := ⟨replMark t, data⟩ } =
        { replaced false r data t with ndx, rbkRecno := r } := congrArg (fun d => { replaced false r data t with ndx, rbkRecno := r, disk := d }) hdisk
    unfold storeRec
    rw [hwritten]
    unfold replaced Reindexes savedFor
    simp
  rw [hstore]
  unfold hides
  by_cases hre : Reindexes r data t
  · rw [if_pos hre, if_pos hre, updndx_eq (t := { replaced false r data t with ndx }) hread hr hle hre.2 (Function.update_self ..)]
    rw [decide_eq_true hre, Bool.true_and]
    rfl
  · rw [if_neg hre, if_neg hre, decide_eq_false hre, Bool.false_and]
    rfl

/-- What a REPLACE does. -/
theorem opRun_repl (s : Store) (ss : List Store) (hread : t.readable) (hr : r ≠ 0) (hle : r ≤ t.reccnt) (hk : t.rbkRecno = 0)
    (hv : (t.disk r).mark = VAL_MKR) :
    opRun upd (.repl r s ss) t =
      (reindexed upd r (puts (s :: ss) (t.disk r).data) t).map fun ndx =>
        { replaced (hides upd r (puts (s :: ss) (t.disk r).data) t) r (puts (s :: ss) (t.disk r).data) t with ndx } := by
  rw [opRun, goRec_eq hread hr hle, reindexed]
  cases located upd r t with
  | error e => rfl
  | ok ndx =>
    have hstores := dbstores_eq (t := { t with ndx }) s ss hr hk hv
    dsimp only [bind, Except.bind, pure, Except.pure, Except.map]
    rw [hstores]
    exact storeRec_update hread hr hle _ ndx

/-- A record that is not valid is not replaced. -/
theorem opRun_repl_invalid (upd : UpdNdx σ) (s : Store) (ss : List Store) (hr : r ≠ 0) (hle : r ≤ t.reccnt) (hk : t.rbkRecno = 0)
    (hv : (t.disk r).mark ≠ VAL_MKR) : ∃ e, opRun upd (.repl r s ss) t = .error e := by
  have hk' : ¬ (0 = r) := fun h => hr h.symm
  by_cases hread : t.readable
  · rw [opRun, goRec_eq hread hr hle]
    cases located upd r t with
    | error e => exact ⟨e, rfl⟩
    | ok ndx =>
      have hfirst : ∃ e, dbstore s (atRec r { t with ndx }) = .error e := by
        unfold dbstore saveRec atRec
        by_cases htr : (t.disk r).mark = TRANS_MKR
        · exact ⟨.transacExcl, by simp [Tbl.etof, hk, hk', htr]⟩
        · exact ⟨.invalidRec, by simp [Tbl.etof, hk, hk', htr, hv]⟩
      obtain ⟨e, he⟩ := hfirst
      refine ⟨e, ?_⟩
      have hstores : dbstores (s :: ss) (atRec r { t with ndx }) = .error e := by
        unfold dbstores
        rw [List.foldlM_cons, he]
        rfl
      dsimp only [bind, Except.bind, Except.map]
      rw [hstores]
  · rw [opRun, goRec_unreadable hread hr hle]
    exact ⟨_, rfl⟩

/-- Setting the mark of a record changes nothing else on disk, and no log; the index is where it was gone to. -/
structure Marked (upd : UpdNdx σ) (r : Nat) (mark : UInt8) (t t' : Tbl σ) : Prop where
  disk : t'.disk = Function.update t.disk r { t.disk r with mark }
  byprec : t'.byprec = t.byprec
  reccnt : t'.reccnt = t.reccnt
  rbkRecno : t'.rbkRecno = t.rbkRecno
  log : t'.log = t.log
  indexActive : t'.indexActive = t.indexActive
  ndx : located upd r t = .ok t'.ndx

theorem delRecall_atRec (mark : UInt8) (hr : r ≠ 0) : ∃ t', delRecall mark (atRec r t) = .ok t' ∧
    t' = { t' with byprec := t.byprec, reccnt := t.reccnt, rbkRecno := t.rbkRecno, log := t.log, indexActive := t.indexActive, ndx := t.ndx } ∧
    t'.disk = Function.update t.disk r { t.disk r with mark } := by
  have hchk : validChk (atRec r t) = .ok () := if_neg fun h => hr h.2.2
  unfold delRecall
  rw [hchk]
  dsimp only [bind, Except.bind]
  by_cases hm : (t.disk r).mark = mark
  · rw [if_neg fun h => h.2 hm]
    refine ⟨_, rfl, rfl, ?_⟩
    rw [← hm]
    exact (Function.update_eq_self r t.disk).symm
  · rw [if_pos ⟨rfl, hm⟩]
    exact ⟨_, rfl, rfl, rfl⟩

/-- What a DELETE or a RECALL does, if the record is found. -/
theorem delRecall_marked (mark : UInt8) (hread : t.readable) (hr : r ≠ 0) (hle : r ≤ t.reccnt) {ndx : σ} (hl : located upd r t = .ok ndx) :
    ∃ t', (goRec upd r t >>= delRecall mark) = .ok t' ∧ Marked upd r mark t t' := by
  rw [goRec_eq hread hr hle, hl]
  obtain ⟨t', hrun, heq, hdisk⟩ := delRecall_atRec (t := { t with ndx }) mark hr
  refine ⟨t', hrun, ?_⟩
  rw [heq]
  exact ⟨hdisk, rfl, rfl, rfl, rfl, rfl, hl⟩

/-- A DELETE or a RECALL that succeeds. -/
theorem mark_ok {mark : UInt8} {t' : Tbl σ} (hr : r ≠ 0) (hle : r ≤ t.reccnt) (h : (goRec upd r t >>= delRecall mark) = .ok t') :
    t.readable ∧ Marked upd r mark t t' := by
  by_cases hread : t.readable
  · refine ⟨hread, ?_⟩
    cases hl : located upd r t with
    | error e =>
      rw [goRec_eq hread hr hle, hl] at h
      cases h
    | ok ndx =>
      obtain ⟨t₁, ht₁, hm⟩ := delRecall_marked mark hread hr hle hl
      obtain rfl : t₁ = t' := Except.ok.inj (ht₁.symm.trans h)
      exact hm
  · rw [goRec_unreadable hread hr hle] at h
    cases h

/-- A REPLACE that succeeds. -/
theorem repl_ok {r : Nat} {s : Store} {ss : List Store} {t' : Tbl σ} (hr : r ≠ 0) (hle : r ≤ t.reccnt) (hk : t.rbkRecno = 0)
    (h : opRun upd (.repl r s ss) t = .ok t') :
    t.readable ∧ (t.disk r).mark = VAL_MKR ∧ ∃ ndx, reindexed upd r (puts (s :: ss) (t.disk r).data) t = .ok ndx ∧
      t' = { replaced (hides upd r (puts (s :: ss) (t.disk r).data) t) r (puts (s :: ss) (t.disk r).data) t with ndx } := by
  by_cases hv : (t.disk r).mark = VAL_MKR
  · by_cases hread : t.readable
    · rw [opRun_repl s ss hread hr hle hk hv] at h
      refine ⟨hread, hv, ?_⟩
      cases hx : reindexed upd r (puts (s :: ss) (t.disk r).data) t with
      | error e =>
        rw [hx] at h
        cases h
      | ok ndx =>
        rw [hx] at h
        exact ⟨ndx, rfl, (Except.ok.inj h).symm⟩
    · rw [opRun, goRec_unreadable hread hr hle] at h
      cases h
  · obtain ⟨e, he⟩ := opRun_repl_invalid upd s ss hr hle hk hv
    rw [he] at h
    cases h

/-- Commands that succeed have read their record, and keep the number and the size of records; no record is left saved. -/
theorem opRun_frame {op : RecOp} {t' : Tbl σ} (hr : op.recno ≠ 0) (hle : op.recno ≤ t.reccnt) (hk : t.rbkRecno = 0)
    (h : opRun upd op t = .ok t') : t.readable ∧ t'.byprec = t.byprec ∧ t'.reccnt = t.reccnt ∧ t'.rbkRecno = 0 := by
  cases op with
  | repl r s ss =>
    obtain ⟨hread, -, ndx, -, rfl⟩ := repl_ok hr hle hk h
    exact ⟨hread, rfl, rfl, rfl⟩
  | del r =>
    obtain ⟨hread, hm⟩ := mark_ok hr hle h
    exact ⟨hread, hm.byprec, hm.reccnt, hm.rbkRecno.trans hk⟩
  | rcal r =>
    obtain ⟨hread, hm⟩ := mark_ok hr hle h
    exact ⟨hread, hm.byprec, hm.reccnt, hm.rbkRecno.trans hk⟩

end Op

/-! ## Runs -/

section Run

variable {upd : UpdNdx σ} {ops : List RecOp} {t t' : Tbl σ}

theorem opsRun_snoc (ops : List RecOp) (op : RecOp) (t : Tbl σ) :
    opsRun upd (ops ++ [op]) t = opsRun upd ops t >>= opRun upd op := by
  unfold opsRun
  rw [List.foldlM_append]
  rcases List.foldlM (fun t op => opRun upd op t) t ops with e | t'
  · rfl
  · show List.foldlM (fun t op => opRun upd op t) t' [op] = opRun upd op t'
    rw [List.foldlM_cons]
    rcases opRun upd op t' with e | t''
    · rfl
    · rfl

theorem opsRun_snoc_ok {op : RecOp} (h : opsRun upd (ops ++ [op]) t = .ok t') :
    ∃ t₁, opsRun upd ops t = .ok t₁ ∧ opRun upd op t₁ = .ok t' := by
  rw [opsRun_snoc] at h
  cases h₁ : opsRun upd ops t with
  | error e =>
    rw [h₁] at h
    cases h
  | ok t₁ =>
    rw [h₁] at h
    exact ⟨t₁, rfl, h⟩

theorem opsRun_frame (hk : t.rbkRecno = 0) (hops : ∀ op ∈ ops, op.recno ≠ 0 ∧ op.recno ≤ t.reccnt)
    (h : opsRun upd ops t = .ok t') : t'.byprec = t.byprec ∧ t'.reccnt = t.reccnt ∧ t'.rbkRecno = 0 := by
  induction ops using List.reverseRecOn generalizing t' with
  | nil =>
    obtain rfl := Except.ok.inj h
    exact ⟨rfl, rfl, hk⟩
  | append_singleton ops op ih =>
    obtain ⟨t₁, ht₁, hop⟩ := opsRun_snoc_ok h
    obtain ⟨hsize, hcnt, hk₁⟩ := ih (fun o ho => hops o (List.mem_append_left _ ho)) ht₁
    obtain ⟨hr, hle⟩ := hops op (List.mem_append_right _ (List.mem_singleton_self _))
    obtain ⟨-, hsize', hcnt', hk'⟩ := opRun_frame hr (by rw [hcnt]; exact hle) hk₁ hop
    exact ⟨hsize'.trans hsize, hcnt'.trans hcnt, hk'⟩

end Run

/-! ## A log goes back through -/

section Commit

variable {t : Tbl σ}

/-- The disk after the given records have been made valid. -/
def validated (rs : List Nat) (disk : Nat → Rec) : Nat → Rec :=
  fun i => if i ∈ rs then { disk i with mark := VAL_MKR } else disk i

/-- Records that are there, and can be read. -/
def LogReads (log : List (Nat × Rec)) (t : Tbl σ) : Prop := ∀ e ∈ log, e.1 ≠ 0 ∧ e.1 ≤ t.reccnt ∧ t.readable

theorem commitEntry_disk {e : Nat × Rec} (h0 : e.1 ≠ 0) (hle : e.1 ≤ t.reccnt) (hread : t.readable) :
    ∃ t', commitEntry e t = .ok t' ∧ t'.byprec = t.byprec ∧ t'.reccnt = t.reccnt ∧
      t'.disk = Function.update t.disk e.1 { t.disk e.1 with mark := VAL_MKR } := by
  have hgo : gorec e.1 { t with rbkRecno := e.1, rbkBuf := e.2 } =
      .ok { t with rbkRecno := e.1, rbkBuf := e.2, buf := t.disk e.1, crntrec := e.1 } := by
    rw [gorec_of_le (t := { t with rbkRecno := e.1, rbkBuf := e.2 }) h0 hle]
    exact if_pos hread
  unfold commitEntry
  rw [hgo]
  exact ⟨_, rfl, rfl, rfl, rfl⟩

/-- COMMIT makes the logged records valid. -/
theorem foldrM_commitEntry (log : List (Nat × Rec)) (h : LogReads log t) :
    ∃ t', log.foldrM commitEntry t = .ok t' ∧ t'.byprec = t.byprec ∧ t'.reccnt = t.reccnt ∧ t'.disk = validated (log.map Prod.fst) t.disk := by
  induction log with
  | nil =>
    refine ⟨t, rfl, rfl, rfl, ?_⟩
    unfold validated
    simp
  | cons e log ih =>
    obtain ⟨t₁, hrun, hsize, hcnt, hdisk⟩ := ih fun f hf => h f (List.mem_cons_of_mem _ hf)
    obtain ⟨h0, hle, hread⟩ := h e (List.mem_cons_self ..)
    obtain ⟨t', hrun', hsize', hcnt', hdisk'⟩ := commitEntry_disk (t := t₁) h0 (by rw [hcnt]; exact hle) (by unfold Tbl.readable; rw [hsize]; exact hread)
    refine ⟨t', ?_, hsize'.trans hsize, hcnt'.trans hcnt, ?_⟩
    · rw [List.foldrM_cons, hrun]
      exact hrun'
    rw [hdisk', hdisk]
    funext i
    unfold validated
    rcases eq_or_ne i e.1 with rfl | hne
    · rw [Function.update_self]
      simp only [List.map_cons, List.mem_cons, true_or, if_true]
      split <;> rfl
    · rw [Function.update_of_ne hne]
      simp only [List.map_cons, List.mem_cons, hne, false_or]

theorem transactionCommit_disk {log : List (Nat × Rec)} (hlog : t.log = some log) (h : LogReads log t) :
    ∃ t', transactionCommit t = .ok t' ∧ t'.disk = validated (log.map Prod.fst) t.disk := by
  obtain ⟨t', hrun, -, -, hdisk⟩ := foldrM_commitEntry log h
  unfold transactionCommit
  rw [hlog]
  dsimp only [bind, Except.bind]
  rw [hrun]
  exact ⟨_, rfl, hdisk⟩

end Commit

end Db3w
