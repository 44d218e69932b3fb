/-
COMMIT. The commands of a transaction are run beside the same commands without one: the two tables
have the same fields and indexes, and the same marks but for the records last replaced, which have
the mark of a transaction instead of being valid. COMMIT makes every record valid that was replaced,
also one that was deleted after that.
-/
import Db3w.Dbf.Transac

namespace Db3w

variable {σ : Type}

/-- What the commands do with record `r`, in order. -/
def kindsOn (ops : List RecOp) (r : Nat) : List OpKind := (ops.filter fun op => op.recno = r).map RecOp.kind

/-- What was last done with record `r`. -/
def lastOn (ops : List RecOp) (r : Nat) : Option OpKind := (kindsOn ops r).getLast?

/-- No record is replaced twice with nothing else done to it in between. -/
def Once (ops : List RecOp) : Prop := ∀ r, (kindsOn ops r).IsChain fun a b => ¬ (a = .repl ∧ b = .repl)

/-- Moreover no record that is replaced is left deleted. -/
structure Committable (ops : List RecOp) : Prop where
  once : Once ops
  alive : ∀ r, .repl ∈ kindsOn ops r → lastOn ops r ≠ some .del

/-- The commands between `transaction_start` and `transaction_commit`. -/
def committed (upd : UpdNdx σ) (ops : List RecOp) (t : Tbl σ) : Except DbErr (Tbl σ) := do
  transactionCommit (← opsRun upd ops (transactionStart t))

/-! ## The two runs -/

/-- Table `p` after the commands and table `q` after the commands in a transaction. -/
structure TxSim (ops : List RecOp) (p q : Tbl σ) : Prop where
  byprec : q.byprec = p.byprec
  reccnt : q.reccnt = p.reccnt
  indexActive : q.indexActive = p.indexActive
  ndx : q.ndx = p.ndx
  plog : p.log = none
  prbk : p.rbkRecno = 0
  qrbk : q.rbkRecno = 0
  log : ∃ log, q.log = some log ∧ LogReads log q ∧ ∀ r, r ∈ log.map Prod.fst ↔ .repl ∈ kindsOn ops r
  data : ∀ r, (q.disk r).data = (p.disk r).data
  mark : ∀ r, (q.disk r).mark = if lastOn ops r = some .repl then TRANS_MKR else (p.disk r).mark
  repl : ∀ r, lastOn ops r = some .repl → (p.disk r).mark = VAL_MKR
  rcal : ∀ r, lastOn ops r = some .rcal → (p.disk r).mark = VAL_MKR
  del : ∀ r, lastOn ops r = some .del → (p.disk r).mark = DEL_MKR

section Step

variable {upd : UpdNdx σ} {ops : List RecOp} {p p' q : Tbl σ} {op : RecOp}

theorem kindsOn_snoc (ops : List RecOp) (op : RecOp) (r : Nat) :
    kindsOn (ops ++ [op]) r = if op.recno = r then kindsOn ops r ++ [op.kind] else kindsOn ops r := by
  unfold kindsOn
  rw [List.filter_append, List.map_append]
  split
  · rename_i h
    simp [h]
  · rename_i h
    simp [h]

theorem lastOn_snoc_self (ops : List RecOp) (op : RecOp) : lastOn (ops ++ [op]) op.recno = some op.kind := by
  unfold lastOn
  rw [kindsOn_snoc, if_pos rfl, List.getLast?_concat]

theorem lastOn_snoc_of_ne {r : Nat} (h : r ≠ op.recno) : lastOn (ops ++ [op]) r = lastOn ops r := by
  unfold lastOn
  rw [kindsOn_snoc, if_neg (Ne.symm h)]

theorem repl_mem_snoc (ops : List RecOp) (op : RecOp) (r : Nat) :
    .repl ∈ kindsOn (ops ++ [op]) r ↔ (op.recno = r ∧ op.kind = .repl) ∨ .repl ∈ kindsOn ops r := by
  rw [kindsOn_snoc]
  split
  · rename_i h
    rw [List.mem_append, List.mem_singleton]
    constructor
    · rintro (h' | h')
      · exact .inr h'
      · exact .inl ⟨h, h'.symm⟩
    · rintro (⟨-, h'⟩ | h')
      · exact .inr h'.symm
      · exact .inl h'
  · rename_i h
    simp [h]

/-- A record of the transaction's table is valid when it is in the other one and was not last replaced. -/
theorem TxSim.valid_iff (h : TxSim ops p q) (r : Nat) :
    (q.disk r).mark = VAL_MKR ↔ (p.disk r).mark = VAL_MKR ∧ lastOn ops r ≠ some .repl := by
  rw [h.mark]
  split
  · rename_i hl
    simp [hl, TRANS_MKR, VAL_MKR]
  · rename_i hl
    simp [hl]

theorem TxSim.repl_step (h : TxSim ops p q) {r : Nat} {s : Store} {ss : List Store} (hr : r ≠ 0) (hle : r ≤ p.reccnt)
    (hp : opRun upd (.repl r s ss) p = .ok p') (hl : lastOn ops r ≠ some .repl) :
    ∃ q', opRun upd (.repl r s ss) q = .ok q' ∧ TxSim (ops ++ [.repl r s ss]) p' q' := by
  obtain ⟨hread, hv, ndx, hx, rfl⟩ := repl_ok hr hle h.prbk hp
  have hqread : q.readable := by
    unfold Tbl.readable
    rw [h.byprec]
    exact hread
  have hqle : r ≤ q.reccnt := by rw [h.reccnt]; exact hle
  have hqv : (q.disk r).mark = VAL_MKR := (h.valid_iff r).mpr ⟨hv, hl⟩
  have hqx : reindexed upd r (puts (s :: ss) (q.disk r).data) q = .ok ndx := by
    rw [reindexed_congr (h.data r) h.indexActive h.ndx, h.data]
    exact hx
  obtain ⟨log, hlog, hne, hmem⟩ := h.log
  have hpm : replMark p = VAL_MKR := by
    unfold replMark
    rw [h.plog]
    rfl
  have hqm : replMark q = TRANS_MKR := by
    unfold replMark
    rw [hlog]
    rfl
  have hself : lastOn (ops ++ [.repl r s ss]) r = some .repl := lastOn_snoc_self ops (.repl r s ss)
  have hother : ∀ i, i ≠ r → lastOn (ops ++ [.repl r s ss]) i = lastOn ops i := fun i hi => lastOn_snoc_of_ne hi
  refine ⟨{ replaced (hides upd r (puts (s :: ss) (q.disk r).data) q) r (puts (s :: ss) (q.disk r).data) q with ndx }, ?_, ?_⟩
  · rw [opRun_repl s ss hqread hr hqle h.qrbk hqv, hqx]
    rfl
  unfold replaced
  rw [hpm, hqm]
  constructor
  case byprec => exact h.byprec
  case reccnt => exact h.reccnt
  case indexActive => exact h.indexActive
  case ndx => rfl
  case plog =>
    dsimp only
    rw [h.plog]
    rfl
  case prbk => rfl
  case qrbk => rfl
  case log =>
    refine ⟨log ++ [(r, q.disk r)], by dsimp only; rw [hlog]; rfl, ?_, ?_⟩
    · intro e he
      rcases List.mem_append.mp he with he | he
      · exact hne e he
      · rw [List.mem_singleton.mp he]
        exact ⟨hr, hqle, hqread⟩
    · intro i
      rw [List.map_append, List.mem_append, hmem i, repl_mem_snoc]
      constructor
      · rintro (hi | hi)
        · exact .inr hi
        · exact .inl ⟨(List.mem_singleton.mp hi).symm, rfl⟩
      · rintro (⟨hi, -⟩ | hi)
        · exact .inr (List.mem_singleton.mpr hi.symm)
        · exact .inl hi
  case data =>
    intro i
    rcases eq_or_ne i r with rfl | hne'
    · simp only [Function.update_self, h.data]
    · simp only [Function.update_of_ne hne', h.data]
  case mark =>
    intro i
    rcases eq_or_ne i r with rfl | hne'
    · rw [if_pos hself]
      simp only [Function.update_self]
    · rw [hother i hne']
      simp only [Function.update_of_ne hne', h.mark]
  case repl =>
    intro i hi
    rcases eq_or_ne i r with rfl | hne'
    · simp only [Function.update_self]
    · rw [hother i hne'] at hi
      simp only [Function.update_of_ne hne', h.repl i hi]
  case rcal =>
    intro i hi
    rcases eq_or_ne i r with rfl | hne'
    · simp only [Function.update_self]
    · rw [hother i hne'] at hi
      simp only [Function.update_of_ne hne', h.rcal i hi]
  case del =>
    intro i hi
    rcases eq_or_ne i r with rfl | hne'
    · rw [hself] at hi
      cases hi
    · rw [hother i hne'] at hi
      simp only [Function.update_of_ne hne', h.del i hi]

/-- DELETE and RECALL set the same mark in both tables. -/
theorem TxSim.mark_step (h : TxSim ops p q) {q' : Tbl σ} {m : UInt8} (hp : Marked upd op.recno m p p') (hq : Marked upd op.recno m q q')
    (hk : (op.kind = .del ∧ m = DEL_MKR) ∨ (op.kind = .rcal ∧ m = VAL_MKR)) : TxSim (ops ++ [op]) p' q' := by
  have hnr : op.kind ≠ .repl := by
    rcases hk with ⟨hk, -⟩ | ⟨hk, -⟩ <;> rw [hk] <;> decide
  have hself := lastOn_snoc_self ops op
  have hother : ∀ i, i ≠ op.recno → lastOn (ops ++ [op]) i = lastOn ops i := fun i hi => lastOn_snoc_of_ne hi
  constructor
  case byprec => rw [hq.byprec, hp.byprec, h.byprec]
  case reccnt => rw [hq.reccnt, hp.reccnt, h.reccnt]
  case indexActive => rw [hq.indexActive, hp.indexActive, h.indexActive]
  case ndx => exact Except.ok.inj (hq.ndx.symm.trans ((located_congr (h.data op.recno) h.indexActive h.ndx).trans hp.ndx))
  case plog => rw [hp.log, h.plog]
  case prbk => rw [hp.rbkRecno, h.prbk]
  case qrbk => rw [hq.rbkRecno, h.qrbk]
  case log =>
    obtain ⟨log, hlog, hne, hmem⟩ := h.log
    refine ⟨log, by rw [hq.log, hlog], fun e he => ?_, ?_⟩
    · obtain ⟨h0, hle, hread⟩ := hne e he
      refine ⟨h0, by rw [hq.reccnt]; exact hle, ?_⟩
      unfold Tbl.readable
      rw [hq.byprec]
      exact hread
    intro i
    rw [hmem i, repl_mem_snoc]
    constructor
    · exact .inr
    · rintro (⟨-, hi⟩ | hi)
      · exact absurd hi hnr
      · exact hi
  case data =>
    intro i
    rw [hp.disk, hq.disk]
    rcases eq_or_ne i op.recno with rfl | hne
    · simp only [Function.update_self, h.data]
    · simp only [Function.update_of_ne hne, h.data]
  case mark =>
    intro i
    rw [hp.disk, hq.disk]
    rcases eq_or_ne i op.recno with rfl | hne
    · rw [hself, if_neg (by simpa using hnr)]
      simp only [Function.update_self]
    · rw [hother i hne]
      simp only [Function.update_of_ne hne, h.mark]
  case repl =>
    intro i hi
    rw [hp.disk]
    rcases eq_or_ne i op.recno with rfl | hne
    · rw [hself] at hi
      exact absurd (Option.some.inj hi) hnr
    · rw [hother i hne] at hi
      simp only [Function.update_of_ne hne, h.repl i hi]
  case rcal =>
    intro i hi
    rw [hp.disk]
    rcases eq_or_ne i op.recno with rfl | hne
    · rw [hself] at hi
      simp only [Function.update_self]
      rcases hk with ⟨hk, -⟩ | ⟨-, hm⟩
      · rw [hk] at hi
        cases hi
      · exact hm
    · rw [hother i hne] at hi
      simp only [Function.update_of_ne hne, h.rcal i hi]
  case del =>
    intro i hi
    rw [hp.disk]
    rcases eq_or_ne i op.recno with rfl | hne
    · rw [hself] at hi
      simp only [Function.update_self]
      rcases hk with ⟨-, hm⟩ | ⟨hk, -⟩
      · exact hm
      · rw [hk] at hi
        cases hi
    · rw [hother i hne] at hi
      simp only [Function.update_of_ne hne, h.del i hi]

/-- The record is marked in both tables. -/
theorem TxSim.mark_run (h : TxSim ops p q) {m : UInt8} (hr : op.recno ≠ 0) (hle : op.recno ≤ p.reccnt)
    (hp : (goRec upd op.recno p >>= delRecall m) = .ok p') (hk : (op.kind = .del ∧ m = DEL_MKR) ∨ (op.kind = .rcal ∧ m = VAL_MKR)) :
    ∃ q', (goRec upd op.recno q >>= delRecall m) = .ok q' ∧ TxSim (ops ++ [op]) p' q' := by
  obtain ⟨hread, hpm⟩ := mark_ok hr hle hp
  have hqread : q.readable := by
    unfold Tbl.readable
    rw [h.byprec]
    exact hread
  obtain ⟨q', hq', hqm⟩ := delRecall_marked m hqread hr (by rw [h.reccnt]; exact hle) ((located_congr (h.data op.recno) h.indexActive h.ndx).trans hpm.ndx)
  exact ⟨q', hq', h.mark_step hpm hqm hk⟩

/-- A command that succeeds without the transaction succeeds in it, unless it replaces a record again. -/
theorem TxSim.step (h : TxSim ops p q) (hr : op.recno ≠ 0) (hle : op.recno ≤ p.reccnt) (hp : opRun upd op p = .ok p')
    (hl : ¬ (lastOn ops op.recno = some .repl ∧ op.kind = .repl)) :
    ∃ q', opRun upd op q = .ok q' ∧ TxSim (ops ++ [op]) p' q' := by
  cases op with
  | repl r s ss => exact h.repl_step hr hle hp fun hlast => hl ⟨hlast, rfl⟩
  | del r => exact h.mark_run hr hle hp (.inl ⟨rfl, rfl⟩)
  | rcal r => exact h.mark_run hr hle hp (.inr ⟨rfl, rfl⟩)

/-- A record just replaced is not replaced again. -/
theorem TxSim.refused (h : TxSim ops p q) (hr : op.recno ≠ 0) (hle : op.recno ≤ p.reccnt)
    (hl : lastOn ops op.recno = some .repl) (hk : op.kind = .repl) : ∃ e, opRun upd op q = .error e := by
  cases op with
  | repl r s ss =>
    refine opRun_repl_invalid upd s ss hr (by rw [h.reccnt]; exact hle) h.qrbk ?_
    intro hv
    exact ((h.valid_iff r).mp hv).2 hl
  | del r => cases hk
  | rcal r => cases hk

end Step

/-! ## COMMIT -/

section Runs

variable {upd : UpdNdx σ} {ops : List RecOp} {t p : Tbl σ}

theorem once_snoc (ops : List RecOp) (op : RecOp) :
    Once (ops ++ [op]) ↔ Once ops ∧ ¬ (lastOn ops op.recno = some .repl ∧ op.kind = .repl) := by
  have hself : ∀ l : List OpKind, (l ++ [op.kind]).IsChain (fun a b => ¬ (a = .repl ∧ b = .repl)) ↔
      l.IsChain (fun a b => ¬ (a = .repl ∧ b = .repl)) ∧ ¬ (l.getLast? = some .repl ∧ op.kind = .repl) := by
    intro l
    rw [List.isChain_append]
    constructor
    · rintro ⟨h1, -, h2⟩
      refine ⟨h1, ?_⟩
      rintro ⟨hl, hk⟩
      exact h2 .repl hl op.kind rfl ⟨rfl, hk⟩
    · rintro ⟨h1, h2⟩
      refine ⟨h1, List.isChain_singleton _, ?_⟩
      rintro a ha b hb ⟨rfl, hb'⟩
      obtain rfl : op.kind = b := Option.some.inj hb
      exact h2 ⟨ha, hb'⟩
  unfold Once
  constructor
  · intro h
    constructor
    · intro r
      have hr := h r
      rw [kindsOn_snoc] at hr
      split at hr
      · exact ((hself _).mp hr).1
      · exact hr
    · have hr := h op.recno
      rw [kindsOn_snoc, if_pos rfl] at hr
      exact ((hself _).mp hr).2
  · rintro ⟨h1, h2⟩ r
    rw [kindsOn_snoc]
    split
    · rename_i heq
      subst heq
      exact (hself _).mpr ⟨h1 _, h2⟩
    · exact h1 r

theorem txSim_start (hlog : t.log = none) (hk : t.rbkRecno = 0) : TxSim [] t (transactionStart t) where
  byprec := rfl
  reccnt := rfl
  indexActive := rfl
  ndx := rfl
  plog := hlog
  prbk := hk
  qrbk := hk
  log := ⟨[], rfl, by simp [LogReads], by simp [kindsOn]⟩
  data := fun _ => rfl
  mark := fun _ => rfl
  repl := fun _ h => by cases h
  rcal := fun _ h => by cases h
  del := fun _ h => by cases h

/-- The two runs side by side. -/
theorem opsRun_sim (hlog : t.log = none) (hk : t.rbkRecno = 0) (hops : ∀ op ∈ ops, op.recno ≠ 0 ∧ op.recno ≤ t.reccnt)
    (hp : opsRun upd ops t = .ok p) :
    (Once ops → ∃ q, opsRun upd ops (transactionStart t) = .ok q ∧ TxSim ops p q) ∧
      (¬ Once ops → ∃ e, opsRun upd ops (transactionStart t) = .error e) := by
  induction ops using List.reverseRecOn generalizing p with
  | nil =>
    obtain rfl := Except.ok.inj hp
    refine ⟨fun _ => ⟨_, rfl, txSim_start hlog hk⟩, ?_⟩
    intro hno
    exfalso
    apply hno
    intro r
    exact List.isChain_nil
  | append_singleton ops op ih =>
    obtain ⟨p₁, hp₁, hp'⟩ := opsRun_snoc_ok hp
    have hops' : ∀ o ∈ ops, o.recno ≠ 0 ∧ o.recno ≤ t.reccnt := fun o ho => hops o (List.mem_append_left _ ho)
    obtain ⟨hr, hle⟩ := hops op (List.mem_append_right _ (List.mem_singleton_self _))
    obtain ⟨hyes, hno⟩ := ih hops' hp₁
    rw [← (opsRun_frame hk hops' hp₁).2.1] at hle
    rw [once_snoc, opsRun_snoc]
    by_cases honce : Once ops
    · obtain ⟨q₁, hq₁, hsim⟩ := hyes honce
      rw [hq₁]
      by_cases hl : lastOn ops op.recno = some .repl ∧ op.kind = .repl
      · refine ⟨fun h => absurd hl h.2, fun _ => ?_⟩
        exact hsim.refused hr hle hl.1 hl.2
      · refine ⟨fun _ => ?_, fun h => absurd ⟨honce, hl⟩ h⟩
        exact hsim.step hr hle hp' hl
    · obtain ⟨e, he⟩ := hno honce
      rw [he]
      exact ⟨fun h => absurd h.1 honce, fun _ => ⟨e, rfl⟩⟩

/-- COMMIT leaves the disk as it is without the transaction if and only if no record that was replaced
is deleted at the end. -/
theorem TxSim.commit_iff {q : Tbl σ} (h : TxSim ops p q) :
    ∃ q', transactionCommit q = .ok q' ∧ (q'.disk = p.disk ↔ ∀ r, .repl ∈ kindsOn ops r → lastOn ops r ≠ some .del) := by
  obtain ⟨log, hlog, hne, hmem⟩ := h.log
  obtain ⟨q', hrun, hdisk⟩ := transactionCommit_disk hlog hne
  refine ⟨q', hrun, ?_⟩
  rw [hdisk, funext_iff]
  apply forall_congr'
  intro r
  unfold validated
  have hrec : ∀ m, ({ q.disk r with mark := m } : Rec) = p.disk r ↔ m = (p.disk r).mark := by
    intro m
    have hd := h.data r
    constructor
    · intro heq
      rw [← heq]
    · rintro rfl
      show (⟨(p.disk r).mark, (q.disk r).data⟩ : Rec) = p.disk r
      rw [hd]
  by_cases hin : .repl ∈ kindsOn ops r
  · rw [if_pos ((hmem r).mpr hin), hrec]
    have hsome : lastOn ops r ≠ none := by
      unfold lastOn
      rw [Ne, List.getLast?_eq_none_iff]
      exact List.ne_nil_of_mem hin
    constructor
    · intro hm _ hl
      rw [h.del r hl] at hm
      cases hm
    · intro hl
      cases hk : lastOn ops r with
      | none => exact absurd hk hsome
      | some k =>
        cases k with
        | repl => exact (h.repl r hk).symm
        | rcal => exact (h.rcal r hk).symm
        | del => exact absurd hk (hl hin)
  · rw [if_neg (fun hi => hin ((hmem r).mp hi))]
    have hl : lastOn ops r ≠ some .repl := by
      intro hl
      unfold lastOn at hl
      exact hin (List.mem_of_getLast? hl)
    have hm := h.mark r
    rw [if_neg hl] at hm
    constructor
    · intro _ hi
      exact absurd hi hin
    · intro _
      exact (hrec (q.disk r).mark).mpr hm

theorem committed_cases (hlog : t.log = none) (hk : t.rbkRecno = 0)
    (hops : ∀ op ∈ ops, op.recno ≠ 0 ∧ op.recno ≤ t.reccnt) (hp : opsRun upd ops t = .ok p) :
    (¬ Once ops ∧ ∃ e, committed upd ops t = .error e) ∨
      (Once ops ∧ ∃ q, committed upd ops t = .ok q ∧ (q.disk = p.disk ↔ ∀ r, .repl ∈ kindsOn ops r → lastOn ops r ≠ some .del)) := by
  obtain ⟨hyes, hno⟩ := opsRun_sim hlog hk hops hp
  unfold committed
  by_cases honce : Once ops
  · obtain ⟨q, hq, hsim⟩ := hyes honce
    rw [hq]
    exact .inr ⟨honce, hsim.commit_iff⟩
  · obtain ⟨e, he⟩ := hno honce
    rw [he]
    exact .inl ⟨honce, e, rfl⟩

/-- Commands that succeed without a transaction succeed between `transaction_start` and
`transaction_commit` and leave the same records if and only if no record is replaced twice with
nothing else done to it in between, and none that is replaced is left deleted. -/
theorem committed_iff (hlog : t.log = none) (hk : t.rbkRecno = 0) (hops : ∀ op ∈ ops, op.recno ≠ 0 ∧ op.recno ≤ t.reccnt)
    (hp : opsRun upd ops t = .ok p) :
    (∃ q, committed upd ops t = .ok q ∧ q.disk = p.disk) ↔ Committable ops := by
  rcases committed_cases hlog hk hops hp with ⟨honce, e, he⟩ | ⟨honce, q, hq, hdisk⟩
  · constructor
    · rintro ⟨q, hq, -⟩
      rw [he] at hq
      cases hq
    · intro h
      exact absurd h.once honce
  · constructor
    · rintro ⟨q', hq', hsame⟩
      obtain rfl : q = q' := Except.ok.inj (hq.symm.trans hq')
      exact ⟨honce, hdisk.mp hsame⟩
    · intro h
      exact ⟨q, hq, hdisk.mpr h.alive⟩

/-- A table with one valid record of one byte. -/
def oneRec : Tbl Unit :=
  { byprec := 2, reccnt := 1, disk := fun _ => ⟨VAL_MKR, [65]⟩, buf := ⟨VAL_MKR, [65]⟩, crntrec := 1, eof := false
    tof := false, mode := .none, rbkRecno := 0, rbkBuf := ⟨VAL_MKR, []⟩, log := none, indexActive := false, ndx := () }

theorem oneRec_committed :
    ∃ p, opsRun noUpd [.repl 1 ⟨0, [66]⟩ []] oneRec = .ok p ∧
      ∃ q, committed noUpd [.repl 1 ⟨0, [66]⟩ []] oneRec = .ok q ∧ q.disk = p.disk := by
  refine ⟨_, rfl, (committed_iff rfl rfl (by decide) rfl).mpr ⟨?_, ?_⟩⟩
  · intro r
    rcases eq_or_ne r 1 with rfl | hne
    · exact List.isChain_singleton _
    · simp [kindsOn, RecOp.recno, hne.symm]
  · intro r _
    rcases eq_or_ne r 1 with rfl | hne
    · decide
    · simp [lastOn, kindsOn, RecOp.recno, hne.symm]

/-- A second REPLACE is refused in a transaction, and COMMIT recalls a record that was replaced and then
deleted. -/
theorem oneRec_not_committed :
    (∃ p, opsRun noUpd [.repl 1 ⟨0, [66]⟩ [], .repl 1 ⟨0, [67]⟩ []] oneRec = .ok p ∧
        ¬ ∃ q, committed noUpd [.repl 1 ⟨0, [66]⟩ [], .repl 1 ⟨0, [67]⟩ []] oneRec = .ok q) ∧
      ∃ p q, opsRun noUpd [.repl 1 ⟨0, [66]⟩ [], .del 1] oneRec = .ok p ∧
        committed noUpd [.repl 1 ⟨0, [66]⟩ [], .del 1] oneRec = .ok q ∧
        (p.disk 1).mark = DEL_MKR ∧ (q.disk 1).mark = VAL_MKR := by
  constructor
  · refine ⟨_, rfl, ?_⟩
    rintro ⟨q, hq⟩
    cases hq
  · exact ⟨_, _, rfl, rfl, by decide, by decide⟩

end Runs

end Db3w
