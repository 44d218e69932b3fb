/-
START of a transaction that fails. The id is set before the transaction file is known to be new, and
is left when it is not; where the rollback file of a table cannot be made, the general CANCEL removes
the rollback files of all open tables, also those that were there before. So a failed START changes
nothing when the failure is the rollback file of a table and none of the names was taken.
-/
import Db3w.Dbf.TransFiles

namespace Db3w.TransFiles

/-- A failed START changed nothing: no transaction, no file and no descriptor. -/
structure StartRight (st st' : TransSt) : Prop where
  inactive : st.transId = [] → st'.transId = []
  files : ∀ p c, st.files p = some c → st'.files p = some c
  fds : ∀ i p, (st'.ctx i).rbkFd = some p → (st.ctx i).rbkFd = some p

/-- START changes nothing when it fails. -/
def StartSafe (rootpath : Str) (fs : FsPerm) (t : Ident) (st : TransSt) : Prop :=
  ∀ e st', transactionStart rootpath fs t.chars st = (some e, st') → StartRight st st'

theorem StartSafe.right {rootpath : Str} {fs : FsPerm} {t : Ident} {st : TransSt} {e : TransErr} (h : StartSafe rootpath fs t st)
    (he : (transactionStart rootpath fs t.chars st).1 = some e) : StartRight st (transactionStart rootpath fs t.chars st).2 :=
  h e _ (Prod.ext he rfl)

/-- The tables that get a rollback file, in order. -/
def writables (st : TransSt) (is : List CtxId) : List CtxId :=
  is.filter fun i => (st.ctx i).filename ≠ none ∧ (st.ctx i).readonly = false

/-- The rollback files of the tables can be made one after the other. -/
structure Fresh (can : Str → Bool) (tid : Str) (st : TransSt) (A : List CtxId) : Prop where
  new : ∀ i ∈ A, ∃ p, rbkPath st tid i = some p ∧ st.files p = none ∧ can p = true
  apart : A.Pairwise fun i j => rbkPath st tid i ≠ rbkPath st tid j

/-- The rollback files of the tables `A` are made and that of `k` cannot be, and CANCEL takes back just these. -/
structure Undone (can : Str → Bool) (tid : Str) (st : TransSt) (A : List CtxId) (k : CtxId) : Prop where
  fresh : Fresh can tid st A
  stops : ¬Fresh can tid st (A ++ [k])
  /-- No open table, read-only ones included, has a rollback file of the id. -/
  absent : ∀ i ∈ workCtx, (st.ctx i).filename ≠ none → ∃ p, rbkPath st tid i = some p ∧ st.files p = none
  /-- No open table is left with a record that is being changed. -/
  stored : ∀ i ∈ workCtx, (st.ctx i).filename ≠ none → i ≠ k → i ∈ A ∨ (st.ctx i).rbkFd ≠ none → (st.ctx i).recno = 0

/-! ## The loop -/

section Loop

variable {can : Str → Bool} {tid : Str} {st st₁ : TransSt} {A B : List CtxId} {k : CtxId}

theorem fresh_nil : Fresh can tid st [] := ⟨fun _ h => absurd h List.not_mem_nil, List.Pairwise.nil⟩

theorem Fresh.of_prefix (h : Fresh can tid st B) (hp : A <+: B) : Fresh can tid st A :=
  ⟨fun i hi => h.new i (hp.subset hi), h.apart.sublist hp.sublist⟩

theorem fresh_snoc : Fresh can tid st (A ++ [k]) ↔
    Fresh can tid st A ∧ (∃ p, rbkPath st tid k = some p ∧ st.files p = none ∧ can p = true) ∧
      ∀ i ∈ A, rbkPath st tid i ≠ rbkPath st tid k := by
  constructor
  · intro h
    refine ⟨h.of_prefix (List.prefix_append _ _), h.new k (by simp), fun i hi => ?_⟩
    exact (List.pairwise_append.mp h.apart).2.2 i hi k (by simp)
  · rintro ⟨h, hk, hne⟩
    constructor
    · intro i hi
      rcases List.mem_append.mp hi with hi | hi
      · exact h.new i hi
      · rw [List.mem_singleton.mp hi]
        exact hk
    · refine List.pairwise_append.mpr ⟨h.apart, List.pairwise_singleton _ _, fun i hi j hj => ?_⟩
      rw [List.mem_singleton.mp hj]
      exact hne i hi

/-- There is one first table whose rollback file cannot be made. -/
theorem stops_unique {A' B' : List CtxId} {k' : CtxId} (h : A ++ k :: B = A' ++ k' :: B') (hA : Fresh can tid st A)
    (hk : ¬Fresh can tid st (A ++ [k])) (hA' : Fresh can tid st A') (hk' : ¬Fresh can tid st (A' ++ [k'])) : A = A' ∧ k = k' := by
  have hlen : A.length = A'.length := by
    by_contra hne
    rcases Nat.lt_or_gt_of_ne hne with hlt | hlt
    · -- the first stop would lie before the second
      refine hk (hA'.of_prefix ?_)
      refine List.prefix_of_prefix_length_le ⟨B, by simp⟩ (⟨k' :: B', h.symm⟩ : A' <+: A ++ k :: B) ?_
      simpa using hlt
    · refine hk' (hA.of_prefix ?_)
      refine List.prefix_of_prefix_length_le ⟨B', by simp⟩ (⟨k :: B, h⟩ : A <+: A' ++ k' :: B') ?_
      simpa using hlt
  obtain ⟨h1, h2⟩ := List.append_inj h hlen
  exact ⟨h1, (List.cons.inj h2).1⟩

/-- The tables of `A` have got their rollback files. -/
structure Opened (tid : Str) (A : List CtxId) (st st' : TransSt) : Prop where
  transId : st'.transId = st.transId
  filename : ∀ i, (st'.ctx i).filename = (st.ctx i).filename
  readonly : ∀ i, (st'.ctx i).readonly = (st.ctx i).readonly
  recno : ∀ i, (st'.ctx i).recno = (st.ctx i).recno
  fd_mem : ∀ i ∈ A, (st'.ctx i).rbkFd = rbkPath st tid i
  fd_notMem : ∀ i ∉ A, (st'.ctx i).rbkFd = (st.ctx i).rbkFd
  file_mem : ∀ i ∈ A, ∀ p, rbkPath st tid i = some p → st'.files p ≠ none
  file_notMem : ∀ p, (∀ i ∈ A, rbkPath st tid i ≠ some p) → st'.files p = st.files p

theorem Opened.nil : Opened tid [] st st where
  transId := rfl
  filename _ := rfl
  readonly _ := rfl
  recno _ := rfl
  fd_mem _ h := absurd h List.not_mem_nil
  fd_notMem _ _ := rfl
  file_mem _ h := absurd h List.not_mem_nil
  file_notMem _ _ := rfl

theorem Opened.rbkPath_eq (h : Opened tid A st st₁) (i : CtxId) : rbkPath st₁ tid i = rbkPath st tid i := by
  unfold rbkPath
  rw [h.filename]

/-- The next table gets its file just when the files are fresh with it. -/
theorem Opened.openNew_iff (h : Opened tid A st st₁) (hA : Fresh can tid st A) {p : Str} (hp : rbkPath st tid k = some p) :
    (st₁.files p = none ∧ can p = true) ↔ Fresh can tid st (A ++ [k]) := by
  rw [fresh_snoc]
  constructor
  · rintro ⟨hn, hc⟩
    have hne : ∀ i ∈ A, rbkPath st tid i ≠ some p := fun i hi hip => h.file_mem i hi p hip hn
    rw [h.file_notMem p hne] at hn
    exact ⟨hA, ⟨p, hp, hn, hc⟩, fun i hi => hp ▸ hne i hi⟩
  · rintro ⟨-, ⟨q, hq, hn, hc⟩, hne⟩
    obtain rfl : p = q := Option.some.inj (hp.symm.trans hq)
    exact ⟨(h.file_notMem p fun i hi => hp ▸ hne i hi).trans hn, hc⟩

/-- A table is added to those that have their files. -/
theorem Opened.snoc (h : Opened tid A st st₁) {p : Str} (hp : rbkPath st tid k = some p) :
    Opened tid (A ++ [k]) st (TransSt.setCtx { st₁ with files := Function.update st₁.files p (some []) } k
      { st₁.ctx k with rbkFd := some p }) := by
  have hctx : ∀ i, i ≠ k → Function.update st₁.ctx k { st₁.ctx k with rbkFd := some p } i = st₁.ctx i :=
    fun i hi => Function.update_of_ne hi _ _
  have hself : Function.update st₁.ctx k { st₁.ctx k with rbkFd := some p } k = { st₁.ctx k with rbkFd := some p } :=
    Function.update_self ..
  unfold TransSt.setCtx
  constructor
  case transId => exact h.transId
  case filename =>
    intro i
    dsimp only
    by_cases hi : i = k
    · rw [hi, hself, h.filename]
    · rw [hctx i hi, h.filename]
  case readonly =>
    intro i
    dsimp only
    by_cases hi : i = k
    · rw [hi, hself, h.readonly]
    · rw [hctx i hi, h.readonly]
  case recno =>
    intro i
    dsimp only
    by_cases hi : i = k
    · rw [hi, hself, h.recno]
    · rw [hctx i hi, h.recno]
  case fd_mem =>
    intro i hi
    dsimp only
    by_cases hik : i = k
    · rw [hik, hself, hp]
    · rw [hctx i hik]
      exact h.fd_mem i ((List.mem_append.mp hi).resolve_right fun h' => hik (List.mem_singleton.mp h'))
  case fd_notMem =>
    intro i hi
    rw [List.mem_append, List.mem_singleton, not_or] at hi
    dsimp only
    rw [hctx i hi.2, h.fd_notMem i hi.1]
  case file_mem =>
    intro i hi q hq
    dsimp only
    by_cases hqp : q = p
    · rw [hqp, Function.update_self]
      exact Option.some_ne_none _
    · rw [Function.update_of_ne hqp]
      rcases List.mem_append.mp hi with hi | hi
      · exact h.file_mem i hi q hq
      · rw [List.mem_singleton.mp hi, hp] at hq
        exact absurd (Option.some.inj hq).symm hqp
  case file_notMem =>
    intro q hq
    have hqp : q ≠ p := by
      rintro rfl
      exact hq k (by simp) hp
    dsimp only
    rw [Function.update_of_ne hqp, h.file_notMem q fun i hi => hq i (List.mem_append_left _ hi)]

/-- How the loop ends, for the tables `ws` from the state `st`. -/
inductive LoopPost (can : Str → Bool) (tid : Str) (st : TransSt) (ws : List CtxId) : Option TransErr × Str × TransSt → Prop where
  | all (h : Fresh can tid st ws) {lines : Str} {st' : TransSt} (ho : Opened tid ws st st') : LoopPost can tid st ws (none, lines, st')
  | tooLong {A B : List CtxId} {k : CtxId} (hws : ws = A ++ k :: B) (hA : Fresh can tid st A) (hk : rbkPath st tid k = none)
      {lines : Str} {st' : TransSt} (ho : Opened tid A st st') : LoopPost can tid st ws (some .nameTooLong, lines, st')
  | failed {A B : List CtxId} {k : CtxId} (hws : ws = A ++ k :: B) (hA : Fresh can tid st A) (hk : ¬Fresh can tid st (A ++ [k]))
      {lines : Str} {st' : TransSt} (ho : Opened tid A st st') :
      LoopPost can tid st ws (some .noRbk, lines, st'.setCtx k { st'.ctx k with rbkFd := none })

theorem startLoop_post (is : List CtxId) (lines : Str) (hA : Fresh can tid st A) (ho : Opened tid A st st₁) :
    LoopPost can tid st (A ++ writables st is) (startLoop can tid is lines st₁) := by
  induction is generalizing A lines st₁ with
  | nil =>
    rw [show A ++ writables st [] = A from List.append_nil A]
    exact .all hA ho
  | cons i is ih =>
    rw [startLoop, ho.filename]
    cases hfn : (st.ctx i).filename with
    | none =>
      have hw : writables st (i :: is) = writables st is := List.filter_cons_of_neg (by simp [hfn])
      rw [hw]
      exact ih lines hA ho
    | some fn =>
      dsimp only
      rw [ho.readonly]
      cases hro : (st.ctx i).readonly with
      | true =>
        have hw : writables st (i :: is) = writables st is := List.filter_cons_of_neg (by simp [hro])
        rw [hw, if_pos rfl]
        exact ih lines hA ho
      | false =>
        have hw : A ++ writables st (i :: is) = A ++ i :: writables st is := by
          rw [show writables st (i :: is) = i :: writables st is from List.filter_cons_of_pos (by simp [hfn, hro])]
        rw [hw, if_neg (by simp)]
        unfold rbkOpen
        rw [← rbkPath_some hfn]
        cases hp : rbkPath st tid i with
        | none => exact .tooLong rfl hA hp ho
        | some p =>
          dsimp only
          by_cases hopen : st₁.files p = none ∧ can p = true
          · rw [show openNew can p st₁ = some { st₁ with files := Function.update st₁.files p (some []) } from if_pos hopen]
            have hA' := (ho.openNew_iff hA hp).mp hopen
            have h := ih (lines ++ fn ++ ['\n']) hA' (ho.snoc hp)
            rw [List.append_assoc, List.singleton_append] at h
            exact h
          · rw [show openNew can p st₁ = none from if_neg hopen]
            exact .failed rfl hA (fun h => hopen ((ho.openNew_iff hA hp).mpr h)) ho

end Loop

/-! ## START -/

section Start

variable {rootpath : Str} {fs : FsPerm} {t : Ident} {st : TransSt} {tp : Str} {A : List CtxId} {k : CtxId}

/-- The state in which the loop of START begins. -/
def started (t : Ident) (tp : Str) (st : TransSt) : TransSt :=
  { st with transId := chgcase t.chars, files := Function.update st.files tp (some []) }

theorem started_files (htp : transactionGetPath rootpath t.chars = some tp) {fn p : Str} (hp : formRbkFn t.chars fn = some p) :
    (started t tp st).files p = st.files p := by
  refine Function.update_of_ne ?_ _ _
  rintro rfl
  exact formRbkFn_ne_path (IdStr.noDot t.idChars) hp htp

theorem rbkPath_form {i : CtxId} {p : Str} (hp : rbkPath st t.chars i = some p) : ∃ fn, formRbkFn t.chars fn = some p := by
  cases hfn : (st.ctx i).filename with
  | none => exact absurd hfn (filename_of_rbkPath hp)
  | some fn => exact ⟨fn, (rbkPath_some hfn).symm.trans hp⟩

theorem fresh_started (htp : transactionGetPath rootpath t.chars = some tp) {can : Str → Bool} :
    Fresh can t.chars (started t tp st) A ↔ Fresh can t.chars st A := by
  have hnew : ∀ i p, rbkPath st t.chars i = some p → (started t tp st).files p = st.files p := by
    intro i p hp
    obtain ⟨fn, hfn⟩ := rbkPath_form hp
    exact started_files htp hfn
  constructor
  · rintro ⟨hn, ha⟩
    refine ⟨fun i hi => ?_, ha⟩
    obtain ⟨p, hp, hf, hc⟩ := hn i hi
    exact ⟨p, hp, (hnew i p hp) ▸ hf, hc⟩
  · rintro ⟨hn, ha⟩
    refine ⟨fun i hi => ?_, ha⟩
    obtain ⟨p, hp, hf, hc⟩ := hn i hi
    exact ⟨p, hp, (hnew i p hp).trans hf, hc⟩

/-- The id was set and is still there. -/
theorem not_startRight_of_transId {st' : TransSt} (hid : st.transId = []) (h : st'.transId = chgcase t.chars) : ¬StartRight st st' := by
  intro hr
  have hnil := hr.inactive hid
  rw [h, chgcase_eq_nil] at hnil
  exact t.nonempty hnil

/-- What CANCEL makes of the tables `A` that have their rollback files and the table `k` that has not. -/
theorem cancelled_right_iff (hid : st.transId = []) (htp : transactionGetPath rootpath t.chars = some tp) (hfree : st.files tp = none)
    (hA : ∀ i ∈ A, i ∈ workCtx ∧ (st.ctx i).filename ≠ none) (hk : k ∈ workCtx ∧ (st.ctx k).filename ≠ none)
    (hfresh : Fresh fs.can t.chars st A) (hstop : ¬Fresh fs.can t.chars st (A ++ [k])) {st' : TransSt}
    (ho : Opened t.chars A (started t tp st) st') (lines : Str) :
    StartRight st (transactionCancel rootpath t.chars ((st'.setCtx k { st'.ctx k with rbkFd := none }).write tp lines)).2 ↔
      Undone fs.can t.chars st A k := by
  generalize hs2 : (st'.setCtx k { st'.ctx k with rbkFd := none }).write tp lines = st₂
  have hid₂ : st₂.transId = chgcase t.chars := by
    rw [← hs2]
    exact ho.transId
  have hctx : ∀ i, i ≠ k → st₂.ctx i = st'.ctx i := by
    intro i hi
    rw [← hs2]
    exact Function.update_of_ne hi _ _
  have hctxk : st₂.ctx k = { st'.ctx k with rbkFd := none } := by
    rw [← hs2]
    exact Function.update_self ..
  have hfn : ∀ i, (st₂.ctx i).filename = (st.ctx i).filename := by
    intro i
    by_cases hi : i = k
    · rw [hi, hctxk]
      exact ho.filename k
    · rw [hctx i hi]
      exact ho.filename i
  have hpath : ∀ i, rbkPath st₂ t.chars i = rbkPath st t.chars i := by
    intro i
    unfold rbkPath
    rw [hfn]
  have hfd : ∀ i, i ≠ k → i ∉ A → (st₂.ctx i).rbkFd = (st.ctx i).rbkFd := by
    intro i hi hiA
    rw [hctx i hi]
    exact ho.fd_notMem i hiA
  have hunst : ∀ i, i ∈ workCtx → (Unstored st₂ i ↔
      (st.ctx i).filename ≠ none ∧ i ≠ k ∧ (i ∈ A ∨ (st.ctx i).rbkFd ≠ none) ∧ (st.ctx i).recno ≠ 0) := by
    intro i _
    unfold Unstored
    rw [hfn]
    by_cases hi : i = k
    · rw [hi, hctxk]
      simp
    rw [hctx i hi, show (st'.ctx i).recno = (st.ctx i).recno from ho.recno i]
    by_cases hiA : i ∈ A
    · obtain ⟨p, hp, -⟩ := hfresh.new i hiA
      rw [ho.fd_mem i hiA, show rbkPath (started t tp st) t.chars i = some p from hp]
      simp [hi, hiA]
    · rw [ho.fd_notMem i hiA]
      simp only [hi, hiA, ne_eq, not_false_eq_true, true_and, false_or]
      rfl
  have hfiles : ∀ p, p ≠ tp → (∀ i ∈ A, rbkPath st t.chars i ≠ some p) → st₂.files p = st.files p := by
    intro p hp hpA
    rw [← hs2]
    refine (Function.update_of_ne hp _ _).trans ?_
    exact (ho.file_notMem p hpA).trans (Function.update_of_ne hp _ _)
  have hmatch : transactionIsMatch t.chars st₂ = true := by
    have hkept : KeptId st₂.transId := hid₂ ▸ t.kept
    refine (transactionIsMatch_iff hkept ⟨t.chars, IdStr.isStr t.idChars⟩).mpr ?_
    rw [hid₂]
  have hpost := transactionCancel_post rootpath t.chars st₂
  generalize transactionCancel rootpath t.chars st₂ = res at hpost
  cases hpost with
  | notFound h => exact absurd hmatch (by simp [h])
  | noEnd _ h =>
    refine iff_of_false (not_startRight_of_transId hid hid₂) fun hu => ?_
    obtain ⟨i, hi, hus⟩ := h
    obtain ⟨hin, hik, hor, hr⟩ := (hunst i hi).mp hus
    exact hr (hu.stored i hi hin hik hor)
  | tooLong _ h hid' =>
    refine iff_of_false (not_startRight_of_transId hid (hid'.trans hid₂)) fun hu => ?_
    rcases h with ⟨i, hi, hin, hnone⟩ | hnone
    · rw [hfn] at hin
      obtain ⟨p, hp, -⟩ := hu.absent i hi hin
      rw [hpath, hp] at hnone
      cases hnone
    · rw [htp] at hnone
      cases hnone
  | @done _ hstored hname tp' htp' st₃ hs =>
    obtain rfl : tp = tp' := Option.some.inj (htp.symm.trans htp')
    have hfiles₃ : ∀ p, p ≠ tp → (Function.update st₃.files tp none) p = st₃.files p := fun p hp => Function.update_of_ne hp _ _
    constructor
    · intro hr
      refine ⟨hfresh, hstop, fun i hi hin => ?_, fun i hi hin hik hor => ?_⟩
      · have hp' := hname i hi (by rwa [hfn])
        rw [hpath] at hp'
        obtain ⟨p, hp⟩ := Option.ne_none_iff_exists'.mp hp'
        refine ⟨p, hp, ?_⟩
        -- a file that was there would be gone
        cases hc : st.files p with
        | none => rfl
        | some c =>
          have hkept : (Function.update st₃.files tp none) p = some c := hr.files p c hc
          have hne : p ≠ tp := by
            rintro rfl
            rw [hfree] at hc
            cases hc
          rw [hfiles₃ p hne, hs.file_mem i ⟨hi, by rwa [hfn]⟩ p (by rw [hpath]; exact hp)] at hkept
          cases hkept
      · by_contra hrec
        exact hstored i hi ((hunst i hi).mpr ⟨hin, hik, hor, hrec⟩)
    · intro hu
      refine ⟨fun _ => rfl, fun p c hc => ?_, fun i p hp => ?_⟩
      · have hne : p ≠ tp := by
          rintro rfl
          rw [hfree] at hc
          cases hc
        have hno : ∀ i, i ∈ workCtx → (st.ctx i).filename ≠ none → rbkPath st t.chars i ≠ some p := by
          intro i hi hin hip
          obtain ⟨q, hq, hqn⟩ := hu.absent i hi hin
          rw [Option.some.inj (hip.symm.trans hq), hqn] at hc
          cases hc
        refine (hfiles₃ p hne).trans ?_
        rw [hs.file_notMem p fun i hi => by rw [hpath]; exact hno i hi.1 (by rw [← hfn]; exact hi.2),
          hfiles p hne fun i hi => hno i (hA i hi).1 (hA i hi).2]
        exact hc
      · have hp' : (st₃.ctx i).rbkFd = some p := hp
        by_cases hiw : i ∈ workCtx ∧ (st.ctx i).filename ≠ none
        · rw [hs.fd_mem i ⟨hiw.1, by rw [hfn]; exact hiw.2⟩] at hp'
          cases hp'
        · rw [hs.ctx_notMem i fun h => hiw ⟨h.1, by rw [← hfn]; exact h.2⟩] at hp'
          rw [hfd i (fun h => hiw (h ▸ hk)) fun h => hiw (hA i h)] at hp'
          exact hp'

theorem transactionStart_eq (hid : st.transId = []) (hlen : t.chars.length ≤ TRANSID_LEN) (hdir : fs.dirOk = true)
    (htp : transactionGetPath rootpath t.chars = some tp) (hfree : st.files tp = none) (hcan : fs.can tp = true) :
    transactionStart rootpath fs t.chars st =
      match startLoop fs.can t.chars workCtx [] (started t tp st) with
      | (none, lines, st) => (none, st.write tp lines)
      | (some .nameTooLong, _, st) => (some .nameTooLong, st)
      | (some _, lines, st) =>
        match transactionCancel rootpath t.chars (st.write tp lines) with
        | (some e, st) => (some e, st)
        | (none, st) => (some .fail, st) := by
  unfold transactionStart
  rw [if_neg (not_not.mpr hid), if_neg (by omega), htp]
  dsimp only
  rw [if_neg (by simp [hdir])]
  have hopen : openNew fs.can tp { st with transId := chgcase t.chars } = some (started t tp st) := if_pos ⟨hfree, hcan⟩
  split
  · rename_i h
    cases hopen.symm.trans h
  · rename_i h
    cases hopen.symm.trans h
    rfl

theorem startLoop_started : LoopPost fs.can t.chars (started t tp st) (writables st workCtx)
    (startLoop fs.can t.chars workCtx [] (started t tp st)) := startLoop_post workCtx [] fresh_nil Opened.nil

/-- START once the transaction file has been made. -/
theorem started_safe_iff (hid : st.transId = []) (hlen : t.chars.length ≤ TRANSID_LEN) (hdir : fs.dirOk = true)
    (htp : transactionGetPath rootpath t.chars = some tp) (hfree : st.files tp = none) (hcan : fs.can tp = true) :
    StartSafe rootpath fs t st ↔ Fresh fs.can t.chars st (writables st workCtx) ∨
      ∃ A k B, writables st workCtx = A ++ k :: B ∧ Undone fs.can t.chars st A k := by
  have hmem : ∀ {A B : List CtxId} {k : CtxId}, writables st workCtx = A ++ k :: B →
      (∀ i ∈ A, i ∈ workCtx ∧ (st.ctx i).filename ≠ none) ∧ k ∈ workCtx ∧ (st.ctx k).filename ≠ none := by
    intro A B k hws
    have h : ∀ i ∈ A ++ k :: B, i ∈ workCtx ∧ (st.ctx i).filename ≠ none := by
      intro i hi
      rw [← hws] at hi
      obtain ⟨h1, h2⟩ := List.mem_filter.mp hi
      exact ⟨h1, (of_decide_eq_true h2).1⟩
    exact ⟨fun i hi => h i (List.mem_append_left _ hi), h k (by simp)⟩
  -- the table that stops the loop is the only one the condition can be about
  have honly : ∀ {A B : List CtxId} {k : CtxId}, writables st workCtx = A ++ k :: B → Fresh fs.can t.chars st A →
      ¬Fresh fs.can t.chars st (A ++ [k]) →
      ((Fresh fs.can t.chars st (writables st workCtx) ∨
        ∃ A k B, writables st workCtx = A ++ k :: B ∧ Undone fs.can t.chars st A k) ↔ Undone fs.can t.chars st A k) := by
    intro A B k hws hA hk
    constructor
    · rintro (hall | ⟨A', k', B', hws', hu⟩)
      · exact absurd (hall.of_prefix ⟨B, by rw [hws]; simp⟩) hk
      · obtain ⟨rfl, rfl⟩ := stops_unique (hws.symm.trans hws') hA hk hu.fresh hu.stops
        exact hu
    · exact fun hu => .inr ⟨A, k, B, hws, hu⟩
  have hpost : LoopPost fs.can t.chars (started t tp st) (writables st workCtx)
      (startLoop fs.can t.chars workCtx [] (started t tp st)) := startLoop_started
  unfold StartSafe
  rw [transactionStart_eq hid hlen hdir htp hfree hcan]
  generalize startLoop fs.can t.chars workCtx [] (started t tp st) = res at hpost
  cases hpost with
  | all h ho =>
    rw [fresh_started htp] at h
    exact iff_of_true (fun e st' he => absurd (congrArg Prod.fst he) (by simp)) (.inl h)
  | @tooLong A B k hws hA hk lines st' ho =>
    rw [fresh_started htp] at hA
    have hnone : rbkPath st t.chars k = none := hk
    have hstop : ¬Fresh fs.can t.chars st (A ++ [k]) := fun h => by
      obtain ⟨p, hp, -⟩ := (fresh_snoc.mp h).2.1
      rw [hnone] at hp
      cases hp
    rw [honly hws hA hstop]
    refine iff_of_false (fun hs => not_startRight_of_transId hid ho.transId (hs _ _ rfl)) fun hu => ?_
    obtain ⟨p, hp, -⟩ := hu.absent k (hmem hws).2.1 (hmem hws).2.2
    rw [hnone] at hp
    cases hp
  | failed hws hA hk ho =>
    rw [fresh_started htp] at hA hk
    rw [honly hws hA hk, ← cancelled_right_iff hid htp hfree (hmem hws).1 (hmem hws).2 hA hk ho]
    dsimp only
    generalize transactionCancel rootpath t.chars _ = res
    obtain ⟨e, st'⟩ := res
    cases e with
    | none => exact ⟨fun h => h _ _ rfl, fun h e st'' he => by cases he; exact h⟩
    | some e => exact ⟨fun h => h _ _ rfl, fun h e st'' he => by cases he; exact h⟩

/-- START changes nothing when it fails, exactly when a transaction is active, the id is too long, or the transaction file can be
made and so can the rollback files, or the tables before the first one that stops it are all that CANCEL has to take back. -/
theorem startSafe_iff (rootpath : Str) (fs : FsPerm) (t : Ident) (st : TransSt) : StartSafe rootpath fs t st ↔
    st.transId ≠ [] ∨ TRANSID_LEN < t.chars.length ∨
      (fs.dirOk = true ∧ ∃ tp, transactionGetPath rootpath t.chars = some tp ∧ st.files tp = none ∧ fs.can tp = true ∧
        (Fresh fs.can t.chars st (writables st workCtx) ∨
          ∃ A k B, writables st workCtx = A ++ k :: B ∧ Undone fs.can t.chars st A k)) := by
  have hsame : StartRight st st := ⟨id, fun _ _ h => h, fun _ _ h => h⟩
  by_cases hid : st.transId = []
  swap
  · refine iff_of_true (fun e st' he => ?_) (.inl hid)
    rw [show transactionStart rootpath fs t.chars st = (some .alrdyOn, st) from if_pos hid] at he
    cases he
    exact hsame
  by_cases hlen : TRANSID_LEN < t.chars.length
  · refine iff_of_true (fun e st' he => ?_) (.inr (.inl hlen))
    unfold transactionStart at he
    rw [if_neg (not_not.mpr hid), if_pos hlen] at he
    cases he
    exact hsame
  -- from here on the id is set
  have hset : ∀ (e : TransErr) (st' : TransSt), transactionStart rootpath fs t.chars st = (some e, st') →
      st'.transId = chgcase t.chars → ¬StartSafe rootpath fs t st :=
    fun _ _ he h hs => not_startRight_of_transId hid h (hs _ _ he)
  by_cases hdir : fs.dirOk = true
  swap
  · refine iff_of_false (hset .mkdirFailed { st with transId := chgcase t.chars } ?_ rfl) (by simp [hid, hlen, hdir])
    unfold transactionStart
    rw [if_neg (not_not.mpr hid), if_neg hlen]
    exact if_pos hdir
  cases htp : transactionGetPath rootpath t.chars with
  | none =>
    refine iff_of_false (hset .nameTooLong { st with transId := chgcase t.chars } ?_ rfl) (by simp [hid, hlen])
    unfold transactionStart
    rw [if_neg (not_not.mpr hid), if_neg hlen, htp]
    exact if_neg (not_not.mpr hdir)
  | some tp =>
    by_cases hopen : st.files tp = none ∧ fs.can tp = true
    · rw [started_safe_iff hid (not_lt.mp hlen) hdir htp hopen.1 hopen.2]
      simp [hid, hlen, hdir, hopen]
    · have hrun : transactionStart rootpath fs t.chars st =
          (some (if (st.files tp).isSome then .exist else .dbOpen), { st with transId := chgcase t.chars }) := by
        unfold transactionStart
        rw [if_neg (not_not.mpr hid), if_neg hlen, htp]
        dsimp only
        rw [if_neg (not_not.mpr hdir), show openNew fs.can tp { st with transId := chgcase t.chars } = none from if_neg hopen]
      refine iff_of_false (hset _ _ hrun rfl) ?_
      simp only [hid, hlen, hdir, ne_eq, not_true_eq_false, false_or, true_and, Option.some.injEq]
      rintro ⟨_, rfl, h1, h2, -⟩
      exact hopen ⟨h1, h2⟩

end Start

/-! ## An id that is taken, and a log that is lost -/

/-- Context 0 has the table at the path open for writing, and so has context 1 a second one. -/
def twoTables : CtxId → RbkCtx :=
  Function.update (Function.update (fun _ => .closed) ⟨0, by decide⟩ ⟨some "/a.dbf".toList, false, none, 0⟩) ⟨1, by decide⟩
    ⟨some "/b.dbf".toList, false, none, 0⟩

/-- A file at one path. -/
def oneFile (p c : String) : Str → Option Str := Function.update (fun _ => none) p.toList (some c.toList)

def idT1 : Ident where
  chars := ['t', '1']
  nonempty := List.cons_ne_nil _ _
  idChars := List.forall_mem_cons.mpr ⟨by decide, List.forall_mem_singleton.mpr (by decide)⟩

/-- All files can be made. -/
def allPerm : FsPerm := ⟨true, fun _ => true⟩

/-- The transaction file of the id is there. -/
def takenId : TransSt := ⟨[], oneFile "/r/transactions/T1" "/c.dbf\n", fun _ => .closed⟩

/-- A rollback file of the second table is there. -/
def takenRbk : TransSt := ⟨[], oneFile "/b.T1.rbk" "log", twoTables⟩

/-- After the first failure a transaction is active, after the second the rollback file is gone. -/
theorem start_taken : ¬StartSafe "/r".toList allPerm idT1 takenId ∧ ¬StartSafe "/r".toList allPerm idT1 takenRbk := by
  constructor
  · intro h
    have he : (transactionStart "/r".toList allPerm idT1.chars takenId).1 = some .exist := by decide +kernel
    have hr := (h.right he).inactive rfl
    exact absurd hr (by decide +kernel)
  · intro h
    have he : (transactionStart "/r".toList allPerm idT1.chars takenRbk).1 = some .fail := by decide +kernel
    have hr := (h.right he).files "/b.T1.rbk".toList "log".toList (by decide +kernel)
    exact absurd hr (by decide +kernel)

end Db3w.TransFiles
