/-
The value stack across an evaluation. Every operator that is carried out should replace its operands by
one value, and an evaluation should add one value. Both hold as long as no relational operator with
NULL ON meets an empty string, and then any number of evaluations leaves the stack as it is.
-/
import Db3w.Hb.Meaning
import Db3w.Hb.Immediate

namespace Db3w.Hb

section Steps

variable {σ : Type} (m : Machine σ)

/-- An instruction that was carried out, with the session before and after. -/
structure Step (σ : Type) where
  i : PCode
  w : World σ
  w' : World σ

/-- The instructions that a run of straight code carries out. -/
def steps (data : List HbVal) : List PCode → World σ → List (Step σ)
  | [], _ => []
  | i :: is, w =>
    match hbint m i.opcode i.opnd data w with
    | .error _ => []
    | .ok w' => ⟨i, w, w'⟩ :: steps data is w'

/-- A binary operator takes two values and gives one, a prefix operator takes one and gives one. -/
structure Step.Balanced (p : Step σ) : Prop where
  bop : p.i.opcode = BOP → ∃ a b v st, p.w.stack = a :: b :: st ∧ p.w'.stack = v :: st
  uop : p.i.opcode = UOP → ∃ a v st, p.w.stack = a :: st ∧ p.w'.stack = v :: st

/-- A relational operator meets an empty string, with NULL ON. -/
def Step.NullCmp (p : Step σ) : Prop :=
  p.i.opcode = BOP ∧ ∃ a b st, p.w.stack = a :: b :: st ∧ Hb.NullCmp m.set p.i.opnd a b

variable {m} {data : List HbVal} {w w' : World σ}

theorem mem_steps {code : List PCode} {p : Step σ} (h : p ∈ steps m data code w) :
    p.i ∈ code ∧ hbint m p.i.opcode p.i.opnd data p.w = .ok p.w' := by
  induction code generalizing w with
  | nil => cases h
  | cons i code ih =>
    unfold steps at h
    cases hi : hbint m i.opcode i.opnd data w with
    | error e =>
      rw [hi] at h
      cases h
    | ok w1 =>
      rw [hi] at h
      rcases List.mem_cons.mp h with rfl | h
      · exact ⟨List.mem_cons_self, hi⟩
      · exact ⟨List.mem_cons_of_mem _ (ih h).1, (ih h).2⟩

theorem steps_append (a b : List PCode) (w : World σ) :
    steps m data (a ++ b) w = steps m data a w ++ match runCode m data a w with
      | .error _ => []
      | .ok w' => steps m data b w' := by
  induction a generalizing w with
  | nil => rfl
  | cons i a ih =>
    show (match hbint m i.opcode i.opnd data w with
      | .error _ => []
      | .ok w' => (⟨i, w, w'⟩ : Step σ) :: steps m data (a ++ b) w') = _
    unfold runCode
    rw [steps]
    cases hbint m i.opcode i.opnd data w with
    | error e => rfl
    | ok w1 =>
      show (⟨i, w, w1⟩ : Step σ) :: steps m data (a ++ b) w1 = (⟨i, w, w1⟩ : Step σ) :: (steps m data a w1 ++ _)
      rw [ih]
      rfl

theorem onStack_ok {f : Stack → Except HbErr Stack} (h : w.onStack f = .ok w') : f w.stack = .ok w'.stack := by
  unfold World.onStack at h
  cases hf : f w.stack with
  | error e =>
    rw [hf] at h
    cases h
  | ok st =>
    rw [hf] at h
    cases h
    rfl

theorem push_ok {cap : Nat} {v : HbVal} {st st' : Stack} (h : push cap v st = .ok st') : st' = v :: st := by
  unfold push at h
  split at h
  · cases h
  · injection h with h
    exact h.symm

/-! ## Operators -/

theorem uop_balanced {cap op : Nat} {st st' : Stack} (h : uop cap op st = .ok st') : ∃ a v tl, st = a :: tl ∧ st' = v :: tl := by
  unfold uop at h
  split at h
  · obtain ⟨⟨tf, tl⟩, hpop, h⟩ := bind_ok.mp h
    cases st with
    | nil => cases hpop
    | cons a tl' =>
      cases a with
      | logic b =>
        cases hpop
        exact ⟨_, _, _, rfl, push_ok h⟩
      | _ => cases hpop
  split at h
  · obtain ⟨⟨num, tl⟩, hpop, h⟩ := bind_ok.mp h
    cases st with
    | nil => cases hpop
    | cons a tl' =>
      cases a with
      | number n =>
        cases hpop
        cases num <;> exact ⟨_, _, _, rfl, push_ok h⟩
      | _ => cases hpop
  split at h
  · cases st with
    | nil => cases h
    | cons a tl =>
      dsimp only at h
      split at h
      · cases h
      · cases h
        exact ⟨_, _, _, rfl, rfl⟩
  · cases h

/-- A binary operator is balanced if and only if it is not such a comparison. -/
theorem bop_balanced_iff {set : Settings} {cap op : Nat} {st st' : Stack} (h : bop set cap op st = .ok st') :
    (∃ a b v tl, st = a :: b :: tl ∧ st' = v :: tl) ↔ ¬∃ a b tl, st = a :: b :: tl ∧ NullCmp set op a b := by
  constructor
  · rintro ⟨a, b, v, tl, rfl, rfl⟩ ⟨_, _, _, heq, hnull⟩
    cases heq
    rw [bop_nullCmp hnull] at h
    have hlen := congrArg List.length (push_ok h)
    simp only [List.length_cons] at hlen
    omega
  · intro hno
    match st with
    | [] | [_] => cases h
    | a :: b :: tl =>
      rw [bop_eq fun hnull => hno ⟨a, b, tl, rfl, hnull⟩] at h
      obtain ⟨v, -, h⟩ := bind_ok.mp h
      exact ⟨a, b, v, tl, rfl, push_ok h⟩

/-- The instructions that are carried out are balanced if and only if none is such a comparison. -/
theorem balanced_iff_steps (code : List PCode) (w : World σ) :
    (∀ p ∈ steps m data code w, p.Balanced) ↔ ∀ p ∈ steps m data code w, ¬p.NullCmp m := by
  refine forall₂_congr fun p hp => ?_
  have hstep := (mem_steps hp).2
  have hbop : p.i.opcode = BOP → ((∃ a b v st, p.w.stack = a :: b :: st ∧ p.w'.stack = v :: st) ↔
      ¬∃ a b st, p.w.stack = a :: b :: st ∧ NullCmp m.set p.i.opnd a b) := by
    intro hop
    rw [hop] at hstep
    exact bop_balanced_iff (onStack_ok (w := p.w) hstep)
  constructor
  · rintro hbal ⟨hop, hnull⟩
    exact (hbop hop).1 (hbal.bop hop) hnull
  · intro hno
    refine ⟨fun hop => (hbop hop).2 fun hnull => hno ⟨hop, hnull⟩, fun hop => ?_⟩
    rw [hop] at hstep
    exact uop_balanced (onStack_ok (w := p.w) hstep)

/-! ## Expressions -/

theorem runName_ok {s : σ} {v : HbVal} {st st' : Stack} (h : runName m s v st = .ok st') : ∃ v', st' = v' :: st := by
  obtain ⟨st1, h1, h⟩ := bind_ok.mp h
  obtain rfl := push_ok h1
  obtain ⟨v', -, h⟩ := bind_ok.mp (show m.lookup s v >>= (fun v => push m.cap v st) = .ok st' from h)
  exact ⟨v', push_ok h⟩

theorem runField_ok {s : σ} {tbl nm : HbVal} {st st' : Stack} (h : runField m s tbl nm st = .ok st') : ∃ v', st' = v' :: st := by
  obtain ⟨st1, h1, h⟩ := bind_ok.mp h
  obtain ⟨st2, h2, h⟩ := bind_ok.mp h
  obtain rfl := push_ok h1
  obtain rfl := push_ok h2
  obtain ⟨⟨a, st3⟩, h3, h⟩ := bind_ok.mp h
  have hst3 : st3 = nm :: st := by
    unfold popStack at h3
    dsimp only at h3
    split at h3
    · cases h3
    · cases h3
      rfl
  subst hst3
  obtain ⟨v', -, h⟩ := bind_ok.mp (show m.aliasLookup s a nm >>= (fun v => push m.cap v st) = .ok st' from h)
  exact ⟨v', push_ok h⟩

/-- An evaluation whose operators are all balanced adds one value. -/
theorem run_balanced {s : σ} {lx : Lexicon} {n : Nat} {e : Expr} (h : Gram lx n e) {d : Nat} {st st' : Stack} (hd : Among d e.data data)
    (hlen : d + e.data.length ≤ 255) (hbal : ∀ p ∈ steps m data (e.code d) ⟨st, s⟩, p.Balanced) (hrun : e.run m s st = .ok st') :
    ∃ v, st' = v :: st := by
  -- the operator behind code that runs through is carried out
  have hlast : ∀ {i : PCode} {code : List PCode} {st st1 st2 : Stack}, runCode m data code ⟨st, s⟩ = .ok ⟨st1, s⟩ →
      hbint m i.opcode i.opnd data ⟨st1, s⟩ = .ok ⟨st2, s⟩ → (⟨i, ⟨st1, s⟩, ⟨st2, s⟩⟩ : Step σ) ∈ steps m data (code ++ [i]) ⟨st, s⟩ := by
    intro i code st st1 st2 hcode hi
    rw [steps_append, hcode]
    refine List.mem_append_right _ ?_
    show _ ∈ steps m data [i] ⟨st1, s⟩
    unfold steps
    rw [hi]
    exact List.mem_cons_self
  have hok : ∀ {f : Stack → Except HbErr Stack} {st st' : Stack}, f st = .ok st' → World.onStack ⟨st, s⟩ f = .ok ⟨st', s⟩ := by
    intro f st st' hf
    unfold World.onStack
    rw [hf]
  -- two operands and their operator
  have hbin : ∀ {t : Token} {k : Nat} {l r : Expr} {d : Nat} {st st1 st2 st' : Stack}, t.kind ∈ binOps k →
      runCode m data (l.code d) ⟨st, s⟩ = .ok ⟨st1, s⟩ → runCode m data (r.code (d + l.data.length)) ⟨st1, s⟩ = .ok ⟨st2, s⟩ →
      (∃ v, st1 = v :: st) → (∃ v, st2 = v :: st1) → bop m.set m.cap t.kind st2 = .ok st' →
      (∀ p ∈ steps m data ((Expr.bin t l r).code d) ⟨st, s⟩, p.Balanced) → ∃ v, st' = v :: st := by
    intro t k l r d st st1 st2 st' ht hl hr hst1 hst2 hop hbal
    obtain ⟨v1, rfl⟩ := hst1
    obtain ⟨v2, rfl⟩ := hst2
    have hcode : runCode m data (l.code d ++ r.code (d + l.data.length)) ⟨st, s⟩ = .ok ⟨v2 :: v1 :: st, s⟩ := by
      rw [runCode_append, hl]
      exact hr
    have hi : runCode m data [.mk8 BOP t.kind] ⟨v2 :: v1 :: st, s⟩ = .ok ⟨st', s⟩ := by
      rw [run_bop (binOps_level ht).2]
      exact hok hop
    rw [runCode_single] at hi
    obtain ⟨a, b, v, tl, h1, h2⟩ := (hbal _ (hlast hcode hi)).bop rfl
    cases h1
    exact ⟨v, h2⟩
  induction h generalizing d st st' with
  | lit _ | date _ _ => exact ⟨_, push_ok hrun⟩
  | name _ => exact runName_ok hrun
  | field _ _ => exact runField_ok hrun
  | @un _ t e ht he ih =>
    have hop : t.kind < 256 := by
      have hall : ∀ op ∈ [TPLUS, TMINUS, TNOT], op < 256 := by decide
      exact hall _ ht
    obtain ⟨st1, h1, h⟩ := bind_ok.mp (show e.run m s st >>= uop m.cap t.kind = .ok st' from hrun)
    have hcode : runCode m data (e.code d) ⟨st, s⟩ = .ok ⟨st1, s⟩ := by
      rw [runCode_code he hd hlen]
      exact hok h1
    have hi : runCode m data [.mk8 UOP t.kind] ⟨st1, s⟩ = .ok ⟨st', s⟩ := by
      rw [run_uop hop]
      exact hok h
    rw [runCode_single] at hi
    have hsub : ∀ p ∈ steps m data (e.code d) ⟨st, s⟩, p.Balanced := fun p hp => hbal p (by
      show p ∈ steps m data (e.code d ++ [.mk8 UOP t.kind]) ⟨st, s⟩
      rw [steps_append]
      exact List.mem_append_left _ hp)
    obtain ⟨v1, rfl⟩ := ih hd hlen hsub h1
    obtain ⟨a, v, tl, h1, h2⟩ := (hbal _ (hlast hcode hi)).uop rfl
    cases h1
    exact ⟨v, h2⟩
  | @bin _ _ t l r _ _ ht hl hr ihl ihr | @rel _ t l r _ ht hl hr ihl ihr =>
    simp only [Expr.data, List.length_append] at hlen
    obtain ⟨st2, h12, h⟩ := bind_ok.mp (show l.run m s st >>= r.run m s >>= bop m.set m.cap t.kind = .ok st' from hrun)
    obtain ⟨st1, h1, h2⟩ := bind_ok.mp h12
    have hlcode : runCode m data (l.code d) ⟨st, s⟩ = .ok ⟨st1, s⟩ := by
      rw [runCode_code hl hd.left (by omega)]
      exact hok h1
    have hrcode : runCode m data (r.code (d + l.data.length)) ⟨st1, s⟩ = .ok ⟨st2, s⟩ := by
      rw [runCode_code hr hd.right (by omega)]
      exact hok h2
    have hparts : steps m data ((Expr.bin t l r).code d) ⟨st, s⟩ = steps m data (l.code d) ⟨st, s⟩ ++
        steps m data (r.code (d + l.data.length)) ⟨st1, s⟩ ++ steps m data [.mk8 BOP t.kind] ⟨st2, s⟩ := by
      show steps m data (l.code d ++ r.code (d + l.data.length) ++ [.mk8 BOP t.kind]) ⟨st, s⟩ = _
      rw [steps_append, steps_append, runCode_append, hlcode]
      show _ ++ _ ++ (match runCode m data (r.code (d + l.data.length)) ⟨st1, s⟩ with
        | .error _ => []
        | .ok w' => steps m data [.mk8 BOP t.kind] w') = _
      rw [hrcode]
    have hst1 := ihl hd.left (by omega) (fun p hp => hbal p (by
      rw [hparts]
      exact List.mem_append_left _ (List.mem_append_left _ hp))) h1
    have hst2 := ihr hd.right (by omega) (fun p hp => hbal p (by
      rw [hparts]
      exact List.mem_append_left _ (List.mem_append_right _ hp))) h2
    exact hbin ht hlcode hrcode hst1 hst2 h hbal
  | paren _ ih => exact ih hd hlen hbal hrun

/-! ## Evaluation at once -/

/-- The words of a session, without functions. -/
def Lexicon.plain (lx : Lexicon) : Lexicon where
  dfpiOn := lx.dfpiOn
  strtod := lx.strtod
  functionId _ := none
  parmCnt := lx.parmCnt
  parmVal _ _ st := .ok st
  processDate ts := match lx.processDate ts with
    | .ok (d, ts') => if ∀ t ∈ ts', t ∈ ts then .ok (d, ts') else .error .badExp
    | .error e => .error e

theorem Lexicon.lawful_plain (lx : Lexicon) : lx.plain.Lawful := by
  refine ⟨fun s no h => (by cases h), fun ts d ts' h => ?_⟩
  have h : (match lx.processDate ts with
    | .ok (d, ts') => if ∀ t ∈ ts', t ∈ ts then .ok (d, ts') else .error .badExp
    | .error e => .error e : Except HbErr (Option UInt32 × List Token)) = .ok (d, ts') := h
  split at h
  · split_ifs at h with hsub
    cases h
    exact hsub
  · cases h

theorem Gram.plain {lx : Lexicon} {n : Nat} {e : Expr} (h : Gram lx n e) : Gram lx.plain n e := by
  induction h with
  | lit hv => exact .lit hv
  | date ht hd =>
    refine .date ht fun rest => ?_
    show (match lx.processDate _ with
      | .ok (d, ts') => if ∀ t ∈ ts', t ∈ _ then .ok (d, ts') else .error .badExp
      | .error e => .error e : Except HbErr (Option UInt32 × List Token)) = _
    rw [hd]
    exact if_pos fun t ht => List.mem_append_right _ ht
  | name ht => exact .name ht
  | field ht hn => exact .field ht hn
  | un ht _ ih => exact .un ht ih
  | bin hle h2 ht _ _ ihl ihr => exact .bin hle h2 ht ihl ihr
  | rel hle ht _ _ ihl ihr => exact .rel hle ht ihl ihr
  | paren _ ih => exact .paren ih

theorem Gram.lexed {lx : Lexicon} {n : Nat} {e : Expr} (h : Gram lx n e) : ∀ t ∈ e.toks, t.Lexed := by
  induction h with
  | @lit _ t v hv =>
    intro t' ht'
    rw [List.mem_singleton.mp ht']
    unfold litVal at hv
    split_ifs at hv with h1 h2 h3
    · exact .inl (by rw [h1]; decide)
    · exact .inl (by rcases h2 with h2 | h2 <;> rw [h2] <;> decide)
    · exact .inl (by rw [h3]; decide)
  | date hts _ =>
    intro t' ht'
    rcases List.mem_append.mp ht' with ht' | ht'
    · rcases List.mem_cons.mp ht' with rfl | ht'
      · exact .inl (by decide)
      · exact .inl (hts t' ht')
    · rw [List.mem_singleton.mp ht']
      exact .inl (by decide)
  | name ht =>
    intro t' ht'
    rw [List.mem_singleton.mp ht']
    exact .inl (by rw [ht]; decide)
  | field ht hn =>
    intro t' ht'
    simp only [Expr.toks, List.mem_cons, List.not_mem_nil, or_false] at ht'
    rcases ht' with rfl | rfl | rfl
    · exact .inl (by rw [ht]; decide)
    · exact .inl (by decide)
    · exact .inl (by rw [hn]; decide)
  | un ht _ ih =>
    intro t' ht'
    rcases List.mem_cons.mp ht' with rfl | ht'
    · have hall : ∀ op ∈ [TPLUS, TMINUS, TNOT], op < 256 := by decide
      exact .inl (hall _ ht)
    · exact ih t' ht'
  | bin _ _ ht _ _ ihl ihr | rel _ ht _ _ ihl ihr =>
    intro t' ht'
    rcases List.mem_append.mp ht' with ht' | ht'
    · exact ihl t' ht'
    · rcases List.mem_cons.mp ht' with rfl | ht'
      · exact .inl (binOps_level ht).2
      · exact ihr t' ht'
  | paren _ ih =>
    intro t' ht'
    rcases List.mem_cons.mp ht' with rfl | ht'
    · exact .inl (by decide)
    · rcases List.mem_append.mp ht' with ht' | ht'
      · exact ih t' ht'
      · rw [List.mem_singleton.mp ht']
        exact .inl (by decide)

theorem checksPass_plain {lx : Lexicon} (items : List Item) (w : World σ) : ChecksPass m lx.plain data items w := by
  induction items generalizing w with
  | nil => trivial
  | cons item items ih =>
    cases item with
    | op i => exact fun w' _ => ih w'
    | chk fcn cnt => exact ⟨rfl, ih w⟩

/-- Without functions evaluation at once is the same as the code of the expression. -/
theorem evaluate_code {lx : Lexicon} {e : Expr} (h : Gram lx 0 e) {sizeMax : Nat} (hfit : e.Fits sizeMax) (w : World σ) :
    evaluate m lx e.toks w = runCode m e.data (e.code 0) w := by
  have hplain : evaluate m lx e.toks w = evaluate m lx.plain e.toks w := by
    have hp := parse_toks (m := m) h ⟨[], [], [], some w⟩
    have hp' := parse_toks (m := m) h.plain ⟨[], [], [], some w⟩
    unfold evaluate
    rw [show parse m lx ⟨e.toks, [], [], some w⟩ = parse m lx.plain ⟨e.toks, [], [], some w⟩ from hp.trans hp'.symm]
  obtain ⟨ps, hpar, htok, hb⟩ := putCond_ok (putCond_toks (m := m) h.plain hfit)
  obtain ⟨hcode', hdata⟩ := CodeBlock.mk.inj hb
  obtain ⟨items, hcode, -, heval⟩ := evaluate_items (m := m) lx.lawful_plain h.lexed hpar
  rw [hplain, heval w, htok, (checksPass_plain items w).runItems, hcode, ← hcode', ← hdata]
  cases runCode m e.data (e.code 0) w <;> rfl

/-! ## Evaluations -/

/-- The values of an expression over some states of the tables and variables, as a filter or an index takes them: each
evaluation is followed by a pop. -/
def evalEach (data : List HbVal) (code : List PCode) : List σ → Stack → Except HbErr Stack
  | [], st => .ok st
  | s :: ss, st =>
    match runCode m data code ⟨st, s⟩ with
    | .error (e, _) => .error e
    | .ok w =>
      match popAny w.stack with
      | .error e => .error e
      | .ok (_, st) => evalEach data code ss st

/-- The stack is in balance across an evaluation, in either mode, operator by operator and as a whole. -/
structure InBalance (m : Machine σ) (lx : Lexicon) (e : Expr) (w : World σ) : Prop where
  steps : ∀ p ∈ steps m e.data (e.code 0) w, p.Balanced
  execute : ∀ fuel w', (e.code 0).length < fuel → execute m fuel ⟨e.code 0, e.data⟩ w = some (.ok w') → ∃ v, w'.stack = v :: w.stack
  evaluate : ∀ w', evaluate m lx e.toks w = .ok w' → ∃ v, w'.stack = v :: w.stack

theorem runCode_balanced {lx : Lexicon} {e : Expr} (h : Gram lx 0 e) {sizeMax : Nat} (hfit : e.Fits sizeMax)
    (hno : ∀ p ∈ steps m e.data (e.code 0) w, ¬p.NullCmp m) (hrun : runCode m e.data (e.code 0) w = .ok w') :
    ∃ v, w'.stack = v :: w.stack := by
  have hlen : 0 + e.data.length ≤ 255 := by
    have hle := e.data_le_code
    have hcode := hfit.1
    have hlim : CODE_LIMIT ≤ 255 := by decide
    omega
  have hd : Among 0 e.data e.data := by
    intro i v hv
    rw [Nat.zero_add]
    exact hv
  rw [runCode_code h hd hlen] at hrun
  exact run_balanced h hd hlen ((balanced_iff_steps _ _).2 hno) (onStack_ok hrun)

/-- The stack is in balance if and only if no relational operator that is carried out meets an empty string with NULL ON;
then evaluations leave it as it is, however many they are. -/
theorem balance_iff {lx : Lexicon} {e : Expr} (h : Gram lx 0 e) {sizeMax : Nat} (hfit : e.Fits sizeMax) :
    (∀ w : World σ, InBalance m lx e w ↔ ∀ p ∈ steps m e.data (e.code 0) w, ¬p.NullCmp m) ∧
    ∀ (ss : List σ) (st st' : Stack), (∀ s ∈ ss, ∀ p ∈ steps m e.data (e.code 0) ⟨st, s⟩, ¬p.NullCmp m) →
      evalEach (m := m) e.data (e.code 0) ss st = .ok st' → st' = st := by
  constructor
  · intro w
    constructor
    · exact fun hbal => (balanced_iff_steps _ _).1 hbal.steps
    · intro hno
      have hrun : ∀ w', runCode m e.data (e.code 0) w = .ok w' → ∃ v, w'.stack = v :: w.stack :=
        fun w' => runCode_balanced h hfit hno
      refine ⟨(balanced_iff_steps _ _).2 hno, fun fuel w' hfuel hex => ?_, fun w' hev => ?_⟩
      · rw [execute_straight (straight_code h 0) hfuel] at hex
        exact hrun w' (Option.some.inj hex)
      · rw [evaluate_code h hfit] at hev
        exact hrun w' hev
  · intro ss
    induction ss with
    | nil =>
      intro st st' _ heq
      cases heq
      rfl
    | cons s ss ih =>
      intro st st' hno heq
      unfold evalEach at heq
      cases hrun : runCode m e.data (e.code 0) ⟨st, s⟩ with
      | error e =>
        rw [hrun] at heq
        cases heq
      | ok w =>
        rw [hrun] at heq
        obtain ⟨v, hv⟩ := runCode_balanced h hfit (hno s List.mem_cons_self) hrun
        dsimp only at heq hv
        rw [hv] at heq
        exact ih st st' (fun s' hs' => hno s' (List.mem_cons_of_mem _ hs')) heq

end Steps

/-! ## An example -/

/-- With NULL ON `"" = "a"` leaves its operands. -/
theorem emptyCmp_unbalanced : ¬InBalance (Machine.bare ⟨true, false⟩ STACKSZ) Lexicon.bare emptyCmp ⟨[], ()⟩ := by
  intro h
  have heval : evaluate (Machine.bare ⟨true, false⟩ STACKSZ) Lexicon.bare emptyCmp.toks ⟨[], ()⟩ =
      .ok ⟨[.logic none, .charctr [97], .charctr []], ()⟩ := rfl
  obtain ⟨v, hv⟩ := h.evaluate _ heval
  cases hv

/-- With NULL OFF there is nothing to meet. -/
theorem balance_iff_emptyCmp : InBalance (Machine.bare ⟨false, false⟩ STACKSZ) Lexicon.bare emptyCmp ⟨[], ()⟩ :=
  ((balance_iff emptyCmp_gram (by decide : emptyCmp.Fits CBLOCKSZ)).1 ⟨[], ()⟩).2 fun _ _ hnull => by
    obtain ⟨-, a, b, st, -, hcmp⟩ := hnull
    exact Bool.false_ne_true hcmp.1

end Db3w.Hb
