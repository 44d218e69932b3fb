/-
The value of an expression, from the values of its parts. The stack enters only by the room that the
values take. Compiled and run, an expression leaves its value on the stack, or raises the error of the
value, as long as no relational operator with NULL ON meets an empty string.
-/
import Db3w.Hb.Compile
import Db3w.Hb.ParmChk

namespace Db3w.Hb

section Meaning

variable {σ : Type} (m : Machine σ) (s : σ)

/-- A value, where the stack has room for it above `used` bytes. -/
def room (cap used : Nat) (v : HbVal) : Except HbErr HbVal := if used + v.size > cap then .error .stackOverflow else .ok v

namespace Expr

/-- The value of an expression with `used` bytes on the stack. -/
def value (used : Nat) : Expr → Except HbErr HbVal
  | lit _ v => room m.cap used v
  | name t => do
    let n ← room m.cap used (.charctr (tokenStr t.text))
    room m.cap used (← m.lookup s n)
  | field tbl nm => do
    let n ← room m.cap used (.charctr (tokenStr nm.text))
    let a ← room m.cap (used + n.size) (.charctr (tokenStr tbl.text))
    room m.cap used (← m.aliasLookup s a n)
  | un t e => do
    let v ← e.value used
    room m.cap used (← unValue t.kind v)
  | bin t l r => do
    let vl ← l.value used
    let vr ← r.value (used + vl.size)
    room m.cap used (← binValue m.set t.kind vl vr)
  | paren e => e.value used

/-- A relational operator at the top of the expression meets an empty string, with NULL ON. -/
def NullAt (used : Nat) : Expr → Prop
  | bin t l r => ∃ vl vr, l.value m s used = .ok vl ∧ r.value m s (used + vl.size) = .ok vr ∧ NullCmp m.set t.kind vr vl
  | _ => False

/-- What is to come of the expression: its value on the stack, and nothing else changed. -/
def result (w : World σ) (e : Expr) : Res σ (World σ) :=
  w.onStack fun st => (e.value m w.state st.bytes).map fun v => v :: st

end Expr

variable {m s} {e l r : Expr} {used used' : Nat} {v : HbVal}

/-- Two properties that agree on an expression whose parts have the second agree on all parts of an expression. -/
theorem subs_iff {P Q : Expr → Prop} (h : ∀ e : Expr, (∀ e' ∈ e.subs.tail, Q e') → (P e ↔ Q e)) (e : Expr) :
    (∀ e' ∈ e.subs, P e') ↔ ∀ e' ∈ e.subs, Q e' := by
  have hcons : ∀ (e : Expr) (tail : List Expr), e.subs = e :: tail → ((∀ e' ∈ tail, P e') ↔ ∀ e' ∈ tail, Q e') →
      ((∀ e' ∈ e.subs, P e') ↔ ∀ e' ∈ e.subs, Q e') := by
    intro e tail hsubs htail
    rw [hsubs, List.forall_mem_cons, List.forall_mem_cons, htail]
    constructor
    · rintro ⟨hp, hq⟩
      exact ⟨(h e (by rw [hsubs]; exact hq)).1 hp, hq⟩
    · rintro ⟨hp, hq⟩
      exact ⟨(h e (by rw [hsubs]; exact hq)).2 hp, hq⟩
  induction e with
  | un t e ih => exact hcons _ _ rfl ih
  | bin t l r ihl ihr =>
    refine hcons _ _ rfl ?_
    rw [List.forall_mem_append, List.forall_mem_append]
    exact and_congr ihl ihr
  | paren e ih => exact hcons _ _ rfl ih
  | _ => exact hcons _ [] rfl (by simp)

/-! ## Room -/

theorem bind_ok {ε α β : Type} {x : Except ε α} {f : α → Except ε β} {b : β} : x >>= f = .ok b ↔ ∃ a, x = .ok a ∧ f a = .ok b := by
  cases x with
  | error e =>
    constructor
    · intro h
      cases h
    · rintro ⟨a, h, -⟩
      cases h
  | ok a =>
    constructor
    · exact fun h => ⟨a, rfl, h⟩
    · rintro ⟨a', h, h'⟩
      cases h
      exact h'

theorem room_ok {cap : Nat} {v' : HbVal} : room cap used v = .ok v' ↔ v = v' ∧ used + v.size ≤ cap := by
  unfold room
  split
  · constructor
    · intro h
      cases h
    · rintro ⟨-, h⟩
      omega
  · constructor
    · intro h
      cases h
      exact ⟨rfl, by omega⟩
    · exact fun h => congrArg Except.ok h.1

theorem push_room (cap : Nat) (v : HbVal) (st : Stack) : push cap v st = (room cap st.bytes v).map fun v => v :: st := by
  unfold push room
  split <;> rfl

theorem bytes_cons (v : HbVal) (st : Stack) : Stack.bytes (v :: st) = st.bytes + v.size := by
  simp [Stack.bytes, Nat.add_comm]

/-- There is room for the value of an expression. -/
theorem value_room (h : e.value m s used = .ok v) : used + v.size ≤ m.cap := by
  induction e generalizing v with
  | lit t v' =>
    obtain ⟨rfl, hv⟩ := room_ok.mp h
    exact hv
  | name t =>
    obtain ⟨_, -, h⟩ := bind_ok.mp h
    obtain ⟨_, -, h⟩ := bind_ok.mp h
    obtain ⟨rfl, hv⟩ := room_ok.mp h
    exact hv
  | field tbl nm =>
    obtain ⟨_, -, h⟩ := bind_ok.mp h
    obtain ⟨_, -, h⟩ := bind_ok.mp h
    obtain ⟨_, -, h⟩ := bind_ok.mp h
    obtain ⟨rfl, hv⟩ := room_ok.mp h
    exact hv
  | un t e ih =>
    obtain ⟨_, -, h⟩ := bind_ok.mp h
    obtain ⟨_, -, h⟩ := bind_ok.mp h
    obtain ⟨rfl, hv⟩ := room_ok.mp h
    exact hv
  | bin t l r ihl ihr =>
    obtain ⟨_, -, h⟩ := bind_ok.mp h
    obtain ⟨_, -, h⟩ := bind_ok.mp h
    obtain ⟨_, -, h⟩ := bind_ok.mp h
    obtain ⟨rfl, hv⟩ := room_ok.mp h
    exact hv
  | paren e ih => exact ih h

theorem room_mono {cap : Nat} {v' : HbVal} (h : room cap used v = .ok v') (hle : used' ≤ used) : room cap used' v = .ok v' := by
  obtain ⟨hv, hroom⟩ := room_ok.mp h
  exact room_ok.mpr ⟨hv, by omega⟩

/-- With more room the value is the same. -/
theorem value_mono (h : e.value m s used = .ok v) (hle : used' ≤ used) : e.value m s used' = .ok v := by
  induction e generalizing v used used' with
  | lit t v' => exact room_mono h hle
  | name t =>
    obtain ⟨n, hn, h⟩ := bind_ok.mp h
    obtain ⟨v', hv', h⟩ := bind_ok.mp h
    exact bind_ok.mpr ⟨n, room_mono hn hle, bind_ok.mpr ⟨v', hv', room_mono h hle⟩⟩
  | field tbl nm =>
    obtain ⟨n, hn, h⟩ := bind_ok.mp h
    obtain ⟨a, ha, h⟩ := bind_ok.mp h
    obtain ⟨v', hv', h⟩ := bind_ok.mp h
    exact bind_ok.mpr ⟨n, room_mono hn hle, bind_ok.mpr ⟨a, room_mono ha (by omega), bind_ok.mpr ⟨v', hv', room_mono h hle⟩⟩⟩
  | un t e ih =>
    obtain ⟨v1, h1, h⟩ := bind_ok.mp h
    obtain ⟨v', hv', h⟩ := bind_ok.mp h
    exact bind_ok.mpr ⟨v1, ih h1 hle, bind_ok.mpr ⟨v', hv', room_mono h hle⟩⟩
  | bin t l r ihl ihr =>
    obtain ⟨vl, hl, h⟩ := bind_ok.mp h
    obtain ⟨vr, hr, h⟩ := bind_ok.mp h
    obtain ⟨v', hv', h⟩ := bind_ok.mp h
    exact bind_ok.mpr ⟨vl, ihl hl hle, bind_ok.mpr ⟨vr, ihr hr (by omega), bind_ok.mpr ⟨v', hv', room_mono h hle⟩⟩⟩
  | paren e ih => exact ih h hle

/-- What meets an empty string with less room does so with more. -/
theorem Expr.NullAt.mono (h : e.NullAt m s used) (hle : used' ≤ used) : e.NullAt m s used' := by
  cases e with
  | bin t l r =>
    obtain ⟨vl, vr, hl, hr, hnull⟩ := h
    exact ⟨vl, vr, value_mono hl hle, value_mono hr (by omega), hnull⟩
  | _ => exact h.elim

/-! ## The operators of a tree leave its value -/

theorem runName_value (t : Token) (st : Stack) :
    (Expr.name t).run m s st = ((Expr.name t).value m s st.bytes).map fun v => v :: st := by
  show (push m.cap (.charctr (tokenStr t.text)) st >>= _) = (room m.cap st.bytes (.charctr (tokenStr t.text)) >>= _).map _
  rw [push_room]
  cases hn : room m.cap st.bytes (.charctr (tokenStr t.text)) with
  | error e => rfl
  | ok n =>
    show (m.lookup s n >>= fun v => push m.cap v st) = (m.lookup s n >>= fun v => room m.cap st.bytes v).map _
    cases m.lookup s n with
    | error e => rfl
    | ok v => exact push_room m.cap v st

theorem runField_value (tbl nm : Token) (st : Stack) :
    (Expr.field tbl nm).run m s st = ((Expr.field tbl nm).value m s st.bytes).map fun v => v :: st := by
  show (push m.cap (.charctr (tokenStr nm.text)) st >>= _) = (room m.cap st.bytes (.charctr (tokenStr nm.text)) >>= _).map _
  rw [push_room]
  cases hn : room m.cap st.bytes (.charctr (tokenStr nm.text)) with
  | error e => rfl
  | ok n =>
    show (push m.cap (.charctr (tokenStr tbl.text)) (n :: st) >>= _) = (room m.cap (st.bytes + n.size) (.charctr (tokenStr tbl.text)) >>= _).map _
    rw [push_room, bytes_cons]
    cases ha : room m.cap (st.bytes + n.size) (.charctr (tokenStr tbl.text)) with
    | error e => rfl
    | ok a =>
      obtain ⟨rfl, -⟩ := room_ok.mp ha
      show (m.aliasLookup s _ n >>= fun v => push m.cap v st) = (m.aliasLookup s _ n >>= fun v => room m.cap st.bytes v).map _
      cases m.aliasLookup s (.charctr (tokenStr tbl.text)) n with
      | error e => rfl
      | ok v => exact push_room m.cap v st

/-- Without such a comparison the operators of the tree leave its value. -/
theorem run_value {st : Stack} (h : ∀ e' ∈ e.subs, ¬e'.NullAt m s st.bytes) :
    e.run m s st = (e.value m s st.bytes).map fun v => v :: st := by
  induction e generalizing st with
  | lit t v => exact push_room m.cap v st
  | name t => exact runName_value t st
  | field tbl nm => exact runField_value tbl nm st
  | un t e ih =>
    show (e.run m s st).bind (uop m.cap t.kind) = (e.value m s st.bytes >>= _).map _
    rw [ih fun e' he' => h e' (List.mem_cons_of_mem _ he')]
    cases hv : e.value m s st.bytes with
    | error e => rfl
    | ok v =>
      have hroom := value_room hv
      show uop m.cap t.kind (v :: st) = (unValue t.kind v >>= fun v => room m.cap st.bytes v).map _
      rw [uop_eq t.kind (by rw [bytes_cons]; omega)]
      cases unValue t.kind v with
      | error e => rfl
      | ok v' => exact push_room m.cap v' st
  | bin t l r ihl ihr =>
    have hl : ∀ e' ∈ l.subs, ¬e'.NullAt m s st.bytes := fun e' he' =>
      h e' (List.mem_cons_of_mem _ (List.mem_append_left _ he'))
    have hr : ∀ e' ∈ r.subs, ¬e'.NullAt m s st.bytes := fun e' he' =>
      h e' (List.mem_cons_of_mem _ (List.mem_append_right _ he'))
    show ((l.run m s st).bind (r.run m s)).bind (bop m.set m.cap t.kind) = (l.value m s st.bytes >>= _).map _
    rw [ihl hl]
    cases hvl : l.value m s st.bytes with
    | error e => rfl
    | ok vl =>
      show (r.run m s (vl :: st)).bind (bop m.set m.cap t.kind) = (r.value m s (st.bytes + vl.size) >>= _).map _
      -- the left operand takes room that the right one does not have
      have hr' : ∀ e' ∈ r.subs, ¬e'.NullAt m s (Stack.bytes (vl :: st)) := fun e' he' hn =>
        hr e' he' (hn.mono (by rw [bytes_cons]; omega))
      rw [ihr hr', bytes_cons]
      cases hvr : r.value m s (st.bytes + vl.size) with
      | error e => rfl
      | ok vr =>
        have hcmp : ¬NullCmp m.set t.kind vr vl := fun hn => h _ (Expr.mem_subs _) ⟨vl, vr, hvl, hvr, hn⟩
        show bop m.set m.cap t.kind (vr :: vl :: st) = (binValue m.set t.kind vl vr >>= fun v => room m.cap st.bytes v).map _
        rw [bop_eq hcmp]
        cases binValue m.set t.kind vl vr with
        | error e => rfl
        | ok v => exact push_room m.cap v st
  | paren e ih => exact ih fun e' he' => h e' (List.mem_cons_of_mem _ he')

/-- Such a comparison leaves its operands, or finds no room, but its value is there. -/
theorem run_nullAt {st : Stack} (h : e.NullAt m s st.bytes) (hsub : ∀ e' ∈ e.subs.tail, ¬e'.NullAt m s st.bytes) :
    e.run m s st ≠ (e.value m s st.bytes).map fun v => v :: st := by
  cases e with
  | bin t l r =>
    obtain ⟨vl, vr, hl, hr, hnull⟩ := h
    have hrun : (Expr.bin t l r).run m s st = push m.cap (nullRel t.kind) (vr :: vl :: st) := by
      show ((l.run m s st).bind (r.run m s)).bind (bop m.set m.cap t.kind) = _
      rw [run_value fun e' he' => hsub e' (List.mem_append_left _ he'), hl]
      show (r.run m s (vl :: st)).bind (bop m.set m.cap t.kind) = _
      have hr' : ∀ e' ∈ r.subs, ¬e'.NullAt m s (Stack.bytes (vl :: st)) := fun e' he' hn =>
        hsub e' (List.mem_append_right _ he') (hn.mono (by rw [bytes_cons]; omega))
      rw [run_value hr', bytes_cons, hr]
      exact bop_nullCmp hnull m.cap st
    have hvalue : (Expr.bin t l r).value m s st.bytes = .ok (nullRel t.kind) := by
      show (l.value m s st.bytes >>= _) = _
      rw [hl]
      show (r.value m s (st.bytes + vl.size) >>= _) = _
      rw [hr]
      show (binValue m.set t.kind vl vr >>= fun v => room m.cap st.bytes v) = _
      rw [binValue_nullCmp hnull]
      have hroom := value_room hr
      have hsize : (nullRel t.kind).size = 2 := by
        unfold nullRel
        split <;> rfl
      have hvr := vr.size_pos
      exact room_ok.mpr ⟨rfl, by omega⟩
    rw [hrun, hvalue, push_room]
    intro heq
    cases hroom : room m.cap (Stack.bytes (vr :: vl :: st)) (nullRel t.kind) with
    | error e =>
      rw [hroom] at heq
      cases heq
    | ok v =>
      rw [hroom] at heq
      have hst : v :: vr :: vl :: st = nullRel t.kind :: st := by injection heq
      have hlen := congrArg List.length hst
      simp only [List.length_cons] at hlen
      omega
  | _ => exact h.elim

/-! ## Compiled expressions -/

/-- The expression compiles, and its block comes to the value of the expression. -/
def Right (m : Machine σ) (lx : Lexicon) (sizeMax : Nat) (w : World σ) (e : Expr) : Prop :=
  ∃ b, putCond m lx sizeMax e.toks = .ok b ∧ ∃ n, ∀ fuel, n ≤ fuel → execute m fuel b w = some (e.result m w)

theorem Gram.loosen {lx : Lexicon} {n k : Nat} (h : Gram lx n e) (hle : k ≤ n) : Gram lx k e := by
  cases h with
  | lit hv => exact .lit hv
  | date ht hd => exact .date ht hd
  | name ht => exact .name ht
  | field ht hn => exact .field ht hn
  | un ht he => exact .un ht he
  | bin hn h2 ht hl hr => exact .bin (hle.trans hn) h2 ht hl hr
  | rel hn ht hl hr => exact .rel (hle.trans hn) ht hl hr
  | paren he => exact .paren he

/-- The parts of an expression are expressions, and within the limits. -/
theorem Gram.sub {lx : Lexicon} {sizeMax : Nat} (h : Gram lx 0 e) (hfit : e.Fits sizeMax) :
    ∀ e' ∈ e.subs, Gram lx 0 e' ∧ e'.Fits sizeMax := by
  induction e with
  | lit t v | name t | field tbl nm =>
    intro e' he'
    rw [List.mem_singleton.mp he']
    exact ⟨h, hfit⟩
  | un t e ih =>
    cases h with
    | un ht he =>
      obtain ⟨hcode, hdata, hblock⟩ := id hfit
      simp only [Expr.code, Expr.data, List.length_append, List.length_singleton] at hcode hdata hblock
      intro e' he'
      rcases List.mem_cons.mp he' with rfl | he'
      · exact ⟨.un ht he, hfit⟩
      · exact ih (he.loosen (Nat.zero_le _)) ⟨by omega, by omega, by omega⟩ e' he'
  | bin t l r ihl ihr =>
    have hgram : Gram lx 0 l ∧ Gram lx 0 r := by
      cases h with
      | bin _ _ _ hl hr => exact ⟨hl.loosen (Nat.zero_le _), hr.loosen (Nat.zero_le _)⟩
      | rel _ _ hl hr => exact ⟨hl.loosen (Nat.zero_le _), hr.loosen (Nat.zero_le _)⟩
    obtain ⟨hcode, hdata, hblock⟩ := id hfit
    simp only [Expr.code, Expr.data, List.length_append, List.length_singleton, dataSize_append, r.code_length (0 + _)] at hcode hdata hblock
    intro e' he'
    rcases List.mem_cons.mp he' with rfl | he'
    · exact ⟨h, hfit⟩
    rcases List.mem_append.mp he' with he' | he'
    · exact ihl hgram.1 ⟨by omega, by omega, by omega⟩ e' he'
    · exact ihr hgram.2 ⟨by omega, by omega, by omega⟩ e' he'
  | paren e ih =>
    cases h with
    | paren he =>
      intro e' he'
      rcases List.mem_cons.mp he' with rfl | he'
      · exact ⟨.paren he, hfit⟩
      · exact ih he hfit e' he'

/-- A block runs the operators of its tree. -/
theorem execute_code {lx : Lexicon} (h : Gram lx 0 e) {sizeMax : Nat} (hfit : e.Fits sizeMax) (w : World σ) {fuel : Nat}
    (hfuel : (e.code 0).length < fuel) : execute m fuel ⟨e.code 0, e.data⟩ w = some (w.onStack (e.run m w.state)) := by
  rw [execute_straight (straight_code h 0) hfuel]
  have hlen : 0 + e.data.length ≤ 255 := by
    have hle := e.data_le_code
    have hcode := hfit.1
    have hlim : CODE_LIMIT ≤ 255 := by decide
    omega
  refine congrArg some (runCode_code h (fun i v hv => ?_) hlen w)
  rw [Nat.zero_add]
  exact hv

theorem right_iff_run {lx : Lexicon} (h : Gram lx 0 e) {sizeMax : Nat} (hfit : e.Fits sizeMax) (w : World σ) :
    Right m lx sizeMax w e ↔ e.run m w.state w.stack = (e.value m w.state w.stack.bytes).map fun v => v :: w.stack := by
  constructor
  · rintro ⟨b, hb, n, hn⟩
    rw [putCond_toks h hfit] at hb
    cases hb
    have hex := hn (max n ((e.code 0).length + 1)) (le_max_left _ _)
    rw [execute_code h hfit w (lt_of_lt_of_le (Nat.lt_succ_self _) (le_max_right _ _))] at hex
    have heq : w.onStack (e.run m w.state) = e.result m w := by injection hex
    unfold Expr.result World.onStack at heq
    dsimp only at heq
    cases hr : e.run m w.state w.stack <;> cases hv : e.value m w.state w.stack.bytes <;> rw [hr, hv] at heq <;> cases heq <;> rfl
  · intro heq
    refine ⟨_, putCond_toks h hfit, (e.code 0).length + 1, fun fuel hfuel => ?_⟩
    rw [execute_code h hfit w hfuel]
    unfold Expr.result World.onStack
    rw [heq]

/-- All parts of an expression compile to their values, if and only if none of them is a relational operator that meets
an empty string with NULL ON. -/
theorem compiled_right_iff {lx : Lexicon} (h : Gram lx 0 e) {sizeMax : Nat} (hfit : e.Fits sizeMax) (w : World σ) :
    (∀ e' ∈ e.subs, Right m lx sizeMax w e') ↔ ∀ e' ∈ e.subs, ¬e'.NullAt m w.state w.stack.bytes := by
  have hsub := Gram.sub h hfit
  have hall : (∀ e' ∈ e.subs, Right m lx sizeMax w e') ↔
      ∀ e' ∈ e.subs, e'.run m w.state w.stack = (e'.value m w.state w.stack.bytes).map fun v => v :: w.stack :=
    forall₂_congr fun e' he' => right_iff_run (hsub e' he').1 (hsub e' he').2 w
  rw [hall]
  refine subs_iff (fun e' hparts => ?_) e
  constructor
  · exact fun hrun hnull => run_nullAt hnull hparts hrun
  · intro hnull
    refine run_value fun e'' he'' => ?_
    have hcases : e'' = e' ∨ e'' ∈ e'.subs.tail := by
      cases e' with
      | un _ _ | bin _ _ _ | paren _ => exact List.mem_cons.mp he''
      | _ => exact .inl (List.mem_singleton.mp he'')
    rcases hcases with rfl | htail
    · exact hnull
    · exact hparts e'' htail

end Meaning

/-! ## An example -/

/-- `"" = "a"`. -/
def emptyCmp : Expr := .bin ⟨TEQUAL, [61]⟩ (.lit [strTok []] (.charctr [])) (.lit [strTok [97]] (.charctr [97]))

theorem emptyCmp_gram : Gram Lexicon.bare 0 emptyCmp := .rel (by decide) (by decide) (.lit rfl) (.lit rfl)

/-- With NULL ON the block leaves the strings below the NULL. -/
theorem emptyCmp_wrong : ¬Right (Machine.bare ⟨true, false⟩ STACKSZ) Lexicon.bare CBLOCKSZ ⟨[], ()⟩ emptyCmp := by
  rw [right_iff_run emptyCmp_gram (by decide)]
  intro h
  have hrun : emptyCmp.run (Machine.bare ⟨true, false⟩ STACKSZ) () [] = .ok [.logic none, .charctr [97], .charctr []] := rfl
  have hvalue : emptyCmp.value (Machine.bare ⟨true, false⟩ STACKSZ) () (Stack.bytes []) = .ok (.logic none) := rfl
  rw [show (⟨[], ()⟩ : World Unit).stack = [] from rfl, show (⟨[], ()⟩ : World Unit).state = () from rfl, hrun, hvalue] at h
  cases h

/-- `("a" + "b") = "ab"`. -/
def sumCmp : Expr :=
  .bin ⟨TEQUAL, [61]⟩ (.paren (.bin ⟨TPLUS, [43]⟩ (.lit [strTok [97]] (.charctr [97])) (.lit [strTok [98]] (.charctr [98]))))
    (.lit [strTok [97, 98]] (.charctr [97, 98]))

theorem sumCmp_gram : Gram Lexicon.bare 0 sumCmp :=
  .rel (by decide) (by decide) (.paren (.bin (n := 0) (k := 3) (by decide) (by decide) (by decide) (.lit rfl) (.lit rfl))) (.lit rfl)

theorem compiled_right_sumCmp :
    (∀ e' ∈ sumCmp.subs, Right (Machine.bare ⟨true, false⟩ STACKSZ) Lexicon.bare CBLOCKSZ ⟨[], ()⟩ e') ↔
      ∀ e' ∈ sumCmp.subs, ¬e'.NullAt (Machine.bare ⟨true, false⟩ STACKSZ) () (Stack.bytes []) :=
  compiled_right_iff sumCmp_gram (by decide) ⟨[], ()⟩

end Db3w.Hb
