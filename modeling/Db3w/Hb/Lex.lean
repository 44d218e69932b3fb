/-
The lexer (lex.c), on the text that is left. A word is first taken up to the next blank, comma or left
parenthesis, and the token is then found at its beginning. The expansion of macros is not part of it.
-/
import Db3w.Hb.Immediate
import Db3w.Hb.Str2num

namespace Db3w.Hb

open Decimal

abbrev TSEMICOLON : Nat := 0x07
abbrev TAT : Nat := 0x0a
abbrev TCOLON : Nat := 0x0d
abbrev TPERIOD : Nat := 0x10

abbrev VNAMELEN : Nat := 20

inductive LexErr where
  | unbalQuote | badVarname | illSymbol | badDate | macroUsed
  deriving DecidableEq, Repr

/-- A token, the text that begins with it, and its length. -/
structure Lexeme where
  tok : Nat
  text : List UInt8
  len : Nat
  deriving DecidableEq, Repr

/-- The text behind a token. -/
def Lexeme.rest (l : Lexeme) : List UInt8 := l.text.drop l.len

def isalpha (c : UInt8) : Bool := (65 ≤ c && c ≤ 90) || (97 ≤ c && c ≤ 122)

/-- `toupper`. -/
def upper (c : UInt8) : UInt8 := if 97 ≤ c && c ≤ 122 then c - 32 else c

/-- The characters of a word. -/
def inWord (c : UInt8) : Bool := !(isspace c || c = 44 || c = 40)

/-- `get_tok`. -/
def getTok (s : List UInt8) : Except LexErr Lexeme :=
  let p := s.dropWhile isspace
  match p with
  | [] => .ok ⟨TNULLTOK, p, 0⟩
  | c :: r =>
    if c = 0x1a then .ok ⟨TEOF, p, 0⟩
    else if c = 39 ∨ c = 34 then
      let body := r.takeWhile (· ≠ c)
      if body.length = r.length then .error .unbalQuote else .ok ⟨TLIT, p, body.length + 2⟩
    else if c = 44 then .ok ⟨TCOMMA, p, 1⟩
    else if c = 40 then .ok ⟨TLPAREN, p, 1⟩
    else if c = 123 then .ok ⟨TNULLTOK, p, 0⟩
    else
      let w := p.takeWhile inWord
      if 38 ∈ w then .error .macroUsed else .ok ⟨TTOK, p, w.length⟩

/-- The length of an exponent with its letter, if there is one. -/
def exponentLen : List UInt8 → Except LexErr Nat
  | c :: r =>
    if c = 101 ∨ c = 69 then
      let sgn := match r with
        | d :: _ => if d = 43 ∨ d = 45 then 1 else 0
        | [] => 0
      let digits := (r.drop sgn).takeWhile Decimal.isDigit
      if digits = [] then .error .illSymbol else .ok (1 + sgn + digits.length)
    else .ok 0
  | [] => .ok 0

/-- The words between points, or a point alone. -/
def pointWord (r : List UInt8) : Nat × Nat :=
  match r.map upper with
  | 84 :: 46 :: _ => (TLOGIC, 3)
  | 89 :: 46 :: _ => (TLOGIC, 3)
  | 70 :: 46 :: _ => (TLOGIC, 3)
  | 78 :: 46 :: _ => (TLOGIC, 3)
  | 65 :: 78 :: 68 :: 46 :: _ => (TAND, 5)
  | 79 :: 82 :: 46 :: _ => (TOR, 4)
  | 78 :: 79 :: 84 :: 46 :: _ => (TNOT, 5)
  | _ => (TPERIOD, 1)

/-- The tokens of one or two characters that are neither letters nor digits. -/
def symbol : UInt8 → Option UInt8 → Option (Nat × Nat)
  | 63, _ => some (TQUESTN, 1)
  | 64, _ => some (TAT, 1)
  | 59, _ => some (TSEMICOLON, 1)
  | 40, _ => some (TLPAREN, 1)
  | 41, _ => some (TRPAREN, 1)
  | 43, _ => some (TPLUS, 1)
  | 45, some 62 => some (TARROW, 2)
  | 45, _ => some (TMINUS, 1)
  | 42, some 42 => some (TPOWER, 2)
  | 42, _ => some (TMULT, 1)
  | 94, _ => some (TPOWER, 1)
  | 47, _ => some (TDIV, 1)
  | 61, _ => some (TEQUAL, 1)
  | 62, some 61 => some (TGTREQU, 2)
  | 62, _ => some (TGREATER, 1)
  | 60, some 61 => some (TLESSEQU, 2)
  | 60, some 62 => some (TNEQU, 2)
  | 60, _ => some (TLESS, 1)
  | 91, _ => some (TLBRKT, 1)
  | 93, _ => some (TRBRKT, 1)
  | 58, _ => some (TCOLON, 1)
  | 35, _ => some (TPOUND, 1)
  | _, _ => none

/-- `get_token`, at the beginning of a word. A number with a point is one token. -/
def wordToken (p : List UInt8) : Except LexErr Lexeme :=
  match p with
  | [] => .ok ⟨TNULLTOK, p, 0⟩
  | c :: r =>
    if isalpha c || c = 95 then
      let len := 1 + (r.takeWhile fun c => isalpha c || Decimal.isDigit c || c = 95).length
      if len > VNAMELEN then .error .badVarname else .ok ⟨TID, p, len⟩
    else
      let n := (p.takeWhile Decimal.isDigit).length
      match p.drop n with
      | 46 :: a =>
        let f := a.takeWhile Decimal.isDigit
        if f ≠ [] then do
          let e ← exponentLen (a.drop f.length)
          .ok ⟨TNUMBER, p, n + 1 + f.length + e⟩
        else if n ≠ 0 then .ok ⟨TINT, p, n⟩
        else .ok ⟨(pointWord a).1, p, (pointWord a).2⟩
      | _ =>
        if n ≠ 0 then .ok ⟨TINT, p, n⟩
        else
          match symbol c r.head? with
          | some (t, len) => .ok ⟨t, p, len⟩
          | none => .error .illSymbol

/-- `get_token`. -/
def getToken (s : List UInt8) : Except LexErr Lexeme :=
  match getTok s with
  | .error e => .error e
  | .ok l => if l.tok = TTOK then wordToken l.text else .ok l

/-! ## Numbers and the characters between them -/

/-- A text that a number can begin: no macro in it. -/
def Plainly (s : List UInt8) : Prop := ∀ c ∈ s, c ≠ 38

theorem getTok_word {c : UInt8} {r : List UInt8} (hw : inWord c = true) (hc : c ∉ [0x1a, 39, 34, 123]) (h : Plainly (c :: r)) :
    getTok (c :: r) = .ok ⟨TTOK, c :: r, ((c :: r).takeWhile inWord).length⟩ := by
  simp only [List.mem_cons, List.not_mem_nil, or_false, not_or] at hc
  have hword : isspace c = false ∧ c ≠ 44 ∧ c ≠ 40 := by
    unfold inWord at hw
    simpa [and_assoc] using hw
  have hp : (c :: r).dropWhile isspace = c :: r := List.dropWhile_cons_of_neg (by simp [hword.1])
  have hmacro : 38 ∉ (c :: r).takeWhile inWord := fun hm => h 38 (List.takeWhile_subset _ hm) rfl
  unfold getTok
  rw [hp]
  dsimp only
  rw [if_neg hc.1, if_neg (not_or.mpr ⟨hc.2.1, hc.2.2.1⟩), if_neg hword.2.1, if_neg hword.2.2, if_neg hc.2.2.2, if_neg hmacro]

theorem getToken_word {c : UInt8} {r : List UInt8} (hw : inWord c = true) (hc : c ∉ [0x1a, 39, 34, 123]) (h : Plainly (c :: r)) :
    getToken (c :: r) = wordToken (c :: r) := by
  unfold getToken
  rw [getTok_word hw hc h]
  exact if_pos rfl

theorem digit_word {c : UInt8} (h : Decimal.isDigit c = true) : inWord c = true ∧ c ∉ [0x1a, 39, 34, 123] ∧ (isalpha c || c = 95) = false := by
  have hd := isDigit_iff.mp h
  unfold inWord isspace isalpha
  simp only [List.mem_cons, List.not_mem_nil, or_false, ← UInt8.toNat_inj, UInt8.le_iff_toNat_le, Bool.or_eq_false_iff, Bool.not_eq_true',
    Bool.and_eq_false_iff, decide_eq_false_iff_not, UInt8.reduceToNat]
  omega

variable {ds x : List UInt8}

/-- The digits of a text that go on with something else. -/
theorem takeWhile_digits (hds : ∀ c ∈ ds, Decimal.isDigit c = true) (hx : ∀ c ∈ x.head?, Decimal.isDigit c = false) : (ds ++ x).takeWhile Decimal.isDigit = ds := by
  rw [List.takeWhile_append_of_pos hds]
  cases x with
  | nil => simp
  | cons c x => rw [List.takeWhile_cons_of_neg (by simp [hx c rfl]), List.append_nil]

theorem drop_takeWhile (p : UInt8 → Bool) (l : List UInt8) : l.drop (l.takeWhile p).length = l.dropWhile p := by
  calc l.drop (l.takeWhile p).length = (l.takeWhile p ++ l.dropWhile p).drop (l.takeWhile p).length := by rw [List.takeWhile_append_dropWhile]
    _ = l.dropWhile p := List.drop_left

/-- Digits that no point follows are an integer. -/
theorem getToken_int (hne : ds ≠ []) (hds : ∀ c ∈ ds, Decimal.isDigit c = true) (hx : ∀ c ∈ x.head?, Decimal.isDigit c = false ∧ c ≠ POINT) (h : Plainly (ds ++ x)) :
    getToken (ds ++ x) = .ok ⟨TINT, ds ++ x, ds.length⟩ := by
  obtain ⟨c, r, rfl⟩ := List.exists_cons_of_ne_nil hne
  obtain ⟨hw, hc, halpha⟩ := digit_word (hds c List.mem_cons_self)
  have htake := takeWhile_digits hds fun c hc => (hx c hc).1
  rw [List.cons_append, getToken_word hw hc (r := r ++ x) h]
  unfold wordToken
  dsimp only
  rw [halpha, if_neg (by simp), ← List.cons_append, htake, List.drop_left]
  cases x with
  | nil => exact if_pos (by simp)
  | cons d x =>
    have hd : d ≠ 46 := (hx d rfl).2
    split
    · rename_i heq
      exact absurd (List.cons.inj heq).1 hd
    · exact if_pos (by simp)

/-- With a point and another digit behind them they are a number. -/
theorem getToken_number {d : UInt8} (hne : ds ≠ []) (hds : ∀ c ∈ ds, Decimal.isDigit c = true) (hd : Decimal.isDigit d = true)
    (hx : ∀ c ∈ (x.dropWhile Decimal.isDigit).head?, c ≠ 101 ∧ c ≠ 69) (h : Plainly (ds ++ POINT :: d :: x)) :
    ∃ len, getToken (ds ++ POINT :: d :: x) = .ok ⟨TNUMBER, ds ++ POINT :: d :: x, len⟩ := by
  obtain ⟨c, r, rfl⟩ := List.exists_cons_of_ne_nil hne
  obtain ⟨hw, hc, halpha⟩ := digit_word (hds c List.mem_cons_self)
  have htake : (c :: r ++ POINT :: d :: x).takeWhile Decimal.isDigit = c :: r := takeWhile_digits hds fun c hc => by
    rw [← Option.some.inj hc]
    rfl
  have hexp : exponentLen ((d :: x).drop ((d :: x).takeWhile Decimal.isDigit).length) = .ok 0 := by
    rw [drop_takeWhile, List.dropWhile_cons_of_pos hd]
    rcases hrest : x.dropWhile Decimal.isDigit with _ | ⟨e, y⟩
    · rfl
    · rw [hrest] at hx
      exact if_neg (not_or.mpr (hx e rfl))
  have hf : (d :: x).takeWhile Decimal.isDigit ≠ [] := by
    rw [List.takeWhile_cons_of_pos hd]
    exact List.cons_ne_nil _ _
  refine ⟨(c :: r).length + 1 + ((d :: x).takeWhile Decimal.isDigit).length + 0, ?_⟩
  rw [List.cons_append, getToken_word hw hc (r := r ++ POINT :: d :: x) h]
  unfold wordToken
  dsimp only
  rw [halpha, if_neg (by simp), ← List.cons_append, htake, List.drop_left]
  show (if (d :: x).takeWhile Decimal.isDigit ≠ [] then _ else _) = _
  rw [if_pos hf, hexp]
  rfl

theorem getToken_comma (x : List UInt8) : getToken (44 :: x) = .ok ⟨TCOMMA, 44 :: x, 1⟩ := by
  have hp : (44 :: x).dropWhile isspace = 44 :: x := List.dropWhile_cons_of_neg (by decide)
  unfold getToken getTok
  rw [hp]
  rfl

/-- A character that is a token of its own. -/
theorem getToken_symbol {c : UInt8} {t : Nat} (hw : inWord c = true) (hc : c ∉ [0x1a, 39, 34, 123]) (halpha : (isalpha c || c = 95) = false)
    (hdigit : Decimal.isDigit c = false) (hpoint : c ≠ POINT) (hsym : symbol c x.head? = some (t, 1)) (h : Plainly (c :: x)) :
    getToken (c :: x) = .ok ⟨t, c :: x, 1⟩ := by
  rw [getToken_word hw hc h]
  unfold wordToken
  dsimp only
  have htake : (c :: x).takeWhile Decimal.isDigit = [] := List.takeWhile_cons_of_neg (by simp [hdigit])
  rw [halpha, if_neg (by simp), htake, List.length_nil, List.drop_zero]
  split
  · rename_i heq
    exact absurd (List.cons.inj heq).1 hpoint
  · rw [if_neg (by simp), hsym]

end Db3w.Hb
