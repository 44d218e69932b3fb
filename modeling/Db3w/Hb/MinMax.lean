/-
`minmax` of fcn.c, and the operators >= and <=. The function compares numbers by `num_rel`, as the operators
do, but dates and strings by code of its own; with EXACT it takes the lengths of two strings the other way
round. The operations on doubles are a parameter.
-/
import Db3w.Hb.Compare
import Db3w.Hb.Fixed
import Db3w.Lib.Doubles

namespace Db3w.Hb

variable {D : Type}

/-- `number_t`, over any doubles. -/
inductive DNum (D : Type) where
  | null
  | fixed (n : Int64) (deci : Nat)
  | real (r : D)

/-- `HBVAL`, over any doubles. -/
inductive DVal (D : Type) where
  | logic (b : Option Bool)
  | number (n : DNum D)
  | date (d : Option UInt32)
  | charctr (s : List UInt8)
  | other (t : OtherTyp) (buf : List UInt8)

def DNum.toReal (F : Doubles D) : DNum D → D
  | .null => F.zero
  | .fixed n deci => F.div (F.ofInt64 n) (F.ofInt64 (power10 deci))
  | .real r => r

/-- The difference of two numbers in the larger number of decimals. -/
def fixedDiff (l1 : Int64) (d1 : Nat) (l2 : Int64) (d2 : Nat) : Int64 :=
  (if d1 > d2 then l1 else l1 * power10 (d2 - d1)) - (if d1 > d2 then l2 * power10 (d1 - d2) else l2)

/-- `isequal` of `num_rel`. -/
def isequal (F : Doubles D) (r1 r2 : D) : Bool :=
  let diff := F.abs (F.sub (F.abs r1) (F.abs r2))
  F.beq r1 r2 || ((F.beq r1 F.zero || F.beq r2 F.zero || F.lt diff F.minNormal) && F.lt diff (F.mul F.epsilon F.minNormal)) ||
    F.lt (F.div diff (F.min (F.add (F.abs r1) (F.abs r2)) F.maxFinite)) F.epsilon

/-- `num_rel`. -/
def DNum.rel (F : Doubles D) (n1 n2 : DNum D) (op : Nat) : Int :=
  match n1, n2 with
  | .null, _ | _, .null => -1
  | .fixed l1 d1, .fixed l2 d2 => relOf op (0 < fixedDiff l1 d1 l2 d2) (fixedDiff l1 d1 l2 d2 < 0)
  | n1, n2 =>
    let r1 := n1.toReal F
    let r2 := n2.toReal F
    if op = TGREATER then (!isequal F r1 r2 && F.lt r2 r1).toInt
    else if op = TLESS then (!isequal F r1 r2 && F.lt r1 r2).toInt
    else if op = TEQUAL then (isequal F r1 r2).toInt
    else if op = TNEQU then (!isequal F r1 r2).toInt
    else if op = TGTREQU then (isequal F r1 r2 || F.lt r2 r1).toInt
    else if op = TLESSEQU then (isequal F r1 r2 || F.lt r1 r2).toInt
    else if op = TQUESTN then if isequal F r1 r2 then 0 else if F.lt r2 r1 then 1 else -1
    else 0

namespace DVal

def typ : DVal D → Nat
  | logic _ => LOGIC
  | number _ => NUMBER
  | date _ => DATE
  | charctr _ => CHARCTR
  | other t _ => t.typ

end DVal

/-- `gte` of `minmax`. -/
def minmaxGte (F : Doubles D) (set : Settings) (v1 v2 : DVal D) : Except HbErr Bool :=
  match v1, v2 with
  | .date none, .date _ | .date _, .date none => .error .invalidValue
  | .date (some d1), .date (some d2) => .ok (d1 ≥ d2)
  | .number .null, .number _ | .number _, .number .null => .error .invalidValue
  | .number x, .number y => .ok (x.rel F y TGTREQU ≠ 0)
  | .charctr p, .charctr q =>
    if p = [] then .ok false
    else if q = [] then .ok true
    else
      let i := strDiff (min p.length q.length) p q
      let i := if i = 0 ∧ set.exactOn then (q.length : Int) - p.length else i
      .ok (i ≥ 0)
  | .logic none, .logic _ | .logic _, .logic none => .error .invalidValue
  | .logic (some b), .logic _ => .ok b
  | v1, v2 => .error (if v1.typ ≠ v2.typ then .typeMismatch else .invalidType)

/-- `minmax`; the value that is pushed has just been popped. -/
def minmax (F : Doubles D) (set : Settings) (ismin : Bool) : List (DVal D) → Except HbErr (List (DVal D))
  | v2 :: v1 :: st => do
    let gte ← minmaxGte F set v1 v2
    return (if gte then (if ismin then v2 else v1) else (if ismin then v1 else v2)) :: st
  | _ => .error .stackUnderflow

def mmax (F : Doubles D) (set : Settings) : List (DVal D) → Except HbErr (List (DVal D)) := minmax F set false

def mmin (F : Doubles D) (set : Settings) : List (DVal D) → Except HbErr (List (DVal D)) := minmax F set true

/-! ## The operators -/

def DNum.ofDate : Option UInt32 → DNum D
  | none => .null
  | some d => .fixed (Int64.ofNat d.toNat) 0

/-- A relational operator that ends in a logical value, between values of one type. -/
def relOp (F : Doubles D) (set : Settings) (op : Nat) : DVal D → DVal D → Except HbErr (Option Bool)
  | .number x, .number y => .ok (relLogic (x.rel F y op))
  | .date d, .date e => .ok (relLogic ((DNum.ofDate d).rel F (DNum.ofDate e) op))
  | .charctr a, .charctr b =>
    if set.nullOn ∧ (a = [] ∨ b = []) then .ok none
    else .ok (relLogic (relOf op (0 < textDiff set.exactOn a b) (textDiff set.exactOn a b < 0)))
  | v1, v2 => .error (if v1.typ ≠ v2.typ then .typeMismatch else .invalidType)

/-- The doubles of the machine. -/
def floats : Doubles Float where
  ofInt64 := Int64.toFloat
  abs := Float.abs
  add := (· + ·)
  sub := (· - ·)
  mul := (· * ·)
  div := (· / ·)
  lt a b := a < b
  beq := (· == ·)
  isNaN := Float.isNaN
  zero := 0
  epsilon := DBL_EPSILON
  minNormal := DBL_MIN
  maxFinite := DBL_MAX

def Num.dnum : Num → DNum Float
  | .null => .null
  | .fixed n deci => .fixed n deci
  | .real r => .real r

def HbVal.dval : HbVal → DVal Float
  | .logic b => .logic b
  | .number n => .number n.dnum
  | .date d => .date d
  | .charctr s => .charctr s
  | .other t buf => .other t buf

theorem floats_min (a b : Float) : floats.min a b = fmin a b := by
  unfold Doubles.min fmin floats
  simp only [decide_eq_true_eq]

theorem numRel_dnum (m n : Num) (op : Nat) : m.dnum.rel floats n.dnum op = numRel m n op := by
  cases m <;> cases n
  case real.real | real.fixed | fixed.real =>
    simp only [Num.dnum, DNum.rel, isequal, floats_min, numRel]
    simp only [floats, decide_eq_true_eq]
    rfl
  all_goals rfl

/-! ### The comparison of keys -/

/-- The operators of a search, as the machine has them. -/
def relopCode : RelOp → Nat
  | .tequal => TEQUAL
  | .tgtrequ => TGTREQU
  | .tgreater => TGREATER
  | .tlessequ => TLESSEQU
  | .tnequ => TNEQU
  | .tless => TLESS
  | .tquestn => TQUESTN

/-- A number of an index: its double is a rational. -/
def exactNum : Number → DNum (Option ℚ)
  | .null => .null
  | .fixed n deci => .fixed n deci
  | .real r => .real (some r)

theorem isequal_exact (r1 r2 : ℚ) : isequal .exact (some r1) (some r2) = Db3w.isequal r1 r2 := by
  have hmax : (2 : ℚ) ^ 1024 - 2 ^ 971 = dblMax := by
    rw [dblMax, show (2 : ℚ) ^ 1024 = 2 ^ 53 * 2 ^ 971 by rw [← pow_add], sub_one_mul]
  have hmin : Doubles.exact.min (some (|r1| + |r2|)) (some dblMax) = some (min (|r1| + |r2|) dblMax) := by
    simp only [Doubles.min, Doubles.exact, Option.isNone_some, Bool.false_eq_true, if_false, decide_eq_true_eq]
    split
    · rw [min_eq_left (le_of_lt ‹_›)]
    · rw [min_eq_right (not_lt.mp ‹_›)]
  by_cases h : r1 = r2
  · simp [isequal, Db3w.isequal, Doubles.exact, h]
  · have hsum : 0 < |r1| + |r2| := by
      rcases eq_or_ne r1 0 with rfl | h1
      · have := abs_pos.mpr (Ne.symm h)
        simpa using this
      · have := abs_pos.mpr h1
        have := abs_nonneg r2
        linarith
    have hne : min (|r1| + |r2|) dblMax ≠ 0 := (lt_min hsum (by unfold dblMax; norm_num)).ne'
    unfold isequal Db3w.isequal
    rw [show Doubles.exact.maxFinite = some dblMax from congrArg some hmax,
      show Doubles.exact.add (Doubles.exact.abs (some r1)) (Doubles.exact.abs (some r2)) = some (|r1| + |r2|) from rfl, hmin]
    simp only [Doubles.exact, Option.map_some, Option.bind_some, hne, if_false, dblMin, dblEpsilon]
    rfl

/-- The numerator of a number in an index is shifted by a power of ten that fits. -/
def ShortNum : Number → Prop
  | .fixed _ deci => deci ≤ DECI_MAX
  | _ => True

theorem toReal_exact : ∀ {n : Number}, n ≠ .null → ShortNum n → (exactNum n).toReal .exact = some n.toReal
  | .real r, _, _ => rfl
  | .fixed n deci, _, h => by
    have hp := power10_toInt h
    have h0 : ((10 : ℚ) ^ deci) ≠ 0 := by positivity
    show (if (((power10 deci).toInt : ℤ) : ℚ) = 0 then none else some ((n.toInt : ℚ) / ((power10 deci).toInt : ℤ))) = some ((n.toInt : ℚ) / 10 ^ deci)
    rw [hp]
    push_cast
    rw [if_neg h0]
  | .null, h, _ => absurd rfl h

/-- The comparison of two doubles. -/
theorem rel_exact {m n : DNum (Option ℚ)} {r1 r2 : ℚ} (hm : m.toReal .exact = some r1) (hn : n.toReal .exact = some r2) (op : RelOp)
    (hrel : m.rel .exact n (relopCode op) = (DNum.real (m.toReal .exact)).rel .exact (.real (n.toReal .exact)) (relopCode op)) :
    m.rel .exact n (relopCode op) = Db3w.numRel (.real r1) (.real r2) op := by
  rw [hrel, hm, hn]
  have hlt : ∀ a b : ℚ, Doubles.exact.lt (some a) (some b) = decide (a < b) := fun _ _ => rfl
  have hint : ∀ a b : ℚ, (decide (a < b)).toInt = if a < b then 1 else 0 := fun a b => by
    by_cases h : a < b <;> simp [h]
  rcases Bool.eq_false_or_eq_true (Db3w.isequal r1 r2) with he | he
  · cases op <;> simp [DNum.rel, DNum.toReal, relopCode, isequal_exact, hlt, Db3w.numRel, Number.toReal, he]
  · by_cases h : r1 < r2
    · cases op <;> simp [DNum.rel, DNum.toReal, relopCode, isequal_exact, hlt, Db3w.numRel, Number.toReal, he, hint, h]
    · cases op <;> simp [DNum.rel, DNum.toReal, relopCode, isequal_exact, hlt, Db3w.numRel, Number.toReal, he, hint, h]

/-- Keys of an index are compared by the same operator, over exact numbers. -/
theorem numRel_exact {m n : Number} (hm : ShortNum m) (hn : ShortNum n) (op : RelOp) :
    (exactNum m).rel .exact (exactNum n) (relopCode op) = Db3w.numRel m n op := by
  cases m with
  | null => cases n <;> rfl
  | fixed l1 d1 =>
    cases n with
    | null => rfl
    | fixed l2 d2 =>
      have hdiff : fixedDiff l1 d1 l2 d2 = if d1 > d2 then l1 - l2 * power10 (d1 - d2) else l1 * power10 (d2 - d1) - l2 := by
        unfold fixedDiff
        split <;> rfl
      unfold Db3w.numRel
      dsimp only [exactNum, DNum.rel]
      rw [hdiff]
      generalize (if d1 > d2 then l1 - l2 * power10 (d1 - d2) else l1 * power10 (d2 - d1) - l2) = diff
      have hlt : diff < 0 ↔ diff.toInt < 0 := Int64.lt_iff_toInt_lt
      have hgt : 0 < diff ↔ 0 < diff.toInt := Int64.lt_iff_toInt_lt
      have hle : diff ≤ 0 ↔ diff.toInt ≤ 0 := Int64.le_iff_toInt_le
      have hge : 0 ≤ diff ↔ 0 ≤ diff.toInt := Int64.le_iff_toInt_le
      have heq : diff = 0 ↔ diff.toInt = 0 := Int64.toInt_inj.symm
      rcases lt_trichotomy diff.toInt 0 with h | h | h
      · cases op <;> simp [relOf, relopCode, hlt, hgt, hle, hge, heq, h, h.ne, h.le, h.not_gt, h.not_ge]
      · cases op <;> simp [relOf, relopCode, hlt, hgt, hle, hge, heq, h]
      · cases op <;> simp [relOf, relopCode, hlt, hgt, hle, hge, heq, h, h.ne', h.le, h.not_gt, h.not_ge]
    | real r => exact rel_exact (toReal_exact (by simp) hm) (toReal_exact (by simp) hn) op rfl
  | real r =>
    cases n with
    | null => rfl
    | fixed l2 d2 => exact rel_exact (toReal_exact (by simp) hm) (toReal_exact (by simp) hn) op rfl
    | real r2 => exact rel_exact rfl rfl op rfl

/-! ### The operator of the machine -/

/-- On the values of the machine it is the operator of the machine. -/
theorem relOp_dval {set : Settings} {op : Nat} (h : LogicRel op) {a b : HbVal} (ht : a.typ = b.typ)
    (ha : a.typ = NUMBER ∨ a.typ = DATE ∨ (a.typ = CHARCTR ∧ a.str ≠ [] ∧ b.str ≠ [])) :
    binValue set op a b = (relOp floats set op a.dval b.dval).map .logic := by
  match a, b with
  | .number m, .number n =>
    rw [binValue_number h, ← numRel_dnum]
    rfl
  | .date d, .date e =>
    rw [binValue_date h]
    cases d <;> cases e <;> rfl
  | .charctr s, .charctr t =>
    obtain ⟨-, hs, ht⟩ : CHARCTR = CHARCTR ∧ s ≠ [] ∧ t ≠ [] := by simpa [HbVal.typ, HbVal.str] using ha
    rw [binValue_charctr h hs ht]
    simp [HbVal.dval, relOp, hs, ht, Except.map]

/-! ## Numbers -/

section Numbers

variable {F : Doubles D}

/-- `num_rel` with `TGTREQU`. -/
def DNum.ge (F : Doubles D) : DNum D → DNum D → Bool
  | .fixed l1 d1, .fixed l2 d2 => !(fixedDiff l1 d1 l2 d2 < 0)
  | x, y => isequal F (x.toReal F) (y.toReal F) || F.lt (y.toReal F) (x.toReal F)

/-- `num_rel` with `TLESSEQU`. -/
def DNum.le (F : Doubles D) : DNum D → DNum D → Bool
  | .fixed l1 d1, .fixed l2 d2 => !(0 < fixedDiff l1 d1 l2 d2)
  | x, y => isequal F (x.toReal F) (y.toReal F) || F.lt (x.toReal F) (y.toReal F)

def DNum.isNull : DNum D → Bool
  | .null => true
  | _ => false

theorem DNum.rel_ge {x y : DNum D} (hx : x.isNull = false) (hy : y.isNull = false) : x.rel F y TGTREQU = (x.ge F y).toInt := by
  cases x <;> cases y <;> first | rfl | exact Bool.noConfusion hx | exact Bool.noConfusion hy

theorem DNum.rel_le {x y : DNum D} (hx : x.isNull = false) (hy : y.isNull = false) : x.rel F y TLESSEQU = (x.le F y).toInt := by
  cases x <;> cases y <;> first | rfl | exact Bool.noConfusion hx | exact Bool.noConfusion hy

theorem fixedDiff_self (l : Int64) (d : Nat) : fixedDiff l d l d = 0 := by simp [fixedDiff, power10]

/-- The difference the other way round. -/
theorem fixedDiff_swap (l1 : Int64) (d1 : Nat) (l2 : Int64) (d2 : Nat) : fixedDiff l2 d2 l1 d1 = -fixedDiff l1 d1 l2 d2 := by
  unfold fixedDiff
  rcases lt_trichotomy d1 d2 with h | rfl | h
  · simp [h, not_lt.mpr h.le]
  · simp [power10]
  · simp [h, not_lt.mpr h.le]

theorem neg_not_pos {w : Int64} (h : ¬w < 0) : ¬0 < -w := by
  rw [neg_iff] at h
  have hlt := w.toInt_lt
  rw [pos_iff, Int64.toInt_neg, show (-w.toInt).bmod (2 ^ 64) = -w.toInt from wrap_eq_iff.mpr ⟨by omega, by omega⟩]
  omega

/-- Only the least number has no negative. -/
theorem neg_not_neg_iff {w : Int64} (h : w < 0) : ¬-w < 0 ↔ w ≠ Int64.minValue := by
  rw [neg_iff] at h
  have hle := w.le_toInt
  constructor
  · rintro hn rfl
    exact hn (by decide)
  · intro hne
    have hmin : w.toInt ≠ -2 ^ 63 := fun he => hne (Int64.toInt_inj.mp he)
    rw [neg_iff, Int64.toInt_neg, show (-w.toInt).bmod (2 ^ 64) = -w.toInt from wrap_eq_iff.mpr ⟨by omega, by omega⟩]
    omega

theorem isequal_comm (hF : F.Lawful) (a b : D) : isequal F a b = isequal F b a := by
  unfold isequal
  rw [hF.beq_comm a b, hF.abs_sub_comm (F.abs a) (F.abs b), hF.add_comm (F.abs a) (F.abs b), Bool.or_comm (F.beq a F.zero)]

theorem isequal_self (hF : F.Lawful) {a : D} (h : F.isNaN a = false) : isequal F a a = true := by
  unfold isequal
  rw [hF.beq_self a h]
  rfl

/-- What is no number is not equal to anything. -/
theorem isequal_nan (hF : F.Lawful) {a b : D} (h : F.isNaN a = true ∨ F.isNaN b = true) : isequal F a b = false := by
  have hab : F.isNaN (F.abs a) = true ∨ F.isNaN (F.abs b) = true := by rwa [hF.nan_abs, hF.nan_abs]
  have hdiff : F.isNaN (F.abs (F.sub (F.abs a) (F.abs b))) = true := by
    rw [hF.nan_abs]
    exact hF.nan_sub _ _ hab
  unfold isequal
  dsimp only
  rw [hF.nan_beq a b h, hF.nan_lt _ (F.mul F.epsilon F.minNormal) (.inl hdiff), hF.nan_lt _ F.epsilon (.inl (hF.nan_div _ _ hdiff))]
  simp

end Numbers

/-! ## The larger and the smaller value -/

variable {F : Doubles D} {set : Settings} {a b : DVal D}

/-- The operator holds of the two values. -/
def RelHolds (F : Doubles D) (set : Settings) (op : Nat) (a b : DVal D) : Prop := relOp F set op a b = .ok (some true)

/-- `MAX` and `MIN` leave the two arguments in the places of the larger and the smaller one by the operators. -/
def MinMaxRight (F : Doubles D) (set : Settings) (a b : DVal D) : Prop :=
  ∀ st, ∃ mx mn, mmax F set (b :: a :: st) = .ok (mx :: st) ∧ mmin F set (b :: a :: st) = .ok (mn :: st) ∧ (mx = a ∧ mn = b ∨ mx = b ∧ mn = a) ∧
    RelHolds F set TGTREQU mx a ∧ RelHolds F set TGTREQU mx b ∧ RelHolds F set TLESSEQU mn a ∧ RelHolds F set TLESSEQU mn b

/-- Values of one type that are not NULL. -/
def OrdinaryPair : DVal D → DVal D → Prop
  | .number x, .number y => x.isNull = false ∧ y.isNull = false
  | .date d, .date e => d.isSome ∧ e.isSome
  | .charctr s, .charctr t => s ≠ [] ∧ t ≠ []
  | _, _ => False

/-- The difference of two numbers does not come out as the least one, no double is no number, and with EXACT no string
is a part of the other in front. -/
def SoundPair (F : Doubles D) (set : Settings) : DVal D → DVal D → Prop
  | .number (.fixed l1 d1), .number (.fixed l2 d2) => fixedDiff l1 d1 l2 d2 ≠ Int64.minValue
  | .number x, .number y => F.isNaN (x.toReal F) = false ∧ F.isNaN (y.toReal F) = false
  | .charctr s, .charctr t => set.exactOn = true → s <+: t ∨ t <+: s → s = t
  | _, _ => True

/-- The larger value `a` and the smaller value `b`. -/
def RankedPair (F : Doubles D) (set : Settings) (a b : DVal D) : Prop :=
  RelHolds F set TGTREQU a a ∧ RelHolds F set TGTREQU a b ∧ RelHolds F set TLESSEQU b a ∧ RelHolds F set TLESSEQU b b

/-- What is to be shown once `gte` is known. -/
theorem minMaxRight_iff_ranked {g : Bool} (h : minmaxGte F set a b = .ok g) :
    MinMaxRight F set a b ↔ if g then RankedPair F set a b else RankedPair F set b a := by
  have hmax : ∀ st, mmax F set (b :: a :: st) = .ok ((if g then a else b) :: st) := by
    intro st
    simp [mmax, minmax, h, bind, Except.bind, pure, Except.pure]
  have hmin : ∀ st, mmin F set (b :: a :: st) = .ok ((if g then b else a) :: st) := by
    intro st
    simp [mmin, minmax, h, bind, Except.bind, pure, Except.pure]
  unfold MinMaxRight RankedPair
  simp only [hmax, hmin, Except.ok.injEq, List.cons.injEq, and_true]
  cases g with
  | true =>
    constructor
    · intro hr
      obtain ⟨mx, mn, rfl, rfl, -, h1, h2, h3, h4⟩ := hr []
      exact ⟨h1, h2, h3, h4⟩
    · rintro ⟨h1, h2, h3, h4⟩ st
      exact ⟨a, b, rfl, rfl, .inl ⟨rfl, rfl⟩, h1, h2, h3, h4⟩
  | false =>
    constructor
    · intro hr
      obtain ⟨mx, mn, rfl, rfl, -, h1, h2, h3, h4⟩ := hr []
      exact ⟨h2, h1, h4, h3⟩
    · rintro ⟨h1, h2, h3, h4⟩ st
      exact ⟨b, a, rfl, rfl, .inr ⟨rfl, rfl⟩, h2, h1, h4, h3⟩

theorem relLogic_true {tf : Int} : relLogic tf = some true ↔ 0 < tf := by
  unfold relLogic
  split_ifs with h
  · simp [h.le]
  · simp only [Option.some.injEq, decide_eq_true_iff]
    omega

theorem toInt_pos {b : Bool} : 0 < b.toInt ↔ b = true := by cases b <;> simp

section

variable {x y : DNum D}

theorem holds_ge (hx : x.isNull = false) (hy : y.isNull = false) : RelHolds F set TGTREQU (.number x) (.number y) ↔ x.ge F y = true := by
  simp [RelHolds, relOp, relLogic_true, DNum.rel_ge hx hy, toInt_pos]

theorem holds_le (hx : x.isNull = false) (hy : y.isNull = false) : RelHolds F set TLESSEQU (.number x) (.number y) ↔ x.le F y = true := by
  simp [RelHolds, relOp, relLogic_true, DNum.rel_le hx hy, toInt_pos]

theorem ranked_number (hx : x.isNull = false) (hy : y.isNull = false) :
    RankedPair F set (.number x) (.number y) ↔ x.ge F x = true ∧ x.ge F y = true ∧ y.le F x = true ∧ y.le F y = true := by
  unfold RankedPair
  rw [holds_ge hx hx, holds_ge hx hy, holds_le hy hx, holds_le hy hy]

theorem minmaxGte_number (hx : x.isNull = false) (hy : y.isNull = false) : minmaxGte F set (.number x) (.number y) = .ok (x.ge F y) := by
  have hge := DNum.rel_ge (F := F) hx hy
  have hne : decide (x.rel F y TGTREQU ≠ 0) = x.ge F y := by
    rw [hge]
    cases x.ge F y <;> rfl
  cases x with
  | null => cases hx
  | fixed n d =>
    cases y with
    | null => cases hy
    | fixed m e => exact congrArg Except.ok hne
    | real r => exact congrArg Except.ok hne
  | real r =>
    cases y with
    | null => cases hy
    | fixed m e => exact congrArg Except.ok hne
    | real r => exact congrArg Except.ok hne

theorem DNum.ge_self (hF : F.Lawful) (hx : F.isNaN (x.toReal F) = false) : x.ge F x = true := by
  match x with
  | .fixed l d => simp [DNum.ge, fixedDiff_self]
  | .null | .real r => exact Bool.or_eq_true_iff.mpr (.inl (isequal_self hF hx))

theorem DNum.le_self (hF : F.Lawful) (hx : F.isNaN (x.toReal F) = false) : x.le F x = true := by
  match x with
  | .fixed l d => simp [DNum.le, fixedDiff_self]
  | .null | .real r => exact Bool.or_eq_true_iff.mpr (.inl (isequal_self hF hx))

/-- Two numbers that are compared as doubles. -/
structure AsDoubles (F : Doubles D) (x y : DNum D) : Prop where
  ge : x.ge F y = (isequal F (x.toReal F) (y.toReal F) || F.lt (y.toReal F) (x.toReal F))
  le : x.le F y = (isequal F (x.toReal F) (y.toReal F) || F.lt (x.toReal F) (y.toReal F))

/-- Of two numbers that are compared as doubles the one that is not below the other is the larger one, and the other way
round, unless one of them is no number. -/
theorem ranked_doubles (hF : F.Lawful) (hx : x.isNull = false) (hy : y.isNull = false) (hxy : AsDoubles F x y) (hyx : AsDoubles F y x) :
    (if x.ge F y = true then RankedPair F set (.number x) (.number y) else RankedPair F set (.number y) (.number x)) ↔
      F.isNaN (x.toReal F) = false ∧ F.isNaN (y.toReal F) = false := by
  rw [ranked_number hx hy, ranked_number hy hx, hxy.ge, hxy.le, hyx.ge, hyx.le]
  constructor
  · intro h
    by_contra hn
    have hnan : F.isNaN (x.toReal F) = true ∨ F.isNaN (y.toReal F) = true := by
      by_contra hc
      push Not at hc
      exact hn ⟨Bool.eq_false_iff.mpr hc.1, Bool.eq_false_iff.mpr hc.2⟩
    rw [isequal_nan hF hnan, hF.nan_lt _ _ hnan.symm, if_neg (by decide), isequal_nan hF hnan.symm, hF.nan_lt _ _ hnan] at h
    exact absurd h.2.1 (by decide)
  · rintro ⟨h1, h2⟩
    rw [DNum.ge_self hF h1, DNum.ge_self hF h2, DNum.le_self hF h1, DNum.le_self hF h2, isequal_comm hF (y.toReal F)]
    by_cases hg : (isequal F (x.toReal F) (y.toReal F) || F.lt (y.toReal F) (x.toReal F)) = true
    · simp [hg]
    · rw [if_neg hg]
      have hlt : F.lt (x.toReal F) (y.toReal F) = true := by
        rcases hF.trichotomy _ _ h1 h2 with h | h | h
        · exact h
        · exact absurd (by simp [isequal, h]) hg
        · exact absurd (by simp [h]) hg
      simp [hlt]

theorem ranked_fixed (l1 l2 : Int64) (d1 d2 : Nat) :
    (if (DNum.fixed l1 d1 : DNum D).ge F (.fixed l2 d2) = true then RankedPair F set (.number (.fixed l1 d1)) (.number (.fixed l2 d2))
      else RankedPair F set (.number (.fixed l2 d2)) (.number (.fixed l1 d1))) ↔ fixedDiff l1 d1 l2 d2 ≠ Int64.minValue := by
  rw [ranked_number rfl rfl, ranked_number rfl rfl]
  simp only [DNum.ge, DNum.le, fixedDiff_self, fixedDiff_swap l1 d1 l2 d2, Bool.not_eq_true', decide_eq_false_iff_not]
  by_cases hg : fixedDiff l1 d1 l2 d2 < 0
  · have hpos : ¬0 < fixedDiff l1 d1 l2 d2 := by
      rw [Int64.not_lt]
      exact Int64.le_of_lt hg
    rw [if_neg (not_not.mpr hg), neg_not_neg_iff hg]
    simp [hpos]
  · rw [if_pos hg]
    constructor
    · rintro - hmin
      rw [hmin] at hg
      exact hg (by decide)
    · intro _
      simp [hg, neg_not_pos hg]

end

theorem ranked_numbers (hF : F.Lawful) {x y : DNum D} (hx : x.isNull = false) (hy : y.isNull = false) :
    (if x.ge F y = true then RankedPair F set (.number x) (.number y) else RankedPair F set (.number y) (.number x)) ↔
      SoundPair F set (.number x) (.number y) := by
  match x, y with
  | .fixed l1 d1, .fixed l2 d2 => exact ranked_fixed l1 l2 d1 d2
  | .fixed _ _, .real _ => exact ranked_doubles hF hx hy ⟨rfl, rfl⟩ ⟨rfl, rfl⟩
  | .real _, .fixed _ _ => exact ranked_doubles hF hx hy ⟨rfl, rfl⟩ ⟨rfl, rfl⟩
  | .real _, .real _ => exact ranked_doubles hF hx hy ⟨rfl, rfl⟩ ⟨rfl, rfl⟩

/-- Dates are compared as the operators compare them. -/
theorem ranked_dates (d e : UInt32) : if decide (d ≥ e) = true then RankedPair F set (.date (some d)) (.date (some e)) else RankedPair F set (.date (some e)) (.date (some d)) := by
  have hd := d.toNat_lt
  have he := e.toNat_lt
  have hdiff : (fixedDiff (Int64.ofNat d.toNat) 0 (Int64.ofNat e.toNat) 0).toInt = (d.toNat : Int) - e.toNat := by
    simp only [fixedDiff, gt_iff_lt, lt_self_iff_false, if_false, Nat.sub_self, power10, Int64.mul_one]
    rw [toInt_sub, Int64.toInt_ofNat_of_lt (by omega), Int64.toInt_ofNat_of_lt (by omega)]
    exact wrap_eq_iff.mpr ⟨by omega, by omega⟩
  have hge : decide (d ≥ e) = (DNum.fixed (Int64.ofNat d.toNat) 0 : DNum D).ge F (.fixed (Int64.ofNat e.toNat) 0) := by
    rw [DNum.ge, Bool.eq_iff_iff]
    simp only [decide_eq_true_iff, Bool.not_eq_true', decide_eq_false_iff_not, neg_iff, hdiff, ge_iff_le, UInt32.le_iff_toNat_le]
    omega
  rw [hge]
  refine (@ranked_fixed _ _ set _ _ 0 0).mpr fun hmin => ?_
  rw [hmin] at hdiff
  have : Int64.minValue.toInt = -2 ^ 63 := by decide
  omega

/-! ## Strings -/

section

variable {s t : List UInt8}

theorem holds_text (op : Nat) (hs : s ≠ []) (ht : t ≠ []) :
    RelHolds F set op (.charctr s) (.charctr t) ↔ 0 < relOf op (0 < textDiff set.exactOn s t) (textDiff set.exactOn s t < 0) := by
  simp [RelHolds, relOp, hs, ht, relLogic_true]

theorem ranked_text (hs : s ≠ []) (ht : t ≠ []) : RankedPair F set (.charctr s) (.charctr t) ↔ 0 ≤ textDiff set.exactOn s t := by
  unfold RankedPair
  rw [holds_text TGTREQU hs hs, holds_text TGTREQU hs ht, holds_text TLESSEQU ht hs, holds_text TLESSEQU ht ht,
    textDiff_swap _ t s, textDiff_self, textDiff_self]
  rcases lt_or_ge (textDiff set.exactOn s t) 0 with h | h
  · simp [relOf, h]
  · simp [relOf, h, not_lt.mpr h]

theorem minmaxGte_text (hs : s ≠ []) (ht : t ≠ []) :
    minmaxGte F set (.charctr s) (.charctr t) = .ok (decide (0 ≤ if strDiff (min t.length s.length) s t = 0 ∧ set.exactOn then (t.length : Int) - s.length
      else strDiff (min t.length s.length) s t)) := by
  unfold minmaxGte
  simp only [hs, ht, if_false, ge_iff_le, Nat.min_comm]

/-- The lengths decide with EXACT, and there the function and the operators take them in different order. -/
theorem ranked_texts (hs : s ≠ []) (ht : t ≠ []) {g : Bool} (hg : minmaxGte F set (.charctr s) (.charctr t) = .ok g) :
    (if g = true then RankedPair F set (.charctr s) (.charctr t) else RankedPair F set (.charctr t) (.charctr s)) ↔
      SoundPair F set (.charctr s) (.charctr t) := by
  rw [minmaxGte_text hs ht] at hg
  cases hg
  rw [ranked_text hs ht, ranked_text ht hs, textDiff_swap _ t s]
  simp only [textDiff, decide_eq_true_iff, SoundPair, ← strDiff_prefix]
  by_cases h0 : strDiff (min t.length s.length) s t = 0
  · cases hex : set.exactOn with
    | false => simp [h0]
    | true =>
      have heq : s = t ↔ s.length = t.length := by
        constructor
        · rintro rfl
          rfl
        · intro hlen
          rcases strDiff_prefix.mp h0 with hp | hp
          · exact hp.eq_of_length hlen
          · exact (hp.eq_of_length hlen.symm).symm
      simp only [h0, and_self, if_true, forall_const, heq]
      split_ifs <;> omega
  · simp only [h0, false_and, if_false, false_implies, implies_true, iff_true]
    split_ifs <;> omega

end

/-! ## Both functions -/

/-- `MAX` and `MIN` agree with >= and <= exactly on the values that are sound. -/
theorem minMaxRight_iff (hF : F.Lawful) (h : OrdinaryPair a b) : MinMaxRight F set a b ↔ SoundPair F set a b := by
  match a, b with
  | .number x, .number y =>
    rw [minMaxRight_iff_ranked (minmaxGte_number h.1 h.2)]
    exact ranked_numbers hF h.1 h.2
  | .date (some d), .date (some e) =>
    rw [minMaxRight_iff_ranked rfl]
    exact iff_of_true (ranked_dates d e) trivial
  | .charctr s, .charctr t =>
    have hg := @minmaxGte_text _ F set _ _ h.1 h.2
    rw [minMaxRight_iff_ranked hg]
    exact ranked_texts h.1 h.2 hg

/-- 1.5 and 2.5. -/
theorem minMaxRight_iff_halves :
    MinMaxRight .exact ⟨true, false⟩ (.number (.real (some (3 / 2)))) (.number (.real (some (5 / 2)))) ↔
      SoundPair .exact ⟨true, false⟩ (.number (.real (some (3 / 2)))) (.number (.real (some (5 / 2)))) :=
  minMaxRight_iff Doubles.exact_lawful ⟨rfl, rfl⟩

/-- With EXACT on the smaller of `ab` and `abc` comes out as the larger one. -/
theorem minMax_fails : ¬MinMaxRight .exact ⟨true, true⟩ (.charctr [97, 98]) (.charctr [97, 98, 99]) := by
  rw [minMaxRight_iff_ranked (g := true) rfl]
  rintro ⟨-, hge, -, -⟩
  exact absurd (Except.ok.inj hge) (by decide)

end Db3w.Hb
