/-
Arithmetic on fixed point numbers. The operands are brought to the same number of decimals and then
added, subtracted, multiplied or compared as 64-bit integers, where each product and sum wraps. The
result is that of the rational numbers as long as nothing has wrapped, or what has wrapped shows in
a sign.
-/
import Db3w.Hb.Value

namespace Db3w.Hb

/-- A fixed point number. -/
structure Fixed where
  n : Int64
  deci : Nat
  deci_le : deci ≤ DECI_MAX

namespace Fixed

variable (x y : Fixed)

def num : Num := .fixed x.n x.deci

/-- The rational number that is meant. -/
def val : ℚ := x.n.toInt / 10 ^ x.deci

/-- The numerator when there are `d` decimals. -/
def scaled (d : Nat) : Int := x.n.toInt * 10 ^ (d - x.deci)

theorem val_eq {d : Nat} (h : x.deci ≤ d) : x.val = x.scaled d / 10 ^ d := by
  obtain ⟨k, rfl⟩ := Nat.exists_eq_add_of_le h
  unfold val scaled
  rw [Nat.add_sub_cancel_left, pow_add]
  push_cast
  field_simp

end Fixed

/-! ## 64 bits -/

/-- The range of a `long`. -/
def InLong (a : Int) : Prop := -2 ^ 63 ≤ a ∧ a < 2 ^ 63

instance (a : Int) : Decidable (InLong a) := inferInstanceAs (Decidable (_ ∧ _))

/-- What is left of an integer in a `long`. -/
def wrap (a : Int) : Int := a.bmod (2 ^ 64)

theorem wrap_eq_iff {a : Int} : wrap a = a ↔ InLong a := by
  unfold wrap InLong
  rw [Int.bmod_eq_emod]
  split <;> omega

theorem wrap_add (a b : Int) : wrap (wrap a + wrap b) = wrap (a + b) := by
  unfold wrap
  rw [Int.bmod_add_bmod, Int.add_bmod_bmod]

theorem wrap_sub (a b : Int) : wrap (wrap a - wrap b) = wrap (a - b) := by
  unfold wrap
  rw [Int.bmod_sub_bmod, Int.sub_bmod_bmod]

theorem wrap_toInt (a : Int64) : wrap a.toInt = a.toInt := by
  rw [wrap_eq_iff]
  exact ⟨a.le_toInt, a.toInt_lt⟩

theorem toInt_add (a b : Int64) : (a + b).toInt = wrap (a.toInt + b.toInt) := Int64.toInt_add a b

theorem toInt_sub (a b : Int64) : (a - b).toInt = wrap (a.toInt - b.toInt) := Int64.toInt_sub a b

theorem toInt_mul (a b : Int64) : (a * b).toInt = wrap (a.toInt * b.toInt) := Int64.toInt_mul a b

theorem pos_iff (a : Int64) : 0 < a ↔ 0 < a.toInt := Int64.lt_iff_toInt_lt

theorem neg_iff (a : Int64) : a < 0 ↔ a.toInt < 0 := Int64.lt_iff_toInt_lt

theorem power10_toInt {k : Nat} (h : k ≤ DECI_MAX) : (power10 k).toInt = 10 ^ k := by
  have hmax : DECI_MAX = 18 := rfl
  induction k with
  | zero => rfl
  | succ k ih =>
    have hlt : (10 : Int) ^ (k + 1) ≤ 10 ^ 18 := pow_le_pow_right₀ (by omega) (by omega)
    have hpos : (0 : Int) < 10 ^ (k + 1) := by positivity
    show (power10 k * 10).toInt = _
    rw [toInt_mul, ih (by omega)]
    change wrap (10 ^ k * 10) = _
    rw [← pow_succ]
    exact wrap_eq_iff.mpr ⟨by omega, by omega⟩

/-- An operand with as many decimals as the other one. -/
theorem toInt_scaled (x : Fixed) {d : Nat} (hd : d ≤ DECI_MAX) : (x.n * power10 (d - x.deci)).toInt = wrap (x.scaled d) := by
  rw [toInt_mul, power10_toInt (by omega)]
  rfl

theorem toInt_scaled_self (x : Fixed) : x.n.toInt = wrap (x.scaled x.deci) := by
  unfold Fixed.scaled
  rw [Nat.sub_self, pow_zero, mul_one, wrap_toInt]

/-! ## Comparison -/

/-- What a relational operator says of two rational numbers. -/
def relSpec (op : Nat) (a b : ℚ) : Int :=
  if op = TGREATER then if b < a then 1 else 0
  else if op = TLESS then if a < b then 1 else 0
  else if op = TEQUAL then if a = b then 1 else 0
  else if op = TNEQU then if a = b then 0 else 1
  else if op = TGTREQU then if b ≤ a then 1 else 0
  else if op = TLESSEQU then if a ≤ b then 1 else 0
  else if b < a then 1 else if a < b then -1 else 0

def relOps : List Nat := [TGREATER, TLESS, TEQUAL, TNEQU, TGTREQU, TLESSEQU, TQUESTN]

/-- All comparisons of two numbers come out as those of the rational numbers. -/
def ComparesRight (x y : Fixed) : Prop := ∀ op ∈ relOps, numRel x.num y.num op = relSpec op x.val y.val

/-- The difference of the numerators with as many decimals as either has. -/
def diffOf (x y : Fixed) : Int := x.scaled (max x.deci y.deci) - y.scaled (max x.deci y.deci)

/-- The lower 64 bits of a positive difference are a positive `long`, and those of a negative one a negative `long`. -/
def SignKept (a : Int) : Prop := (0 < a → 0 < a % 2 ^ 64 ∧ a % 2 ^ 64 < 2 ^ 63) ∧ (a < 0 → 2 ^ 63 ≤ a % 2 ^ 64)

theorem signKept_iff {a : Int} : SignKept a ↔ (0 < wrap a ↔ 0 < a) ∧ (wrap a < 0 ↔ a < 0) := by
  unfold SignKept wrap
  rw [Int.bmod_eq_emod]
  split <;> omega

/-- The comparison is that of the wrapped difference with 0. -/
theorem numRel_eq (x y : Fixed) (op : Nat) :
    numRel x.num y.num op = relOf op (decide (0 < wrap (diffOf x y))) (decide (wrap (diffOf x y) < 0)) := by
  have hx := x.deci_le
  have hy := y.deci_le
  unfold Fixed.num numRel diffOf
  dsimp only
  by_cases hd : x.deci > y.deci
  · rw [if_pos hd, if_pos hd, max_eq_left (by omega)]
    rw [← wrap_sub, ← toInt_scaled_self, ← toInt_scaled y hx, ← toInt_sub]
    congr 1
    · exact decide_eq_decide.mpr (pos_iff _)
    · exact decide_eq_decide.mpr (neg_iff _)
  · rw [if_neg hd, if_neg hd, max_eq_right (by omega)]
    rw [← wrap_sub, ← toInt_scaled_self y, ← toInt_scaled x hy, ← toInt_sub]
    congr 1
    · exact decide_eq_decide.mpr (pos_iff _)
    · exact decide_eq_decide.mpr (neg_iff _)

/-- The rational numbers compare as the difference does with 0. -/
theorem val_lt_iff (x y : Fixed) : (x.val < y.val ↔ diffOf x y < 0) ∧ (y.val < x.val ↔ 0 < diffOf x y) := by
  have hpos : (0 : ℚ) < 10 ^ max x.deci y.deci := by positivity
  unfold diffOf
  rw [x.val_eq (le_max_left x.deci y.deci), y.val_eq (le_max_right x.deci y.deci), div_lt_div_iff_of_pos_right hpos, div_lt_div_iff_of_pos_right hpos,
    Int.cast_lt, Int.cast_lt]
  omega

theorem relSpec_eq (op : Nat) (a b : ℚ) (hop : op ∈ relOps) : relSpec op a b = relOf op (decide (b < a)) (decide (a < b)) := by
  simp only [relOps, List.mem_cons, List.not_mem_nil, or_false] at hop
  rcases lt_trichotomy a b with h | h | h
  · rcases hop with rfl | rfl | rfl | rfl | rfl | rfl | rfl <;> simp [relSpec, relOf, h, h.le, h.not_gt, h.ne, h.not_ge]
  · rcases hop with rfl | rfl | rfl | rfl | rfl | rfl | rfl <;> simp [relSpec, relOf, h]
  · rcases hop with rfl | rfl | rfl | rfl | rfl | rfl | rfl <;> simp [relSpec, relOf, h, h.le, h.not_gt, h.ne', h.not_ge]

/-- The sign that `TQUESTN` answers tells both comparisons. -/
theorem relOf_tquestn {gt lt gt' lt' : Bool} (h : relOf TQUESTN gt lt = relOf TQUESTN gt' lt') (hne : ¬(gt ∧ lt)) (hne' : ¬(gt' ∧ lt')) :
    gt = gt' ∧ lt = lt' := by
  revert gt lt gt' lt'
  decide

/-- Fixed point numbers compare as rational numbers exactly when the difference of the numerators keeps its sign in 64 bits. -/
theorem comparesRight_iff (x y : Fixed) : ComparesRight x y ↔ SignKept (diffOf x y) := by
  obtain ⟨hlt, hgt⟩ := val_lt_iff x y
  rw [signKept_iff]
  constructor
  · intro h
    have hmem : TQUESTN ∈ relOps := by simp [relOps]
    have hq := h TQUESTN hmem
    rw [numRel_eq, relSpec_eq _ _ _ hmem] at hq
    obtain ⟨hp, hn⟩ := relOf_tquestn hq (by simp only [decide_eq_true_iff]; omega) (by simp only [decide_eq_true_iff]; exact fun h => lt_asymm h.1 h.2)
    rw [← hlt, ← hgt]
    exact ⟨decide_eq_decide.mp hp, decide_eq_decide.mp hn⟩
  · rintro ⟨hp, hn⟩ op hop
    rw [numRel_eq, relSpec_eq op _ _ hop]
    congr 1
    · exact decide_eq_decide.mpr (hp.trans hgt.symm)
    · exact decide_eq_decide.mpr (hn.trans hlt.symm)

/-- With eighteen decimals, ten is less than the smallest number there is. -/
theorem compares_fails : ¬ComparesRight ⟨10, 0, by decide⟩ ⟨1, 18, by decide⟩ := by
  intro h
  have hrel : numRel (.fixed 10 0) (.fixed 1 18) TLESS = 1 := by decide +kernel
  have hspec := h TLESS (by simp [relOps])
  rw [relSpec_eq _ _ _ (by simp [relOps])] at hspec
  change numRel (.fixed 10 0) (.fixed 1 18) TLESS = _ at hspec
  rw [hrel, decide_eq_false (show ¬Fixed.val ⟨10, 0, by decide⟩ < Fixed.val ⟨1, 18, by decide⟩ from ?_)] at hspec
  · revert hspec
    simp [relOf]
  · rw [(val_lt_iff _ _).1]
    decide +kernel

/-! ## Addition, subtraction and multiplication -/

inductive FixOp where
  | add | sub | mul
  deriving DecidableEq, Repr

/-- What the code makes of two numbers. -/
def FixOp.run (op : FixOp) (x y : Fixed) : Except HbErr Num :=
  match op with
  | add => numAdd x.num y.num TPLUS
  | sub => numAdd x.num y.num TMINUS
  | mul => numMul x.num y.num TMULT

/-- The result that is meant. -/
def FixOp.exact (op : FixOp) (a b : ℚ) : ℚ :=
  match op with
  | add => a + b
  | sub => a - b
  | mul => a * b

/-- The result is the exact one as long as it is a fixed point number. -/
def ResultRight (r : Except HbErr Num) (q : ℚ) : Prop := ∀ n d, r = .ok (.fixed n d) → (n.toInt : ℚ) / 10 ^ d = q

/-- The numerator of the exact result, with the decimals of the result. -/
def FixOp.numer (op : FixOp) (x y : Fixed) : Int :=
  match op with
  | add => x.scaled (max x.deci y.deci) + y.scaled (max x.deci y.deci)
  | sub => x.scaled (max x.deci y.deci) - y.scaled (max x.deci y.deci)
  | mul => x.n.toInt * y.n.toInt

/-- The decimals of the result. -/
def FixOp.deci (op : FixOp) (x y : Fixed) : Nat :=
  match op with
  | mul => x.deci + y.deci
  | _ => max x.deci y.deci

/-- Two integers with opposite signs. -/
def Opposite (a b : Int) : Prop := (0 < a ∧ b < 0) ∨ (a < 0 ∧ 0 < b)

instance (a b : Int) : Decidable (Opposite a b) := inferInstanceAs (Decidable (_ ∨ _))

/-- The overflows that show in a sign: that of the operand that is scaled, or that of the result when it can only be the other one. -/
def FixOp.Seen (op : FixOp) (x y : Fixed) : Prop :=
  let d := max x.deci y.deci
  let a := wrap (x.scaled d)
  let b := wrap (y.scaled d)
  match op with
  | add => Opposite x.n.toInt a ∨ Opposite y.n.toInt b ∨ (0 < a ∧ 0 < b ∧ wrap (a + b) < 0) ∨ (a < 0 ∧ b < 0 ∧ 0 < wrap (a + b))
  | sub => Opposite x.n.toInt a ∨ Opposite y.n.toInt b ∨ (0 < a ∧ b < 0 ∧ wrap (a - b) < 0) ∨ (a < 0 ∧ 0 < b ∧ 0 < wrap (a - b))
  | mul => (0 < x.n.toInt ∧ 0 < y.n.toInt ∧ wrap (x.n.toInt * y.n.toInt) < 0) ∨
      (Opposite x.n.toInt y.n.toInt ∧ 0 < wrap (x.n.toInt * y.n.toInt))

/-- A product with too many decimals is a floating point number. -/
def FixOp.Floats (op : FixOp) (x y : Fixed) : Prop := op = .mul ∧ DECI_MAX < x.deci + y.deci

/-- The exact result has the numerator and the decimals it should have. -/
theorem exact_eq (op : FixOp) (x y : Fixed) : op.exact x.val y.val = op.numer x y / 10 ^ op.deci x y := by
  cases op with
  | add =>
    show x.val + y.val = ((x.scaled _ + y.scaled _ : Int) : ℚ) / _
    rw [x.val_eq (le_max_left x.deci y.deci), y.val_eq (le_max_right x.deci y.deci), Int.cast_add, add_div]
    rfl
  | sub =>
    show x.val - y.val = ((x.scaled _ - y.scaled _ : Int) : ℚ) / _
    rw [x.val_eq (le_max_left x.deci y.deci), y.val_eq (le_max_right x.deci y.deci), Int.cast_sub, sub_div]
    rfl
  | mul =>
    show x.val * y.val = ((x.n.toInt * y.n.toInt : Int) : ℚ) / 10 ^ (x.deci + y.deci)
    unfold Fixed.val
    rw [Int.cast_mul, pow_add, div_mul_div_comm]

theorem not_opposite_self (a : Int) : ¬Opposite a a := by
  unfold Opposite
  omega

/-- The signs that `num_add` looks at once the operands are scaled. -/
def signsLost (op : Nat) (l1 l2 n : Int64) : Prop :=
  (op = TPLUS ∧ ((0 < l1 ∧ 0 < l2 ∧ n < 0) ∨ (l1 < 0 ∧ l2 < 0 ∧ 0 < n))) ∨ (op = TMINUS ∧ ((0 < l1 ∧ l2 < 0 ∧ n < 0) ∨ (l1 < 0 ∧ 0 < l2 ∧ 0 < n)))

instance (op : Nat) (l1 l2 n : Int64) : Decidable (signsLost op l1 l2 n) := inferInstanceAs (Decidable (_ ∨ _))

/-- `num_add`, from the scaled operands on. -/
theorem numAdd_scaled (x y : Fixed) (op : Nat) : ∃ l1 l2 : Int64, l1.toInt = wrap (x.scaled (max x.deci y.deci)) ∧
    l2.toInt = wrap (y.scaled (max x.deci y.deci)) ∧ numAdd x.num y.num op =
      if Opposite x.n.toInt l1.toInt ∨ Opposite y.n.toInt l2.toInt then .error .invalidValue
      else
        let n := if op = TPLUS then l1 + l2 else l1 - l2
        if signsLost op l1 l2 n then .error .invalidValue else .ok (.fixed n (max x.deci y.deci)) := by
  have hopp : ∀ a b : Int64, ((0 < a ∧ b < 0) ∨ (a < 0 ∧ 0 < b)) ↔ Opposite a.toInt b.toInt := by
    intro a b
    rw [pos_iff, pos_iff, neg_iff, neg_iff]
    exact Iff.rfl
  by_cases hd : x.deci > y.deci
  · refine ⟨x.n, y.n * power10 (x.deci - y.deci), ?_, ?_, ?_⟩
    · rw [max_eq_left (by omega)]
      exact toInt_scaled_self x
    · rw [max_eq_left (by omega)]
      exact toInt_scaled y x.deci_le
    · unfold Fixed.num numAdd
      simp only [hd, if_true, true_and, not_true, false_and, if_false, hopp, not_opposite_self, false_or]
      rfl
  · refine ⟨x.n * power10 (y.deci - x.deci), y.n, ?_, ?_, ?_⟩
    · rw [max_eq_right (by omega)]
      exact toInt_scaled x y.deci_le
    · rw [max_eq_right (by omega)]
      exact toInt_scaled_self y
    · unfold Fixed.num numAdd
      simp only [hd, if_false, true_and, not_false_iff, false_and, hopp, not_opposite_self, or_false]
      rfl

/-- A result behind two checks. -/
theorem checked_cases {A B : Prop} [Decidable A] [Decidable B] {m : Num} {r : Except HbErr Num}
    (h : r = if A then .error .invalidValue else if B then .error .invalidValue else .ok m) :
    ((A ∨ B) ∧ r = .error .invalidValue) ∨ (¬(A ∨ B) ∧ r = .ok m) := by
  by_cases hA : A
  · rw [if_pos hA] at h
    exact .inl ⟨.inl hA, h⟩
  by_cases hB : B
  · rw [if_neg hA, if_pos hB] at h
    exact .inl ⟨.inr hB, h⟩
  · rw [if_neg hA, if_neg hB] at h
    exact .inr ⟨not_or.mpr ⟨hA, hB⟩, h⟩

/-- What the code returns. -/
theorem run_eq (op : FixOp) (x y : Fixed) :
    (op.Floats x y ∧ ∃ r, op.run x y = .ok (.real r)) ∨ (¬op.Floats x y ∧ op.Seen x y ∧ op.run x y = .error .invalidValue) ∨
      (¬op.Floats x y ∧ ¬op.Seen x y ∧ ∃ n, op.run x y = .ok (.fixed n (op.deci x y)) ∧ n.toInt = wrap (op.numer x y)) := by
  cases op with
  | add =>
    obtain ⟨l1, l2, h1, h2, hrun⟩ := numAdd_scaled x y TPLUS
    have hsum : (l1 + l2).toInt = wrap (wrap (x.scaled (max x.deci y.deci)) + wrap (y.scaled (max x.deci y.deci))) := by rw [toInt_add, h1, h2]
    have hseen : FixOp.add.Seen x y ↔ (Opposite x.n.toInt l1.toInt ∨ Opposite y.n.toInt l2.toInt) ∨ signsLost TPLUS l1 l2 (l1 + l2) := by
      unfold FixOp.Seen signsLost
      simp only [pos_iff, neg_iff, hsum, h1, h2, true_and, show ¬TPLUS = TMINUS from by decide, false_and, or_false, or_assoc]
    have hf : ¬FixOp.add.Floats x y := fun h => nomatch h.1
    rw [hseen]
    rcases checked_cases hrun with ⟨hs, hr⟩ | ⟨hs, hr⟩
    · exact .inr (.inl ⟨hf, hs, hr⟩)
    · exact .inr (.inr ⟨hf, hs, l1 + l2, hr, hsum.trans (wrap_add _ _)⟩)
  | sub =>
    obtain ⟨l1, l2, h1, h2, hrun⟩ := numAdd_scaled x y TMINUS
    have hdiff : (l1 - l2).toInt = wrap (wrap (x.scaled (max x.deci y.deci)) - wrap (y.scaled (max x.deci y.deci))) := by rw [toInt_sub, h1, h2]
    have hseen : FixOp.sub.Seen x y ↔ (Opposite x.n.toInt l1.toInt ∨ Opposite y.n.toInt l2.toInt) ∨ signsLost TMINUS l1 l2 (l1 - l2) := by
      unfold FixOp.Seen signsLost
      simp only [pos_iff, neg_iff, hdiff, h1, h2, true_and, show ¬TMINUS = TPLUS from by decide, false_and, false_or, or_assoc]
    have hf : ¬FixOp.sub.Floats x y := fun h => nomatch h.1
    rw [hseen]
    rcases checked_cases hrun with ⟨hs, hr⟩ | ⟨hs, hr⟩
    · exact .inr (.inl ⟨hf, hs, hr⟩)
    · exact .inr (.inr ⟨hf, hs, l1 - l2, hr, hdiff.trans (wrap_sub _ _)⟩)
  | mul =>
    by_cases hmax : DECI_MAX < x.deci + y.deci
    · refine .inl ⟨⟨rfl, hmax⟩, x.num.toReal * y.num.toReal, ?_⟩
      unfold FixOp.run numMul Fixed.num
      exact if_pos (.inl hmax)
    have hf : ¬FixOp.mul.Floats x y := fun h => hmax h.2
    have hprod : (x.n * y.n).toInt = wrap (x.n.toInt * y.n.toInt) := toInt_mul x.n y.n
    have hrun : FixOp.mul.run x y = if (0 < x.n ∧ 0 < y.n ∧ x.n * y.n < 0) ∨ (((0 < x.n ∧ y.n < 0) ∨ (x.n < 0 ∧ 0 < y.n)) ∧ 0 < x.n * y.n) then
        .error .invalidValue else .ok (.fixed (x.n * y.n) (x.deci + y.deci)) := by
      unfold FixOp.run numMul Fixed.num
      exact if_neg (not_or.mpr ⟨hmax, not_not.mpr rfl⟩)
    have hseen : FixOp.mul.Seen x y ↔ (0 < x.n ∧ 0 < y.n ∧ x.n * y.n < 0) ∨ (((0 < x.n ∧ y.n < 0) ∨ (x.n < 0 ∧ 0 < y.n)) ∧ 0 < x.n * y.n) := by
      simp only [pos_iff, neg_iff, hprod]
      exact Iff.rfl
    rw [hseen]
    by_cases hs : (0 < x.n ∧ 0 < y.n ∧ x.n * y.n < 0) ∨ (((0 < x.n ∧ y.n < 0) ∨ (x.n < 0 ∧ 0 < y.n)) ∧ 0 < x.n * y.n)
    · rw [if_pos hs] at hrun
      exact .inr (.inl ⟨hf, hs, hrun⟩)
    · rw [if_neg hs] at hrun
      exact .inr (.inr ⟨hf, hs, x.n * y.n, hrun, hprod⟩)

/-- The result is right exactly if the numerator of the exact result is a `long`, or the overflow is seen. -/
theorem resultRight_iff (op : FixOp) (x y : Fixed) :
    ResultRight (op.run x y) (op.exact x.val y.val) ↔ op.Floats x y ∨ InLong (op.numer x y) ∨ op.Seen x y := by
  rcases run_eq op x y with ⟨hf, r, hr⟩ | ⟨-, hs, hr⟩ | ⟨hf, hs, n, hr, hn⟩
  · rw [hr]
    exact iff_of_true nofun (.inl hf)
  · rw [hr]
    exact iff_of_true nofun (.inr (.inr hs))
  · have hpos : (10 : ℚ) ^ op.deci x y ≠ 0 := by positivity
    rw [hr, exact_eq, or_iff_right hf, or_iff_left hs, ← wrap_eq_iff]
    constructor
    · intro h
      have hq := h n _ rfl
      rw [div_left_inj' hpos, Int.cast_inj] at hq
      rw [← hn, hq]
    · rintro h n' d' heq
      cases heq
      rw [hn, h]

/-- The product of 2³² with itself is 0: no sign shows it. -/
theorem result_fails : ¬ResultRight (FixOp.mul.run ⟨4294967296, 0, by decide⟩ ⟨4294967296, 0, by decide⟩)
    (FixOp.mul.exact (Fixed.val ⟨4294967296, 0, by decide⟩) (Fixed.val ⟨4294967296, 0, by decide⟩)) := by
  intro h
  have hrun : FixOp.mul.run ⟨4294967296, 0, by decide⟩ ⟨4294967296, 0, by decide⟩ = .ok (.fixed 0 0) := by
    unfold FixOp.run numMul Fixed.num
    exact (if_neg (by decide)).trans (if_neg (by decide))
  have hn : (4294967296 : Int64).toInt = 4294967296 := by decide
  have hzero : (0 : Int64).toInt = 0 := by decide
  have hq := h 0 0 hrun
  revert hq
  unfold FixOp.exact Fixed.val
  rw [hn, hzero]
  norm_num

end Db3w.Hb
