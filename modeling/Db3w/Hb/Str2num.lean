/-
Texts read as numbers (`str2num` of misc.c). The first point is taken out of the text, and everything
behind it counts as decimals before the digits are read. What follows the digits of a number with a
point shifts its value.
-/
import Mathlib.Data.List.TakeWhile
import Db3w.Lib.Decimal
import Db3w.Hb.Fixed

namespace Db3w.Hb

open Decimal

abbrev POINT : UInt8 := 46

/-- `isspace`. -/
def isspace (c : UInt8) : Bool := c = 32 || (9 ≤ c && c ≤ 13)

/-- A sign, and what follows it. -/
def takeSign : List UInt8 → Bool × List UInt8
  | 45 :: s => (true, s)
  | 43 :: s => (false, s)
  | s => (false, s)

/-- The sign behind leading blanks, and what follows. -/
def lead (s : List UInt8) : Bool × List UInt8 := takeSign (s.dropWhile isspace)

def applySign (neg : Bool) (n : Int) : Int := if neg then -n else n

/-- `strtoul` with base 10, as a `long`; out of range is an error. -/
def Misc.strtoul (s : List UInt8) : Option Int64 :=
  let v := value ((lead s).2.takeWhile Decimal.isDigit)
  if 2 ^ 64 ≤ v then none else some (Int64.ofInt (applySign (lead s).1 v))

/-- The text before the first point. -/
def beforePoint (s : List UInt8) : List UInt8 := s.takeWhile (· ≠ POINT)

/-- The text behind the first point. -/
def afterPoint (s : List UInt8) : List UInt8 := (s.dropWhile (· ≠ POINT)).tail

/-- `str2num`. `strtod` is that of the library, `none` for a value out of range. -/
def Misc.str2num (dfpi : Bool) (strtod : List UInt8 → Option Float) (s : List UInt8) : Except HbErr Num :=
  let real := match strtod s with
    | some r => .ok (.real r)
    | none => .error .invalidValue
  let fixed := fun t deci => match Misc.strtoul t with
    | some n => .ok (.fixed n deci)
    | none => .error .invalidValue
  if !dfpi then if POINT ∈ s then real else fixed s 0
  else if 101 ∈ s ∨ 69 ∈ s then real
  else if POINT ∈ s then
    if (afterPoint s).length > DECI_MAX then real else fixed (beforePoint s ++ afterPoint s) (afterPoint s).length
  else fixed s 0

/-! ## The number that is meant -/

/-- The digits of a text before the point, behind its leading blanks and sign. -/
def intDigits (s : List UInt8) : List UInt8 := (lead s).2.takeWhile Decimal.isDigit

/-- The digits behind a point that a text begins with. -/
def pointDigits : List UInt8 → List UInt8
  | 46 :: r => r.takeWhile Decimal.isDigit
  | _ => []

/-- The digits behind a point that follows those. -/
def fracDigits (s : List UInt8) : List UInt8 := pointDigits ((lead s).2.dropWhile Decimal.isDigit)

/-- The numerator of the number that a text begins with; 0 if there is none. -/
def numerator (s : List UInt8) : Nat := value (intDigits s ++ fracDigits s)

/-- The number that a text begins with, and 0 if there is none. -/
def numberOf (s : List UInt8) : ℚ := (applySign (lead s).1 (numerator s) : Int) / 10 ^ (fracDigits s).length

/-- A text without exponent, whose number has not too many digits. -/
structure Plain (s : List UInt8) : Prop where
  no_exp : 101 ∉ s ∧ 69 ∉ s
  digits : numerator s < 2 ^ 63
  deci : (fracDigits s).length ≤ DECI_MAX

/-- The number that is read has the value of the one that is meant. -/
def ReadsRight (strtod : List UInt8 → Option Float) (s : List UInt8) : Prop :=
  ∃ n d, Misc.str2num true strtod s = .ok (.fixed n d) ∧ (n.toInt : ℚ) / 10 ^ d = numberOf s

/-- The whole number that a text begins with when its point is taken out. -/
def unpointed (s : List UInt8) : Nat := value (intDigits (beforePoint s ++ afterPoint s))

/-! ## The point -/

variable {s a b u x : List UInt8}

theorem beforePoint_append (h : POINT ∉ b) (a : List UInt8) : beforePoint (b ++ POINT :: a) = b := by
  unfold beforePoint
  rw [List.takeWhile_append_of_pos fun c hc => decide_eq_true (ne_of_mem_of_not_mem hc h), List.takeWhile_cons_of_neg (by simp), List.append_nil]

theorem afterPoint_append (h : POINT ∉ b) (a : List UInt8) : afterPoint (b ++ POINT :: a) = a := by
  unfold afterPoint
  rw [List.dropWhile_append_of_pos fun c hc => decide_eq_true (ne_of_mem_of_not_mem hc h), List.dropWhile_cons_of_neg (by simp), List.tail_cons]

theorem takeSign_append (hu : u ≠ []) (x : List UInt8) : takeSign (u ++ x) = ((takeSign u).1, (takeSign u).2 ++ x) := by
  cases u with
  | nil => exact absurd rfl hu
  | cons c u =>
    by_cases h45 : c = 45
    · subst h45
      rfl
    by_cases h43 : c = 43
    · subst h43
      rfl
    · rw [List.cons_append, takeSign.eq_3 _ (by rintro t heq; exact h45 (List.cons.inj heq).1) (by rintro t heq; exact h43 (List.cons.inj heq).1),
        takeSign.eq_3 _ (by rintro t heq; exact h45 (List.cons.inj heq).1) (by rintro t heq; exact h43 (List.cons.inj heq).1), List.cons_append]

/-- When there is more than blanks, the sign is found there. -/
theorem lead_append (h : b.dropWhile isspace ≠ []) (x : List UInt8) : lead (b ++ x) = ((lead b).1, (lead b).2 ++ x) := by
  unfold lead
  rw [List.dropWhile_append, if_neg (by rwa [List.isEmpty_iff]), takeSign_append h]

theorem lead_blanks (h : b.dropWhile isspace = []) (x : List UInt8) : lead (b ++ x) = lead x := by
  unfold lead
  rw [List.dropWhile_append, if_pos (by rw [h]; rfl)]

theorem lead_sublist (b : List UInt8) : (lead b).2.Sublist b := by
  have hsign : ∀ u : List UInt8, (takeSign u).2.Sublist u := by
    intro u
    unfold takeSign
    split
    · exact List.sublist_cons_self _ _
    · exact List.sublist_cons_self _ _
    · exact List.Sublist.refl _
  exact (hsign _).trans (List.dropWhile_sublist _)

theorem pointDigits_point (r : List UInt8) : pointDigits (POINT :: r) = r.takeWhile Decimal.isDigit := rfl

theorem pointDigits_of_ne {c : UInt8} (h : c ≠ POINT) (r : List UInt8) : pointDigits (c :: r) = [] :=
  pointDigits.eq_2 _ fun _ heq => h (List.cons.inj heq).1

/-- The digits of a text that ends at a point, with what comes behind. -/
theorem digits_point (hu : POINT ∉ u) (a : List UInt8) :
    (∀ c ∈ u, Decimal.isDigit c = true) ∧ (u ++ POINT :: a).takeWhile Decimal.isDigit = u ∧ (u ++ POINT :: a).dropWhile Decimal.isDigit = POINT :: a ∧
        (u ++ a).takeWhile Decimal.isDigit = u ++ a.takeWhile Decimal.isDigit ∨
      ∃ c r, c ≠ POINT ∧ u.dropWhile Decimal.isDigit = c :: r ∧ (∀ x, (u ++ x).takeWhile Decimal.isDigit = u.takeWhile Decimal.isDigit) ∧
        ∀ x, (u ++ x).dropWhile Decimal.isDigit = c :: (r ++ x) := by
  by_cases hall : ∀ c ∈ u, Decimal.isDigit c = true
  · refine .inl ⟨hall, ?_, ?_, List.takeWhile_append_of_pos hall⟩
    · rw [List.takeWhile_append_of_pos hall, List.takeWhile_cons_of_neg (by decide), List.append_nil]
    · rw [List.dropWhile_append_of_pos hall, List.dropWhile_cons_of_neg (by decide)]
  · cases hd : u.dropWhile Decimal.isDigit with
    | nil => exact absurd (List.dropWhile_eq_nil_iff.mp hd) hall
    | cons c r =>
      refine .inr ⟨c, r, ?_, rfl, fun x => ?_, fun x => ?_⟩
      · refine ne_of_mem_of_not_mem ((List.dropWhile_sublist Decimal.isDigit).subset ?_) hu
        rw [hd]
        exact List.mem_cons_self
      · rw [List.takeWhile_append, if_neg]
        intro hlen
        have := congrArg List.length (List.takeWhile_append_dropWhile (p := Decimal.isDigit) (l := u))
        rw [hd, List.length_append, List.length_cons] at this
        omega
      · rw [List.dropWhile_append, hd, if_neg (by simp), List.cons_append]

/-- A point behind more than blanks only shifts the number. -/
theorem numerator_point (hb : POINT ∉ b) (h : b.dropWhile isspace ≠ []) (a : List UInt8) :
    numerator (b ++ POINT :: a) = value (intDigits (b ++ a)) ∧ (lead (b ++ POINT :: a)).1 = (lead (b ++ a)).1 := by
  rw [lead_append h, lead_append h]
  refine ⟨?_, rfl⟩
  unfold numerator intDigits fracDigits
  rw [lead_append h, lead_append h]
  dsimp only
  rcases digits_point (fun hm => hb ((lead_sublist b).subset hm)) a with ⟨-, ht, hd, ht'⟩ | ⟨c, r, hc, -, ht, hd⟩
  · rw [ht, hd, ht', pointDigits_point]
  · rw [ht, ht, hd, pointDigits_of_ne hc, List.append_nil]

/-- Behind blanks a point is followed by its digits, or there is no number at all. -/
theorem numerator_blanks (h : b.dropWhile isspace = []) (a : List UInt8) :
    numerator (b ++ POINT :: a) = value (a.takeWhile Decimal.isDigit) ∧ fracDigits (b ++ POINT :: a) = a.takeWhile Decimal.isDigit ∧
      (lead (b ++ POINT :: a)).1 = false := by
  have hlead : lead (b ++ POINT :: a) = (false, POINT :: a) := lead_blanks h _
  unfold numerator intDigits fracDigits
  rw [hlead, List.takeWhile_cons_of_neg (by decide), List.dropWhile_cons_of_neg (by decide)]
  exact ⟨rfl, rfl, rfl⟩

/-- A digit is neither a blank nor a sign. -/
theorem lead_digits (h : a.takeWhile Decimal.isDigit ≠ []) : lead a = (false, a) := by
  cases a with
  | nil => exact absurd rfl h
  | cons c a =>
    have hc : Decimal.isDigit c = true := by
      by_contra hc
      exact h (List.takeWhile_cons_of_neg hc)
    have hn := isDigit_iff.mp hc
    have hspace : isspace c = false := by
      unfold isspace
      rw [Bool.or_eq_false_iff, Bool.and_eq_false_iff, decide_eq_false_iff_not, decide_eq_false_iff_not, decide_eq_false_iff_not,
        UInt8.le_iff_toNat_le, UInt8.le_iff_toNat_le, ← UInt8.toNat_inj]
      simp
      omega
    unfold lead
    rw [List.dropWhile_cons_of_neg (by rw [hspace]; exact Bool.false_ne_true), takeSign.eq_3]
    · rintro t heq
      rw [(List.cons.inj heq).1] at hn
      exact absurd hn (by decide)
    · rintro t heq
      rw [(List.cons.inj heq).1] at hn
      exact absurd hn (by decide)

/-! ## What is read -/

theorem strtoul_eq (h : value (intDigits s) < 2 ^ 63) :
    ∃ n, Misc.strtoul s = some n ∧ n.toInt = applySign (lead s).1 (value (intDigits s)) := by
  refine ⟨Int64.ofInt (applySign (lead s).1 (value (intDigits s))), if_neg (show ¬2 ^ 64 ≤ value (intDigits s) by omega), ?_⟩
  rw [Int64.toInt_ofInt]
  refine wrap_eq_iff.mpr ?_
  unfold InLong applySign
  split <;> omega

theorem applySign_eq_zero {neg : Bool} {n : Int} : applySign neg n = 0 ↔ n = 0 := by
  cases neg
  · exact Iff.rfl
  · exact Int.neg_eq_zero

/-- A numerator over different powers of ten. -/
theorem shifted_iff {n : Int} {c f : Nat} : (n : ℚ) / 10 ^ c = (n : ℚ) / 10 ^ f ↔ c = f ∨ n = 0 := by
  constructor
  · intro h
    by_cases hn : n = 0
    · exact .inr hn
    · refine .inl ?_
      have hn' : (n : ℚ) ≠ 0 := Int.cast_ne_zero.mpr hn
      rw [div_eq_div_iff (by positivity) (by positivity)] at h
      have hpow : ((10 ^ f : ℕ) : ℚ) = ((10 ^ c : ℕ) : ℚ) := by
        push_cast
        exact mul_left_cancel₀ hn' h
      exact (Nat.pow_right_injective (by omega) (Nat.cast_injective hpow)).symm
  · rintro (rfl | rfl)
    · rfl
    · simp

theorem fracDigits_of_not_mem (h : POINT ∉ s) : fracDigits s = [] := by
  unfold fracDigits
  cases hd : (lead s).2.dropWhile Decimal.isDigit with
  | nil => rfl
  | cons c r =>
    refine pointDigits_of_ne (ne_of_mem_of_not_mem ((lead_sublist s).subset ((List.dropWhile_sublist Decimal.isDigit).subset ?_)) h) r
    rw [hd]
    exact List.mem_cons_self

/-- What is read of a text with a point, against what is meant. -/
theorem unpointed_right (hb : POINT ∉ b) (hlt : numerator (b ++ POINT :: a) < 2 ^ 63) (hlen : a.length ≤ DECI_MAX) :
    ∃ n, Misc.strtoul (b ++ a) = some n ∧
      ((n.toInt : ℚ) / 10 ^ a.length = numberOf (b ++ POINT :: a) ↔
        a.length = (fracDigits (b ++ POINT :: a)).length ∨ value (intDigits (b ++ a)) = 0) := by
  -- both numbers have the same digits and the same sign
  have hsame : numerator (b ++ POINT :: a) = value (intDigits (b ++ a)) → (lead (b ++ POINT :: a)).1 = (lead (b ++ a)).1 →
      ∃ n, Misc.strtoul (b ++ a) = some n ∧ ((n.toInt : ℚ) / 10 ^ a.length = numberOf (b ++ POINT :: a) ↔
        a.length = (fracDigits (b ++ POINT :: a)).length ∨ value (intDigits (b ++ a)) = 0) := by
    intro hnum hsign
    obtain ⟨n, hn, hval⟩ := strtoul_eq (s := b ++ a) (hnum ▸ hlt)
    refine ⟨n, hn, ?_⟩
    unfold numberOf
    rw [hval, hnum, hsign, shifted_iff, applySign_eq_zero, Int.natCast_eq_zero]
  by_cases hbl : b.dropWhile isspace = []
  · obtain ⟨hnum, hfrac, hsign⟩ := numerator_blanks hbl a
    have hlead := lead_blanks hbl a
    by_cases hdig : a.takeWhile Decimal.isDigit = []
    · -- no number, while a blank or a sign may stand behind the point
      have hint : intDigits (b ++ a) = intDigits a := by
        unfold intDigits
        rw [hlead]
      have hsmall : value (intDigits a) < 2 ^ 63 := by
        have hle : (intDigits a).length ≤ 18 := (((List.takeWhile_sublist Decimal.isDigit).trans (lead_sublist a)).length_le).trans hlen
        have hpow : 10 ^ (intDigits a).length ≤ 10 ^ 18 := Nat.pow_le_pow_right (by omega) hle
        have hval := value_lt (l := intDigits a) fun c hc => List.mem_takeWhile_imp hc
        omega
      obtain ⟨n, hn, hval⟩ := strtoul_eq (s := b ++ a) (hint.symm ▸ hsmall)
      refine ⟨n, hn, ?_⟩
      unfold numberOf
      rw [hnum, hfrac, hdig, hval, hint]
      have hzero : applySign (lead (b ++ POINT :: a)).1 ((value [] : ℕ) : ℤ) = 0 := applySign_eq_zero.mpr rfl
      have hnil : a.length = 0 → value (intDigits a) = 0 := by
        intro h0
        rw [List.length_eq_zero_iff.mp h0]
        rfl
      rw [hzero, Int.cast_zero, zero_div, div_eq_zero_iff, or_iff_left (by positivity), Int.cast_eq_zero, applySign_eq_zero, Int.natCast_eq_zero]
      exact ⟨Or.inr, fun h => h.elim hnil id⟩
    · have hdigits := lead_digits hdig
      refine hsame ?_ ?_
      · rw [hnum]
        unfold intDigits
        rw [hlead, hdigits]
      · rw [hsign, hlead, hdigits]
  · obtain ⟨hnum, hsign⟩ := numerator_point hb hbl a
    exact hsame hnum hsign

/-- A text is read right exactly if it has no point, or the decimals of its number and nothing else follow the first one, or nothing
but zeros is read. -/
theorem readsRight_iff (strtod : List UInt8 → Option Float) {s : List UInt8} (h : Plain s) :
    ReadsRight strtod s ↔ POINT ∉ s ∨
      ((afterPoint s).length ≤ DECI_MAX ∧ ((afterPoint s).length = (fracDigits s).length ∨ unpointed s = 0)) := by
  obtain ⟨⟨he, hE⟩, hlt, -⟩ := h
  have hexp : ¬(101 ∈ s ∨ 69 ∈ s) := not_or.mpr ⟨he, hE⟩
  unfold ReadsRight Misc.str2num
  dsimp only
  rw [if_neg (by simp), if_neg hexp]
  by_cases hp : POINT ∈ s
  · rw [if_pos hp, or_iff_right (not_not.mpr hp)]
    by_cases hlen : (afterPoint s).length > DECI_MAX
    · rw [if_pos hlen]
      refine iff_of_false ?_ fun hc => absurd hc.1 (by omega)
      rintro ⟨n, d, hr, -⟩
      cases hs : strtod s with
      | none =>
        rw [hs] at hr
        cases hr
      | some r =>
        rw [hs] at hr
        cases hr
    rw [if_neg hlen, and_iff_right (by omega)]
    obtain ⟨b, a, rfl, hb⟩ := List.eq_append_cons_of_mem hp
    unfold unpointed
    rw [afterPoint_append hb, beforePoint_append hb] at *
    obtain ⟨n, hn, hiff⟩ := unpointed_right hb hlt (by omega)
    rw [hn, ← hiff]
    constructor
    · rintro ⟨n', d, hr, hval⟩
      cases hr
      exact hval
    · intro hval
      exact ⟨n, a.length, rfl, hval⟩
  · rw [if_neg hp]
    refine iff_of_true ?_ (.inl hp)
    have hfrac := fracDigits_of_not_mem hp
    have hnum : numerator s = value (intDigits s) := by
      unfold numerator
      rw [hfrac, List.append_nil]
    obtain ⟨n, hn, hval⟩ := strtoul_eq (s := s) (hnum ▸ hlt)
    rw [hn]
    refine ⟨n, 0, rfl, ?_⟩
    unfold numberOf
    rw [hval, hnum, hfrac]
    rfl

/-- The text ` -12.50`. -/
theorem readsRight_iff_plain : ReadsRight (fun _ => none) [32, 45, 49, 50, 46, 53, 48] ↔ POINT ∉ ([32, 45, 49, 50, 46, 53, 48] : List UInt8) ∨
    ((afterPoint [32, 45, 49, 50, 46, 53, 48]).length ≤ DECI_MAX ∧
      ((afterPoint [32, 45, 49, 50, 46, 53, 48]).length = (fracDigits [32, 45, 49, 50, 46, 53, 48]).length ∨ unpointed [32, 45, 49, 50, 46, 53, 48] = 0)) :=
  readsRight_iff _ ⟨by decide, by decide, by decide⟩

/-- With a blank behind it, 1.5 is read as 0.15. -/
theorem readsRight_fails : Plain [49, 46, 53, 32] ∧ ∀ strtod, ¬ReadsRight strtod [49, 46, 53, 32] := by
  refine ⟨⟨by decide, by decide, by decide⟩, ?_⟩
  rintro strtod ⟨n, d, hr, hval⟩
  have hread : Misc.str2num true strtod [49, 46, 53, 32] = .ok (.fixed 15 2) := rfl
  cases hread.symm.trans hr
  have hmeant : numberOf [49, 46, 53, 32] = (15 : ℤ) / 10 ^ 1 := rfl
  have h15 : (15 : Int64).toInt = 15 := by decide
  rw [hmeant, h15] at hval
  norm_num at hval

end Db3w.Hb
