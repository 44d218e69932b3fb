/-
Numbers written as text (`num2str` of misc.c). The integer part and the fraction of a fixed point number
are rounded and printed apart from each other, and a text that is too long is tried again with as many
decimals less as it was too long by.
-/
import Db3w.Lib.Nearest
import Db3w.Hb.Str2num

namespace Db3w.Hb

open Decimal Nearest

abbrev MAXDIGITS : Nat := 20

def BLANK : UInt8 := 32

def MINUS : UInt8 := 45

def STAR : UInt8 := 42

/-- `%ld`. -/
def intText (n : Int) : List UInt8 := if n < 0 then MINUS :: decimal n.natAbs else decimal n.natAbs

def padLeft (w : Nat) (s : List UInt8) : List UInt8 := List.replicate (w - s.length) BLANK ++ s

/-- `%*ld`; a negative width has the blanks behind the number. -/
def padTo (w : Int) (s : List UInt8) : List UInt8 :=
  if 0 ≤ w then padLeft w.toNat s else s ++ List.replicate (w.natAbs - s.length) BLANK

/-- `%0*ld`. -/
def zeroText (w : Nat) (n : Int) : List UInt8 := if n < 0 then MINUS :: padZero (w - 1) n.natAbs else padZero w n.natAbs

def stars (w : Nat) : List UInt8 := List.replicate w STAR

/-- The fraction of a number that is not negative, rounded to `k` decimals. -/
def fraction (n : Int64) (nd k : Nat) : Int64 :=
  if nd > k then (n % power10 nd + 5 * power10 (nd - k - 1)) / power10 (nd - k) else n % power10 nd * power10 (k - nd)

section Num2str

-- `sprintf` with `%*.*lf`
variable (fmt : Nat → Nat → Float → List UInt8)

/-- The text with `k` decimals when no width is given. -/
def freeText (num : Num) (k : Nat) : List UInt8 :=
  match num with
  | .null => []
  | .real r => fmt 0 k r
  | .fixed n 0 => intText n.toInt ++ POINT :: padZero k 0
  | .fixed n nd =>
    let d := fraction (if n < 0 then -n else n) nd k
    intText (n / power10 nd).toInt ++ POINT :: zeroText k d.toInt

/-- The text with `k` decimals for a width. -/
def deciText (num : Num) (len k : Nat) : List UInt8 :=
  match num with
  | .null => []
  | .real r => fmt len k r
  | .fixed n 0 => padTo (len - k - 1) (intText n.toInt) ++ POINT :: padZero k 0
  | .fixed n nd =>
    let m := if n < 0 then -n else n
    let d := fraction m nd k
    if m / power10 nd < 1 then (if d > 0 ∧ n < 0 then [MINUS] else []) ++ 48 :: POINT :: zeroText k d.toInt
    else padTo (len - k - 1) (intText (n / power10 nd).toInt) ++ POINT :: zeroText k d.toInt

/-- The integer that is shown when there are no decimals. -/
def whole (n : Int64) (nd : Nat) : Int64 :=
  if nd = 0 then n else n / power10 nd + (n % power10 nd + 5 * power10 (nd - 1)) / power10 nd

/-- `nodeci:`. -/
def nodeci (num : Num) (width limit : Nat) : List UInt8 :=
  let s := match num with
    | .null => []
    | .real r => fmt width 0 r
    | .fixed n nd => padTo width (intText (whole n nd).toInt)
  if s.length > limit then stars limit else s

/-- The loop over the number of decimals. -/
def retry (limit : Nat) (text : Nat → List UInt8) (whole : List UInt8) (k : Nat) : List UInt8 :=
  if (text k).length ≤ limit then text k
  else
    let extra := (text k).length - limit
    if k = extra ∨ k + 1 = extra then whole
    else if k < extra then stars limit
    else retry limit text whole (k - extra)
termination_by k

/-- `num2str`. A NULL is not a number to print: the division by its power of ten is one by zero. -/
def num2str (num : Num) (len : Int) (deci : Nat) : Option (List UInt8) :=
  match num with
  | .null => none
  | num =>
    if len ≤ 0 then
      let whole := nodeci fmt num 0 MAXDIGITS
      some (if deci ≠ 0 then retry MAXDIGITS (freeText fmt num) whole deci else whole)
    else
      let l := min len.toNat MAXDIGITS
      let whole := nodeci fmt num l l
      some (if deci ≠ 0 then retry l (deciText fmt num l) whole deci else whole)

end Num2str

/-! ## The text that is meant -/

namespace Fixed

variable (x : Fixed) (k : Nat)

/-- The magnitude, rounded half away from zero to `k` decimals, as a numerator. -/
def rounded : Nat := ⌊|x.val| * 10 ^ k + 1 / 2⌋₊

/-- The result of the rounding is negative. -/
def Negative : Prop := x.n < 0 ∧ x.rounded k ≠ 0

instance : Decidable (x.Negative k) := inferInstanceAs (Decidable (_ ∧ _))

/-- The decimal representation with `k` decimals. -/
def shown : List UInt8 :=
  (if x.Negative k then [MINUS] else []) ++ decimal (x.rounded k / 10 ^ k) ++ if k = 0 then [] else POINT :: padZero k (x.rounded k % 10 ^ k)

/-- The number that is represented. -/
def shownVal : ℚ := (applySign (decide (x.Negative k)) (x.rounded k) : Int) / 10 ^ k

/-- The number of decimals to show, if the number fits at all: all that are asked for, or the most that fit. -/
def decimals (len deci : Nat) : Option Nat :=
  if (x.shown 0).length ≤ len then some (Nat.findGreatest (fun k => (x.shown k).length ≤ len) deci) else none

def expected (len deci : Nat) : List UInt8 :=
  match x.decimals len deci with
  | none => stars len
  | some k => padLeft len (x.shown k)

end Fixed

/-- The text is the one that is meant, and stands for a number at most half a unit of its last digit away. -/
def FormatRight (fmt : Nat → Nat → Float → List UInt8) (x : Fixed) (len deci : Nat) : Prop :=
  num2str fmt x.num len deci = some (x.expected len deci) ∧ ∀ k, x.decimals len deci = some k → |x.shownVal k - x.val| ≤ 1 / 2 / 10 ^ k

/-! ## Integer part and fraction -/

namespace Fixed

variable (x : Fixed) {j k : Nat}

/-- The magnitude of the numerator. -/
def mag : Nat := x.n.toInt.natAbs

/-- The integer part of the magnitude. -/
def ip : Nat := x.mag / 10 ^ x.deci

/-- The numerator of its fraction. -/
def rest : Nat := x.mag % 10 ^ x.deci

/-- The fraction, rounded to `k` decimals, as a numerator. It can be one. -/
def frac (k : Nat) : Nat := nearest (x.rest * 10 ^ k) (10 ^ x.deci)

/-- Rounding makes the fraction one. -/
def Carry (k : Nat) : Prop := x.frac k = 10 ^ k

instance : Decidable (x.Carry k) := inferInstanceAs (Decidable (_ = _))

theorem ten_pow_pos (k : Nat) : 0 < 10 ^ k := Nat.pow_pos (by omega)

theorem mag_eq : x.mag = x.ip * 10 ^ x.deci + x.rest := (Nat.div_add_mod' _ _).symm

theorem rest_lt : x.rest < 10 ^ x.deci := Nat.mod_lt _ (ten_pow_pos _)

theorem abs_val : |x.val| = x.mag / 10 ^ x.deci := by
  unfold val mag
  rw [abs_div, abs_of_pos (show (0 : ℚ) < 10 ^ x.deci by positivity), Nat.cast_natAbs, Int.cast_abs]

theorem rounded_eq_nearest (k : Nat) : x.rounded k = nearest (x.mag * 10 ^ k) (10 ^ x.deci) := by
  rw [nearest_eq_floor (ten_pow_pos _)]
  unfold rounded
  rw [abs_val]
  push_cast
  congr 2
  ring

theorem rounded_eq (k : Nat) : x.rounded k = x.ip * 10 ^ k + x.frac k := by
  rw [rounded_eq_nearest, mag_eq, show (x.ip * 10 ^ x.deci + x.rest) * 10 ^ k = x.ip * 10 ^ k * 10 ^ x.deci + x.rest * 10 ^ k by ring,
    nearest_add (ten_pow_pos _)]
  rfl

theorem frac_le (k : Nat) : x.frac k ≤ 10 ^ k := by
  refine nearest_le (ten_pow_pos _) ?_
  rw [Nat.mul_comm]
  exact Nat.mul_le_mul_left _ x.rest_lt.le

theorem frac_lt (h : ¬x.Carry k) : x.frac k < 10 ^ k := lt_of_le_of_ne (x.frac_le k) h

/-- With all its decimals the fraction is not rounded. -/
theorem frac_of_le (h : x.deci ≤ k) : x.frac k = x.rest * 10 ^ (k - x.deci) := by
  unfold frac
  obtain ⟨i, rfl⟩ := Nat.exists_eq_add_of_le h
  rw [Nat.add_sub_cancel_left, pow_add, show x.rest * (10 ^ x.deci * 10 ^ i) = x.rest * 10 ^ i * 10 ^ x.deci by ring, nearest_mul (ten_pow_pos _)]

theorem not_carry_of_le (h : x.deci ≤ k) : ¬x.Carry k := by
  unfold Carry
  obtain ⟨i, rfl⟩ := Nat.exists_eq_add_of_le h
  rw [frac_of_le x h, Nat.add_sub_cancel_left, pow_add]
  exact (Nat.mul_lt_mul_of_pos_right x.rest_lt (ten_pow_pos i)).ne

theorem carry_iff : x.Carry k ↔ 2 * (10 ^ x.deci - x.rest) * 10 ^ k ≤ 10 ^ x.deci := by
  obtain ⟨m, hm⟩ := Nat.exists_eq_add_of_lt (ten_pow_pos k)
  obtain ⟨e, he⟩ := Nat.exists_eq_add_of_le x.rest_lt.le
  have hlt := nearest_lt_iff (a := x.rest * 10 ^ k) (c := m) (ten_pow_pos x.deci)
  have hle := x.frac_le k
  unfold Carry
  unfold frac at hle ⊢
  rw [he, Nat.add_sub_cancel_left] at *
  rw [show m + 1 = 10 ^ k by omega] at hlt
  have hcalc : 2 * (x.rest * 10 ^ k) + 2 * e * 10 ^ k = (2 * m + 1) * (x.rest + e) + (x.rest + e) := by
    rw [hm]
    ring
  omega

/-- A fraction that is rounded to one is rounded to one with fewer decimals too. -/
theorem carry_mono (h : j ≤ k) (hk : x.Carry k) : x.Carry j := by
  rw [carry_iff] at hk ⊢
  exact (Nat.mul_le_mul_left _ (Nat.pow_le_pow_right (by omega) h)).trans hk

theorem frac_eq_zero_iff : x.frac k = 0 ↔ 2 * (x.rest * 10 ^ k) < 10 ^ x.deci := by
  have h := nearest_lt_iff (a := x.rest * 10 ^ k) (c := 0) (ten_pow_pos x.deci)
  unfold frac
  omega

theorem frac_zero_mono (h : j ≤ k) (hk : x.frac k = 0) : x.frac j = 0 := by
  rw [frac_eq_zero_iff] at hk ⊢
  have := Nat.mul_le_mul_left x.rest (Nat.pow_le_pow_right (n := 10) (by omega) h)
  omega

end Fixed

/-! ## The arithmetic of the code -/

theorem wrap_of_inLong {a : Int} (h : InLong a) : wrap a = a := wrap_eq_iff.mpr h

theorem div_power10_toInt (a : Int64) {k : Nat} (hk : k ≤ DECI_MAX) : (a / power10 k).toInt = a.toInt.tdiv (10 ^ k : Nat) := by
  have hp := power10_toInt hk
  rw [Int64.toInt_div_of_ne_right, hp]
  · push_cast
    rfl
  · intro h
    rw [h] at hp
    have : (0 : Int) < 10 ^ k := by positivity
    change (-1 : Int) = _ at hp
    omega

theorem mod_power10_toInt (a : Int64) {k : Nat} (hk : k ≤ DECI_MAX) : (a % power10 k).toInt = a.toInt.tmod (10 ^ k : Nat) := by
  rw [Int64.toInt_mod, power10_toInt hk]
  push_cast
  rfl

/-- Half a unit of the decimal that is rounded. -/
theorem half_toInt {j : Nat} (hj : j < DECI_MAX) : (5 * power10 j : Int64).toInt = 5 * 10 ^ j := by
  have hmax : DECI_MAX = 18 := rfl
  have hp : (10 : Int) ^ j ≤ 10 ^ 17 := pow_le_pow_right₀ (by omega) (by omega)
  have hpos : (0 : Int) < 10 ^ j := by positivity
  rw [toInt_mul, power10_toInt (by omega)]
  exact wrap_of_inLong (by unfold InLong; change -2 ^ 63 ≤ 5 * (10 : Int) ^ j ∧ 5 * (10 : Int) ^ j < 2 ^ 63; omega)

namespace Fixed

variable (x : Fixed) {j k : Nat} {m : Int64}

/-- The number is below zero. -/
def Neg : Prop := x.n < 0

instance : Decidable x.Neg := inferInstanceAs (Decidable (_ < _))

/-- A magnitude with the sign of the number. -/
def signed (a : Nat) : Int := if x.Neg then -a else a

theorem toInt_eq : x.n.toInt = x.signed x.mag := by
  have hneg : x.Neg ↔ x.n.toInt < 0 := neg_iff x.n
  unfold signed mag
  by_cases h : x.Neg
  · have hlt := hneg.mp h
    rw [if_pos h]
    omega
  · have hge := hneg.not.mp h
    rw [if_neg h]
    omega

theorem mag_lt (hmin : x.n ≠ Int64.minValue) : x.mag < 2 ^ 63 := by
  have h1 := x.n.le_toInt
  have h2 := x.n.toInt_lt
  have h3 : x.n.toInt ≠ -2 ^ 63 := fun h => hmin (Int64.toInt_inj.mp h)
  unfold mag
  omega

/-- The number without its sign. -/
theorem abs_toInt (h : x.mag < 2 ^ 63) : (if x.n < 0 then -x.n else x.n).toInt = x.mag := by
  have heq := x.toInt_eq
  unfold signed at heq
  by_cases hneg : x.Neg
  · have hn : (-x.n).toInt = wrap (-x.n.toInt) := Int64.toInt_neg x.n
    rw [if_pos hneg] at heq
    rw [if_pos (show x.n < 0 from hneg), hn, heq]
    exact (wrap_of_inLong (by unfold InLong; omega)).trans (by omega)
  · rw [if_neg hneg] at heq
    rw [if_neg (show ¬x.n < 0 from hneg), heq]

theorem quot_toInt : (x.n / power10 x.deci).toInt = x.signed x.ip := by
  rw [div_power10_toInt _ x.deci_le, toInt_eq]
  unfold signed ip
  split
  · rw [Int.neg_tdiv, ← Int.ofNat_tdiv]
  · rw [← Int.ofNat_tdiv]

theorem rem_toInt : (x.n % power10 x.deci).toInt = x.signed x.rest := by
  rw [mod_power10_toInt _ x.deci_le, toInt_eq]
  unfold signed rest
  split
  · rw [Int.neg_tmod, ← Int.ofNat_tmod]
  · rw [← Int.ofNat_tmod]

theorem frac_split (i j : Nat) (h : x.deci = i + j + 1) : x.frac i = (x.rest + 5 * 10 ^ j) / 10 ^ (j + 1) := by
  unfold frac
  rw [h, Nat.add_assoc, pow_add, Nat.mul_comm (10 ^ i), nearest_mul_mul (ten_pow_pos i)]
  unfold nearest
  rw [show 2 * x.rest + 10 ^ (j + 1) = 2 * (x.rest + 5 * 10 ^ j) by rw [pow_succ]; ring, Nat.mul_div_mul_left _ _ (by omega)]

theorem rest_lt_max : x.rest < 10 ^ 18 := x.rest_lt.trans_le (Nat.pow_le_pow_right (by omega) x.deci_le)

theorem inLong_frac (hk : k ≤ 18) : InLong (x.frac k) := by
  have hle := x.frac_le k
  have hpk : 10 ^ k ≤ 10 ^ 18 := Nat.pow_le_pow_right (n := 10) (by omega) hk
  exact ⟨by omega, by omega⟩

/-- The fraction that the code computes is the rounded one, if it fits. -/
theorem fraction_toInt (hm : m.toInt = x.mag) (hk : k - x.deci ≤ DECI_MAX) : (fraction m x.deci k).toInt = wrap (x.frac k) := by
  have hd := x.deci_le
  have hmax : DECI_MAX = 18 := rfl
  have hrest := x.rest_lt_max
  have hmod : (m % power10 x.deci).toInt = x.rest := by
    rw [mod_power10_toInt _ hd, hm, ← Int.ofNat_tmod]
    rfl
  unfold fraction
  split
  · rename_i hlt
    obtain ⟨j, hj⟩ := Nat.exists_eq_add_of_lt hlt
    have hp : 10 ^ j ≤ 10 ^ 17 := Nat.pow_le_pow_right (n := 10) (by omega) (show j ≤ 17 by omega)
    have hadd : (m % power10 x.deci + 5 * power10 j).toInt = (x.rest + 5 * 10 ^ j : Nat) := by
      rw [toInt_add, hmod, half_toInt (by omega)]
      push_cast
      exact wrap_of_inLong (by unfold InLong; norm_cast; omega)
    rw [show x.deci - k - 1 = j by omega, show x.deci - k = j + 1 by omega, div_power10_toInt _ (by omega), hadd,
      wrap_of_inLong (x.inLong_frac (by omega)), x.frac_split k j hj, ← Int.ofNat_tdiv]
  · rename_i hge
    rw [toInt_mul, hmod, power10_toInt hk, frac_of_le x (by omega)]
    push_cast
    rfl

/-- Without decimals a negative number is cut off and not rounded. -/
theorem whole_toInt : (whole x.n x.deci).toInt = if x.Neg then -(x.ip : Int) else x.rounded 0 := by
  have hd := x.deci_le
  have hmax : DECI_MAX = 18 := rfl
  have hrest := x.rest_lt_max
  rw [rounded_eq, pow_zero, Nat.mul_one]
  unfold whole
  split
  · rename_i h0
    have hip : x.ip = x.mag := by
      unfold ip
      rw [h0, pow_zero, Nat.div_one]
    have hfrac : x.frac 0 = 0 := by
      rw [frac_of_le x (by omega)]
      unfold rest
      rw [h0, pow_zero, Nat.mod_one, Nat.zero_mul]
    rw [hfrac, toInt_eq, hip, Nat.add_zero]
    rfl
  · rename_i h0
    obtain ⟨j, hj⟩ := Nat.exists_eq_succ_of_ne_zero h0
    have hp : 10 ^ j ≤ 10 ^ 17 := Nat.pow_le_pow_right (n := 10) (by omega) (show j ≤ 17 by omega)
    have hpos := ten_pow_pos j
    have hlt := x.rest_lt
    rw [hj, pow_succ] at hlt
    have hadd : (x.n % power10 x.deci + 5 * power10 (x.deci - 1)).toInt = x.signed x.rest + (5 * 10 ^ j : Nat) := by
      rw [toInt_add, rem_toInt, show x.deci - 1 = j by omega, half_toInt (by omega)]
      push_cast
      refine wrap_of_inLong ?_
      unfold InLong signed
      norm_cast
      split <;> omega
    have hmag := x.mag_eq
    have hmag' : x.mag ≤ 2 ^ 63 := by
      have h1 := x.n.le_toInt
      have h2 := x.n.toInt_lt
      unfold mag
      omega
    have hip : x.ip * 10 ≤ x.ip * 10 ^ x.deci := Nat.mul_le_mul_left _ (by rw [hj, pow_succ]; omega)
    rw [toInt_add, quot_toInt, div_power10_toInt _ hd, hadd]
    unfold signed
    split
    · -- what is left of the remainder and the half is less than one
      have hzero : (-(x.rest : Int) + (5 * 10 ^ j : Nat)).tdiv (10 ^ x.deci : Nat) = 0 := by
        rw [hj, pow_succ]
        rcases le_or_gt x.rest (5 * 10 ^ j) with h | h
        · exact Int.tdiv_eq_zero_of_lt (by omega) (by omega)
        · rw [show -(x.rest : Int) + (5 * 10 ^ j : Nat) = -((x.rest - 5 * 10 ^ j : Nat) : Int) by omega, Int.neg_tdiv, ← Int.ofNat_tdiv,
            Nat.div_eq_of_lt (by omega)]
          rfl
      rw [hzero, Int.add_zero]
      exact wrap_of_inLong (by unfold InLong; omega)
    · have hfrac : x.frac 0 = (x.rest + 5 * 10 ^ j) / 10 ^ x.deci := by
        rw [x.frac_split 0 j (by omega), hj]
      have hle := x.frac_le 0
      rw [pow_zero] at hle
      rw [hfrac] at hle ⊢
      rw [← Int.natCast_add, ← Int.ofNat_tdiv, ← Int.natCast_add]
      exact wrap_of_inLong (by unfold InLong; omega)

/-! ## The texts of the code -/

/-- A sign in front of a negative number. -/
def sign (b : Prop) [Decidable b] : List UInt8 := if b then [MINUS] else []

theorem intText_signed {a : Nat} (h : x.Neg → a ≠ 0) : intText (x.signed a) = sign x.Neg ++ decimal a := by
  unfold intText signed sign
  by_cases hneg : x.Neg
  · have hne := h hneg
    rw [if_pos hneg, if_pos hneg, if_pos (by omega), Int.natAbs_neg]
    rfl
  · rw [if_neg hneg, if_neg hneg, if_neg (by omega)]
    rfl

theorem padTo_natCast (w : Nat) (s : List UInt8) : padTo w s = padLeft w s := by
  unfold padTo
  rw [if_pos (Int.natCast_nonneg w), Int.toNat_natCast]

/-- The fraction does not fit into its places: it is one, or its upper bit is taken for a sign. -/
def Over (k : Nat) : Prop := x.Carry k ∨ 2 ^ 63 ≤ x.frac k

instance (k : Nat) : Decidable (x.Over k) := inferInstanceAs (Decidable (_ ∨ _))

/-- The text behind the point. -/
def tail (k : Nat) : List UInt8 := zeroText k (wrap (x.frac k))

theorem tail_eq (h : x.frac k < 2 ^ 63) : x.tail k = padZero k (x.frac k) := by
  unfold tail zeroText
  rw [wrap_of_inLong (by unfold InLong; omega), if_neg (by omega), Int.natAbs_natCast]

theorem wrap_frac (hk : k = 19) (h : 2 ^ 63 ≤ x.frac k) : wrap (x.frac k) = (x.frac k : Int) - 2 ^ 64 := by
  have hle := x.frac_le k
  rw [hk] at *
  unfold wrap
  rw [Int.bmod_eq_emod]
  split <;> omega

theorem length_tail (h1 : 1 ≤ k) (hk : k ≤ 19) : (x.tail k).length = k + if x.Over k then 1 else 0 := by
  have hle := x.frac_le k
  by_cases hbig : 2 ^ 63 ≤ x.frac k
  · have h19 : k = 19 := by
      by_contra hne
      have := x.inLong_frac (k := k) (by omega)
      unfold InLong at this
      omega
    have hw := x.wrap_frac h19 hbig
    rw [if_pos (.inr hbig)]
    unfold tail zeroText
    subst h19
    rw [hw, if_pos (by omega), List.length_cons, length_padZero]
    have hlen : (decimal ((x.frac 19 : Int) - 2 ^ 64).natAbs).length = 19 := by
      have hup : (decimal ((x.frac 19 : Int) - 2 ^ 64).natAbs).length ≤ 19 := (length_decimal_le (by omega)).mpr (by omega)
      have hlo : ¬(decimal ((x.frac 19 : Int) - 2 ^ 64).natAbs).length ≤ 18 := by
        rw [length_decimal_le (by omega)]
        omega
      omega
    rw [hlen]
    rfl
  · rw [tail_eq x (by omega)]
    by_cases hc : x.Carry k
    · have hlen : (decimal (10 ^ k)).length = k + 1 := by
        have hup : (decimal (10 ^ k)).length ≤ k + 1 := (length_decimal_le (by omega)).mpr (Nat.pow_lt_pow_right (by omega) (by omega))
        have hlo : ¬(decimal (10 ^ k)).length ≤ k := by
          rw [length_decimal_le h1]
          omega
        omega
      unfold Carry at hc
      rw [if_pos (.inl hc), length_padZero, hc, hlen]
      omega
    · have hover : ¬x.Over k := not_or.mpr ⟨hc, hbig⟩
      rw [if_neg hover, length_padZero_eq h1 (x.frac_lt hc), Nat.add_zero]

variable (fmt : Nat → Nat → Float → List UInt8)

/-- The integer part goes with its sign when it is not zero. -/
def Large : Prop := x.deci = 0 ∨ x.ip ≠ 0

instance : Decidable x.Large := inferInstanceAs (Decidable (_ ∨ _))

theorem ip_of_deci (h : x.deci = 0) : x.ip = x.mag := by
  unfold ip
  rw [h, pow_zero, Nat.div_one]

theorem rest_of_deci (h : x.deci = 0) : x.rest = 0 := by
  unfold rest
  rw [h, pow_zero, Nat.mod_one]

theorem ip_ne_zero (h : x.Large) (hneg : x.Neg) : x.ip ≠ 0 := by
  rcases h with h | h
  · have hn := (neg_iff x.n).mp hneg
    rw [ip_of_deci x h]
    unfold mag
    omega
  · exact h

/-- The text with `k` decimals of a number with an integer part. -/
theorem deciText_large {len : Nat} (hmag : x.mag < 2 ^ 63) (h : x.Large) (hlen : k < len) (hk : k ≤ 19) :
    deciText fmt x.num len k = padLeft (len - k - 1) (sign x.Neg ++ decimal x.ip) ++ POINT :: x.tail k := by
  have hmax : DECI_MAX = 18 := rfl
  have hwidth : (len - k - 1 : Int) = (len - k - 1 : Nat) := by omega
  by_cases h0 : x.deci = 0
  · have htail : x.tail k = padZero k 0 := by
      have hfrac : x.frac k = 0 := by rw [frac_of_le x (by omega), rest_of_deci x h0, Nat.zero_mul]
      rw [tail_eq x (by omega), hfrac]
    have htext : deciText fmt x.num len k = padTo (len - k - 1) (intText x.n.toInt) ++ POINT :: padZero k 0 := by
      unfold num
      rw [h0]
      rfl
    rw [htext, htail, toInt_eq, ← ip_of_deci x h0, intText_signed x (ip_ne_zero x h), hwidth, padTo_natCast]
  · have hip := h.resolve_left h0
    have hm := x.abs_toInt hmag
    have hd := x.fraction_toInt hm (k := k) (by omega)
    have hq : ¬(if x.n < 0 then -x.n else x.n) / power10 x.deci < 1 := by
      rw [Int64.lt_iff_toInt_lt, div_power10_toInt _ x.deci_le, hm, ← Int.ofNat_tdiv]
      show ¬((x.ip : Nat) : Int) < 1
      omega
    obtain ⟨d, hd'⟩ := Nat.exists_eq_succ_of_ne_zero h0
    have htext : deciText fmt x.num len k = padTo (len - k - 1) (intText (x.n / power10 x.deci).toInt) ++
        POINT :: zeroText k (fraction (if x.n < 0 then -x.n else x.n) x.deci k).toInt := by
      unfold num
      rw [hd'] at hq ⊢
      unfold deciText
      exact if_neg hq
    rw [htext, hd, quot_toInt, intText_signed x fun _ => hip, hwidth, padTo_natCast]
    rfl

/-- The text with `k` decimals of a number below one: it is not padded. -/
theorem deciText_small {len : Nat} (hmag : x.mag < 2 ^ 63) (h : ¬x.Large) (hk : k ≤ 19) :
    deciText fmt x.num len k = sign (0 < wrap (x.frac k) ∧ x.Neg) ++ 48 :: POINT :: x.tail k := by
  have hmax : DECI_MAX = 18 := rfl
  obtain ⟨h0, hip⟩ := not_or.mp h
  have hm := x.abs_toInt hmag
  have hd := x.fraction_toInt hm (k := k) (by omega)
  have hq : (if x.n < 0 then -x.n else x.n) / power10 x.deci < 1 := by
    rw [Int64.lt_iff_toInt_lt, div_power10_toInt _ x.deci_le, hm, ← Int.ofNat_tdiv]
    show ((x.ip : Nat) : Int) < 1
    omega
  have hpos : fraction (if x.n < 0 then -x.n else x.n) x.deci k > 0 ↔ 0 < wrap (x.frac k) := by
    rw [← hd]
    exact pos_iff _
  obtain ⟨d, hd'⟩ := Nat.exists_eq_succ_of_ne_zero h0
  have htext : deciText fmt x.num len k =
      (if fraction (if x.n < 0 then -x.n else x.n) x.deci k > 0 ∧ x.n < 0 then [MINUS] else []) ++
        48 :: POINT :: zeroText k (fraction (if x.n < 0 then -x.n else x.n) x.deci k).toInt := by
    unfold num
    rw [hd'] at hq ⊢
    unfold deciText
    exact if_pos hq
  have hsign : (fraction (if x.n < 0 then -x.n else x.n) x.deci k > 0 ∧ x.n < 0) ↔ (0 < wrap (x.frac k) ∧ x.Neg) := and_congr_left fun _ => hpos
  rw [htext, hd]
  unfold sign
  rw [if_congr hsign rfl rfl]
  rfl

/-- The text without decimals, before it is padded. -/
def wholeText : List UInt8 := if x.Neg then sign (x.ip ≠ 0) ++ decimal x.ip else decimal (x.rounded 0)

theorem nodeci_eq (w limit : Nat) : nodeci fmt x.num w limit =
    if (padLeft w x.wholeText).length > limit then stars limit else padLeft w x.wholeText := by
  have htext : intText (whole x.n x.deci).toInt = x.wholeText := by
    rw [whole_toInt]
    unfold wholeText intText sign
    by_cases hneg : x.Neg
    · rw [if_pos hneg, if_pos hneg, Int.natAbs_neg, Int.natAbs_natCast]
      by_cases hip : x.ip = 0
      · rw [hip, if_neg (by omega), if_neg (by omega), List.nil_append]
      · rw [if_pos (by omega), if_pos hip]
        rfl
    · rw [if_neg hneg, if_neg hneg, if_neg (by omega), Int.natAbs_natCast]
  unfold nodeci num
  dsimp only
  rw [htext, padTo_natCast]

end Fixed

end Db3w.Hb
