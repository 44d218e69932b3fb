/-
`round_` of fcn.c. A number with nothing to round is pushed twice. The half unit is added to a remainder that
has the sign of the number, so a negative number goes up by one unit where it should go down; and with nineteen
or twenty digits to drop the power of ten does not fit a `long`. For any other fixed point number the result is
the nearest multiple, a half away from zero, whenever that one fits.
-/
import Db3w.Hb.Num2str
import Db3w.Hb.Code

namespace Db3w.Hb

open Nearest

/-- The fixed point branch of `round_`, of a number that is not NULL. -/
def roundFixed (n : Int64) (nd : Nat) (deci : Int) : Num :=
  if deci ≥ nd then .fixed n nd
  else
    let q := n / power10 nd
    let d := n % power10 nd
    if 0 < deci then
      let k := deci.toNat
      let d := (d + 5 * power10 (nd - k - 1)) / power10 (nd - k)
      .fixed (q * power10 k + d) k
    else if deci = 0 then
      let d := (d + 5 * power10 (nd - 1)) / power10 nd
      .fixed (q + d) 0
    else
      let k := (-deci).toNat
      let d := (q % power10 k + 5 * power10 (k - 1)) / power10 k
      .fixed ((q / power10 k + d) * power10 k) 0

/-- The branch of a `double`: an error when the sign is lost. -/
def roundReal (r : Float) (deci : Int) : Except HbErr Num :=
  let e := Float.ofInt deci
  let r2 := Float.pow 10 (-e) * (r * Float.pow 10 e + 0.5).toInt64.toFloat
  if (0 < r ∧ r2 < 0) ∨ (r < 0 ∧ 0 < r2) then .error .invalidValue else .ok (ofReal r2)

/-- `round_`; without a second argument the decimals are those of `SET DECIMAL`. A number with nothing to round is pushed, and
then pushed as the result. A NULL is divided by zero: `none`. -/
def round_ (cap : Nat) (ndeci : Int) (parmCnt : Nat) (st : Stack) : Option (Except HbErr Stack) :=
  match (if parmCnt > 1 then popInt (-MAXDIGITS) MAXDIGITS st else .ok (ndeci, st)) with
  | .error e => some (.error e)
  | .ok (deci, st) => match popNumber st with
    | .error e => some (.error e)
    | .ok (.null, _) => none
    | .ok (.real r, st) => some ((roundReal r deci).bind fun num => push cap (.number num) st)
    | .ok (.fixed n nd, st) => some do
      let st ← if deci ≥ nd then push cap (.number (.fixed n nd)) st else .ok st
      push cap (.number (roundFixed n nd deci)) st

/-! ## The nearest multiple -/

/-- The multiple of `10 ^ (-d)` nearest to `q`, a half away from zero. -/
def roundTo (d : Int) (q : ℚ) : ℚ := (if q < 0 then -1 else 1) * (⌊|q| * 10 ^ d + 1 / 2⌋₊ : ℚ) * 10 ^ (-d)

/-! ## The numerators of the code -/

theorem wrap_mul (a b : Int) : wrap (wrap a * b) = wrap (a * b) := Int.bmod_mul_bmod

namespace Fixed

variable (x : Fixed) {a d j k : Nat}

/-- Half a unit added to a remainder with the sign of the number. -/
theorem tdiv_half (a j : Nat) :
    (x.signed a + 5 * 10 ^ j).tdiv (10 ^ (j + 1)) = if x.Neg then -(((a + 5 * 10 ^ j) / 10 ^ (j + 1) - 1 : Nat) : Int) else ((a + 5 * 10 ^ j) / 10 ^ (j + 1) : Nat) := by
  have hpos : 0 < 10 ^ j := ten_pow_pos j
  have hpow : (10 : Nat) ^ (j + 1) = 10 * 10 ^ j := by rw [pow_succ, Nat.mul_comm]
  unfold signed
  by_cases hneg : x.Neg
  · rw [if_pos hneg, if_pos hneg]
    rcases lt_or_ge a (5 * 10 ^ j) with h | h
    · have hle : (5 * 10 ^ j - a : Nat) < 10 ^ (j + 1) := by omega
      rw [Nat.div_eq_of_lt (by omega), show -(a : Int) + 5 * 10 ^ j = (5 * 10 ^ j - a : Nat) by push_cast [h.le]; ring]
      norm_cast
      rw [← Int.ofNat_tdiv, Nat.div_eq_of_lt hle]
      rfl
    · obtain ⟨c, rfl⟩ := Nat.exists_eq_add_of_le h
      have hq : (5 * 10 ^ j + c + 5 * 10 ^ j) / 10 ^ (j + 1) = c / 10 ^ (j + 1) + 1 := by
        rw [show 5 * 10 ^ j + c + 5 * 10 ^ j = c + 10 ^ (j + 1) by omega, Nat.add_div_right _ (ten_pow_pos _)]
      rw [hq, Nat.add_sub_cancel]
      push_cast
      rw [show -((5 : Int) * 10 ^ j + c) + 5 * 10 ^ j = -c by ring, Int.neg_tdiv]
      norm_cast
  · rw [if_neg hneg, if_neg hneg]
    norm_cast

/-- With fewer decimals. The half is added to a fraction below zero, so one unit is missing there. -/
theorem roundFixed_low (h : k < x.deci) : ∃ r : Int64, roundFixed x.n x.deci k = .fixed r k ∧
    r.toInt = if x.Neg then -((x.ip * 10 ^ k + (x.frac k - 1) : Nat) : Int) else (x.ip * 10 ^ k + x.frac k : Nat) := by
  have hmax : DECI_MAX = 18 := rfl
  have hd := x.deci_le
  obtain ⟨j, hj⟩ := Nat.exists_eq_add_of_lt h
  have hrest := x.rest_lt_max
  have hp : 10 ^ j ≤ 10 ^ 17 := Nat.pow_le_pow_right (n := 10) (by omega) (show j ≤ 17 by omega)
  have hk : 10 ^ k ≤ 10 ^ 17 := Nat.pow_le_pow_right (n := 10) (by omega) (show k ≤ 17 by omega)
  have hfrac := x.frac_le k
  have hip : x.ip * 10 ^ k ≤ 2 ^ 63 / 10 := by
    have h1 := x.n.le_toInt
    have h2 := x.n.toInt_lt
    have hmag : x.mag ≤ 2 ^ 63 := by
      unfold mag
      omega
    have hsum := x.mag_eq
    rw [hj, show k + j + 1 = k + 1 + j by omega, pow_add, pow_succ] at hsum
    have := Nat.mul_le_mul_left (x.ip * 10 ^ k * 10) (ten_pow_pos j)
    rw [show x.ip * 10 ^ k * 10 * 10 ^ j = x.ip * (10 ^ k * 10 * 10 ^ j) by ring] at this
    omega
  have hadd : (x.n % power10 x.deci + 5 * power10 j).toInt = x.signed x.rest + 5 * 10 ^ j := by
    rw [toInt_add, rem_toInt, half_toInt (by omega)]
    refine wrap_of_inLong ?_
    unfold InLong signed
    zify at hrest hp
    have : (0 : Int) < 10 ^ j := by positivity
    split_ifs <;> constructor <;> omega
  have htdiv : ((x.n % power10 x.deci + 5 * power10 j) / power10 (j + 1)).toInt = if x.Neg then -((x.frac k - 1 : Nat) : Int) else (x.frac k : Nat) := by
    rw [div_power10_toInt _ (by omega), hadd, x.frac_split k j hj]
    push_cast
    exact x.tdiv_half x.rest j
  have hq : (x.n / power10 x.deci * power10 k).toInt = x.signed (x.ip * 10 ^ k) := by
    rw [toInt_mul, quot_toInt, power10_toInt (by omega), show x.signed x.ip * 10 ^ k = x.signed (x.ip * 10 ^ k) by unfold signed; split_ifs <;> push_cast <;> ring]
    refine wrap_of_inLong ?_
    unfold InLong signed
    split_ifs <;> constructor <;> omega
  have hres : (x.n / power10 x.deci * power10 k + (x.n % power10 x.deci + 5 * power10 j) / power10 (j + 1)).toInt =
      if x.Neg then -((x.ip * 10 ^ k + (x.frac k - 1) : Nat) : Int) else (x.ip * 10 ^ k + x.frac k : Nat) := by
    rw [toInt_add, hq, htdiv]
    refine (wrap_of_inLong ?_).trans ?_
    · unfold InLong signed
      split_ifs <;> constructor <;> omega
    · unfold signed
      split_ifs <;> push_cast <;> ring
  refine ⟨_, ?_, hres⟩
  unfold roundFixed
  rw [if_neg (by omega)]
  rcases Nat.eq_zero_or_pos k with rfl | hpos
  · rw [if_neg (by omega), if_pos Nat.cast_zero]
    dsimp only
    rw [show x.deci - 1 = j by omega, show x.deci = j + 1 by omega]
    exact congrArg (Num.fixed · 0) (congrArg (· + _) (Int64.mul_one _).symm)
  · rw [if_pos (by omega), Int.toNat_natCast]
    dsimp only
    rw [show x.deci - k - 1 = j by omega, show x.deci - k = j + 1 by omega]

theorem ip_le : x.ip ≤ 2 ^ 63 := by
  have h1 := x.n.le_toInt
  have h2 := x.n.toInt_lt
  refine (Nat.div_le_self _ _).trans ?_
  unfold mag
  omega

/-- Digits in front of the point: a half is rounded up for a number above zero and down to zero for one below. -/
theorem roundFixed_high {d : Int} (hd : d = -(j + 1 : Nat)) : ∃ r : Int64, roundFixed x.n x.deci d = .fixed r 0 ∧
    r = ((x.n / power10 x.deci) / power10 (j + 1) + ((x.n / power10 x.deci) % power10 (j + 1) + 5 * power10 j) / power10 (j + 1)) * power10 (j + 1) := by
  refine ⟨_, ?_, rfl⟩
  unfold roundFixed
  rw [if_neg (by omega), if_neg (by omega), if_neg (by omega), show (-d).toNat = j + 1 by omega]
  rfl

theorem nearest_pow (a j : Nat) : nearest a (10 ^ (j + 1)) = (a + 5 * 10 ^ j) / 10 ^ (j + 1) := by
  unfold nearest
  rw [show 2 * a + 10 ^ (j + 1) = 2 * (a + 5 * 10 ^ j) by rw [pow_succ]; ring, Nat.mul_div_mul_left _ _ (by omega)]

/-- What is left of a number when digits in front of the point are rounded. -/
theorem high_toInt (hj : j < 18) :
    (((x.n / power10 x.deci) / power10 (j + 1) + ((x.n / power10 x.deci) % power10 (j + 1) + 5 * power10 j) / power10 (j + 1)) * power10 (j + 1)).toInt =
      wrap (if x.Neg then -((x.ip / 10 ^ (j + 1) * 10 ^ (j + 1) : Nat) : Int) else (nearest x.ip (10 ^ (j + 1)) * 10 ^ (j + 1) : Nat)) := by
  have hmax : DECI_MAX = 18 := rfl
  have hpos := ten_pow_pos (j + 1)
  have hp : 10 ^ j ≤ 10 ^ 17 := Nat.pow_le_pow_right (n := 10) (by omega) (show j ≤ 17 by omega)
  have hp' : 10 ^ (j + 1) = 10 * 10 ^ j := by rw [pow_succ, Nat.mul_comm]
  have hip := x.ip_le
  have hlt := Nat.mod_lt x.ip hpos
  have hdiv := Nat.div_add_mod x.ip (10 ^ (j + 1))
  have hq : (x.n / power10 x.deci / power10 (j + 1)).toInt = x.signed (x.ip / 10 ^ (j + 1)) := by
    rw [div_power10_toInt _ (by omega), quot_toInt]
    unfold signed
    split_ifs
    · rw [Int.neg_tdiv, ← Int.ofNat_tdiv]
    · rw [← Int.ofNat_tdiv]
  have hr : (x.n / power10 x.deci % power10 (j + 1)).toInt = x.signed (x.ip % 10 ^ (j + 1)) := by
    rw [mod_power10_toInt _ (by omega), quot_toInt]
    unfold signed
    split_ifs
    · rw [Int.neg_tmod, ← Int.ofNat_tmod]
    · rw [← Int.ofNat_tmod]
  have hadd : (x.n / power10 x.deci % power10 (j + 1) + 5 * power10 j).toInt = x.signed (x.ip % 10 ^ (j + 1)) + 5 * 10 ^ j := by
    rw [toInt_add, hr, half_toInt (by omega)]
    refine wrap_of_inLong ?_
    have hpi : (10 : Int) ^ j = (10 ^ j : Nat) := by norm_cast
    unfold InLong signed
    rw [hpi]
    split_ifs <;> constructor <;> omega
  have hhalf : (x.ip % 10 ^ (j + 1) + 5 * 10 ^ j) / 10 ^ (j + 1) ≤ 1 := by
    rw [← Nat.lt_succ_iff, Nat.div_lt_iff_lt_mul hpos]
    omega
  rw [toInt_mul, toInt_add, wrap_mul, hq, div_power10_toInt _ (by omega), hadd, power10_toInt (by omega)]
  push_cast
  rw [x.tdiv_half]
  unfold signed
  by_cases hneg : x.Neg
  · rw [if_pos hneg, if_pos hneg, if_pos hneg, Nat.sub_eq_zero_of_le hhalf]
    congr 1
    push_cast
    ring
  · rw [if_neg hneg, if_neg hneg, if_neg hneg, nearest_pow]
    have hsum : (x.ip + 5 * 10 ^ j) / 10 ^ (j + 1) = x.ip / 10 ^ (j + 1) + (x.ip % 10 ^ (j + 1) + 5 * 10 ^ j) / 10 ^ (j + 1) := by
      conv_lhs => rw [← hdiv, Nat.add_assoc, Nat.mul_add_div hpos]
    rw [hsum]
    congr 1

end Fixed

/-! ## Powers of ten that do not fit -/

/-- The quotient of the code, by the quotient of the magnitudes. -/
theorem tdiv_cases (a b : Int) : a.tdiv b = if 0 ≤ a then a / b else -(-a / b) := by
  split
  · exact Int.tdiv_eq_ediv_of_nonneg ‹_›
  · rw [← Int.tdiv_eq_ediv_of_nonneg (by omega), Int.neg_tdiv, Int.neg_neg]

theorem wrap_sub_of (a : Int) (h : 2 ^ 63 ≤ a) (h' : a < 2 ^ 64) : wrap a = a - 2 ^ 64 := by
  unfold wrap
  rw [Int.bmod_eq_emod]
  split <;> omega
theorem wrap_add_of (a : Int) (h : a < -2 ^ 63) (h' : -2 ^ 64 ≤ a) : wrap a = a + 2 ^ 64 := by
  unfold wrap
  rw [Int.bmod_eq_emod]
  split <;> omega

/-- The result for an integer part `q`, a "power of ten" `p` and a "half" `h`. -/
def digitsInt (p h q : Int) : Int := wrap ((q.tdiv p + (wrap (q.tmod p + h)).tdiv p) * p)

theorem digits_toInt (q : Int64) {j : Nat} (hne : power10 (j + 1) ≠ -1) :
    ((q / power10 (j + 1) + (q % power10 (j + 1) + 5 * power10 j) / power10 (j + 1)) * power10 (j + 1)).toInt =
      digitsInt (power10 (j + 1)).toInt (5 * power10 j : Int64).toInt q.toInt := by
  unfold digitsInt
  rw [toInt_mul, toInt_add, wrap_mul, Int64.toInt_div_of_ne_right _ _ hne, Int64.toInt_div_of_ne_right _ _ hne, toInt_add, Int64.toInt_mod]

/-- `power10(19)` has its sign bit set. -/
theorem digitsInt_19 {q : Int} (h1 : -5000000000000000000 < q) (h2 : q < 5000000000000000000) :
    digitsInt (-8446744073709551616) 5000000000000000000 q = 0 ↔ q < 3446744073709551616 := by
  have e1 : q.tdiv (-8446744073709551616) = 0 := by
    rw [Int.tdiv_neg, tdiv_cases]
    split <;> omega
  unfold digitsInt
  rw [Int.tmod_def, e1, Int.mul_zero, Int.sub_zero, Int.zero_add, Int.tdiv_neg, tdiv_cases]
  rcases lt_or_ge q 3446744073709551616 with h | h
  · have hv : wrap (q + 5000000000000000000) = q + 5000000000000000000 := wrap_of_inLong ⟨by omega, by omega⟩
    have e2 : (q + 5000000000000000000) / 8446744073709551616 = 0 := by omega
    rw [hv, if_pos (by omega), e2]
    exact iff_of_true (by decide) h
  rcases lt_or_ge q 4223372036854775808 with h' | h'
  · have hv : wrap (q + 5000000000000000000) = q + 5000000000000000000 := wrap_of_inLong ⟨by omega, by omega⟩
    have e2 : (q + 5000000000000000000) / 8446744073709551616 = 1 := by omega
    rw [hv, if_pos (by omega), e2]
    exact iff_of_false (by decide) (by omega)
  · have hv := wrap_sub_of (q + 5000000000000000000) (by omega) (by omega)
    have e2 : -(q + 5000000000000000000 - 2 ^ 64) / 8446744073709551616 = 1 := by omega
    rw [hv, if_neg (by omega), e2]
    exact iff_of_false (by decide) (by omega)

/-- Of `power10(20)` and of the half unit the lower 64 bits are left. -/
theorem digitsInt_20 {q : Int} (h1 : -2 ^ 63 ≤ q) (h2 : q < 2 ^ 63) : digitsInt 7766279631452241920 (-5340232221128654848) q = 0 ↔
    (-2426047410323587072 < q ∧ q < 7766279631452241920) ∨ (-7766279631452241920 < q ∧ q < -5340232221128654848) := by
  unfold digitsInt
  rcases le_or_gt 7766279631452241920 q with h | h
  · have e1 : q.tdiv 7766279631452241920 = 1 := by
      rw [tdiv_cases]
      split <;> omega
    have hv : wrap (q - 7766279631452241920 * 1 + -5340232221128654848) = _ := wrap_of_inLong ⟨by omega, by omega⟩
    have e2 : (q - 7766279631452241920 * 1 + -5340232221128654848).tdiv 7766279631452241920 = 0 := by
      rw [tdiv_cases]
      split <;> omega
    rw [Int.tmod_def, e1, hv, e2]
    exact iff_of_false (by decide) (by omega)
  rcases le_or_gt q (-7766279631452241920) with h' | h'
  · have e1 : q.tdiv 7766279631452241920 = -1 := by
      rw [tdiv_cases]
      split <;> omega
    have hv : wrap (q - 7766279631452241920 * -1 + -5340232221128654848) = _ := wrap_of_inLong ⟨by omega, by omega⟩
    have e2 : (q - 7766279631452241920 * -1 + -5340232221128654848).tdiv 7766279631452241920 = 0 := by
      rw [tdiv_cases]
      split <;> omega
    rw [Int.tmod_def, e1, hv, e2]
    exact iff_of_false (by decide) (by omega)
  have e1 : q.tdiv 7766279631452241920 = 0 := by
    rw [tdiv_cases]
    split <;> omega
  rw [Int.tmod_def, e1, Int.mul_zero, Int.sub_zero, Int.zero_add, tdiv_cases]
  rcases lt_or_ge q (-3883139815726120960) with h3 | h3
  · have hv := wrap_add_of (q + -5340232221128654848) (by omega) (by omega)
    rw [hv, if_pos (by omega)]
    rcases lt_or_ge q (-5340232221128654848) with h4 | h4
    · have e2 : (q + -5340232221128654848 + 2 ^ 64) / 7766279631452241920 = 0 := by omega
      rw [e2]
      exact iff_of_true (by decide) (by omega)
    · have e2 : (q + -5340232221128654848 + 2 ^ 64) / 7766279631452241920 = 1 := by omega
      rw [e2]
      exact iff_of_false (by decide) (by omega)
  · have hv : wrap (q + -5340232221128654848) = q + -5340232221128654848 := wrap_of_inLong ⟨by omega, by omega⟩
    rw [hv]
    rcases lt_or_ge (-2426047410323587072) q with h4 | h4
    · have e2 : (q + -5340232221128654848).tdiv 7766279631452241920 = 0 := by
        rw [tdiv_cases]
        split <;> omega
      rw [← tdiv_cases, e2]
      exact iff_of_true (by decide) (by omega)
    · have e2 : (q + -5340232221128654848).tdiv 7766279631452241920 = -1 := by
        rw [tdiv_cases]
        split <;> omega
      rw [← tdiv_cases, e2]
      exact iff_of_false (by decide) (by omega)

/-! ## ROUND -/

/-- `ROUND` of the number to `d` decimals leaves the nearest multiple, and nothing else, in the place of its arguments. -/
def Rounds (x : Fixed) (d : Int) : Prop :=
  ∃ z : Fixed, z.val = roundTo d x.val ∧
    ∀ cap ndeci st, round_ cap ndeci 2 (.number (.fixed (Int64.ofInt d) 0) :: .number x.num :: st) = some (push cap (.number z.num) st)

/-- The nearest multiple is a fixed point number. -/
def RoundFits (x : Fixed) (d : Int) : Prop := ∃ y : Fixed, y.val = roundTo d x.val

/-- There is something to round, and the digits that go make less than a half; that they are a half and more does not
matter for a number that is not below zero, as long as the power of ten is a `long`. -/
def RoundKept (x : Fixed) (d : Int) : Prop :=
  if x.deci ≤ d then False
  else if 0 ≤ d then ¬x.Neg ∨ 2 * (x.rest * 10 ^ d.toNat) < 10 ^ x.deci
  else if -18 ≤ d then ¬x.Neg ∨ 2 * (x.ip % 10 ^ d.natAbs) < 10 ^ d.natAbs
  else if d = -19 then x.signed x.ip < 3446744073709551616
  else (-2426047410323587072 < x.signed x.ip ∧ x.signed x.ip < 7766279631452241920) ∨
    (-7766279631452241920 < x.signed x.ip ∧ x.signed x.ip < -5340232221128654848)

namespace Fixed

variable (x : Fixed) {d : Int} {j k : Nat}

theorem val_neg_iff : x.val < 0 ↔ x.Neg := by
  have hpos : (0 : ℚ) < 10 ^ x.deci := by positivity
  unfold val Neg
  rw [div_neg_iff, neg_iff]
  constructor
  · rintro (⟨-, h⟩ | ⟨h, -⟩)
    · exact absurd h (not_lt.mpr hpos.le)
    · exact_mod_cast h
  · intro h
    exact .inr ⟨by exact_mod_cast h, hpos⟩

theorem sign_mul (a : Nat) : (if x.val < 0 then -1 else 1) * (a : ℚ) = (x.signed a : Int) := by
  unfold signed
  by_cases hneg : x.Neg
  · rw [if_pos (x.val_neg_iff.mpr hneg), if_pos hneg]
    push_cast
    ring
  · rw [if_neg (x.val_neg_iff.not.mpr hneg), if_neg hneg]
    push_cast
    ring

theorem roundTo_low (k : Nat) : roundTo k x.val = (x.signed (x.rounded k) : Int) / 10 ^ k := by
  unfold roundTo rounded
  rw [sign_mul, zpow_neg, zpow_natCast]
  exact (div_eq_mul_inv _ _).symm

theorem roundTo_high (j : Nat) : roundTo (-(j + 1 : Nat)) x.val = (x.signed (nearest x.ip (10 ^ (j + 1)) * 10 ^ (j + 1)) : Int) := by
  have hpos := ten_pow_pos x.deci
  have hfloor : ⌊|x.val| * 10 ^ (-((j + 1 : Nat) : Int)) + 1 / 2⌋₊ = nearest x.ip (10 ^ (j + 1)) := by
    rw [abs_val, zpow_neg, zpow_natCast, ← div_eq_mul_inv, div_div]
    have h := nearest_eq_floor (Nat.mul_pos hpos (ten_pow_pos (j + 1))) x.mag
    push_cast at h
    rw [← h, nearest_pow]
    unfold nearest ip
    rw [show 2 * x.mag + 10 ^ x.deci * 10 ^ (j + 1) = 2 * (x.mag + 10 ^ x.deci * (5 * 10 ^ j)) by rw [pow_succ]; ring,
      Nat.mul_div_mul_left _ _ (by omega), ← Nat.div_div_eq_div_mul, Nat.add_mul_div_left _ _ hpos]
  unfold roundTo
  rw [hfloor, sign_mul, neg_neg, zpow_natCast]
  unfold signed
  split_ifs <;> push_cast <;> ring

/-- A fixed point number that is an integer is a `long`. -/
theorem inLong_of_val {y : Fixed} {a : Int} (h : y.val = a) : InLong a := by
  have hpos : (0 : ℚ) < 10 ^ y.deci := by positivity
  have h1 := y.n.le_toInt
  have h2 := y.n.toInt_lt
  have hone : (1 : Int) ≤ 10 ^ y.deci := one_le_pow₀ (by omega)
  have heq : y.n.toInt = a * 10 ^ y.deci := by
    unfold val at h
    rw [div_eq_iff hpos.ne'] at h
    exact_mod_cast h
  unfold InLong
  constructor
  · nlinarith
  · nlinarith

theorem push_of_le {cap : Nat} {v : HbVal} {st : Stack} (h : st.bytes + v.size ≤ cap) : push cap v st = .ok (v :: st) := by
  unfold push
  rw [if_neg (by omega)]

theorem push_inj {a b : HbVal} {st : Stack} (h : ∀ cap, push cap a st = push cap b st) : a = b := by
  have hcap := h (st.bytes + a.size + b.size)
  unfold push at hcap
  rw [if_neg (by omega), if_neg (by omega)] at hcap
  exact (List.cons.inj (Except.ok.inj hcap)).1

/-- The digits are popped first. -/
theorem popInt_digits (hlo : -20 ≤ d) (hhi : d ≤ 20) (st : Stack) :
    popInt (-MAXDIGITS) MAXDIGITS (.number (.fixed (Int64.ofInt d) 0) :: st) = .ok (d, st) := by
  have hd : (Int64.ofInt d).toInt32.toInt = d := by
    rw [Int64.toInt32_ofInt, Int32.toInt_ofInt]
    change d.bmod (2 ^ 32) = d
    rw [Int.bmod_eq_emod]
    split <;> omega
  change (if (Int64.ofInt d).toInt32.toInt < -(20 : Nat) ∨ (0 ≤ ((20 : Nat) : Int) ∧ ((20 : Nat) : Int) < (Int64.ofInt d).toInt32.toInt) then
    Except.error HbErr.invalidValue else .ok ((Int64.ofInt d).toInt32.toInt, st)) = _
  rw [hd, if_neg (by omega)]

/-- `ROUND` is right if the numerator and the decimals of the code are. -/
theorem rounds_iff (hlo : -20 ≤ d) (hlt : d < x.deci) {r : Int64} (hk : k ≤ DECI_MAX) (h : roundFixed x.n x.deci d = .fixed r k) :
    Rounds x d ↔ (r.toInt : ℚ) / 10 ^ k = roundTo d x.val := by
  have hmax : DECI_MAX = 18 := rfl
  have hdeci := x.deci_le
  have hround : ∀ cap ndeci st, round_ cap ndeci 2 (.number (.fixed (Int64.ofInt d) 0) :: .number x.num :: st) = some (push cap (.number (.fixed r k)) st) := by
    intro cap ndeci st
    unfold round_
    rw [if_pos (by omega), popInt_digits hlo (by omega), ← h]
    dsimp only [num, popNumber, popAny]
    rw [if_neg (by omega)]
    rfl
  constructor
  · rintro ⟨z, hz, hpush⟩
    have heq : HbVal.number (.fixed r k) = .number z.num := push_inj fun cap => Option.some.inj ((hround cap 0 []).symm.trans (hpush cap 0 []))
    unfold num at heq
    cases heq
    exact hz
  · intro hval
    exact ⟨⟨r, k, hk⟩, hval, hround⟩

/-- With nothing to round the number is there twice. -/
theorem not_rounds_of_le (h : (x.deci : Int) ≤ d) (hhi : d ≤ 20) : ¬Rounds x d := by
  rintro ⟨z, -, hpush⟩
  have hsize : ∀ v : Num, (HbVal.number v).size ≤ 10 := fun v => by cases v <;> simp [HbVal.size]
  have hbytes : ∀ v : Num, Stack.bytes [.number v] ≤ 10 := hsize
  have hone := hpush 20 0 []
  unfold round_ at hone
  rw [if_pos (by omega), popInt_digits (by omega) hhi] at hone
  dsimp only [num, popNumber, popAny] at hone
  rw [if_pos (by omega), push_of_le ((Nat.zero_add _).trans_le ((hsize _).trans (by omega)))] at hone
  change some (push 20 _ [_]) = _ at hone
  rw [push_of_le (Nat.add_le_add (hbytes _) (hsize _)), push_of_le ((Nat.zero_add _).trans_le ((hsize _).trans (by omega)))] at hone
  simp at hone

/-- Fewer decimals: right unless a half and more is dropped from a number below zero. -/
theorem low_iff (h : k < x.deci) : Rounds x k ↔ ¬x.Neg ∨ 2 * (x.rest * 10 ^ k) < 10 ^ x.deci := by
  have hmax : DECI_MAX = 18 := rfl
  have hd := x.deci_le
  have hpos : (10 : ℚ) ^ k ≠ 0 := by positivity
  obtain ⟨r, hround, hr⟩ := x.roundFixed_low h
  rw [x.rounds_iff (by omega) (by omega) (by omega) hround, roundTo_low, div_left_inj' hpos, Int.cast_inj, hr, rounded_eq, ← frac_eq_zero_iff]
  unfold signed
  by_cases hneg : x.Neg
  · rw [if_pos hneg, if_pos hneg, or_iff_right (not_not.mpr hneg)]
    omega
  · rw [if_neg hneg, if_neg hneg]
    exact iff_of_true rfl (.inl hneg)

theorem nearest_eq_div_iff {a b : Nat} (hb : 0 < b) : nearest a b = a / b ↔ 2 * (a % b) < b := by
  have hlt := nearest_lt_iff (a := a % b) (c := 0) hb
  conv_lhs => rw [← Nat.div_add_mod' a b, nearest_add hb]
  rw [Nat.div_add_mod']
  omega

theorem inLong_signed {a : Nat} (h : InLong (x.signed a)) : a ≤ 2 ^ 63 := by
  unfold InLong signed at h
  split_ifs at h <;> omega

/-- Digits in front of the point, as long as the power of ten is a `long`. -/
theorem high_iff (hj : j < 18) (hfits : RoundFits x (-(j + 1 : Nat))) :
    Rounds x (-(j + 1 : Nat)) ↔ ¬x.Neg ∨ 2 * (x.ip % 10 ^ (j + 1)) < 10 ^ (j + 1) := by
  have hp := ten_pow_pos (j + 1)
  obtain ⟨r, hround, rfl⟩ := x.roundFixed_high (j := j) rfl
  obtain ⟨y, hy⟩ := hfits
  rw [roundTo_high] at hy
  have hlong := inLong_of_val hy
  rw [x.rounds_iff (by omega) (by omega) (Nat.zero_le _) hround, roundTo_high, pow_zero, div_one, Int.cast_inj, x.high_toInt hj]
  by_cases hneg : x.Neg
  · have hdiv : InLong (-((x.ip / 10 ^ (j + 1) * 10 ^ (j + 1) : Nat) : Int)) := by
      have := Nat.div_mul_le_self x.ip (10 ^ (j + 1))
      have := x.ip_le
      exact ⟨by omega, by omega⟩
    rw [if_pos hneg, wrap_of_inLong hdiv, or_iff_right (not_not.mpr hneg), ← nearest_eq_div_iff hp]
    unfold signed
    rw [if_pos hneg, neg_inj, Nat.cast_inj, Nat.mul_left_inj hp.ne', eq_comm]
  · unfold signed at hlong ⊢
    rw [if_neg hneg] at hlong ⊢
    rw [if_neg hneg, wrap_of_inLong hlong]
    exact iff_of_true rfl (.inl hneg)

/-- With nineteen or twenty digits only 0 is a result. -/
theorem nearest_zero_of_fits (hj : 18 ≤ j) (hfits : RoundFits x (-(j + 1 : Nat))) : nearest x.ip (10 ^ (j + 1)) = 0 := by
  obtain ⟨y, hy⟩ := hfits
  rw [roundTo_high] at hy
  have hle := x.inLong_signed (inLong_of_val hy)
  have hp : 10 ^ 19 ≤ 10 ^ (j + 1) := Nat.pow_le_pow_right (by omega) (by omega)
  by_contra hne
  have := Nat.mul_le_mul (Nat.one_le_iff_ne_zero.mpr hne) hp
  omega

theorem huge_iff (hj : 18 ≤ j) (hj' : j < 20) (hfits : RoundFits x (-(j + 1 : Nat))) (hne : power10 (j + 1) ≠ -1) :
    Rounds x (-(j + 1 : Nat)) ↔ digitsInt (power10 (j + 1)).toInt (5 * power10 j : Int64).toInt (x.signed x.ip) = 0 := by
  obtain ⟨r, hround, rfl⟩ := x.roundFixed_high (j := j) rfl
  rw [x.rounds_iff (by omega) (by omega) (Nat.zero_le _) hround, roundTo_high, x.nearest_zero_of_fits hj hfits, pow_zero, div_one, Int.cast_inj,
    digits_toInt _ hne, quot_toInt]
  unfold signed
  rw [Nat.zero_mul]
  simp

end Fixed

open Fixed

/-- `ROUND` gives the nearest multiple exactly when the half that is added does no harm. -/
theorem rounds_iff_kept (x : Fixed) (d : Int) (hlo : -(MAXDIGITS : Int) ≤ d) (hhi : d ≤ MAXDIGITS) (hfits : RoundFits x d) : Rounds x d ↔ RoundKept x d := by
  change -20 ≤ d at hlo
  change d ≤ 20 at hhi
  unfold RoundKept
  by_cases hge : (x.deci : Int) ≤ d
  · rw [if_pos hge]
    exact iff_of_false (x.not_rounds_of_le hge hhi) not_false
  rw [if_neg hge]
  by_cases hpos : 0 ≤ d
  · obtain ⟨k, rfl⟩ := Int.eq_ofNat_of_zero_le hpos
    rw [if_pos hpos, Int.toNat_natCast]
    exact x.low_iff (by omega)
  obtain ⟨j, rfl⟩ : ∃ j : Nat, d = -(j + 1 : Nat) := ⟨d.natAbs - 1, by omega⟩
  rw [if_neg hpos, Int.natAbs_neg, Int.natAbs_natCast]
  by_cases hj : j < 18
  · rw [if_pos (by omega)]
    exact x.high_iff hj hfits
  rw [if_neg (by omega)]
  by_cases h19 : j = 18
  · subst h19
    have hz := x.nearest_zero_of_fits (le_refl _) hfits
    have hlt : x.ip < 5000000000000000000 := by
      have := (nearest_lt_iff (a := x.ip) (c := 0) (ten_pow_pos 19)).mp (Nat.lt_succ_of_le hz.le)
      omega
    rw [if_pos (by omega), x.huge_iff (le_refl _) (by omega) hfits (by decide)]
    refine digitsInt_19 ?_ ?_
    · unfold signed
      split_ifs <;> omega
    · unfold signed
      split_ifs <;> omega
  · obtain rfl : j = 19 := by omega
    rw [if_neg (by omega), x.huge_iff (by omega) (by omega) hfits (by decide)]
    refine digitsInt_20 ?_ ?_
    · rw [← quot_toInt]
      exact Int64.le_toInt _
    · rw [← quot_toInt]
      exact Int64.toInt_lt _

/-- Without digits in front of the point to drop, the nearest multiple fits. -/
theorem roundFits_of_eq (x : Fixed) {k : Nat} {z : Int64} (hk : k ≤ DECI_MAX) (h : z.toInt = x.signed (x.rounded k)) : RoundFits x k :=
  ⟨⟨z, k, hk⟩, by rw [roundTo_low, ← h]; rfl⟩

/-- Two and a half are three. -/
theorem rounds_iff_kept_two : RoundFits ⟨25, 1, by decide⟩ 0 ∧ (Rounds ⟨25, 1, by decide⟩ 0 ↔ RoundKept ⟨25, 1, by decide⟩ 0) := by
  have hfits : RoundFits ⟨25, 1, by decide⟩ (0 : Nat) := roundFits_of_eq _ (z := 3) (by decide) (by rw [rounded_eq_nearest]; decide +kernel)
  exact ⟨hfits, rounds_iff_kept _ _ (by decide) (by decide) hfits⟩

/-- Minus one and a half are minus one, and not minus two. -/
theorem round_fails : RoundFits ⟨-15, 1, by decide⟩ 0 ∧ ¬Rounds ⟨-15, 1, by decide⟩ 0 := by
  have hfits : RoundFits ⟨-15, 1, by decide⟩ (0 : Nat) := roundFits_of_eq _ (z := -2) (by decide) (by rw [rounded_eq_nearest]; decide +kernel)
  refine ⟨hfits, (low_iff _ (k := 0) (by decide)).not.mpr ?_⟩
  rintro (h | h)
  · exact h (show (-15 : Int64) < 0 by decide)
  · revert h
    decide +kernel

end Db3w.Hb
