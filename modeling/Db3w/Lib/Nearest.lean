/-
Quotients rounded to the nearest natural number, a half up.
-/
import Mathlib.Algebra.Order.Floor.Semifield
import Mathlib.Tactic

namespace Nearest

/-- `a / b`, rounded. -/
def nearest (a b : Nat) : Nat := (2 * a + b) / (2 * b)

variable {a b c q r : Nat}

theorem nearest_lt_iff (hb : 0 < b) : nearest a b < c + 1 ↔ 2 * a < (2 * c + 1) * b := by
  unfold nearest
  rw [Nat.div_lt_iff_lt_mul (by omega)]
  have h : (c + 1) * (2 * b) = (2 * c + 1) * b + b := by ring
  omega

/-- Rounding leaves a whole number alone. -/
theorem nearest_mul (hb : 0 < b) (a : Nat) : nearest (a * b) b = a := by
  unfold nearest
  rw [show 2 * (a * b) + b = b + a * (2 * b) by ring, Nat.add_mul_div_right _ _ (by omega), Nat.div_eq_of_lt (by omega), Nat.zero_add]

theorem nearest_add (hb : 0 < b) (q r : Nat) : nearest (q * b + r) b = q + nearest r b := by
  unfold nearest
  rw [show 2 * (q * b + r) + b = 2 * r + b + q * (2 * b) by ring, Nat.add_mul_div_right _ _ (by omega), Nat.add_comm]

theorem nearest_mul_mul (hc : 0 < c) (a b : Nat) : nearest (a * c) (b * c) = nearest a b := by
  unfold nearest
  rw [show 2 * (a * c) + b * c = (2 * a + b) * c by ring, ← Nat.mul_assoc 2 b c, Nat.mul_div_mul_right _ _ hc]

theorem nearest_mono (h : a ≤ c) (b : Nat) : nearest a b ≤ nearest c b := Nat.div_le_div_right (by omega)

theorem nearest_le (hb : 0 < b) (h : a ≤ c * b) : nearest a b ≤ c := (nearest_mono h b).trans (nearest_mul hb c).le

/-- The rounded quotient is the rational one and a half, rounded down. -/
theorem nearest_eq_floor (hb : 0 < b) (a : Nat) : nearest a b = ⌊(a / b : ℚ) + 1 / 2⌋₊ := by
  have hb' : (b : ℚ) ≠ 0 := by positivity
  rw [show (a / b : ℚ) + 1 / 2 = ((2 * a + b : Nat) : ℚ) / ((2 * b : Nat) : ℚ) by push_cast; field_simp, Nat.floor_div_eq_div]
  rfl

/-- Rounding is off by a half at most. -/
theorem abs_nearest_sub_le (hb : 0 < b) (a : Nat) : |(nearest a b : ℚ) - a / b| ≤ 1 / 2 := by
  have hq : (0 : ℚ) < b := by exact_mod_cast hb
  have h1 : nearest a b * (2 * b) ≤ 2 * a + b := Nat.div_mul_le_self _ _
  have h2 : 2 * a + b < (nearest a b + 1) * (2 * b) := (Nat.div_lt_iff_lt_mul (by omega)).mp (Nat.lt_succ_self _)
  have h1' : (nearest a b : ℚ) * (2 * b) ≤ 2 * a + b := by exact_mod_cast h1
  have h2' : 2 * (a : ℚ) + b < (nearest a b + 1) * (2 * b) := by exact_mod_cast h2
  rw [abs_le, ← sub_nonneg, ← sub_nonneg (b := (nearest a b : ℚ) - a / b)]
  constructor
  · rw [show (nearest a b : ℚ) - a / b - -(1 / 2) = ((nearest a b + 1) * (2 * b) - (2 * a + b)) / (2 * b) by field_simp; ring]
    exact div_nonneg (by linarith) (by linarith)
  · rw [show 1 / 2 - ((nearest a b : ℚ) - a / b) = (2 * a + b - nearest a b * (2 * b)) / (2 * b) by field_simp; ring]
    exact div_nonneg (by linarith) (by linarith)

end Nearest
