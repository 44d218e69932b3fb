/-
Doubles as 64 bits. A finite double denotes a rational; a rational is rounded to the nearest double,
a tie to the one whose last bit is 0. Natural numbers of at most 53 bits are doubles themselves.
-/
import Mathlib.Tactic

namespace Binary64

/-- `a / b` to the nearest natural number, a tie to the even one. -/
def roundEven (a b : Nat) : Nat := if 2 * (a % b) < b ∨ 2 * (a % b) = b ∧ a / b % 2 = 0 then a / b else a / b + 1

/-- The exponent of `a / b`, for positive `a` and `b`. -/
def floorLog2 (a b : Nat) : Int :=
  let e : Int := (Nat.log2 a : Int) - Nat.log2 b
  if b * 2 ^ e.toNat ≤ a * 2 ^ (-e).toNat then e else e - 1

/-- The double nearest to a rational. What is too large becomes an infinity. -/
def ofRat (x : ℚ) : Nat :=
  if x = 0 then 0
  else
    let e := max (floorLog2 x.num.natAbs x.den) (-1022)
    let m := roundEven (x.num.natAbs * 2 ^ (52 - e).toNat) (x.den * 2 ^ (e - 52).toNat)
    min ((e + 1022).toNat * 2 ^ 52 + m) (2047 * 2 ^ 52) + if x < 0 then 2 ^ 63 else 0

end Binary64
