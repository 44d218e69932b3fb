/-
Numbers as the engine compares them. `numRel` is the comparison behind every numeric key: doubles
are compared with a relative tolerance, and the difference the tolerance is applied to is taken
between the absolute values. A finite double stands for the exact rational its bits denote, and
the arithmetic on doubles is done exactly.
-/
import Mathlib.Tactic

namespace Db3w

/-- The relational operators of the language. -/
inductive RelOp where
  | tequal | tgtrequ | tgreater | tlessequ | tnequ | tless | tquestn
  deriving DecidableEq, Repr

/-- A `number_t`. -/
inductive Number where
  | null
  | real (r : ℚ)
  | fixed (n : Int64) (deci : Nat)

/-- `power10` on a 64-bit `long`. -/
def power10 : Nat → Int64
  | 0 => 1
  | n + 1 => power10 n * 10

def dblEpsilon : ℚ := 1 / 2 ^ 52
def dblMin : ℚ := 1 / 2 ^ 1022
def dblMax : ℚ := (2 ^ 53 - 1) * 2 ^ 971

/-- The value of a number that is not NULL as a double. -/
def Number.toReal : Number → ℚ
  | null => 0
  | real r => r
  | fixed n deci => (n.toInt : ℚ) / 10 ^ deci

/-- `isequal` of `num_rel`. -/
def isequal (r1 r2 : ℚ) : Bool :=
  let diff := abs (abs r1 - abs r2)
  r1 = r2 ||
    ((r1 = 0 || r2 = 0 || diff < dblMin) && diff < dblEpsilon * dblMin) ||
    diff / min (abs r1 + abs r2) dblMax < dblEpsilon

/-- The truth value of a comparison: `-1` is NULL, and `TQUESTN` gives the sign. -/
def numRel (n1 n2 : Number) (op : RelOp) : Int :=
  match n1, n2 with
  | .null, _ | _, .null => -1
  | .fixed l1 deci1, .fixed l2 deci2 =>
    let diff := if deci1 > deci2 then l1 - l2 * power10 (deci1 - deci2) else l1 * power10 (deci2 - deci1) - l2
    match op with
    | .tgreater => if diff > 0 then 1 else 0
    | .tless => if diff < 0 then 1 else 0
    | .tequal => if diff = 0 then 1 else 0
    | .tnequ => if diff ≠ 0 then 1 else 0
    | .tgtrequ => if diff ≥ 0 then 1 else 0
    | .tlessequ => if diff ≤ 0 then 1 else 0
    | .tquestn => if diff > 0 then 1 else if diff < 0 then -1 else 0
  | n1, n2 =>
    let r1 := n1.toReal
    let r2 := n2.toReal
    match op with
    | .tgreater => if isequal r1 r2 then 0 else if r1 > r2 then 1 else 0
    | .tless => if isequal r1 r2 then 0 else if r1 < r2 then 1 else 0
    | .tequal => if isequal r1 r2 then 1 else 0
    | .tnequ => if isequal r1 r2 then 0 else 1
    | .tgtrequ => if isequal r1 r2 || r1 > r2 then 1 else 0
    | .tlessequ => if isequal r1 r2 || r1 < r2 then 1 else 0
    | .tquestn => if isequal r1 r2 then 0 else if r1 > r2 then 1 else -1

theorem numRel_real (r1 r2 : ℚ) :
    numRel (.real r1) (.real r2) .tquestn = if isequal r1 r2 then 0 else if r1 > r2 then 1 else -1 := rfl

/-! ## Doubles -/

/-- The 64 bits of a double stored low byte first. -/
def doubleBits (p : List UInt8) : Nat := (p.take 8).foldr (fun b n => b.toNat + 256 * n) 0

/-- The exponent field is not the one of infinities and NaNs. -/
def IsFinite (p : List UInt8) : Prop := doubleBits p / 2 ^ 52 % 2 ^ 11 ≠ 2047

instance (p : List UInt8) : Decidable (IsFinite p) := inferInstanceAs (Decidable (_ ≠ _))

/-- `read_double`: the rational a finite double denotes. -/
def readDouble (p : List UInt8) : ℚ :=
  let bits := doubleBits p
  let e : Nat := bits / 2 ^ 52 % 2 ^ 11
  let m : Nat := bits % 2 ^ 52
  let v : ℚ := if e = 0 then m / 2 ^ 1074 else (2 ^ 52 + m) * 2 ^ e / 2 ^ 1075
  if bits / 2 ^ 63 = 0 then v else -v

/-- The double 1.0. -/
example : readDouble [0, 0, 0, 0, 0, 0, 0xf0, 0x3f] = 1 := by decide +kernel

end Db3w
