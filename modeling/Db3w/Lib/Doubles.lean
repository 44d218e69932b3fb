/-
Floating point numbers as comparisons use them: the operations as parameters, and the laws that IEEE 754 gives
for them. A value is no number, or comparable with every other value that is a number.
-/
import Mathlib.Tactic

/-- Operations on a type of floating point numbers. -/
structure Doubles (D : Type) where
  ofInt64 : Int64 → D
  abs : D → D
  add : D → D → D
  sub : D → D → D
  mul : D → D → D
  div : D → D → D
  lt : D → D → Bool
  beq : D → D → Bool
  isNaN : D → Bool
  /-- 0, the distance from 1 to the next number, the smallest normal number and the largest one. -/
  zero : D
  epsilon : D
  minNormal : D
  maxFinite : D

namespace Doubles

variable {D : Type}

/-- What IEEE 754 says of differences, sums and comparisons, and of what is no number. -/
structure Lawful (F : Doubles D) : Prop where
  abs_sub_comm : ∀ a b, F.abs (F.sub a b) = F.abs (F.sub b a)
  add_comm : ∀ a b, F.add a b = F.add b a
  beq_comm : ∀ a b, F.beq a b = F.beq b a
  beq_self : ∀ a, F.isNaN a = false → F.beq a a = true
  trichotomy : ∀ a b, F.isNaN a = false → F.isNaN b = false → F.lt a b = true ∨ F.beq a b = true ∨ F.lt b a = true
  nan_lt : ∀ a b, F.isNaN a = true ∨ F.isNaN b = true → F.lt a b = false
  nan_beq : ∀ a b, F.isNaN a = true ∨ F.isNaN b = true → F.beq a b = false
  nan_abs : ∀ a, F.isNaN (F.abs a) = F.isNaN a
  nan_sub : ∀ a b, F.isNaN a = true ∨ F.isNaN b = true → F.isNaN (F.sub a b) = true
  nan_div : ∀ a b, F.isNaN a = true → F.isNaN (F.div a b) = true

/-- `fmin`. -/
def min (F : Doubles D) (a b : D) : D := if F.isNaN a then b else if F.isNaN b then a else if F.lt a b then a else b

/-- Rational numbers that do not round; division by 0 gives no number. -/
def exact : Doubles (Option ℚ) where
  ofInt64 n := some n.toInt
  abs a := a.map fun a => |a|
  add a b := a.bind fun a => b.map fun b => a + b
  sub a b := a.bind fun a => b.map fun b => a - b
  mul a b := a.bind fun a => b.map fun b => a * b
  div a b := a.bind fun a => b.bind fun b => if b = 0 then none else some (a / b)
  lt a b := match a, b with
    | some a, some b => a < b
    | _, _ => false
  beq a b := match a, b with
    | some a, some b => a = b
    | _, _ => false
  isNaN a := a.isNone
  zero := some 0
  epsilon := some (1 / 2 ^ 52)
  minNormal := some (1 / 2 ^ 1022)
  maxFinite := some (2 ^ 1024 - 2 ^ 971)

theorem exact_lawful : exact.Lawful where
  abs_sub_comm a b := by
    cases a <;> cases b <;> simp [exact, abs_sub_comm]
  add_comm a b := by
    cases a <;> cases b <;> simp [exact, add_comm]
  beq_comm a b := by
    cases a <;> cases b <;> simp [exact, eq_comm]
  beq_self a h := by
    cases a with
    | none => exact absurd h (by simp [exact])
    | some a => simp [exact]
  trichotomy a b ha hb := by
    cases a with
    | none => exact absurd ha (by simp [exact])
    | some a =>
      cases b with
      | none => exact absurd hb (by simp [exact])
      | some b => simpa [exact] using lt_trichotomy a b
  nan_lt a b h := by
    cases a <;> cases b <;> simp_all [exact]
  nan_beq a b h := by
    cases a <;> cases b <;> simp_all [exact]
  nan_abs a := by
    cases a <;> simp [exact]
  nan_sub a b h := by
    cases a <;> cases b <;> simp_all [exact]
  nan_div a b h := by
    cases a <;> simp_all [exact]

end Doubles
