/-
Bisection. The comparison tells for each place on which side of it the thing looked for is, or that it is there; there
may be several such places, next to each other. Both ends of the range belong to it.
-/
import Mathlib.Tactic

namespace Db3w

namespace Bisect

/-- Bisection from `lo` to `hi`. The comparison is negative below the places looked for and positive above them. -/
def bisect (cmp : Nat → Int) (lo hi : Int) : Option Nat :=
  if lo > hi then none
  else
    let mid := (lo + hi) / 2
    let i := cmp mid.toNat
    if i = 0 then some mid.toNat
    else if i < 0 then bisect cmp (mid + 1) hi
    else bisect cmp lo (mid - 1)
termination_by (hi + 1 - lo).toNat
decreasing_by all_goals omega

/-- Below the places looked for, at them, above them: in this order. -/
structure Zoned (cmp : Nat → Int) (n : Nat) : Prop where
  below : ∀ i j, i ≤ j → j < n → cmp j < 0 → cmp i < 0
  above : ∀ i j, i ≤ j → j < n → 0 < cmp i → 0 < cmp j

variable {cmp : Nat → Int} {lo hi : Int} {k m n : Nat}

theorem bisect_empty (h : lo > hi) : bisect cmp lo hi = none := by
  rw [bisect, if_pos h]

/-- The place in the middle is below. -/
theorem bisect_up (h : lo ≤ hi) (hneg : cmp ((lo + hi) / 2).toNat < 0) : bisect cmp lo hi = bisect cmp ((lo + hi) / 2 + 1) hi := by
  rw [bisect, if_neg (not_lt.mpr h)]
  dsimp only
  rw [if_neg hneg.ne, if_pos hneg]

/-- What is found is in the range, and the comparison says that it is there. -/
theorem bisect_some (hlo : 0 ≤ lo) (h : bisect cmp lo hi = some m) : cmp m = 0 ∧ lo ≤ m ∧ m ≤ hi := by
  fun_induction bisect cmp lo hi with
  | case1 => cases h
  | case2 lo hi hle mid i hzero =>
    obtain rfl := Option.some.inj h
    have hmid : mid = (lo + hi) / 2 := rfl
    exact ⟨hzero, by omega, by omega⟩
  | case3 lo hi hle mid i _ _ ih =>
    have hmid : mid = (lo + hi) / 2 := rfl
    obtain ⟨h1, h2, h3⟩ := ih (by omega) h
    exact ⟨h1, by omega, h3⟩
  | case4 lo hi hle mid i _ _ ih =>
    have hmid : mid = (lo + hi) / 2 := rfl
    obtain ⟨h1, h2, h3⟩ := ih hlo h
    exact ⟨h1, h2, by omega⟩

/-- A place in the range is found, or another one. -/
theorem bisect_complete (hz : Zoned cmp n) (hlo : 0 ≤ lo) (hhi : hi < n) (hk : lo ≤ k) (hk' : k ≤ hi) (h0 : cmp k = 0) :
    ∃ m, bisect cmp lo hi = some m := by
  fun_induction bisect cmp lo hi with
  | case1 lo hi hgt => omega
  | case2 => exact ⟨_, rfl⟩
  | case3 lo hi hle mid i hne hneg ih =>
    have hmid : mid = (lo + hi) / 2 := rfl
    have hlt : mid.toNat < k := by
      by_contra hge
      have := hz.below k mid.toNat (by omega) (by omega) hneg
      omega
    exact ih (by omega) hhi (by omega) hk'
  | case4 lo hi hle mid i hne hpos ih =>
    have hmid : mid = (lo + hi) / 2 := rfl
    have hlt : k < mid.toNat := by
      by_contra hge
      have := hz.above mid.toNat k (by omega) (by omega) (by omega)
      omega
    exact ih hlo (by omega) hk (by omega)

/-- A comparison by keys that do not fall is zoned. -/
theorem zoned_of_monotone {α : Type} [LinearOrder α] {key : Nat → α} {x : α} (hmono : ∀ i j, i ≤ j → j < n → key i ≤ key j)
    (hneg : ∀ i, i < n → (cmp i < 0 ↔ key i < x)) (hpos : ∀ i, i < n → (0 < cmp i ↔ x < key i)) : Zoned cmp n where
  below i j hij hj h := (hneg i (by omega)).mpr (lt_of_le_of_lt (hmono i j hij hj) ((hneg j hj).mp h))
  above i j hij hj h := (hpos j hj).mpr (lt_of_lt_of_le ((hpos i (by omega)).mp h) (hmono i j hij hj))

end Bisect

end Db3w
