/-
Where a list occurs in another one: the positions from which it is a prefix of what is left. For a list that
is not empty these are among the first `s.length - t.length + 1`, and the last of these is an occurrence
exactly if the list is a suffix.
-/
import Mathlib.Tactic

namespace Positions

variable {α : Type} [DecidableEq α] {t s : List α} {i n : Nat}

/-- The positions of `s` at which `t` occurs, in order. -/
def positions (t s : List α) : List Nat := (List.range s.length).filter fun i => t <+: s.drop i

/-- The first position at which `t` occurs, counted from 1; 0 when there is none. -/
def firstPosition (t s : List α) : Nat := ((positions t s).head?.map (· + 1)).getD 0

theorem mem_positions : i ∈ positions t s ↔ i < s.length ∧ t <+: s.drop i := by simp [positions]

omit [DecidableEq α] in
/-- An occurrence leaves room for itself. -/
theorem add_length_le (ht : t ≠ []) (h : t <+: s.drop i) : i + t.length ≤ s.length := by
  have hle := h.length_le
  have hpos := List.length_pos_of_ne_nil ht
  rw [List.length_drop] at hle
  omega

theorem positions_of_lt (ht : t ≠ []) (h : s.length < t.length) : positions t s = [] := by
  refine List.filter_eq_nil_iff.mpr ?_
  intro i _ hi
  have := add_length_le ht (of_decide_eq_true hi)
  omega

/-- Behind the last place that leaves room there is no occurrence. -/
theorem positions_eq (ht : t ≠ []) (h : s.length = t.length + n) : positions t s = (List.range (n + 1)).filter fun i => t <+: s.drop i := by
  have hpos := List.length_pos_of_ne_nil ht
  obtain ⟨m, hm⟩ : ∃ m, s.length = n + 1 + m := ⟨t.length - 1, by omega⟩
  rw [positions, hm, List.range_add, List.filter_append, List.append_right_eq_self, List.filter_eq_nil_iff]
  intro i hi hd
  obtain ⟨j, -, rfl⟩ := List.mem_map.mp hi
  have := add_length_le ht (of_decide_eq_true hd)
  omega

omit [DecidableEq α] in
/-- At the last place that leaves room there is an occurrence exactly for a suffix. -/
theorem prefix_drop_iff (h : s.length = t.length + n) : t <+: s.drop n ↔ t <:+ s := by
  constructor
  · intro hp
    have hl : (s.drop n).length = t.length := by
      rw [List.length_drop]
      omega
    rw [hp.eq_of_length hl.symm]
    exact List.drop_suffix n s
  · rintro ⟨r, rfl⟩
    rw [List.length_append] at h
    rw [List.drop_append_of_le_length (by omega), List.drop_of_length_le (by omega), List.nil_append]

end Positions
