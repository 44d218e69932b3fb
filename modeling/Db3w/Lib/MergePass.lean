/-
Merging by passes. A list that is sorted in runs of some length is made a list sorted in runs of
twice the length by merging its runs two by two; when the runs are as long as the list, the list
is sorted. The order only has to be one on the elements that occur.
-/
import Mathlib.Tactic

namespace MergePass

variable {α : Type*} {le : α → α → Bool} {S : Set α} {l r : List α} {n : Nat}

/-- A total preorder of the elements of a set. -/
structure TotalOn (le : α → α → Bool) (S : Set α) : Prop where
  total : ∀ a ∈ S, ∀ b ∈ S, le a b ∨ le b a
  trans : ∀ a ∈ S, ∀ b ∈ S, ∀ c ∈ S, le a b → le b c → le a c

/-- Each run of `n` elements is sorted; the last one may be shorter. -/
def SortedRuns (le : α → α → Bool) (n : Nat) (l : List α) : Prop := ∀ k, ((l.drop (k * n)).take n).Pairwise (le · ·)

/-- One pass over the list: its runs of `n` elements are merged two by two. -/
def mergePass (le : α → α → Bool) (n : Nat) (l : List α) : List α :=
  if _ : n = 0 ∨ l = [] then l
  else (l.take n).merge ((l.drop n).take n) le ++ mergePass le n (l.drop (2 * n))
termination_by l.length
decreasing_by
  rw [List.length_drop]
  have := List.length_pos_iff.mpr (not_or.mp ‹_›).2
  omega

@[simp] theorem mergePass_nil (le : α → α → Bool) (n : Nat) : mergePass le n [] = [] := by
  rw [mergePass, dif_pos (.inr rfl)]

theorem mergePass_eq (hn : 0 < n) (le : α → α → Bool) (l : List α) :
    mergePass le n l = (l.take n).merge ((l.drop n).take n) le ++ mergePass le n (l.drop (2 * n)) := by
  by_cases hl : l = []
  · subst hl
    simp
  · rw [mergePass, dif_neg (not_or.mpr ⟨by omega, hl⟩)]

/-- Whatever is proved of a list from the list without its first two runs. -/
theorem passInduction {P : List α → Prop} (hn : 0 < n) (hnil : P []) (hstep : ∀ l, l ≠ [] → P (l.drop (2 * n)) → P l) (l : List α) : P l := by
  induction hlen : l.length using Nat.strong_induction_on generalizing l with
  | _ m ih =>
    by_cases hl : l = []
    · exact hl ▸ hnil
    · have hpos := List.length_pos_iff.mpr hl
      exact hstep l hl (ih _ (by rw [List.length_drop]; omega) _ rfl)

theorem mergePass_perm (hn : 0 < n) (le : α → α → Bool) (l : List α) : (mergePass le n l).Perm l := by
  induction l using passInduction hn with
  | hnil => rw [mergePass_nil]
  | hstep l hl ih =>
    rw [mergePass_eq hn]
    have hmerge : ((l.take n).merge ((l.drop n).take n) le).Perm (l.take (2 * n)) := by
      have hperm : ((l.take n).merge ((l.drop n).take n) le).Perm (l.take n ++ (l.drop n).take n) := List.merge_perm_append le
      rwa [← List.take_add, ← two_mul] at hperm
    exact (hmerge.append ih).trans (List.Perm.of_eq (List.take_append_drop ..))

theorem length_mergePass (hn : 0 < n) (le : α → α → Bool) (l : List α) : (mergePass le n l).length = l.length :=
  (mergePass_perm hn le l).length_eq

/-- The merge of two sorted lists is sorted. -/
theorem pairwise_merge (hle : TotalOn le S) (hl : ∀ a ∈ l, a ∈ S) (hr : ∀ a ∈ r, a ∈ S) (hsl : l.Pairwise (le · ·))
    (hsr : r.Pairwise (le · ·)) : (l.merge r le).Pairwise (le · ·) := by
  induction l generalizing r with
  | nil => simpa using hsr
  | cons a l ihl =>
    induction r with
    | nil => simpa using hsl
    | cons b r ihr =>
      have ha := hl a List.mem_cons_self
      have hb := hr b List.mem_cons_self
      have hl' : ∀ x ∈ l, x ∈ S := fun x hx => hl x (List.mem_cons_of_mem _ hx)
      have hr' : ∀ x ∈ r, x ∈ S := fun x hx => hr x (List.mem_cons_of_mem _ hx)
      rw [List.pairwise_cons] at hsl hsr
      by_cases hab : le a b
      · rw [List.cons_merge_cons_pos _ _ _ hab, List.pairwise_cons]
        refine ⟨fun x hx => ?_, ihl hl' hr hsl.2 (List.pairwise_cons.mpr hsr)⟩
        rcases List.mem_merge.mp hx with hx | hx
        · exact hsl.1 x hx
        · rcases List.mem_cons.mp hx with rfl | hx
          · exact hab
          · exact hle.trans a ha b hb x (hr' x hx) hab (hsr.1 x hx)
      · have hba := (hle.total a ha b hb).resolve_left hab
        rw [List.cons_merge_cons_neg _ _ _ hab, List.pairwise_cons]
        refine ⟨fun x hx => ?_, ihr hr' hsr.2⟩
        rcases List.mem_merge.mp hx with hx | hx
        · rcases List.mem_cons.mp hx with rfl | hx
          · exact hba
          · exact hle.trans b hb a ha x (hl' x hx) hba (hsl.1 x hx)
        · exact hsr.1 x hx

/-! ## Runs -/

theorem sortedRuns_nil (le : α → α → Bool) (n : Nat) : SortedRuns le n [] := fun k => by simp

theorem SortedRuns.drop (h : SortedRuns le n l) (m : Nat) : SortedRuns le n (l.drop (m * n)) := by
  intro k
  rw [List.drop_drop, ← Nat.add_mul]
  exact h (m + k)

theorem SortedRuns.pairwise (h : SortedRuns le n l) (hlen : l.length ≤ n) : l.Pairwise (le · ·) := by
  have := h 0
  rwa [Nat.zero_mul, List.drop_zero, List.take_of_length_le hlen] at this

/-- A sorted run behind full runs. -/
theorem SortedRuns.append (h : SortedRuns le n l) {k : Nat} (hlen : l.length = k * n) (hr : SortedRuns le n r) : SortedRuns le n (l ++ r) := by
  intro j
  rcases Nat.lt_or_ge j k with hj | hj
  · have hle : j * n + n ≤ l.length := by
      rw [hlen, ← Nat.succ_mul]
      exact Nat.mul_le_mul_right n hj
    rw [List.drop_append_of_le_length (by omega), List.take_append_of_le_length (by rw [List.length_drop]; omega)]
    exact h j
  · obtain ⟨i, rfl⟩ := Nat.exists_eq_add_of_le hj
    rw [Nat.add_mul, ← hlen, List.drop_append, List.drop_eq_nil_of_le (Nat.le_add_right ..), List.nil_append, Nat.add_sub_cancel_left]
    exact hr i

theorem sortedRuns_of_pairwise (h : l.Pairwise (le · ·)) : SortedRuns le n l := fun _ =>
  h.sublist ((List.take_sublist _ _).trans (List.drop_sublist _ _))

/-- A pass doubles the length of the runs. -/
theorem sortedRuns_mergePass (hn : 0 < n) (hle : TotalOn le S) (hl : ∀ a ∈ l, a ∈ S) (h : SortedRuns le n l) :
    SortedRuns le (2 * n) (mergePass le n l) := by
  induction l using passInduction hn with
  | hnil => simpa using sortedRuns_nil le (2 * n)
  | hstep l _ ih =>
    have hfirst := h 0
    have hsecond := h 1
    rw [Nat.zero_mul, List.drop_zero] at hfirst
    rw [Nat.one_mul] at hsecond
    have hsorted : ((l.take n).merge ((l.drop n).take n) le).Pairwise (le · ·) :=
      pairwise_merge hle (fun a ha => hl a (List.mem_of_mem_take ha))
        (fun a ha => hl a (List.mem_of_mem_drop (List.mem_of_mem_take ha))) hfirst hsecond
    rw [mergePass_eq hn]
    rcases Nat.lt_or_ge l.length (2 * n) with hshort | hlong
    · rw [List.drop_eq_nil_of_le (by omega : l.length ≤ 2 * n), mergePass_nil, List.append_nil]
      exact sortedRuns_of_pairwise hsorted
    · have hlen : ((l.take n).merge ((l.drop n).take n) le).length = 1 * (2 * n) := by
        rw [List.length_merge, List.length_take, List.length_take, List.length_drop]
        omega
      exact (sortedRuns_of_pairwise hsorted).append hlen (ih (fun a ha => hl a (List.mem_of_mem_drop ha)) (h.drop 2))

end MergePass
