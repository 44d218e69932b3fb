/-
Arrays sorted in place. An array is what its slots hold; a procedure that moves things about
within a range of it leaves a permutation of the array that keeps every slot outside the range.
-/
import Mathlib.Tactic

namespace Slots

variable {α : Type*} {K K' K'' : Nat → α} {P : α → Prop} {R : α → α → Prop} {lo hi lo' hi' i j k n : Nat}

/-- `K'` holds what `K` holds, at other places between `lo` and `hi`. -/
def Shuffled (lo hi : Nat) (K K' : Nat → α) : Prop := ∃ σ : Equiv.Perm Nat, (∀ k, k < lo ∨ hi ≤ k → σ k = k) ∧ K' = K ∘ σ

theorem Shuffled.refl (lo hi : Nat) (K : Nat → α) : Shuffled lo hi K K := ⟨1, fun _ _ => rfl, rfl⟩

theorem Shuffled.trans (h : Shuffled lo hi K K') (h' : Shuffled lo hi K' K'') : Shuffled lo hi K K'' := by
  obtain ⟨σ, hσ, rfl⟩ := h
  obtain ⟨τ, hτ, rfl⟩ := h'
  refine ⟨τ.trans σ, fun k hk => ?_, rfl⟩
  rw [Equiv.trans_apply, hτ k hk, hσ k hk]

theorem Shuffled.mono (h : Shuffled lo hi K K') (hlo : lo' ≤ lo) (hhi : hi ≤ hi') : Shuffled lo' hi' K K' := by
  obtain ⟨σ, hσ, rfl⟩ := h
  exact ⟨σ, fun k hk => hσ k (by omega), rfl⟩

/-- Two slots are exchanged. -/
theorem shuffled_swap (K : Nat → α) (hi' : lo ≤ i ∧ i < hi) (hj : lo ≤ j ∧ j < hi) :
    Shuffled lo hi K (Function.update (Function.update K i (K j)) j (K i)) := by
  refine ⟨Equiv.swap j i, fun k hk => ?_, ?_⟩
  · rw [Equiv.swap_apply_of_ne_of_ne (by omega) (by omega)]
  · rw [Equiv.comp_swap_eq_update]

theorem Shuffled.outside (h : Shuffled lo hi K K') (hk : k < lo ∨ hi ≤ k) : K' k = K k := by
  obtain ⟨σ, hσ, rfl⟩ := h
  rw [Function.comp_apply, hσ k hk]

/-- What keeps all that lies outside a range maps the range to itself. -/
theorem fixed_range {σ : Equiv.Perm Nat} (hσ : ∀ k, k < lo ∨ hi ≤ k → σ k = k) (k : Nat) : (lo ≤ σ k ∧ σ k < hi) ↔ lo ≤ k ∧ k < hi := by
  constructor
  · intro hin
    by_contra hout
    rw [hσ k (by omega)] at hin
    exact hout hin
  · intro hin
    by_contra hout
    have := σ.injective (hσ (σ k) (by omega))
    omega

/-- What lies in the range comes from the range. -/
theorem Shuffled.inside (h : Shuffled lo hi K K') (hk : lo ≤ k ∧ k < hi) : ∃ k', (lo ≤ k' ∧ k' < hi) ∧ K' k = K k' := by
  obtain ⟨σ, hσ, rfl⟩ := h
  exact ⟨σ k, (fixed_range hσ k).mpr hk, rfl⟩

/-! ## What holds of a range -/

def AllIn (P : α → Prop) (lo hi : Nat) (K : Nat → α) : Prop := ∀ k, lo ≤ k → k < hi → P (K k)

def SortedOn (R : α → α → Prop) (lo hi : Nat) (K : Nat → α) : Prop := ∀ i j, lo ≤ i → i < j → j < hi → R (K i) (K j)

theorem AllIn.mono (h : AllIn P lo hi K) (hlo : lo ≤ lo') (hhi : hi' ≤ hi) : AllIn P lo' hi' K :=
  fun k hk hk' => h k (by omega) (by omega)

theorem AllIn.shuffled (h : AllIn P lo hi K) (hs : Shuffled lo' hi' K K') (hlo : lo ≤ lo') (hhi : hi' ≤ hi) : AllIn P lo hi K' := by
  intro k hk hk'
  by_cases hin : lo' ≤ k ∧ k < hi'
  · obtain ⟨k', hk'', heq⟩ := hs.inside hin
    rw [heq]
    exact h k' (by omega) (by omega)
  · rw [hs.outside (by omega)]
    exact h k hk hk'

/-- What is shuffled elsewhere stays. -/
theorem AllIn.apart (h : AllIn P lo hi K) (hs : Shuffled lo' hi' K K') (hd : hi ≤ lo' ∨ hi' ≤ lo) : AllIn P lo hi K' := by
  intro k hk hk'
  rw [hs.outside (by omega)]
  exact h k hk hk'

theorem SortedOn.apart (h : SortedOn R lo hi K) (hs : Shuffled lo' hi' K K') (hd : hi ≤ lo' ∨ hi' ≤ lo) : SortedOn R lo hi K' := by
  intro a b ha hab hb
  rw [hs.outside (by omega), hs.outside (by omega)]
  exact h a b ha hab hb

theorem sortedOn_short (hle : hi ≤ lo + 1) (K : Nat → α) : SortedOn R lo hi K := fun i j hi' hij hj => by omega

theorem SortedOn.pairwise_range' (h : SortedOn R lo (lo + n) K) : ((List.range' lo n).map K).Pairwise R := by
  rw [List.pairwise_map]
  refine List.Pairwise.imp_of_mem (fun {a b} ha hb hab => ?_) List.pairwise_lt_range'
  exact h a b (List.mem_range'_1.mp ha).1 hab (List.mem_range'_1.mp hb).2

theorem SortedOn.pairwise (h : SortedOn R 0 n K) : ((List.range n).map K).Pairwise R := by
  rw [List.range_eq_range']
  exact SortedOn.pairwise_range' (by rwa [Nat.zero_add])

theorem Shuffled.perm_range' (h : Shuffled lo (lo + n) K K') : ((List.range' lo n).map K').Perm ((List.range' lo n).map K) := by
  obtain ⟨σ, hσ, rfl⟩ := h
  have hnodup : (List.range' lo n).Nodup := List.nodup_range'
  rw [← List.map_map]
  refine List.Perm.map K ((List.perm_ext_iff_of_nodup (hnodup.map σ.injective) hnodup).mpr fun k => ?_)
  rw [List.mem_map, List.mem_range'_1]
  constructor
  · rintro ⟨m, hm, rfl⟩
    exact (fixed_range hσ m).mpr (List.mem_range'_1.mp hm)
  · intro hk
    refine ⟨σ.symm k, List.mem_range'_1.mpr ?_, σ.apply_symm_apply k⟩
    rwa [← fixed_range hσ, σ.apply_symm_apply]

theorem Shuffled.perm (h : Shuffled 0 n K K') : ((List.range n).map K').Perm ((List.range n).map K) := by
  rw [List.range_eq_range']
  exact Shuffled.perm_range' (by rwa [Nat.zero_add])

/-! ## Slots that are set -/

theorem map_range_getElem? (l : List α) : (List.range l.length).map (fun k => l[k]?) = l.map some := by
  refine List.ext_getElem? fun t => ?_
  rcases Nat.lt_or_ge t l.length with ht | ht
  · rw [List.getElem?_map, List.getElem?_range ht, List.getElem?_map, List.getElem?_eq_getElem ht, Option.map_some, Option.map_some,
      List.getElem?_eq_getElem ht]
  · rw [List.getElem?_eq_none (by rwa [List.length_map, List.length_range]), List.getElem?_eq_none (by rwa [List.length_map])]

/-- When all slots of a range are set, they hold a list. -/
theorem exists_slots {K : Nat → Option α} (h : AllIn (fun o => ∃ y, o = some y) 0 n K) :
    ∃ l : List α, l.length = n ∧ (∀ k, k < n → K k = l[k]?) ∧ (List.range n).map K = l.map some := by
  have hslots : ∃ l : List α, l.length = n ∧ ∀ k, k < n → K k = l[k]? := by
    induction n with
    | zero => exact ⟨[], rfl, fun k hk => absurd hk (Nat.not_lt_zero k)⟩
    | succ n ih =>
      obtain ⟨l, hlen, hl⟩ := ih (h.mono le_rfl (Nat.le_succ n))
      obtain ⟨y, hy⟩ := h n (Nat.zero_le n) (Nat.lt_succ_self n)
      refine ⟨l ++ [y], by rw [List.length_append, hlen]; rfl, fun k hk => ?_⟩
      rcases Nat.lt_or_ge k n with hkn | hkn
      · rw [List.getElem?_append_left (by omega), hl k hkn]
      · rw [List.getElem?_append_right (by omega), show k = n by omega, hy, hlen, Nat.sub_self]
        rfl
  obtain ⟨l, hlen, hl⟩ := hslots
  refine ⟨l, hlen, hl, ?_⟩
  rw [← map_range_getElem?, hlen]
  exact List.map_congr_left fun k hk => hl k (List.mem_range.mp hk)

end Slots
