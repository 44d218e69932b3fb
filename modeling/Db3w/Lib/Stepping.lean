/-
Machines that take one step after another. A step leads to the next state or ends with a result. What
a machine reaches in some steps is the same however the steps are grouped, so that a machine that has
ended once always ends with the same result.
-/
import Mathlib.Tactic

namespace Stepping

variable {α β : Type*} {step : α → α ⊕ β} {a a' a'' : α} {b b' : β} {m n : Nat} {r : α ⊕ β}

/-- What `n` steps lead to, unless the machine ends before. -/
def steps (step : α → α ⊕ β) : Nat → α → α ⊕ β
  | 0, a => .inl a
  | n + 1, a =>
    match step a with
    | .inl a => steps step n a
    | .inr b => .inr b

theorem steps_succ_inl (h : step a = .inl a') (n : Nat) : steps step (n + 1) a = steps step n a' := by rw [steps, h]

theorem steps_succ_inr (h : step a = .inr b) (n : Nat) : steps step (n + 1) a = .inr b := by rw [steps, h]

theorem steps_one (h : step a = r) : steps step 1 a = r := by
  cases r with
  | inl a' => exact steps_succ_inl h 0
  | inr b => exact steps_succ_inr h 0

theorem steps_add (h : steps step m a = .inl a') (n : Nat) : steps step (m + n) a = steps step n a' := by
  induction m generalizing a with
  | zero =>
    obtain ⟨⟩ := h
    rw [Nat.zero_add]
  | succ m ih =>
    cases hs : step a with
    | inl a1 =>
      rw [steps_succ_inl hs] at h
      rw [Nat.succ_add, steps_succ_inl hs, ih h]
    | inr b =>
      rw [steps_succ_inr hs] at h
      cases h

/-- A machine that has ended takes no more steps. -/
theorem steps_ended (h : steps step m a = .inr b) (hn : m ≤ n) : steps step n a = .inr b := by
  induction m generalizing a n with
  | zero => cases h
  | succ m ih =>
    obtain ⟨n, rfl⟩ : ∃ k, n = k + 1 := ⟨n - 1, by omega⟩
    cases hs : step a with
    | inl a1 =>
      rw [steps_succ_inl hs] at h ⊢
      exact ih h (by omega)
    | inr b' =>
      rw [steps_succ_inr hs] at h ⊢
      exact h

/-- The machine ends in one way only. -/
theorem steps_unique (h : steps step m a = .inr b) (h' : steps step n a = .inr b') : b = b' := by
  rcases Nat.le_total m n with hle | hle
  · exact Sum.inr.inj ((steps_ended h hle).symm.trans h')
  · exact Sum.inr.inj (h.symm.trans (steps_ended h' hle))

/-- A machine that is still going has not ended before. -/
theorem lt_of_going (h : steps step m a = .inl a') (h' : steps step n a = .inr b) : m < n := by
  by_contra hle
  rw [steps_ended h' (not_lt.1 hle)] at h
  cases h

/-- The machine gets from one state to another. -/
def Gets (step : α → α ⊕ β) (a a' : α) : Prop := ∃ n, steps step n a = .inl a'

/-- The machine ends with a result. -/
def Halts (step : α → α ⊕ β) (a : α) (b : β) : Prop := ∃ n, steps step n a = .inr b

/-- The machine is still going after `n` steps. -/
def Going (step : α → α ⊕ β) (n : Nat) (a : α) : Prop := ∃ m a', n ≤ m ∧ steps step m a = .inl a'

theorem Gets.refl : Gets step a a := ⟨0, rfl⟩

theorem Gets.one (h : step a = .inl a') : Gets step a a' := ⟨1, steps_one h⟩

theorem Gets.trans (h : Gets step a a') (h' : Gets step a' a'') : Gets step a a'' := by
  obtain ⟨m, hm⟩ := h
  obtain ⟨n, hn⟩ := h'
  exact ⟨m + n, (steps_add hm n).trans hn⟩

theorem Gets.head (h : step a = .inl a') (h' : Gets step a' a'') : Gets step a a'' := (Gets.one h).trans h'

theorem Halts.one (h : step a = .inr b) : Halts step a b := ⟨1, steps_one h⟩

theorem Gets.halts (h : Gets step a a') (h' : Halts step a' b) : Halts step a b := by
  obtain ⟨m, hm⟩ := h
  obtain ⟨n, hn⟩ := h'
  exact ⟨m + n, (steps_add hm n).trans hn⟩

theorem Gets.going (h : Gets step a a') (h' : Going step n a') : Going step n a := by
  obtain ⟨m, hm⟩ := h
  obtain ⟨k, a'', hk, hs⟩ := h'
  exact ⟨m + k, a'', hk.trans (Nat.le_add_left k m), (steps_add hm k).trans hs⟩

/-- One more step in front. -/
theorem Going.head (h : step a = .inl a') (h' : Going step n a') : Going step (n + 1) a := by
  obtain ⟨m, a'', hm, hs⟩ := h'
  exact ⟨m + 1, a'', Nat.succ_le_succ hm, (steps_succ_inl h m).trans hs⟩

theorem Going.mono (h : Going step n a) (hm : m ≤ n) : Going step m a := by
  obtain ⟨k, a', hk, hs⟩ := h
  exact ⟨k, a', hm.trans hk, hs⟩

theorem Halts.unique (h : Halts step a b) (h' : Halts step a b') : b = b' := by
  obtain ⟨m, hm⟩ := h
  obtain ⟨n, hn⟩ := h'
  exact steps_unique hm hn

/-- A machine that is still going after any number of steps does not end. -/
theorem Halts.not_going (h : Halts step a b) : ∃ n, ¬Going step n a := by
  obtain ⟨n, hn⟩ := h
  refine ⟨n, ?_⟩
  rintro ⟨m, a', hm, hs⟩
  exact absurd (lt_of_going hs hn) (not_lt.2 hm)

end Stepping
