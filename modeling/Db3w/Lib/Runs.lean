/-
Runs of a system that takes one step for each label of a list. A property of single steps holds
along a run when every step has it in the state it is taken in; invariants are carried along.
-/
import Mathlib.Tactic

namespace Runs

variable {σ ι : Type*} {step : σ → ι → σ} {P Q : σ → ι → Prop} {I : σ → Prop} {s : σ} {as bs : List ι}

/-- Every step of the run from `s` has the property. -/
def Along (step : σ → ι → σ) (P : σ → ι → Prop) : List ι → σ → Prop
  | [], _ => True
  | a :: as, s => P s a ∧ Along step P as (step s a)

instance decidableAlong (step : σ → ι → σ) (P : σ → ι → Prop) [∀ s a, Decidable (P s a)] :
    ∀ (as : List ι) (s : σ), Decidable (Along step P as s)
  | [], _ => inferInstanceAs (Decidable True)
  | a :: as, s => @instDecidableAnd _ _ _ (decidableAlong step P as (step s a))

/-- An invariant that steps with the property keep holds at the end of the run. -/
theorem Along.inv (hstep : ∀ s a, I s → P s a → I (step s a)) (h : Along step P as s) (hs : I s) : I (as.foldl step s) := by
  induction as generalizing s with
  | nil => exact hs
  | cons a as ih => exact ih h.2 (hstep s a hs h.1)

/-- Two properties that an invariant makes equal hold along the same runs, when either keeps it. -/
theorem along_iff (hiff : ∀ s a, I s → (P s a ↔ Q s a)) (hstep : ∀ s a, I s → P s a → I (step s a)) (hs : I s) :
    Along step P as s ↔ Along step Q as s := by
  induction as generalizing s with
  | nil => exact Iff.rfl
  | cons a as ih =>
    unfold Along
    rw [hiff s a hs]
    exact and_congr_right fun hq => ih (hstep s a hs ((hiff s a hs).2 hq))

theorem Along.mono (hPQ : ∀ s a, I s → P s a → Q s a) (hstep : ∀ s a, I s → P s a → I (step s a)) (h : Along step P as s) (hs : I s) :
    Along step Q as s := by
  induction as generalizing s with
  | nil => trivial
  | cons a as ih => exact ⟨hPQ s a hs h.1, ih h.2 (hstep s a hs h.1)⟩

end Runs
