/-
Following a partial function: the chain from an element ends when some element has no next one. Setting
the next element of one from which the chain does not come back keeps all chains ending.
-/
import Mathlib.Logic.Function.Basic
import Mathlib.Tactic

namespace Chase

variable {α : Type*} {f g : α → Option α} {a b c t : α}

/-- Where `n` steps lead to; `none` once the chain has ended. -/
def chase (f : α → Option α) : Nat → α → Option α
  | 0, a => some a
  | n + 1, a => (f a).bind (chase f n)

/-- The chain from `a` ends. -/
def Ends (f : α → Option α) (a : α) : Prop := ∃ n, chase f n a = none

/-- The chain from `a` comes to `b`. -/
def Reaches (f : α → Option α) (a b : α) : Prop := ∃ n, chase f n a = some b

theorem reaches_refl (f : α → Option α) (a : α) : Reaches f a a := ⟨0, rfl⟩

theorem Reaches.head (h : f a = some b) (hb : Reaches f b c) : Reaches f a c := by
  obtain ⟨n, hn⟩ := hb
  refine ⟨n + 1, ?_⟩
  rw [chase, h]
  exact hn

theorem ends_of_none (h : f a = none) : Ends f a := by
  refine ⟨1, ?_⟩
  rw [chase, h]
  rfl

theorem ends_of_some (h : f a = some b) (hb : Ends f b) : Ends f a := by
  obtain ⟨n, hn⟩ := hb
  refine ⟨n + 1, ?_⟩
  rw [chase, h]
  exact hn

/-- Induction along a chain that ends. -/
theorem Ends.rec_on {P : α → Prop} (h : Ends f a) (hP : ∀ a, (∀ b, f a = some b → P b) → P a) : P a := by
  obtain ⟨n, hn⟩ := h
  induction n generalizing a with
  | zero => exact absurd hn (Option.some_ne_none a)
  | succ n ih =>
    refine hP a fun b hb => ih ?_
    rw [chase, hb] at hn
    exact hn

variable [DecidableEq α]

/-- Taking a next element away keeps all chains ending. -/
theorem ends_cut (h : ∀ a, Ends f a) (c a : α) : Ends (Function.update f c none) a := by
  refine (h a).rec_on fun a ih => ?_
  by_cases hac : a = c
  · refine ends_of_none ?_
    rw [hac, Function.update_self]
  · cases hf : f a with
    | none =>
      refine ends_of_none ?_
      rw [Function.update_of_ne hac, hf]
    | some b =>
      refine ends_of_some (b := b) ?_ (ih b hf)
      rw [Function.update_of_ne hac, hf]

omit [DecidableEq α] in
/-- The chain from an element that does not lead to `c` is what it was. -/
theorem ends_apart (hf : ∀ a, a ≠ c → g a = f a) (h : Ends f a) : ¬Reaches f a c → Ends g a := by
  refine h.rec_on (P := fun a => ¬Reaches f a c → Ends g a) fun a ih hnot => ?_
  have hac : a ≠ c := by
    rintro rfl
    exact hnot (reaches_refl f a)
  cases hfa : f a with
  | none => exact ends_of_none ((hf a hac).trans hfa)
  | some b => exact ends_of_some ((hf a hac).trans hfa) (ih b hfa fun hb => hnot (hb.head hfa))

/-- A new next element, from which the chain does not come back. -/
theorem ends_link (h : ∀ a, Ends f a) (ht : ¬Reaches f t c) (a : α) : Ends (Function.update f c (some t)) a := by
  have hne : ∀ a, a ≠ c → Function.update f c (some t) a = f a := fun a ha => Function.update_of_ne ha _ _
  have hc : Ends (Function.update f c (some t)) c := ends_of_some (Function.update_self c _ _) (ends_apart hne (h t) ht)
  refine (h a).rec_on fun a ih => ?_
  by_cases hac : a = c
  · exact hac ▸ hc
  · cases hf : f a with
    | none => exact ends_of_none ((hne a hac).trans hf)
    | some b => exact ends_of_some ((hne a hac).trans hf) (ih b hf)

end Chase
