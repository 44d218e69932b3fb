/-
What a program with a state and errors makes sure of: from a state it ends with a result that satisfies a
postcondition, or with an error that is allowed. If all errors are allowed this says what holds after a run that
does not fail; if all but one are, the program does not end with that one.
-/
import Mathlib.Tactic

namespace Outcome

variable {ε σ α β : Type} {E E' : ε → Prop} {P Q : α → σ → Prop} {R : β → σ → Prop} {s s' : σ} {x : EStateM ε σ α} {f : α → EStateM ε σ β}

/-- From `s` the program ends with a result in `Q`, or with an error in `E`. -/
def Ensures (E : ε → Prop) (x : EStateM ε σ α) (s : σ) (Q : α → σ → Prop) : Prop :=
  match x s with
  | .ok a s' => Q a s'
  | .error e _ => E e

theorem Ensures.of_ok {a : α} (h : Ensures E x s Q) (hx : x s = .ok a s') : Q a s' := by
  unfold Ensures at h
  rwa [hx] at h

theorem ensures_iff : Ensures E x s Q ↔ (∀ a s', x s = .ok a s' → Q a s') ∧ ∀ e s', x s = .error e s' → E e := by
  unfold Ensures
  cases x s <;> simp

/-- A run that does not fail. -/
theorem ensures_of_ok (h : ∀ a s', x s = .ok a s' → Q a s') : Ensures (fun _ => True) x s Q := ensures_iff.2 ⟨h, fun _ _ _ => trivial⟩

theorem Ensures.mono (h : Ensures E x s P) (hPQ : ∀ a s', P a s' → Q a s') : Ensures E x s Q := by
  obtain ⟨h1, h2⟩ := ensures_iff.1 h
  exact ensures_iff.2 ⟨fun a s' hx => hPQ a s' (h1 a s' hx), h2⟩

theorem Ensures.bind (h : Ensures E x s fun a s' => Ensures E (f a) s' R) : Ensures E (x >>= f) s R := by
  have hrun : (x >>= f) s = match x s with
      | .ok a s' => f a s'
      | .error e s' => .error e s' := by
    simp only [Bind.bind, EStateM.bind]
    cases x s <;> rfl
  unfold Ensures at h ⊢
  rw [hrun]
  cases hx : x s with
  | ok a s' =>
    rw [hx] at h
    exact h
  | error e s' =>
    rw [hx] at h
    exact h

theorem ensures_pure {a : α} (h : Q a s) : Ensures E (pure a) s Q := h

theorem ensures_throw {e : ε} (h : E e) : Ensures E (throw e) s Q := h

theorem ensures_get {Q : σ → σ → Prop} (h : Q s s) : Ensures E get s Q := h

theorem ensures_modify {k : σ → σ} {Q : PUnit → σ → Prop} (h : Q ⟨⟩ (k s)) : Ensures E (modify k) s Q := h

theorem ensures_ite {c : Prop} [Decidable c] {y : EStateM ε σ α} (h1 : c → Ensures E x s Q) (h2 : ¬c → Ensures E y s Q) :
    Ensures E (if c then x else y) s Q := by
  split
  · exact h1 ‹_›
  · exact h2 ‹_›

/-- A program for each element of a list; `J` says what holds when so many of them are done. -/
theorem ensures_forM {f : β → EStateM ε σ PUnit} {J : Nat → σ → Prop} (hf : ∀ n b s, J n s → Ensures E (f b) s fun _ => J (n + 1))
    (bs : List β) {n : Nat} (h : J n s) : Ensures E (bs.forM f) s fun _ => J (n + bs.length) := by
  induction bs generalizing n s with
  | nil => exact ensures_pure h
  | cons b bs ih =>
    rw [List.length_cons, ← Nat.add_assoc, Nat.add_right_comm]
    exact ((hf n b s h).mono fun _ s' h' => ih h').bind

end Outcome
