/-
What a condition decides. The loop of a scoped command jumps on its FOR condition inside a block, a
filter tests the value that a block leaves, and a program jumps between blocks. A NULL is false for
the last two, but not for the first.
-/
import Db3w.Hb.Scope
import Db3w.Hb.Meaning

namespace Db3w.Hb

/-! ## The code of a scoped command -/

section Ends

variable {σ : Type} (m : Machine σ) (code : List PCode) (data : List HbVal)

/-- From `pc` on the block ends with `r`, in some number of instructions. -/
def Ends (pc : Nat) (w : World σ) (r : Res σ (World σ)) : Prop :=
  ∃ n, ∀ fuel, n ≤ fuel → executeFrom m code data code.length fuel pc w = some r

variable {m code data} {pc a : Nat} {w w' : World σ} {r r' : Res σ (World σ)}

theorem Ends.unique (h : Ends m code data pc w r) (h' : Ends m code data pc w r') : r = r' := by
  obtain ⟨n, hn⟩ := h
  obtain ⟨n', hn'⟩ := h'
  exact Option.some.inj ((hn (max n n') (le_max_left _ _)).symm.trans (hn' (max n n') (le_max_right _ _)))

theorem Ends.stop (h : code.length ≤ pc) : Ends m code data pc w (.ok w) := by
  refine ⟨1, fun fuel hfuel => ?_⟩
  obtain ⟨fuel, rfl⟩ : ∃ k, fuel = k + 1 := ⟨fuel - 1, by omega⟩
  rw [executeFrom, if_pos h]

/-- One more instruction before. -/
theorem Ends.before {pc' : Nat} (hstep : ∀ fuel, executeFrom m code data code.length fuel pc' w' = some r →
    executeFrom m code data code.length (fuel + 1) pc w = some r) (h : Ends m code data pc' w' r) : Ends m code data pc w r := by
  obtain ⟨n, hn⟩ := h
  refine ⟨n + 1, fun fuel hfuel => ?_⟩
  obtain ⟨fuel, rfl⟩ : ∃ k, fuel = k + 1 := ⟨fuel - 1, by omega⟩
  exact hstep fuel (hn fuel (by omega))

theorem lt_of_get {i : PCode} (hget : code[pc]? = some i) : ¬code.length ≤ pc := by
  obtain ⟨h, -⟩ := List.getElem?_eq_some_iff.mp hget
  omega

theorem Ends.op {i : PCode} (hget : code[pc]? = some i) (hop : i.opcode < 0x80) (hrun : hbint m i.opcode i.opnd data w = .ok w')
    (h : Ends m code data (pc + 1) w' r) : Ends m code data pc w r := by
  refine h.before fun fuel hfuel => ?_
  have hne : ∀ n, 0x80 ≤ n → i.opcode ≠ n := fun n hn => by omega
  rw [executeFrom, if_neg (lt_of_get hget), hget]
  dsimp only
  rw [if_neg (hne _ (by decide)), if_neg (hne _ (by decide)), if_neg (hne _ (by decide)), if_neg (hne _ (by decide)),
    if_neg (hne _ (by decide)), if_neg (hne _ (by decide)), hrun]
  exact hfuel

theorem Ends.jump (hget : code[pc]? = some ⟨JUMP, a⟩) (h : Ends m code data a w r) : Ends m code data pc w r := by
  refine h.before fun fuel hfuel => ?_
  rw [executeFrom, if_neg (lt_of_get hget), hget]
  exact hfuel

theorem Ends.return (hget : code[pc]? = some ⟨RETURN, a⟩) : Ends m code data pc w (.ok w) := by
  refine ⟨1, fun fuel hfuel => ?_⟩
  obtain ⟨fuel, rfl⟩ : ∃ k, fuel = k + 1 := ⟨fuel - 1, by omega⟩
  rw [executeFrom, if_neg (lt_of_get hget), hget]
  rfl

theorem Ends.call (hget : code[pc]? = some ⟨CALL, a⟩) (hcall : Ends m code data a w (.ok w')) (h : Ends m code data (pc + 1) w' r) :
    Ends m code data pc w r := by
  obtain ⟨n, hn⟩ := hcall
  obtain ⟨n', hn'⟩ := h
  refine ⟨max n n' + 1, fun fuel hfuel => ?_⟩
  obtain ⟨fuel, rfl⟩ : ∃ k, fuel = k + 1 := ⟨fuel - 1, by omega⟩
  rw [executeFrom, if_neg (lt_of_get hget), hget]
  dsimp only
  rw [if_neg (by decide), if_neg (by decide), if_neg (by decide), if_neg (by decide), if_neg (by decide), if_pos rfl, hn fuel (by omega)]
  exact hn' fuel (by omega)

end Ends

/-! ## A condition on records -/

section Cond

variable {ρ τ : Type}

variable {m : Machine (Sess ρ τ)} {deleted : ρ → Bool} {act : Nat → Nat → World (Sess ρ τ) → Res (Sess ρ τ) (World (Sess ρ τ))}
  {r : PCode} {data : List HbVal} {cc : List PCode} {b : CodeBlock} {st : Stack} {v : ρ → Option Bool}

/-- What DELETED hides. -/
def Sess.hidden (deleted : ρ → Bool) (s : Sess ρ τ) (rec : ρ) : Bool := s.deleteOn && deleted rec

end Cond

/-! ## A table with one logical field -/

end Db3w.Hb
