/-
Structured statements over any actions and conditions: sequences, loops, and branches of which at most
one runs. An action may go on, leave the innermost loop, or end the program. Where control does not
fall through to the next statement the program may be interrupted.
-/
import Mathlib.Tactic

namespace Structured

mutual

/-- A sequence of statements. -/
inductive Body (α γ : Type) : Type where
  | nil
  | act (a : α) (rest : Body α γ)
  | loop (c : γ) (body rest : Body α γ)
  /-- IF: the first branch, and the others. -/
  | if_ (c : γ) (body : Body α γ) (more : Branches α γ) (rest : Body α γ)
  /-- CASE: the statements in front of the first branch, and the branches. -/
  | case_ (pre : Body α γ) (cases : Branches α γ) (rest : Body α γ)

/-- Branches of which the first with a true condition runs. -/
inductive Branches (α γ : Type) : Type where
  | none
  | else_ (body : Body α γ)
  | cond (c : γ) (body : Body α γ) (more : Branches α γ)

end

/-- How statements end: they go on, leave the innermost loop, end the program, or take more rounds than allowed. -/
inductive Out (σ ρ : Type) where
  | next (s : σ)
  | exit (s : σ)
  | stop (r : ρ)
  | more

def Out.bind {σ ρ : Type} (o : Out σ ρ) (f : σ → Out σ ρ) : Out σ ρ :=
  match o with
  | .next s => f s
  | .exit s => .exit s
  | .stop r => .stop r
  | .more => .more

/-- What actions, conditions and interruptions do. -/
structure Sem (α γ σ ρ : Type) where
  act : α → σ → Out σ ρ
  cond : γ → σ → Except ρ (Bool × σ)
  poll : σ → Option ρ

variable {α γ σ ρ : Type}

def Branches.isNone : Branches α γ → Bool
  | .none => true
  | _ => false

namespace Sem

variable (S : Sem α γ σ ρ)

/-- A jump, which may be interrupted. -/
def jump (s : σ) : Out σ ρ :=
  match S.poll s with
  | some r => .stop r
  | none => .next s

/-- A condition with what is done if it is true and if it is false. -/
def test (c : γ) (yes no : σ → Out σ ρ) (s : σ) : Out σ ρ :=
  match S.cond c s with
  | .error r => .stop r
  | .ok (true, s) => yes s
  | .ok (false, s) => (S.jump s).bind no

/-- The end of a round: the next one, or the end of the loop when it was left. -/
def round (again : σ → Out σ ρ) : Out σ ρ → Out σ ρ
  | .next s => (S.jump s).bind again
  | .exit s => .next s
  | .stop r => .stop r
  | .more => .more

/-- At most `n` rounds of a loop. -/
def loop (c : γ) (body : σ → Out σ ρ) : Nat → σ → Out σ ρ
  | 0, _ => .more
  | n + 1, s => S.test c (fun s => S.round (loop c body n) (body s)) Out.next s

end Sem

mutual

/-- What statements do, with at most `n` rounds of each loop. -/
def Body.run (S : Sem α γ σ ρ) (n : Nat) : Body α γ → σ → Out σ ρ
  | .nil => .next
  | .act a rest => fun s => (S.act a s).bind (rest.run S n)
  | .loop c body rest => fun s => (S.loop c (body.run S n) n s).bind (rest.run S n)
  | .if_ c body more rest => fun s =>
    (S.test c (fun s => if more.isNone then body.run S n s else (body.run S n s).bind S.jump) (more.run S n) s).bind (rest.run S n)
  | .case_ pre cases rest => fun s => ((pre.run S n s).bind (cases.run S n)).bind (rest.run S n)

def Branches.run (S : Sem α γ σ ρ) (n : Nat) : Branches α γ → σ → Out σ ρ
  | .none => .next
  | .else_ body => body.run S n
  | .cond c body more => S.test c (fun s => if more.isNone then body.run S n s else (body.run S n s).bind S.jump) (more.run S n)

end

end Structured
