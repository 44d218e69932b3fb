/-
A session with a table: the current record, its ends, DELETED and the filter, and the scope of a command.
Moving in the table passes over the records that are hidden, and what is passed over is described by
the list of the records that are left.
-/
import Db3w.Hb.Compile

namespace Db3w.Hb

abbrev MAXNRECS : Nat := 2 ^ 64 - 2

/-- A table in the order of the session, and where the session is; records count from 1. -/
structure Sess (ρ τ : Type) where
  recs : List ρ
  crntrec : Nat
  e_o_f : Bool
  t_o_f : Bool
  deleteOn : Bool
  filter : Option CodeBlock
  /-- `scope.total` and `scope.count`; a total of 0 is no scope. -/
  total : Nat
  count : Nat
  recordCnt : Nat
  /-- The records that commands have acted upon. -/
  acted : List Nat
  /-- The rest of the session. -/
  rest : τ

section Nav

variable {ρ τ : Type}

namespace Sess

def current (s : Sess ρ τ) : Option ρ := if s.crntrec = 0 then none else s.recs[s.crntrec - 1]?

/-- The same session at another record. -/
def at' (s : Sess ρ τ) (crntrec : Nat) (e_o_f t_o_f : Bool) : Sess ρ τ := { s with crntrec, e_o_f, t_o_f }

/-- `etof(0)`. -/
def etof (s : Sess ρ τ) : Bool := s.e_o_f || s.t_o_f

/-- `next(FORWARD)`. -/
def next (s : Sess ρ τ) : Sess ρ τ :=
  if s.crntrec + 1 > s.recs.length then s.at' (s.crntrec + 1) true s.t_o_f else s.at' (s.crntrec + 1) false false

end Sess

variable (m : Machine (Sess ρ τ)) (deleted : ρ → Bool)

/-- `execute`, of a block without jumps. -/
def executeBlock {σ : Type} (m : Machine σ) (b : CodeBlock) (w : World σ) : Res σ (World σ) :=
  match execute m (b.code.length + 1) b w with
  | none => .error (.illOpcode, w.state)
  | some r => r

/-- `cond`: NULL is not true. -/
def cond {σ : Type} (m : Machine σ) (b : CodeBlock) (w : World σ) : Res σ (Bool × World σ) := do
  let w ← executeBlock m b w
  match popLogic w.stack with
  | .error e => .error (e, w.state)
  | .ok (v, st) => .ok (v.isSome && v = some true, ⟨st, w.state⟩)

/-- `istrue`: NULL is false. -/
def istrue {σ : Type} (w : World σ) : Res σ (Bool × World σ) :=
  match popLogic w.stack with
  | .error e => .error (e, w.state)
  | .ok (v, st) => .ok (v.getD false, ⟨st, w.state⟩)

/-- Whether the current record is passed over. -/
def filtered (w : World (Sess ρ τ)) : Res (Sess ρ τ) (Bool × World (Sess ρ τ)) :=
  if w.state.deleteOn && w.state.current.any deleted then .ok (true, w)
  else
    match w.state.filter with
    | none => .ok (false, w)
    | some b => do
      let (tf, w) ← cond m b w
      return (!tf, w)

/-- The loop of `gotop` and `skip`: from the current record to one that is not passed over. -/
def seek : Nat → World (Sess ρ τ) → Res (Sess ρ τ) (World (Sess ρ τ))
  | 0, w => .ok w
  | n + 1, w =>
    if w.state.e_o_f then .ok w
    else do
      let (hide, w) ← filtered m deleted w
      if hide then seek n ⟨w.stack, w.state.next⟩ else .ok w

/-- `gotop`. -/
def gotop (w : World (Sess ρ τ)) : Res (Sess ρ τ) (World (Sess ρ τ)) :=
  if w.state.recs.length = 0 then .ok ⟨w.stack, w.state.at' w.state.crntrec true true⟩
  else seek m deleted (w.state.recs.length + 1) ⟨w.stack, w.state.at' 1 false false⟩

/-- The records from one on that are not hidden, with their numbers. -/
def keptIn (hidden : ρ → Bool) : List ρ → Nat → List (Nat × ρ)
  | [], _ => []
  | r :: rs, i => if hidden r then keptIn hidden rs (i + 1) else (i, r) :: keptIn hidden rs (i + 1)

/-- What is left of the table, the current record included. -/
def Sess.kept (hidden : ρ → Bool) (s : Sess ρ τ) : List (Nat × ρ) := keptIn hidden (s.recs.drop (s.crntrec - 1)) s.crntrec

variable {m deleted}

end Nav

end Db3w.Hb
