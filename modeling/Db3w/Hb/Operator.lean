/-
What the operators do to the stack. A prefix operator replaces the top value, a binary operator the two
top values, by a value that depends on them alone. The exception is a relational operator between
strings one of which is empty, with NULL ON: it leaves its operands where they are.
-/
import Db3w.Hb.Value

namespace Db3w.Hb

/-- A comparison of strings, one of them empty, with NULL ON. -/
def NullCmp (set : Settings) (op : Nat) (opnd1 opnd2 : HbVal) : Prop :=
  set.nullOn = true ∧ isRelop op = true ∧ opnd1.typ = CHARCTR ∧ opnd2.typ = CHARCTR ∧ (opnd1.str = [] ∨ opnd2.str = [])

instance (set : Settings) (op : Nat) (a b : HbVal) : Decidable (NullCmp set op a b) := inferInstanceAs (Decidable (_ ∧ _))

/-- The NULL of a relational operator. -/
def nullRel (op : Nat) : HbVal := if op = TQUESTN then .number .null else .logic none

/-- No value that an operator makes is longer. -/
abbrev VALMAX : Nat := MAXSTRLEN + 2

/-- A part of an operator that ends by pushing a value that does not depend on the stack, or in an error. -/
def Pushes (f : Nat → Stack → Except HbErr Stack) : Prop :=
  ∃ r : Except HbErr HbVal, (∀ v, r = .ok v → v.size ≤ VALMAX) ∧ ∀ cap st, f cap st = r.bind fun v => push cap v st

/-! ## Values -/

theorem HbVal.size_pos (v : HbVal) : 2 ≤ v.size := by
  cases v with
  | logic b => cases b <;> simp [HbVal.size]
  | number n => cases n <;> simp [HbVal.size]
  | date d => cases d <;> simp [HbVal.size]
  | charctr s => simp [HbVal.size]
  | other t buf => cases t <;> simp [HbVal.size]

theorem HbVal.logic_size (b : Option Bool) : (HbVal.logic b).size ≤ VALMAX := by
  cases b <;> simp [HbVal.size]

theorem HbVal.number_size (n : Num) : (HbVal.number n).size ≤ VALMAX := by
  cases n <;> simp [HbVal.size]

theorem HbVal.date_size (d : Option UInt32) : (HbVal.date d).size ≤ VALMAX := by
  cases d <;> simp [HbVal.size]

/-! ## Parts of operators -/

/-- What a pop gives depends on the top value alone, and it takes that value. -/
def Pops {α : Type} (p : Stack → Except HbErr (α × Stack)) : Prop :=
  ∀ v, ∃ r : Except HbErr α, ∀ st, p (v :: st) = r.map fun x => (x, st)

theorem pops_any : Pops popAny := fun v => ⟨.ok v, fun _ => rfl⟩

theorem pops_logic : Pops popLogic := by
  intro v
  cases v with
  | logic b => exact ⟨.ok b, fun _ => rfl⟩
  | _ => exact ⟨.error .invalidType, fun _ => rfl⟩

theorem pops_number : Pops popNumber := by
  intro v
  cases v with
  | number n => exact ⟨.ok n, fun _ => rfl⟩
  | _ => exact ⟨.error .invalidType, fun _ => rfl⟩

theorem pops_date : Pops popDate := by
  intro v
  cases v with
  | date d =>
    cases d with
    | none => exact ⟨.ok .null, fun _ => rfl⟩
    | some d => exact ⟨.ok (.fixed (Int64.ofNat d.toNat) 0), fun _ => rfl⟩
  | _ => exact ⟨.error .invalidType, fun _ => rfl⟩

theorem Pushes.error (e : HbErr) : Pushes fun _ _ => .error e :=
  ⟨.error e, fun _ h => (by cases h), fun _ _ => rfl⟩

theorem Pushes.push {v : HbVal} (h : v.size ≤ VALMAX) : Pushes fun cap st => Hb.push cap v st :=
  ⟨.ok v, fun _ hv => (by cases hv; exact h), fun _ _ => rfl⟩

/-- A value made of something computed from the operands. -/
theorem Pushes.bind {α : Type} (x : Except HbErr α) {g : α → HbVal} (h : ∀ a, (g a).size ≤ VALMAX) :
    Pushes fun cap st => x >>= fun a => Hb.push cap (g a) st := by
  cases x with
  | error e => exact .error e
  | ok a => exact .push (h a)

/-- A pop, and what is done with what it gives. -/
theorem Pushes.pop {α : Type} {p : Stack → Except HbErr (α × Stack)} (hp : Pops p) {v : HbVal} {rest : Stack → Stack}
    {k : Nat → α × Stack → Except HbErr Stack} (h : ∀ x, Pushes fun cap st => k cap (x, rest st)) :
    Pushes fun cap st => p (v :: rest st) >>= k cap := by
  obtain ⟨r, hr⟩ := hp v
  simp only [hr]
  cases r with
  | error e => exact .error e
  | ok x => exact h x

theorem Pushes.pushRel (op : Nat) (tf : Int) : Pushes fun cap st => pushRel cap op tf st := by
  unfold Hb.pushRel
  by_cases h : op = TQUESTN
  · simp only [h, if_true]
    exact .push (HbVal.number_size _)
  · simp only [h, if_false]
    exact .push (HbVal.logic_size _)

/-! ## The operators -/

theorem pushRel_null (cap : Nat) (op : Nat) (st : Stack) :
    pushRel cap op (if op = TQUESTN then -2 else -1) st = push cap (nullRel op) st := by
  unfold pushRel nullRel
  split <;> rfl

theorem bop_nullCmp {set : Settings} {op : Nat} {a b : HbVal} (h : NullCmp set op a b) (cap : Nat) (st : Stack) :
    bop set cap op (a :: b :: st) = push cap (nullRel op) (a :: b :: st) := by
  obtain ⟨hnull, hrel, ha, hb, hlen⟩ := h
  have hor : op ≠ TOR := by
    rintro rfl
    exact absurd hrel (by decide)
  have hand : op ≠ TAND := by
    rintro rfl
    exact absurd hrel (by decide)
  cases a with
  | charctr p =>
    have hmin : min p.length b.str.length = 0 := by
      rcases hlen with hlen | hlen
      · rw [show p = [] from hlen]
        exact Nat.zero_min _
      · rw [hlen]
        exact Nat.min_zero _
    unfold bop bopRel
    dsimp only
    rw [if_neg fun h => h.1 (ha.trans hb.symm), if_neg hor, if_neg hand, if_pos hrel, if_pos ⟨hnull, hmin⟩]
    exact pushRel_null cap op _
  | other t buf => cases t <;> cases ha
  | _ => cases ha

section Branches

variable {set : Settings} {op : Nat} {a b : HbVal}

theorem bopOr_pushes (a b : HbVal) : Pushes fun cap st => bopOr cap (a :: b :: st) := by
  unfold bopOr
  refine .pop pops_logic fun l1 => ?_
  dsimp only
  refine .pop pops_logic fun l2 => ?_
  cases l1 <;> cases l2 <;> exact .push (HbVal.logic_size _)

theorem bopAnd_pushes (a b : HbVal) : Pushes fun cap st => bopAnd cap (a :: b :: st) := by
  unfold bopAnd
  refine .pop pops_logic fun l1 => ?_
  dsimp only
  refine .pop pops_logic fun l2 => ?_
  cases l1 <;> cases l2 <;> exact .push (HbVal.logic_size _)

theorem bopRel_pushes (hmis : ¬Mismatch a b) (hrel : isRelop op = true) (h : ¬NullCmp set op a b) :
    Pushes fun cap st => bopRel set cap op a b (a :: b :: st) := by
  unfold bopRel
  cases a with
  | number n =>
    refine .pop pops_number fun n1 => ?_
    dsimp only
    refine .pop pops_number fun n2 => ?_
    dsimp only
    exact .pushRel op _
  | date d =>
    refine .pop pops_date fun n1 => ?_
    dsimp only
    refine .pop pops_date fun n2 => ?_
    dsimp only
    exact .pushRel op _
  | charctr p =>
    have hb : b.typ = CHARCTR := by
      by_contra hb
      exact hmis ⟨fun h => hb h.symm, fun h => by cases h.2.1⟩
    have hlen : ¬(set.nullOn = true ∧ min p.length b.str.length = 0) := by
      rintro ⟨hnull, hmin⟩
      refine h ⟨hnull, hrel, rfl, hb, ?_⟩
      rcases Nat.min_eq_zero_iff.mp hmin with h0 | h0
      · exact .inl (List.length_eq_zero_iff.mp h0)
      · exact .inr (List.length_eq_zero_iff.mp h0)
    dsimp only
    simp only [if_neg hlen]
    refine .pop pops_any fun _ => .pop pops_any fun _ => ?_
    dsimp only
    exact .pushRel op _
  | _ => exact .error _

theorem bopAdd_pushes (op : Nat) (a b : HbVal) : Pushes fun cap st => bopAdd cap op a b (a :: b :: st) := by
  unfold bopAdd
  cases a with
  | number n =>
    refine .pop pops_number fun n1 => ?_
    by_cases hd : b.typ = DATE
    · simp only [if_pos hd]
      refine .pop pops_date fun n2 => ?_
      dsimp only
      exact .bind _ fun _ => HbVal.date_size _
    · simp only [if_neg hd]
      refine .pop pops_number fun n2 => ?_
      dsimp only
      exact .bind _ fun _ => HbVal.number_size _
  | charctr p =>
    dsimp only
    by_cases hplus : op ≠ TPLUS
    · simp only [if_pos hplus]
      exact .error _
    by_cases hlong : p.length + b.str.length > MAXSTRLEN
    · simp only [if_neg hplus, if_pos hlong]
      exact .error _
    simp only [if_neg hplus, if_neg hlong]
    refine .pop pops_any fun _ => .pop pops_any fun _ => .push ?_
    show (b.str ++ p).length + 2 ≤ MAXSTRLEN + 2
    rw [List.length_append]
    omega
  | date d =>
    refine .pop pops_date fun n1 => ?_
    by_cases hd : b.typ = DATE
    · simp only [if_pos hd]
      by_cases hminus : op ≠ TMINUS
      · simp only [if_pos hminus]
        exact .error _
      · simp only [if_neg hminus]
        refine .pop pops_date fun n2 => ?_
        dsimp only
        exact .bind _ fun _ => HbVal.number_size _
    · simp only [if_neg hd]
      refine .pop pops_number fun n2 => ?_
      dsimp only
      exact .bind _ fun _ => HbVal.date_size _
  | _ => exact .error _

theorem bopMul_pushes (op : Nat) (a b : HbVal) : Pushes fun cap st => bopMul cap op (a :: b :: st) := by
  unfold bopMul
  refine .pop pops_number fun n1 => ?_
  dsimp only
  refine .pop pops_number fun n2 => ?_
  dsimp only
  exact .bind _ fun _ => HbVal.number_size _

theorem bopPower_pushes (a b : HbVal) : Pushes fun cap st => bopPower cap (a :: b :: st) := by
  unfold bopPower
  refine .pop pops_number fun n1 => ?_
  dsimp only
  refine .pop pops_number fun n2 => ?_
  cases n1 <;> cases n2 <;> dsimp only <;> exact .push (HbVal.number_size _)

/-- All other binary operators replace their two operands. -/
theorem bop_pushes (h : ¬NullCmp set op a b) : Pushes fun cap st => bop set cap op (a :: b :: st) := by
  unfold bop
  dsimp only
  by_cases hmis : Mismatch a b
  · simp only [if_pos hmis]
    exact .error _
  simp only [if_neg hmis]
  by_cases hor : op = TOR
  · simp only [if_pos hor]
    exact bopOr_pushes a b
  simp only [if_neg hor]
  by_cases hand : op = TAND
  · simp only [if_pos hand]
    exact bopAnd_pushes a b
  simp only [if_neg hand]
  by_cases hrel : isRelop op = true
  · simp only [if_pos hrel]
    exact bopRel_pushes hmis hrel h
  simp only [if_neg hrel]
  by_cases hadd : isAddop op = true
  · simp only [if_pos hadd]
    exact bopAdd_pushes op a b
  simp only [if_neg hadd]
  by_cases hmul : isMulop op = true
  · simp only [if_pos hmul]
    exact bopMul_pushes op a b
  simp only [if_neg hmul]
  by_cases hpow : op = TPOWER
  · simp only [if_pos hpow]
    exact bopPower_pushes a b
  · simp only [if_neg hpow]
    exact .error _

end Branches

/-! ## The operators on values -/

/-- The value on top. -/
def topVal : Stack → Except HbErr HbVal
  | v :: _ => .ok v
  | [] => .error .stackFault

/-- What a binary operator makes of two values: `bop` with them alone on the stack, and room. -/
def binValue (set : Settings) (op : Nat) (l r : HbVal) : Except HbErr HbVal :=
  (bop set (Stack.bytes [r, l] + VALMAX) op [r, l]).bind topVal

/-- What a prefix operator makes of a value. -/
def unValue (op : Nat) (v : HbVal) : Except HbErr HbVal := (uop (Stack.bytes [v] + VALMAX) op [v]).bind topVal

theorem Pushes.eq_of_top {f : Nat → Stack → Except HbErr Stack} (h : Pushes f) {c : Nat} (hc : VALMAX ≤ c) (cap : Nat) (st : Stack) :
    f cap st = ((f c []).bind topVal).bind fun v => Hb.push cap v st := by
  obtain ⟨r, hr, hf⟩ := h
  rw [hf, hf]
  cases r with
  | error e => rfl
  | ok v =>
    have hv : ¬(Stack.bytes [] + v.size > c) := by
      have := hr v rfl
      simp only [Stack.bytes, List.map_nil, List.sum_nil]
      omega
    show Hb.push cap v st = ((Hb.push c v []).bind topVal).bind fun v => Hb.push cap v st
    rw [show Hb.push c v [] = .ok [v] from if_neg hv]
    rfl

theorem bop_eq {set : Settings} {op : Nat} {l r : HbVal} (h : ¬NullCmp set op r l) (cap : Nat) (st : Stack) :
    bop set cap op (r :: l :: st) = (binValue set op l r).bind fun v => push cap v st :=
  (bop_pushes h).eq_of_top (Nat.le_add_left _ _) cap st

theorem binValue_nullCmp {set : Settings} {op : Nat} {l r : HbVal} (h : NullCmp set op r l) : binValue set op l r = .ok (nullRel op) := by
  have hs : (nullRel op).size ≤ VALMAX := by
    unfold nullRel
    split
    · exact HbVal.number_size _
    · exact HbVal.logic_size _
  unfold binValue
  rw [bop_nullCmp h, show push (Stack.bytes [r, l] + VALMAX) (nullRel op) [r, l] = .ok [nullRel op, r, l] from if_neg (by omega)]
  rfl

theorem uop_eq {cap : Nat} (op : Nat) {v : HbVal} {st : Stack} (hst : Stack.bytes (v :: st) ≤ cap) :
    uop cap op (v :: st) = (unValue op v).bind fun v => push cap v st := by
  have hbytes : Stack.bytes (v :: st) = v.size + st.bytes := List.sum_cons
  by_cases hnot : op = TNOT
  · have h : Pushes fun cap st => uop cap op (v :: st) := by
      unfold uop
      simp only [if_pos hnot]
      refine .pop pops_logic fun tf => ?_
      dsimp only
      exact .push (HbVal.logic_size _)
    exact h.eq_of_top (Nat.le_add_left _ _) cap st
  by_cases hminus : op = TMINUS
  · have h : Pushes fun cap st => uop cap op (v :: st) := by
      unfold uop
      simp only [if_neg hnot, if_pos hminus]
      refine .pop pops_number fun num => ?_
      cases num <;> dsimp only <;> exact .push (HbVal.number_size _)
    exact h.eq_of_top (Nat.le_add_left _ _) cap st
  unfold unValue uop
  rw [if_neg hnot, if_neg hminus, if_neg hnot, if_neg hminus]
  by_cases hplus : op = TPLUS
  · rw [if_pos hplus, if_pos hplus]
    dsimp only
    split
    · rfl
    · -- the operand stays as it is
      show .ok (v :: st) = push cap v st
      exact (if_neg (by omega)).symm
  · rw [if_neg hplus, if_neg hplus]
    rfl

end Db3w.Hb
