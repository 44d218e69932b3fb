/-
What a relational operator says of two values of one type: `bop` on numbers, dates and strings, for the
operators that end in a logical value. A string is compared over the length of the shorter one, and with EXACT
on a difference of the lengths decides behind that.
-/
import Db3w.Hb.Operator

namespace Db3w.Hb

/-- What `push_logic` makes of the outcome of a comparison; -1 is NULL. -/
def relLogic (tf : Int) : Option Bool := if tf < 0 then none else some (tf ≠ 0)

/-- The outcome of comparing strings, against 0. -/
def textDiff (exactOn : Bool) (a b : List UInt8) : Int :=
  let i := strDiff (min b.length a.length) a b
  if i = 0 ∧ exactOn then (a.length : Int) - b.length else i

/-- `pop_date`, of the value. -/
def dateNum : Option UInt32 → Num
  | none => .null
  | some d => .fixed (Int64.ofNat d.toNat) 0

/-- The operator holds of the two values. -/
def Holds (set : Settings) (op : Nat) (l r : HbVal) : Prop := binValue set op l r = .ok (.logic (some true))

variable {set : Settings} {op : Nat}

/-- The operators that end in a logical value. -/
structure LogicRel (op : Nat) : Prop where
  rel : isRelop op = true
  ne : op ≠ TQUESTN

theorem LogicRel.not_tor (h : LogicRel op) : op ≠ TOR := by
  rintro rfl
  exact absurd h.rel (by decide)

theorem LogicRel.not_tand (h : LogicRel op) : op ≠ TAND := by
  rintro rfl
  exact absurd h.rel (by decide)

theorem logicRel_tequal : LogicRel TEQUAL := ⟨by decide, by decide⟩

/-- The value that is left on a stack with room. -/
theorem pushRel_room (h : LogicRel op) (tf : Int) {cap : Nat} (hcap : VALMAX ≤ cap) :
    (pushRel cap op tf []).bind topVal = .ok (.logic (relLogic tf)) := by
  have hsize := HbVal.logic_size (relLogic tf)
  have hroom : ¬Stack.bytes [] + (HbVal.logic (relLogic tf)).size > cap := by
    simp only [Stack.bytes, List.map_nil, List.sum_nil]
    omega
  rw [pushRel, if_neg h.ne, push]
  exact (congrArg (fun x => Except.bind x topVal) (if_neg hroom)).trans rfl

theorem bop_rel (h : LogicRel op) {a b : HbVal} (ht : a.typ = b.typ) (cap : Nat) : bop set cap op [b, a] = bopRel set cap op b a [b, a] := by
  rw [bop, if_neg fun hm => hm.1 ht.symm, if_neg h.not_tor, if_neg h.not_tand, if_pos h.rel]

theorem binValue_number (h : LogicRel op) (m n : Num) :
    binValue set op (.number m) (.number n) = .ok (.logic (relLogic (numRel m n op))) := by
  rw [binValue, bop_rel (a := .number m) (b := .number n) h rfl]
  exact pushRel_room h _ (Nat.le_add_left _ _)

theorem binValue_date (h : LogicRel op) (d e : Option UInt32) :
    binValue set op (.date d) (.date e) = .ok (.logic (relLogic (numRel (dateNum d) (dateNum e) op))) := by
  rw [binValue, bop_rel (a := .date d) (b := .date e) h rfl]
  cases d <;> cases e <;> exact pushRel_room h _ (Nat.le_add_left _ _)

theorem binValue_charctr (h : LogicRel op) {a b : List UInt8} (ha : a ≠ []) (hb : b ≠ []) :
    binValue set op (.charctr a) (.charctr b) =
      .ok (.logic (relLogic (relOf op (0 < textDiff set.exactOn a b) (textDiff set.exactOn a b < 0)))) := by
  have hlen : min b.length a.length ≠ 0 := by
    have := List.length_pos_of_ne_nil ha
    have := List.length_pos_of_ne_nil hb
    omega
  rw [binValue, bop_rel (a := .charctr a) (b := .charctr b) h rfl, bopRel]
  simp only [HbVal.str, hlen, and_false, if_false]
  exact pushRel_room h _ (Nat.le_add_left _ _)

/-! ## Numbers -/

/-- Numbers with the same decimals are equal exactly if their numerators are. -/
theorem numRel_tequal (m n : Int64) (d : Nat) : numRel (.fixed m d) (.fixed n d) TEQUAL = (decide (m = n)).toInt := by
  have hz : (!decide (0 < m - n) && !decide (m - n < 0)) = decide (m = n) := by
    rw [Bool.eq_iff_iff]
    simp only [Bool.and_eq_true, Bool.not_eq_true', decide_eq_false_iff_not, decide_eq_true_iff, Int64.not_lt]
    constructor
    · rintro ⟨h1, h2⟩
      have h := Int64.sub_eq_iff_eq_add.mp (Int64.le_antisymm h1 h2)
      rwa [Int64.zero_add] at h
    · rintro rfl
      simp
  unfold numRel
  simp only [gt_iff_lt, lt_self_iff_false, if_false, Nat.sub_self, power10, Int64.mul_one]
  exact congrArg Bool.toInt hz

theorem relLogic_tequal (b : Bool) : relLogic b.toInt = some b := by cases b <;> rfl

/-! ## Text -/

/-- Two texts of one length differ nowhere exactly if they are the same. -/
theorem strDiff_eq_zero {n : Nat} {a b : List UInt8} (ha : n ≤ a.length) (hb : n ≤ b.length) : strDiff n a b = 0 ↔ a.take n = b.take n := by
  induction n generalizing a b with
  | zero => simp [strDiff]
  | succ n ih =>
    obtain ⟨c, a, rfl⟩ := List.exists_cons_of_length_pos (Nat.zero_lt_of_lt ha)
    obtain ⟨d, b, rfl⟩ := List.exists_cons_of_length_pos (Nat.zero_lt_of_lt hb)
    rw [strDiff, List.take_succ_cons, List.take_succ_cons]
    by_cases hcd : c = d
    · rw [if_pos hcd, ih (Nat.le_of_succ_le_succ ha) (Nat.le_of_succ_le_succ hb), hcd]
      simp
    · have hne : (c.toNat : Int) - d.toNat ≠ 0 := by
        intro h0
        exact hcd (UInt8.toNat_inj.mp (by omega))
      simp [hcd, hne]

/-- The difference the other way round. -/
theorem strDiff_swap (n : Nat) (a b : List UInt8) : strDiff n a b = -strDiff n b a := by
  induction n generalizing a b with
  | zero => rfl
  | succ n ih =>
    cases a with
    | nil => cases b <;> rfl
    | cons c a =>
      cases b with
      | nil => rfl
      | cons d b =>
        rw [strDiff, strDiff]
        by_cases hcd : c = d
        · rw [if_pos hcd, if_pos hcd.symm, ih]
        · rw [if_neg hcd, if_neg fun h => hcd h.symm]
          omega

/-- Over the length of the shorter one two texts differ nowhere exactly if one is a part of the other in front. -/
theorem strDiff_prefix {a b : List UInt8} : strDiff (min b.length a.length) a b = 0 ↔ a <+: b ∨ b <+: a := by
  rw [strDiff_eq_zero (Nat.min_le_right _ _) (Nat.min_le_left _ _)]
  rcases le_total a.length b.length with h | h
  · rw [Nat.min_eq_right h, List.take_length]
    constructor
    · intro he
      exact .inl (List.prefix_iff_eq_take.mpr he)
    · rintro (hp | hp)
      · exact List.prefix_iff_eq_take.mp hp
      · rw [hp.eq_of_length (by have := hp.length_le; omega), List.take_length]
  · rw [Nat.min_eq_left h, List.take_length]
    constructor
    · intro he
      exact .inr (List.prefix_iff_eq_take.mpr he.symm)
    · rintro (hp | hp)
      · rw [hp.eq_of_length (by have := hp.length_le; omega), List.take_length]
      · exact (List.prefix_iff_eq_take.mp hp).symm

theorem textDiff_swap (exactOn : Bool) (a b : List UInt8) : textDiff exactOn a b = -textDiff exactOn b a := by
  unfold textDiff
  dsimp only
  rw [strDiff_swap, Nat.min_comm]
  by_cases h : strDiff (min a.length b.length) b a = 0
  · cases exactOn
    · simp [h]
    · simp [h]
  · simp [h]

theorem textDiff_self (exactOn : Bool) (a : List UInt8) : textDiff exactOn a a = 0 := by
  have h := textDiff_swap exactOn a a
  omega

/-- With EXACT on only the same text is equal. -/
theorem textDiff_exact {a b : List UInt8} : textDiff true a b = 0 ↔ a = b := by
  unfold textDiff
  dsimp only
  constructor
  · intro h
    by_cases hd : strDiff (min b.length a.length) a b = 0
    · rw [if_pos ⟨hd, rfl⟩] at h
      have hlen : a.length = b.length := by omega
      rw [strDiff_eq_zero (Nat.min_le_right _ _) (Nat.min_le_left _ _), hlen, Nat.min_self, List.take_length, ← hlen, List.take_length] at hd
      exact hd
    · rw [if_neg fun hh => hd hh.1] at h
      exact absurd h hd
  · rintro rfl
    have h0 : strDiff a.length a a = 0 := (strDiff_eq_zero le_rfl le_rfl).mpr rfl
    simp [h0]

end Db3w.Hb
