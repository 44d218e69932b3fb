/-
Decimal numerals as ASCII text: the value of a text of digits, the shortest text of a number, and the
one that is filled up with zeros to a width.
-/
import Mathlib.Tactic

namespace Decimal

def isDigit (c : UInt8) : Bool := 48 ≤ c && c ≤ 57

def digit (d : Nat) : UInt8 := UInt8.ofNat (48 + d)

/-- The number that a text of digits stands for. -/
def value (l : List UInt8) : Nat := l.foldl (fun n c => 10 * n + (c.toNat - 48)) 0

/-- The text of a number. -/
def decimal (n : Nat) : List UInt8 := if n = 0 then [48] else (Nat.digits 10 n).reverse.map digit

/-- The text of a number with zeros in front of it. -/
def padZero (w n : Nat) : List UInt8 := List.replicate (w - (decimal n).length) 48 ++ decimal n

variable {l m : List UInt8} {c : UInt8} {d n w k : Nat}

theorem isDigit_iff : isDigit c = true ↔ 48 ≤ c.toNat ∧ c.toNat ≤ 57 := by
  unfold isDigit
  rw [Bool.and_eq_true, decide_eq_true_iff, decide_eq_true_iff, UInt8.le_iff_toNat_le, UInt8.le_iff_toNat_le]
  rfl

theorem toNat_digit (h : d < 10) : (digit d).toNat = 48 + d := by
  unfold digit
  rw [UInt8.toNat_ofNat']
  omega

theorem isDigit_digit (h : d < 10) : isDigit (digit d) = true := by
  rw [isDigit_iff, toNat_digit h]
  omega

@[simp] theorem value_nil : value [] = 0 := rfl

theorem value_concat (l : List UInt8) (c : UInt8) : value (l ++ [c]) = 10 * value l + (c.toNat - 48) := by
  unfold value
  rw [List.foldl_append]
  rfl

theorem value_append (l m : List UInt8) : value (l ++ m) = value l * 10 ^ m.length + value m := by
  induction m using List.reverseRecOn with
  | nil => simp
  | append_singleton m c ih =>
    rw [← List.append_assoc, value_concat, value_concat, ih, List.length_append, List.length_singleton, pow_succ]
    ring

theorem value_zeros (k : Nat) : value (List.replicate k 48) = 0 := by
  induction k with
  | zero => rfl
  | succ k ih =>
    rw [List.replicate_succ', value_concat, ih]
    rfl

theorem value_lt (h : ∀ c ∈ l, isDigit c = true) : value l < 10 ^ l.length := by
  induction l using List.reverseRecOn with
  | nil => exact Nat.one_pos
  | append_singleton l c ih =>
    have hl := ih fun c hc => h c (List.mem_append_left _ hc)
    have hc := isDigit_iff.mp (h c (List.mem_append_right _ List.mem_cons_self))
    rw [value_concat, List.length_append, List.length_singleton, pow_succ]
    omega

/-! ## The text of a number -/

theorem isDigit_decimal (h : c ∈ decimal n) : isDigit c = true := by
  unfold decimal at h
  split at h
  · rw [List.mem_singleton.mp h]
    rfl
  · obtain ⟨d, hd, rfl⟩ := List.mem_map.mp h
    exact isDigit_digit (Nat.digits_lt_base (by omega) (List.mem_reverse.mp hd))

theorem value_decimal (n : Nat) : value (decimal n) = n := by
  have hdigits : ∀ ds : List Nat, (∀ d ∈ ds, d < 10) → value (ds.reverse.map digit) = Nat.ofDigits 10 ds := by
    intro ds h
    induction ds with
    | nil => rfl
    | cons d ds ih =>
      have hd := toNat_digit (h d List.mem_cons_self)
      rw [List.reverse_cons, List.map_append, List.map_singleton, value_concat, ih fun x hx => h x (List.mem_cons_of_mem _ hx), Nat.ofDigits_cons, hd]
      omega
  unfold decimal
  split
  · rw [‹n = 0›]
    rfl
  · rw [hdigits _ fun d hd => Nat.digits_lt_base (by omega) hd, Nat.ofDigits_digits]

theorem length_decimal_pos (n : Nat) : 0 < (decimal n).length := by
  unfold decimal
  split
  · exact Nat.one_pos
  · rw [List.length_map, List.length_reverse]
    exact List.length_pos_iff.mpr (Nat.digits_ne_nil_iff_ne_zero.mpr ‹_›)

theorem length_decimal_le (hk : 1 ≤ k) : (decimal n).length ≤ k ↔ n < 10 ^ k := by
  unfold decimal
  split
  · rw [‹n = 0›]
    exact iff_of_true hk (by positivity)
  · rw [List.length_map, List.length_reverse]
    exact Nat.digits_length_le_iff (by omega) n

/-! ## Zeros in front -/

theorem isDigit_padZero (h : c ∈ padZero w n) : isDigit c = true := by
  rcases List.mem_append.mp h with h | h
  · rw [List.eq_of_mem_replicate h]
    rfl
  · exact isDigit_decimal h

theorem value_padZero (w n : Nat) : value (padZero w n) = n := by
  rw [padZero, value_append, value_zeros, Nat.zero_mul, Nat.zero_add, value_decimal]

theorem length_padZero (w n : Nat) : (padZero w n).length = max w (decimal n).length := by
  rw [padZero, List.length_append, List.length_replicate]
  omega

theorem length_padZero_eq (hw : 1 ≤ w) (h : n < 10 ^ w) : (padZero w n).length = w := by
  rw [length_padZero, max_eq_left ((length_decimal_le hw).mpr h)]

end Decimal
