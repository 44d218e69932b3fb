/-
The string functions of fcn.c that search and trim: `at`, `occurs` and `trim`. A string is counted and not
ended by a NUL, and a byte outside the operand, or outside the buffer that holds its copy, is an error of its
own here. `occurs` stops before the last place, and `trim` has no bound of its own, so that a string of blanks
only leads it out of its copy.
-/
import Mathlib.Data.List.DropRight
import Db3w.Hb.Code
import Db3w.Hb.Num2str
import Db3w.Lib.Positions

namespace Db3w.Hb

open Positions

/-- An error of the session, or a byte outside of an operand or a buffer. -/
inductive StrErr where
  | err (e : HbErr)
  | outside

abbrev StrM := Except StrErr

def liftStr {α : Type} (x : Except HbErr α) : StrM α := x.mapError .err

/-- `pop_stack(CHARCTR)` and its bytes. -/
def popString (st : Stack) : StrM (List UInt8 × Stack) := do
  let (v, st) ← liftStr (popStack CHARCTR st)
  return (v.str, st)

/-- `push_string`. -/
def pushString (cap : Nat) (s : List UInt8) (st : Stack) : StrM Stack := liftStr (push cap (.charctr s) st)

/-! ## The functions -/

/-- `!memcmp(t, s + i, len)`, with the length of `t`. -/
def memcmpAt (t s : List UInt8) (i : Nat) : StrM Bool :=
  if i + t.length ≤ s.length then .ok (t = (s.drop i).take t.length) else .error .outside

/-- The loop of `at` from `i` on, with `k` places to go. -/
def atLoop (t s : List UInt8) : Nat → Nat → StrM Nat
  | 0, _ => .ok 0
  | k + 1, i => do if ← memcmpAt t s i then return i + 1 else atLoop t s k (i + 1)

/-- `at`: the text looked for lies below the one looked through. -/
def at_ (cap : Nat) (st : Stack) : StrM Stack := do
  let (v1, st) ← popString st
  let (v2, st) ← popString st
  let i ← if v2.length ≤ v1.length then atLoop v2 v1 (v1.length - v2.length + 1) 0 else pure 0
  liftStr (pushInt cap (Int64.ofNat i) st)

/-- The loop of `occurs` from `i` on, with `k` places to go. -/
def occursLoop (t s : List UInt8) : Nat → Nat → Nat → StrM Nat
  | 0, _, times => .ok times
  | k + 1, i, times => do occursLoop t s k (i + 1) (if ← memcmpAt t s i then times + 1 else times)

/-- `occurs`; the loop runs below `n`. -/
def occurs (cap : Nat) (st : Stack) : StrM Stack := do
  let (str2, st) ← popString st
  let (str1, st) ← popString st
  let times ← if str1.length ≤ str2.length then occursLoop str1 str2 (str2.length - str1.length) 0 0 else pure 0
  liftStr (pushInt cap (Int64.ofNat times) st)

/-- `while (*(p-1) == ' ') --p`: how much of the copy is kept. -/
def rtrimLoop (temp : List UInt8) : Nat → StrM Nat
  | 0 => .error .outside
  | p + 1 => if temp[p]? = some BLANK then rtrimLoop temp p else .ok (p + 1)

/-- `while (*p == ' ') ++p`: what is left of the copy. -/
def ltrimLoop : List UInt8 → StrM (List UInt8)
  | [] => .error .outside
  | c :: p => if c = BLANK then ltrimLoop p else .ok (c :: p)

/-- `trim`, through a copy in a buffer of `STRBUFSZ` bytes. -/
def trim (cap : Nat) (dir : Bool) (st : Stack) : StrM Stack := do
  let (s, st) ← popString st
  if STRBUFSZ < s.length then throw .outside
  let r ← if dir then s.take <$> rtrimLoop s s.length else ltrimLoop s
  pushString cap r st

def ltrim (cap : Nat) (st : Stack) : StrM Stack := trim cap false st

def rtrim (cap : Nat) (st : Stack) : StrM Stack := trim cap true st

/-! ## Searching -/

theorem popString_charctr (s : List UInt8) (st : Stack) : popString (.charctr s :: st) = .ok (s, st) := rfl

variable {t s : List UInt8} {i k times : Nat}

theorem memcmpAt_ok (h : i + t.length ≤ s.length) : memcmpAt t s i = .ok (decide (t <+: s.drop i)) := by
  rw [memcmpAt, if_pos h]
  simp only [List.prefix_iff_eq_take]

/-- The loop of `at` stops at the first occurrence. -/
theorem atLoop_eq (h : i + k + t.length ≤ s.length + 1) :
    atLoop t s k i = .ok ((((List.range' i k).filter fun j => t <+: s.drop j).head?.map (· + 1)).getD 0) := by
  induction k generalizing i with
  | zero => rfl
  | succ k ih =>
    rw [atLoop, memcmpAt_ok (by omega), List.range'_succ, List.filter_cons]
    by_cases hp : t <+: s.drop i
    · simp [hp, pure, Except.pure, bind, Except.bind]
    · simp [hp, ih (show i + 1 + k + t.length ≤ s.length + 1 by omega), bind, Except.bind]

/-- The loop of `occurs` counts the occurrences at the places it comes to. -/
theorem occursLoop_eq (h : i + k + t.length ≤ s.length + 1) :
    occursLoop t s k i times = .ok (times + ((List.range' i k).filter fun j => t <+: s.drop j).length) := by
  induction k generalizing i times with
  | zero => rfl
  | succ k ih =>
    rw [occursLoop, memcmpAt_ok (by omega), List.range'_succ, List.filter_cons]
    by_cases hp : t <+: s.drop i
    · simp [hp, ih (show i + 1 + k + t.length ≤ s.length + 1 by omega), bind, Except.bind]
      omega
    · simp [hp, ih (show i + 1 + k + t.length ≤ s.length + 1 by omega), bind, Except.bind]

/-- `at` gives the first position. -/
theorem at_eq (ht : t ≠ []) (cap : Nat) (st : Stack) :
    at_ cap (.charctr s :: .charctr t :: st) = liftStr (pushInt cap (Int64.ofNat (firstPosition t s)) st) := by
  unfold at_
  simp only [popString_charctr, bind, Except.bind]
  by_cases hle : t.length ≤ s.length
  · obtain ⟨n, hn⟩ : ∃ n, s.length = t.length + n := ⟨s.length - t.length, by omega⟩
    have hloop := @atLoop_eq t s 0 (n + 1) (by omega)
    rw [if_pos hle, show s.length - t.length + 1 = n + 1 by omega, hloop, firstPosition, positions_eq ht hn, List.range_eq_range']
  · rw [if_neg hle, firstPosition, positions_of_lt ht (by omega)]
    rfl

/-- `occurs` leaves out an occurrence at the end. -/
theorem occurs_eq (ht : t ≠ []) (cap : Nat) (st : Stack) :
    occurs cap (.charctr s :: .charctr t :: st) = liftStr (pushInt cap (Int64.ofNat ((positions t s).length - if t <:+ s then 1 else 0)) st) := by
  unfold occurs
  simp only [popString_charctr, bind, Except.bind]
  by_cases hle : t.length ≤ s.length
  · obtain ⟨n, hn⟩ : ∃ n, s.length = t.length + n := ⟨s.length - t.length, by omega⟩
    have hloop := @occursLoop_eq t s 0 n 0 (by omega)
    rw [if_pos hle, show s.length - t.length = n by omega, hloop, positions_eq ht hn, List.range_succ, List.filter_append, List.length_append,
      List.range_eq_range', Nat.zero_add]
    have hsuf := prefix_drop_iff hn
    by_cases hp : t <+: s.drop n
    · simp [hp, hsuf.mp hp]
    · simp [hp, mt hsuf.mpr hp]
  · have hsuf : ¬t <:+ s := fun h => hle h.length_le
    rw [if_neg hle, positions_of_lt ht (by omega), if_neg hsuf]
    rfl

/-! ## Trimming -/

/-- There is a byte that stops the loops of `trim`. -/
def Inked (s : List UInt8) : Prop := ∃ c ∈ s, c ≠ BLANK

instance (s : List UInt8) : Decidable (Inked s) := inferInstanceAs (Decidable (∃ c ∈ s, c ≠ BLANK))

@[simp] theorem inked_nil : ¬Inked [] := by simp [Inked]

@[simp] theorem inked_cons {c : UInt8} : Inked (c :: s) ↔ c ≠ BLANK ∨ Inked s := by simp [Inked]

@[simp] theorem inked_append {a b : List UInt8} : Inked (a ++ b) ↔ Inked a ∨ Inked b := by
  induction a with
  | nil => simp
  | cons c a ih => simp [ih, or_assoc]

theorem rtrimLoop_eq {p : Nat} (h : p ≤ s.length) :
    rtrimLoop s p = if Inked (s.take p) then .ok ((s.take p).rdropWhile (· = BLANK)).length else .error .outside := by
  induction p with
  | zero => simp [rtrimLoop]
  | succ p ih =>
    have hlt : p < s.length := h
    rw [rtrimLoop, List.getElem?_eq_getElem hlt, List.take_succ_eq_append_getElem hlt, List.rdropWhile_concat]
    by_cases hb : s[p] = BLANK
    · rw [if_pos (congrArg some hb), ih hlt.le]
      simp [hb]
    · have hi : Inked (s.take p ++ [s[p]]) := inked_append.mpr (.inr (by simp [hb]))
      rw [if_neg fun he => hb (Option.some.inj he), if_pos hi]
      simp [hb, Nat.min_eq_left h]

theorem ltrimLoop_eq : ltrimLoop s = if Inked s then .ok (s.dropWhile (· = BLANK)) else .error .outside := by
  induction s with
  | nil => simp [ltrimLoop]
  | cons c s ih =>
    rw [ltrimLoop]
    by_cases hb : c = BLANK
    · rw [if_pos hb, ih]
      simp [hb]
    · rw [if_neg hb]
      simp [hb]

/-- `rtrim` stays in its copy exactly for a string that fits and has a byte that is not a blank. -/
theorem rtrim_eq (cap : Nat) (st : Stack) :
    rtrim cap (.charctr s :: st) =
      if Inked s ∧ s.length ≤ STRBUFSZ then pushString cap (s.rdropWhile (· = BLANK)) st else .error .outside := by
  unfold rtrim trim
  simp only [popString_charctr, bind, Except.bind, if_true]
  by_cases hlen : STRBUFSZ < s.length
  · rw [if_pos hlen, if_neg fun h => absurd h.2 (by omega)]
    rfl
  · rw [if_neg hlen, rtrimLoop_eq le_rfl, List.take_length]
    by_cases hi : Inked s
    · rw [if_pos hi, if_pos ⟨hi, by omega⟩]
      have hpre := List.prefix_iff_eq_take.mp (List.rdropWhile_prefix _ s : s.rdropWhile (· = BLANK) <+: s)
      simp [← hpre]
    · rw [if_neg hi, if_neg fun h => hi h.1]
      rfl

theorem ltrim_eq (cap : Nat) (st : Stack) :
    ltrim cap (.charctr s :: st) =
      if Inked s ∧ s.length ≤ STRBUFSZ then pushString cap (s.dropWhile (· = BLANK)) st else .error .outside := by
  unfold ltrim trim
  simp only [popString_charctr, bind, Except.bind, Bool.false_eq_true, if_false]
  by_cases hlen : STRBUFSZ < s.length
  · rw [if_pos hlen, if_neg fun h => absurd h.2 (by omega)]
    rfl
  · rw [if_neg hlen, ltrimLoop_eq]
    by_cases hi : Inked s
    · rw [if_pos hi, if_pos ⟨hi, by omega⟩]
    · rw [if_neg hi, if_neg fun h => hi h.1]

/-! ## All four -/

/-- The functions are exact: the number of positions, the first position, and what is left without the blanks. -/
structure ScansRight (t s : List UInt8) : Prop where
  occurs : ∀ cap st, occurs cap (.charctr s :: .charctr t :: st) = liftStr (pushInt cap (Int64.ofNat (positions t s).length) st)
  first : ∀ cap st, at_ cap (.charctr s :: .charctr t :: st) = liftStr (pushInt cap (Int64.ofNat (firstPosition t s)) st)
  rtrim : ∀ cap st, rtrim cap (.charctr s :: st) = pushString cap (s.rdropWhile (· = BLANK)) st
  ltrim : ∀ cap st, ltrim cap (.charctr s :: st) = pushString cap (s.dropWhile (· = BLANK)) st

theorem pushString_ne_outside (cap : Nat) (st : Stack) : pushString cap s st ≠ .error .outside := by
  unfold pushString push
  split_ifs <;> simp [liftStr, Except.mapError]

/-- The number that is pushed is read off a stack with room. -/
theorem pushInt_inj {a b : Int64} (h : liftStr (pushInt 10 a []) = liftStr (pushInt 10 b [])) : a = b := by
  simpa [liftStr, Except.mapError, pushInt, push, Stack.bytes, HbVal.size] using h

theorem ofNat_pred_ne {n : Nat} (h : 0 < n) : Int64.ofNat (n - 1) ≠ Int64.ofNat n := by
  intro he
  have hi := congrArg Int64.toInt he
  rw [Int64.toInt_ofNat', Int64.toInt_ofNat', Int.bmod_eq_bmod_iff_bmod_sub_eq_zero, show ((n - 1 : Nat) : Int) - n = -1 by omega] at hi
  exact absurd hi (by decide)

/-- The functions are exact for a text that does not end with the one looked for, has a byte that is not a blank and
fits the buffer. -/
theorem scansRight_iff (ht : t ≠ []) : ScansRight t s ↔ ¬t <:+ s ∧ Inked s ∧ s.length ≤ STRBUFSZ := by
  constructor
  · rintro ⟨ho, -, hr, -⟩
    constructor
    · intro hsuf
      have hpos : 0 < (positions t s).length := by
        refine List.length_pos_of_mem (mem_positions.mpr ⟨?_, ?_⟩ : s.length - t.length ∈ positions t s)
        · have := hsuf.length_le
          have := List.length_pos_of_ne_nil ht
          omega
        · exact (prefix_drop_iff (by have := hsuf.length_le; omega)).mpr hsuf
      have he := ho 10 []
      rw [occurs_eq ht, if_pos hsuf] at he
      exact ofNat_pred_ne hpos (pushInt_inj he)
    · by_contra hn
      have he := hr 0 []
      rw [rtrim_eq, if_neg hn] at he
      exact pushString_ne_outside _ _ he.symm
  · rintro ⟨hsuf, hkept⟩
    constructor
    · intro cap st
      rw [occurs_eq ht, if_neg hsuf, Nat.sub_zero]
    · exact at_eq ht
    · intro cap st
      rw [rtrim_eq, if_pos hkept]
    · intro cap st
      rw [ltrim_eq, if_pos hkept]

/-- `a` in `ab`. -/
theorem scansRight_iff_ab : ScansRight [97] [97, 98] := (scansRight_iff (by decide)).mpr (by decide)

/-- An occurrence at the end is not counted: `OCCURS("a", "ba")`. -/
theorem scans_fails : ¬ScansRight [97] [98, 97] := by
  rintro ⟨ho, -, -, -⟩
  exact absurd (pushInt_inj (ho 10 [])) (by decide)

end Db3w.Hb
