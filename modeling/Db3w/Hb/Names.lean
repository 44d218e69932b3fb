/-
Comparison of names. A name that is looked up is compared with a known one over the length the caller
gives; the kind of name decides whether case counts and whether the known name may be longer.
-/
import Mathlib.Tactic

namespace Db3w

/-- A C string without its terminator. -/
abbrev Str := List Char

def KEYWORD : Nat := 0
/-- The name of a variable or a field. -/
def ID_VNAME : Nat := 1
/-- A file name or an alias. -/
def ID_FNAME : Nat := 2

def VNAMELEN : Nat := 20

/-- `chgcase(str, 1)`. -/
def chgcase (s : Str) : Str := s.map Char.toUpper

/-- What a pointer into a C string reads. -/
def chr : Str → Char
  | [] => '\x00'
  | c :: _ => c

/-- The loop of `namecmp`, for the types other than `ID_PARTIAL`. -/
def namecmpLoop (type : Nat) : Nat → Str → Str → Int
  | 0, src, _ => if type = ID_VNAME ∨ type = ID_FNAME then (chr src).toNat else 0
  | len + 1, src, tgt =>
    if chr src = '*' ∨ chr src = '?' then -1
    else
      let s := if type = ID_FNAME then chr src else (chr src).toUpper
      let t := if type = ID_FNAME then chr tgt else (chr tgt).toUpper
      if s = t then namecmpLoop type len src.tail tgt.tail else (s.toNat : Int) - t.toNat

/-- `namecmp`, for the types other than `ID_PARTIAL`. -/
def namecmp (src tgt : Str) (len type : Nat) : Int :=
  namecmpLoop (if type = KEYWORD ∧ len < 4 then ID_VNAME else type) len src tgt

/-! ## Text -/

/-- A text as C can hold it: the terminator is not in it. -/
def IsStr (s : Str) : Prop := '\x00' ∉ s

/-- A text that a command hands on. -/
structure CStr where
  chars : Str
  isStr : IsStr chars

/-- No name that is looked up may hold a wildcard. -/
def NoWild (s : Str) : Prop := ∀ c ∈ s, c ≠ '*' ∧ c ≠ '?'

theorem toNat_toUpper (c : Char) : c.toUpper.toNat = if 97 ≤ c.toNat ∧ c.toNat ≤ 122 then c.toNat - 32 else c.toNat := by
  have h1 : 'a'.val ≤ c.val ↔ 97 ≤ c.toNat := UInt32.le_iff_toNat_le
  have h2 : c.val ≤ 'z'.val ↔ c.toNat ≤ 122 := UInt32.le_iff_toNat_le
  unfold Char.toUpper
  by_cases h : 'a'.val ≤ c.val ∧ c.val ≤ 'z'.val
  · rw [dif_pos h, if_pos ⟨h1.mp h.1, h2.mp h.2⟩]
    have h3 := h1.mp h.1
    show (c.val + ('A'.val - 'a'.val)).toNat = c.val.toNat - 32
    rw [UInt32.toNat_add, show ('A'.val - 'a'.val).toNat = 2 ^ 32 - 32 from rfl]
    have h4 : 97 ≤ c.val.toNat := h3
    have h5 : c.val.toNat < 2 ^ 32 := UInt32.toNat_lt _
    omega
  · rw [dif_neg h, if_neg (by rwa [h1, h2] at h)]

theorem toUpper_toUpper (c : Char) : c.toUpper.toUpper = c.toUpper := by
  apply Char.toNat_inj.mp
  rw [toNat_toUpper, toNat_toUpper c]
  by_cases h : 97 ≤ c.toNat ∧ c.toNat ≤ 122
  · rw [if_pos h, if_neg (by omega)]
  · rw [if_neg h, if_neg h]

theorem toUpper_ne_nul {c : Char} (h : c ≠ '\x00') : c.toUpper ≠ '\x00' := by
  intro hc
  have h0 : c.toNat ≠ 0 := fun h0 => h (Char.toNat_inj.mp h0)
  have hn := congrArg Char.toNat hc
  rw [toNat_toUpper, show ('\x00' : Char).toNat = 0 from rfl] at hn
  split at hn <;> omega

@[simp] theorem chgcase_nil : chgcase [] = [] := rfl
@[simp] theorem chgcase_cons (c : Char) (s : Str) : chgcase (c :: s) = c.toUpper :: chgcase s := rfl
@[simp] theorem chgcase_append (s t : Str) : chgcase (s ++ t) = chgcase s ++ chgcase t := List.map_append
@[simp] theorem chgcase_length (s : Str) : (chgcase s).length = s.length := List.length_map ..

@[simp] theorem chgcase_eq_nil {s : Str} : chgcase s = [] ↔ s = [] := List.map_eq_nil_iff

@[simp] theorem chgcase_chgcase (s : Str) : chgcase (chgcase s) = chgcase s := by
  unfold chgcase
  rw [List.map_map]
  exact List.map_congr_left fun c _ => toUpper_toUpper c

/-! ## What the comparison decides -/

section Loop

variable {type : Nat} {s t : Str}

theorem sub_toNat_ne_zero {c d : Char} (h : c ≠ d) : (c.toNat : Int) - d.toNat ≠ 0 := by
  intro h0
  exact h (Char.toNat_inj.mp (by omega))

theorem namecmpLoop_cons (h2 : type ≠ ID_FNAME) (len : Nat) (c : Char) (s t : Str) :
    namecmpLoop type (len + 1) (c :: s) t = if c = '*' ∨ c = '?' then -1
      else if c.toUpper = (chr t).toUpper then namecmpLoop type len s t.tail else (c.toUpper.toNat : Int) - (chr t).toUpper.toNat := by
  have h : namecmpLoop type (len + 1) (c :: s) t = if c = '*' ∨ c = '?' then -1
      else if (if type = ID_FNAME then c else c.toUpper) = (if type = ID_FNAME then chr t else (chr t).toUpper)
        then namecmpLoop type len s t.tail
        else ((if type = ID_FNAME then c else c.toUpper).toNat : Int) - (if type = ID_FNAME then chr t else (chr t).toUpper).toNat := rfl
  rw [h, if_neg h2, if_neg h2]

/-- Where case does not count and the known name may be longer, the looked up name is a beginning of it. -/
theorem namecmpLoop_prefix (hs : IsStr s) (h1 : type ≠ ID_VNAME) (h2 : type ≠ ID_FNAME) :
    namecmpLoop type s.length s t = 0 ↔ NoWild s ∧ chgcase s <+: chgcase t := by
  induction s generalizing t with
  | nil => simp [namecmpLoop, h1, h2, NoWild]
  | cons c s ih =>
    have hc : c ≠ '\x00' := fun h => hs (by simp [h])
    have hs' : IsStr s := fun h => hs (List.mem_cons_of_mem _ h)
    rw [List.length_cons, namecmpLoop_cons h2]
    by_cases hw : c = '*' ∨ c = '?'
    · rw [if_pos hw]
      refine iff_of_false (by decide) fun h => ?_
      have hcw := h.1 c List.mem_cons_self
      rcases hw with hw | hw
      · exact hcw.1 hw
      · exact hcw.2 hw
    rw [if_neg hw]
    push Not at hw
    have hwild : NoWild (c :: s) ↔ NoWild s :=
      ⟨fun h d hd => h d (List.mem_cons_of_mem _ hd), fun h d hd => (List.mem_cons.mp hd).elim (fun e => e ▸ hw) (h d)⟩
    rw [hwild]
    cases t with
    | nil =>
      -- the known name has ended
      have hne : c.toUpper ≠ (chr []).toUpper := toUpper_ne_nul hc
      rw [if_neg hne]
      exact iff_of_false (sub_toNat_ne_zero hne) fun h => by simpa using h.2
    | cons d t =>
      rw [show chr (d :: t) = d from rfl, List.tail_cons, chgcase_cons, chgcase_cons, List.cons_prefix_cons]
      by_cases hd : c.toUpper = d.toUpper
      · rw [if_pos hd, ih hs', hd]
        simp
      · rw [if_neg hd]
        exact iff_of_false (sub_toNat_ne_zero hd) fun h => hd h.2.1

end Loop

end Db3w
