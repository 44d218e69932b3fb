/-
Text with character references and line breaks, as a browser reads it: `&name;` and `&#number;` stand for
a character, `<BR>` for the end of a line. The reader is strict: a bracket or a quote that stands for
itself, and a reference or a tag that it does not know, make the text unreadable.
-/
import Db3w.Lib.Decimal

namespace CharRef

open Decimal (isDigit decimal value)

/-- The character that the text of a reference names. -/
def refValue (name : List UInt8) : Option UInt8 :=
  match name with
  | [97, 109, 112] => some 38
  | [108, 116] => some 60
  | [103, 116] => some 62
  | [113, 117, 111, 116] => some 34
  | [97, 112, 111, 115] => some 39
  | 35 :: ds => if !ds.isEmpty && ds.all isDigit then some (UInt8.ofNat (value ds)) else none
  | _ => none

/-- What the reader is in: plain text, or a reference or a tag with what has been read of it. -/
inductive Mode where
  | text
  | ref (name : List UInt8)
  | tag (name : List UInt8)

/-- The characters that do not stand for themselves. -/
def isMarkup (c : UInt8) : Bool := c = 34 || c = 38 || c = 39 || c = 60 || c = 62

def decodeFrom (br : Bool) : Mode → List UInt8 → Option (List UInt8)
  | .text, [] => some []
  | .text, c :: cs =>
    if c = 38 then decodeFrom br (.ref []) cs
    else if c = 60 then decodeFrom br (.tag []) cs
    else if isMarkup c then none
    else (decodeFrom br .text cs).map (c :: ·)
  | .ref _, [] => none
  | .ref name, c :: cs =>
    if c = 59 then (refValue name).bind fun r => (decodeFrom br .text cs).map (r :: ·)
    else decodeFrom br (.ref (name ++ [c])) cs
  | .tag _, [] => none
  | .tag name, c :: cs =>
    if c = 62 then
      if br = true ∧ name = [66, 82] then (decodeFrom br .text cs).map (10 :: ·) else none
    else decodeFrom br (.tag (name ++ [c])) cs

/-- The text that is meant; `br` allows line breaks. -/
def decode (br : Bool) (text : List UInt8) : Option (List UInt8) := decodeFrom br .text text

variable {br : Bool} {c r : UInt8} {name s rest : List UInt8}

@[simp] theorem decode_nil : decode br [] = some [] := rfl

theorem decode_plain (hc : isMarkup c = false) : decode br (c :: rest) = (decode br rest).map (c :: ·) := by
  have hamp : c ≠ 38 := by
    rintro rfl
    cases hc
  have hlt : c ≠ 60 := by
    rintro rfl
    cases hc
  unfold decode
  rw [decodeFrom, if_neg hamp, if_neg hlt, hc, if_neg Bool.false_ne_true]

theorem decodeFrom_ref (hs : 59 ∉ s) :
    decodeFrom br (.ref name) (s ++ 59 :: rest) = (refValue (name ++ s)).bind fun r => (decode br rest).map (r :: ·) := by
  induction s generalizing name with
  | nil =>
    rw [List.nil_append, decodeFrom, if_pos rfl, List.append_nil]
    rfl
  | cons c s ih =>
    obtain ⟨hc, hs⟩ := not_or.mp (List.mem_cons.not.mp hs)
    rw [List.cons_append, decodeFrom, if_neg (Ne.symm hc), ih hs, List.append_assoc, List.singleton_append]

/-- A reference is read as what it names. -/
theorem decode_ref (hs : 59 ∉ s) (hr : refValue s = some r) : decode br (38 :: (s ++ 59 :: rest)) = (decode br rest).map (r :: ·) := by
  unfold decode
  rw [decodeFrom, if_pos rfl, decodeFrom_ref hs, List.nil_append, hr]
  rfl

/-- The number of a character names it. -/
theorem refValue_number (c : UInt8) : refValue (35 :: decimal c.toNat) = some c := by
  have hdigits : (!(decimal c.toNat).isEmpty && (decimal c.toNat).all isDigit) = true := by
    rw [Bool.and_eq_true, List.all_eq_true, Bool.not_eq_true', List.isEmpty_eq_false_iff]
    exact ⟨List.ne_nil_of_length_pos (Decimal.length_decimal_pos _), fun d hd => Decimal.isDigit_decimal hd⟩
  show (if !(decimal c.toNat).isEmpty && (decimal c.toNat).all isDigit then some (UInt8.ofNat (value (decimal c.toNat))) else none) = some c
  rw [if_pos hdigits, Decimal.value_decimal, UInt8.ofNat_toNat]

theorem number_end (c : UInt8) : 59 ∉ (35 :: decimal c.toNat : List UInt8) := by
  intro hmem
  rcases List.mem_cons.mp hmem with h | h
  · cases h
  · exact absurd (Decimal.isDigit_decimal h) (by decide)

theorem decode_break : decode true (60 :: 66 :: 82 :: 62 :: rest) = (decode true rest).map (10 :: ·) := rfl

end CharRef
