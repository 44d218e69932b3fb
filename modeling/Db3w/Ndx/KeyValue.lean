/-
Keys made of values. `ndx_get_key` encodes what the key expression yields on a record, and `find`
what is looked for; both write into a buffer on the stack that they do not clear. The two encodings
compare as equal for the numbers, for the dates of less than 16 bits and for the character values as
wide as the key. What is shorter leaves bytes of the stored key as they were, and `find` reads a
composite key as a character key.
-/
import Db3w.Lib.Binary64
import Db3w.Ndx.Header
import Db3w.Ndx.Seek

namespace Db3w

open Bytes

/-- A finite double in memory. -/
abbrev DoubleVal := {p : Key // p.length = 8 ∧ IsFinite p}

/-- A value on the stack, an `HBVAL`. A number is a double or has a fixed number of decimals; `other`
are the values no key is made of. -/
inductive HbVal where
  | null (typ : ValTyp)
  | charctr (s : List UInt8)
  | date (d : UInt32)
  | real (x : DoubleVal)
  | fixed (n : Int64) (deci : Nat)
  | other (typ : ValTyp) (len : Nat) (h : typ.keyTyp = none)

def HbVal.typ : HbVal → ValTyp
  | null typ => typ
  | charctr _ => .charctr
  | date _ => .date
  | real _ => .number
  | fixed _ _ => .number
  | other typ _ _ => typ

/-- `REAL`, the decimals of a double. -/
def REAL : Nat := 0x3f

/-- `valspec.len`; of a number it takes in the bits of the decimals. -/
def HbVal.len : HbVal → Nat
  | null _ => 0
  | charctr s => s.length
  | date _ => 4
  | real _ => 8 + 64 * REAL
  | fixed _ deci => 8 + 64 * deci
  | other _ len _ => len

/-- `put_double` of what the argument is converted to. -/
def putDouble (x : ℚ) : Key := word 8 (Binary64.ofRat x)

/-- The double of a number with decimals: both operands are converted, and then the quotient. -/
def fixedDouble (n : Int64) (deci : Nat) : Key :=
  putDouble (readDouble (putDouble n.toInt) / readDouble (putDouble (power10 deci).toInt))

/-- `get_word` on the four bytes of a date. -/
def getWord (d : UInt32) : Nat := d.toNat % 2 ^ 16

def getDate (d : UInt32) : Nat := d.toNat

/-! ## The encoders -/

/-- The values that both encoders make the same key of. -/
def HbVal.Whole (keylen : Nat) : HbVal → Prop
  | charctr s => s.length = keylen
  | date d => d.toNat < 2 ^ 16
  | _ => True

/-! ## Numbers and dates -/

theorem isequal_self (r : ℚ) : isequal r r = true := by simp [isequal]

/-- The bytes that a value has in a stored key. -/
def HbVal.bytes : HbVal → Key
  | charctr s => s
  | date d => putDouble (getDate d)
  | real x => x.1
  | fixed n deci => fixedDouble n deci
  | _ => []

section Single

variable {hd : IdxHdr} {exactOn : Bool} {mode : Option RelOp} {v : HbVal} {typ : KeyTyp}

end Single

section Single

variable {hd : IdxHdr} {exactOn : Bool} {mode : Option RelOp}

end Single

end Db3w
