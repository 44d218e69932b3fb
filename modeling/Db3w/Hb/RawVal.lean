/-
Values as they lie in memory: sixteen bits with the type and the length, and the bytes. Numbers use
the upper six bits of the length for their decimals, so that the length that is read depends on the
type. A value read where one was written is that value.
-/
import Mathlib.Tactic

namespace Db3w.Hb

abbrev ADDR : Nat := 8
abbrev ARRAYTYP : Nat := 9
abbrev UNDEF : Nat := 15

/-- `val_size`, of a value with this `valspec`. -/
def valSize (typ len : Nat) : Nat :=
  if len = 0 then 2
  else if typ = 0 then 2
  else if typ = 1 then 3
  else if typ = 2 then len % 64 + 2
  else if typ = 3 then 6
  else len + 2

theorem two_le_valSize (typ len : Nat) : 2 ≤ valSize typ len := by
  unfold valSize
  split_ifs <;> omega

/-- `HBVAL`: `typ` and `len` of `valspec`, and the bytes that belong to the value. -/
structure RawVal where
  typ : Nat
  len : Nat
  buf : List UInt8
  typ_lt : typ < 16
  len_lt : len < 4096
  length_buf : buf.length + 2 = valSize typ len
  deriving DecidableEq

namespace RawVal

def size (v : RawVal) : Nat := valSize v.typ v.len

/-- The two bytes of `valspec`. -/
def spec (v : RawVal) : Nat := v.typ + 16 * v.len

/-- The bytes of a value in memory. -/
def bytes (v : RawVal) : List UInt8 := UInt8.ofNat (v.spec % 256) :: UInt8.ofNat (v.spec / 256) :: v.buf

end RawVal

/-- The value that memory begins with, as far as the memory goes. -/
def readVal : List UInt8 → Option RawVal
  | b0 :: b1 :: bs =>
    let spec := b0.toNat + 256 * b1.toNat
    if h : valSize (spec % 16) (spec / 16) ≤ bs.length + 2 then
      some {
        typ := spec % 16
        len := spec / 16
        buf := bs.take (valSize (spec % 16) (spec / 16) - 2)
        typ_lt := Nat.mod_lt _ (by decide)
        len_lt := by
          have := b0.toNat_lt
          have := b1.toNat_lt
          omega
        length_buf := by
          have := two_le_valSize (spec % 16) (spec / 16)
          rw [List.length_take]
          omega }
    else none
  | _ => none

/-- A word of memory. -/
def getWord : List UInt8 → Nat
  | b0 :: b1 :: _ => b0.toNat + 256 * b1.toNat
  | _ => 0

def putWord (n : Nat) : List UInt8 := [UInt8.ofNat (n % 256), UInt8.ofNat (n / 256 % 256)]

namespace RawVal

theorem length_bytes (v : RawVal) : v.bytes.length = v.size := by
  rw [bytes, List.length_cons, List.length_cons, size, ← v.length_buf]

theorem bytes_ne_nil (v : RawVal) : v.bytes ≠ [] := List.cons_ne_nil _ _

theorem size_pos (v : RawVal) : 0 < v.size := by
  have := two_le_valSize v.typ v.len
  unfold size
  omega

theorem readVal_bytes (v : RawVal) (rest : List UInt8) : readVal (v.bytes ++ rest) = some v := by
  have htyp := v.typ_lt
  have hlen := v.len_lt
  have hb0 : (UInt8.ofNat (v.spec % 256)).toNat = v.spec % 256 := by
    rw [UInt8.toNat_ofNat', Nat.mod_mod]
  have hb1 : (UInt8.ofNat (v.spec / 256)).toNat = v.spec / 256 := by
    rw [UInt8.toNat_ofNat', Nat.mod_eq_of_lt]
    unfold spec
    omega
  have hspec : v.spec % 256 + 256 * (v.spec / 256) = v.spec := Nat.mod_add_div _ _
  have ht : v.spec % 16 = v.typ := by
    unfold spec
    omega
  have hl : v.spec / 16 = v.len := by
    unfold spec
    omega
  have hbuf := v.length_buf
  unfold bytes
  rw [List.cons_append, List.cons_append, readVal]
  simp only [hb0, hb1, hspec, ht, hl]
  rw [dif_pos (by rw [List.length_append]; omega)]
  congr 2
  rw [List.take_left']
  omega

end RawVal

end Db3w.Hb
