/-
Index keys and their comparison. A key is the fixed number of bytes its index descriptor gives
it: characters, a double, or a composite of such parts. `keycmp` compares a search target with a
stored key. The comparison is not symmetric for characters: a NUL byte of the target, other than
its first byte, ends the comparison as equal, which is how a partial key matches.
-/
import Db3w.Ndx.Num

namespace Db3w

abbrev Key := List UInt8

/-- The types a key part can have. -/
inductive KeyTyp where
  | charctr | number | date
  deriving DecidableEq, Repr

/-- One part of a composite key. -/
structure Cmbk where
  typ : KeyTyp
  len : Nat
  deriving DecidableEq, Repr

/-- `CMBK`, the key type of a composite index. -/
def CMBK : Nat := 0x100

/-- `NDX_HDR`: what page 0 of an index file and the open index say about the index. The parts of
a composite key are derived from the index expression. -/
structure NdxHdr where
  rootno : Nat
  pagecnt : Nat
  keylen : Nat
  norecpp : Nat
  keytyp : Nat
  cmbkey : List Cmbk
  deriving DecidableEq, Repr

/-- The bytes after the first: a NUL of the target ends the comparison. -/
def skcmpRest : Key → Key → Nat → Int
  | _, _, 0 => 0
  | c1 :: p, c2 :: q, len + 1 =>
    if c1 = 0 then 0 else if c1 > c2 then 1 else if c1 < c2 then -1 else skcmpRest p q len
  | _, _, _ => 0

/-- Compares `len` bytes of a target `p` with a stored key `q`, both at least that long. -/
def skcmp : Key → Key → Nat → Int
  | _, _, 0 => 0
  | c1 :: p, c2 :: q, len + 1 => if c1 > c2 then 1 else if c1 < c2 then -1 else skcmpRest p q len
  | _, _, _ => 0

/-- Compares two doubles. -/
def nkcmp (p q : Key) : Int := numRel (.real (readDouble p)) (.real (readDouble q)) .tquestn

/-- The length of a part of a composite key in the key. -/
def Cmbk.width (k : Cmbk) : Nat := if k.typ = .charctr then k.len else 8

/-- The loop of `keycmp` over the parts of a composite key. -/
def keycmpParts (exactOn : Bool) : List Cmbk → Key → Key → Int
  | [], _, _ => if exactOn then 1 else 0
  | k :: ks, p, q =>
    let r := if k.typ = .charctr then skcmp p q k.len else nkcmp p q
    if r ≠ 0 then r else keycmpParts exactOn ks (p.drop k.width) (q.drop k.width)

/-- Compares a target with a stored key as the index descriptor says. After the last part of a
composite key the part counter equals the number of parts, which EXACT returns. -/
def keycmp (hdr : NdxHdr) (exactOn : Bool) (target source : Key) : Int :=
  if hdr.keytyp ≠ CMBK then
    if hdr.keytyp ≠ 0 then nkcmp target source else skcmp target source hdr.keylen
  else keycmpParts exactOn hdr.cmbkey target source

end Db3w
