/-
The object file of a procedure. Code blocks and long jumps follow each other, and the first byte tells
them apart: it is 0 for a jump, and the low byte of its size for a block. A block whose size is a
multiple of 256 is therefore taken for a jump.
-/
import Db3w.Hb.Code
import Db3w.Lib.Bytes

namespace Db3w.Hb

open Bytes

abbrev VSTORE : Nat := 0x05
abbrev OBJ_LIB : Nat := 0x87
/-- The size of a long jump: a zero, its code and a position. -/
abbrev JBLOCKSZ : Nat := 6
/-- The sizes of a position in the code and of a line number. -/
abbrev CPOSSZ : Nat := 4
abbrev LNOSZ : Nat := 4

/-! ## Writing -/

/-- What a statement compiles to: its instructions and the bytes of its literals, within the limits of a block. -/
structure Emitted where
  pcode : List PCode
  pdata : List UInt8
  code_le : pcode.length ≤ CODE_LIMIT
  size_le : 2 * pcode.length + pdata.length + BLOCK_HEAD ≤ CBLOCKSZ

namespace Emitted

/-- `block_sz`. -/
def size (e : Emitted) : Nat := 2 * e.pcode.length + e.pdata.length + BLOCK_HEAD

def codeBytes (e : Emitted) : List UInt8 := e.pcode.flatMap fun i => [UInt8.ofNat i.opcode, UInt8.ofNat i.opnd]

/-- A block with its size; `extra` comes behind the literals. -/
def bytes (e : Emitted) (extra : List UInt8) : List UInt8 :=
  word 2 (e.size + extra.length) ++ UInt8.ofNat e.pcode.length :: 0 :: (e.codeBytes ++ (e.pdata ++ extra))

/-- `emit`. -/
def emit (e : Emitted) : List UInt8 := e.bytes []

end Emitted

/-- `write_block`: with `dbg` the number of the line is put behind the block, and counts to its size. -/
def writeBlock (dbg : Bool) (lineno : Nat) (e : Emitted) : List UInt8 := if dbg then e.bytes (word LNOSZ lineno) else e.emit

/-- The size of the long jump with this code. -/
def jsize (jcode : Nat) : Nat := if jcode = RETURN ∨ jcode = FCNRTN then 2 else JBLOCKSZ

/-- `cgen_ljmp`. -/
def cgenLjmp (jcode pos : Nat) : List UInt8 := (0 :: UInt8.ofNat jcode :: word CPOSSZ pos).take (jsize jcode)

/-- What `ec` writes: blocks, with the lines they come from, and long jumps. -/
inductive CodeItem where
  | block (e : Emitted) (lineno : Nat)
  | ljmp (jcode : UInt8) (pos : Nat)

def CodeItem.bytes (dbg : Bool) : CodeItem → List UInt8
  | block e lineno => writeBlock dbg lineno e
  | ljmp jcode pos => cgenLjmp jcode.toNat pos

/-- The code of a procedure. -/
def objBytes (dbg : Bool) (items : List CodeItem) : List UInt8 := items.flatMap (CodeItem.bytes dbg)

/-! ## Reading -/

/-- What `exec_` finds at a position: the bytes of a block, or those of a long jump. -/
inductive Piece where
  | block (b : List UInt8)
  | ljmp (b : List UInt8)
  deriving DecidableEq, Repr

/-- `is_ljump`. -/
def isLjump (buf : List UInt8) : Bool := buf.head? == some 0

/-- What is found, and what comes behind it. -/
def readPiece (buf : List UInt8) : Piece × List UInt8 :=
  if isLjump buf then (.ljmp (buf.take (jsize (readWord 1 (buf.drop 1)))), buf.drop (jsize (readWord 1 (buf.drop 1))))
  else (.block (buf.take (readWord 2 buf)), buf.drop (readWord 2 buf))

/-- The pieces that lie one behind the other, `fuel` of them at most. -/
def readPieces : Nat → List UInt8 → List Piece
  | 0, _ => []
  | fuel + 1, buf => if buf = [] then [] else (readPiece buf).1 :: readPieces fuel (readPiece buf).2

def CodeItem.piece (dbg : Bool) : CodeItem → Piece
  | block e lineno => .block (writeBlock dbg lineno e)
  | ljmp jcode pos => .ljmp (cgenLjmp jcode.toNat pos)

/-- Stepping over the bytes gives back what was written. -/
def ReadBack (dbg : Bool) (items : List CodeItem) : Prop :=
  readPieces (objBytes dbg items).length (objBytes dbg items) = items.map (CodeItem.piece dbg)

/-- The size of the block that is written. -/
def Emitted.sizeWith (dbg : Bool) (e : Emitted) : Nat := if dbg then e.size + LNOSZ else e.size

/-- No block is as long as some number of times 256 bytes. -/
def Told (dbg : Bool) (items : List CodeItem) : Prop := ∀ e lineno, CodeItem.block e lineno ∈ items → e.sizeWith dbg % 256 ≠ 0

/-! ## Blocks and jumps -/

section Object

variable {dbg : Bool} {e : Emitted} {lineno pos : Nat} {jcode : UInt8} {rest : List UInt8}

theorem length_codeBytes (e : Emitted) : e.codeBytes.length = 2 * e.pcode.length := by
  unfold Emitted.codeBytes
  induction e.pcode with
  | nil => rfl
  | cons i is ih =>
    rw [List.flatMap_cons, List.length_append, ih, List.length_cons]
    simp only [List.length_cons, List.length_nil]
    omega

theorem writeBlock_eq (dbg : Bool) (lineno : Nat) (e : Emitted) : ∃ tail, tail.length + 2 = e.sizeWith dbg ∧
    writeBlock dbg lineno e = word 2 (e.sizeWith dbg) ++ tail := by
  have hlen := length_codeBytes e
  cases dbg with
  | false =>
    refine ⟨UInt8.ofNat e.pcode.length :: 0 :: (e.codeBytes ++ (e.pdata ++ [])), ?_, rfl⟩
    show _ = e.size
    simp only [List.length_cons, List.length_append, List.length_nil, Emitted.size, BLOCK_HEAD]
    omega
  | true =>
    refine ⟨UInt8.ofNat e.pcode.length :: 0 :: (e.codeBytes ++ (e.pdata ++ word LNOSZ lineno)), ?_, ?_⟩
    · show _ = e.size + LNOSZ
      simp only [List.length_cons, List.length_append, length_word, Emitted.size, BLOCK_HEAD, LNOSZ]
      omega
    · show word 2 (e.size + (word LNOSZ lineno).length) ++ _ = word 2 (e.size + LNOSZ) ++ _
      rw [length_word]

theorem length_writeBlock (dbg : Bool) (lineno : Nat) (e : Emitted) : (writeBlock dbg lineno e).length = e.sizeWith dbg := by
  obtain ⟨tail, hlen, heq⟩ := writeBlock_eq dbg lineno e
  rw [heq, List.length_append, length_word]
  omega

theorem sizeWith_lt (dbg : Bool) (e : Emitted) : e.sizeWith dbg < 2 ^ 16 := by
  have hsize : e.size ≤ CBLOCKSZ := e.size_le
  have hlim : CBLOCKSZ + LNOSZ < 2 ^ 16 := by decide
  unfold Emitted.sizeWith
  split <;> omega

/-- The size lies in the first two bytes. -/
theorem readWord_block (dbg : Bool) (lineno : Nat) (e : Emitted) (rest : List UInt8) :
    readWord 2 (writeBlock dbg lineno e ++ rest) = e.sizeWith dbg := by
  obtain ⟨tail, -, heq⟩ := writeBlock_eq dbg lineno e
  rw [heq, List.append_assoc]
  exact readWord_append (sizeWith_lt dbg e) _

/-- A block is taken for a jump by its size alone. -/
theorem isLjump_block (dbg : Bool) (lineno : Nat) (e : Emitted) (rest : List UInt8) :
    isLjump (writeBlock dbg lineno e ++ rest) = decide (e.sizeWith dbg % 256 = 0) := by
  obtain ⟨tail, -, heq⟩ := writeBlock_eq dbg lineno e
  have hhead : (writeBlock dbg lineno e ++ rest).head? = some (UInt8.ofNat (e.sizeWith dbg)) := by
    rw [heq]
    rfl
  unfold isLjump
  rw [hhead, Bool.eq_iff_iff, beq_iff_eq, Option.some_inj, decide_eq_true_eq, ← UInt8.toNat_inj, UInt8.toNat_ofNat']
  rfl

theorem length_cgenLjmp (jcode pos : Nat) : (cgenLjmp jcode pos).length = jsize jcode := by
  unfold cgenLjmp jsize
  rw [List.length_take, List.length_cons, List.length_cons, length_word]
  split <;> rfl

theorem cgenLjmp_eq (jcode : UInt8) (pos : Nat) : ∃ tail, cgenLjmp jcode.toNat pos = 0 :: jcode :: tail := by
  unfold cgenLjmp jsize
  split
  · exact ⟨[], by simp⟩
  · exact ⟨(word CPOSSZ pos).take 4, by simp⟩

theorem readPiece_ljmp (jcode : UInt8) (pos : Nat) (rest : List UInt8) :
    readPiece (cgenLjmp jcode.toNat pos ++ rest) = (.ljmp (cgenLjmp jcode.toNat pos), rest) := by
  obtain ⟨tail, heq⟩ := cgenLjmp_eq jcode pos
  have hjump : isLjump (cgenLjmp jcode.toNat pos ++ rest) = true := by
    rw [heq]
    rfl
  have hcode : readWord 1 ((cgenLjmp jcode.toNat pos ++ rest).drop 1) = jcode.toNat := by
    rw [heq]
    show jcode.toNat + 256 * 0 = jcode.toNat
    omega
  unfold readPiece
  rw [if_pos hjump, hcode, List.take_left' (length_cgenLjmp _ pos), List.drop_left' (length_cgenLjmp _ pos)]

theorem readPiece_block (h : e.sizeWith dbg % 256 ≠ 0) (lineno : Nat) (rest : List UInt8) :
    readPiece (writeBlock dbg lineno e ++ rest) = (.block (writeBlock dbg lineno e), rest) := by
  unfold readPiece
  rw [if_neg (by rw [isLjump_block]; simpa using h), readWord_block, List.take_left' (length_writeBlock _ _ _),
    List.drop_left' (length_writeBlock _ _ _)]

/-- The other blocks are not even found as blocks. -/
theorem readPiece_taken (h : e.sizeWith dbg % 256 = 0) (lineno : Nat) (rest : List UInt8) :
    ∃ b, (readPiece (writeBlock dbg lineno e ++ rest)).1 = .ljmp b := by
  unfold readPiece
  rw [if_pos (by rw [isLjump_block]; simpa using h)]
  exact ⟨_, rfl⟩

theorem CodeItem.bytes_ne_nil (dbg : Bool) (i : CodeItem) : i.bytes dbg ≠ [] := by
  intro h
  cases i with
  | block e lineno =>
    have hlen := length_writeBlock dbg lineno e
    have hpos : 0 < e.sizeWith dbg := by
      unfold Emitted.sizeWith Emitted.size BLOCK_HEAD LNOSZ
      split <;> omega
    rw [show writeBlock dbg lineno e = [] from h] at hlen
    simp only [List.length_nil] at hlen
    omega
  | ljmp jcode pos =>
    obtain ⟨tail, heq⟩ := cgenLjmp_eq jcode pos
    rw [show cgenLjmp jcode.toNat pos = [] from h] at heq
    cases heq

end Object

/-- **A procedure is read back as it was written** if and only if no block is as long as some number of times 256 bytes. -/
theorem readBack_iff (dbg : Bool) (items : List CodeItem) : ReadBack dbg items ↔ Told dbg items := by
  -- as many steps as bytes are always enough
  have hread : ∀ fuel, (objBytes dbg items).length ≤ fuel →
      (readPieces fuel (objBytes dbg items) = items.map (CodeItem.piece dbg) ↔ Told dbg items) := by
    induction items with
    | nil =>
      intro fuel _
      refine iff_of_true ?_ (by simp [Told])
      cases fuel <;> rfl
    | cons i items ih =>
      intro fuel hfuel
      have hobj : objBytes dbg (i :: items) = i.bytes dbg ++ objBytes dbg items := List.flatMap_cons ..
      have hne := i.bytes_ne_nil dbg
      have hpos := List.length_pos_iff.mpr hne
      rw [hobj, List.length_append] at hfuel
      obtain ⟨fuel, rfl⟩ : ∃ k, fuel = k + 1 := ⟨fuel - 1, by omega⟩
      have hrest := ih fuel (by omega)
      rw [hobj, readPieces, if_neg (by simp [hne]), List.map_cons]
      cases i with
      | ljmp jcode pos =>
        rw [show CodeItem.bytes dbg (.ljmp jcode pos) = cgenLjmp jcode.toNat pos from rfl, readPiece_ljmp, List.cons_eq_cons, hrest]
        simp [Told, CodeItem.piece]
      | block e lineno =>
        have htold : Told dbg (.block e lineno :: items) ↔ e.sizeWith dbg % 256 ≠ 0 ∧ Told dbg items := by
          constructor
          · exact fun h => ⟨h e lineno List.mem_cons_self, fun e' l' hmem => h e' l' (List.mem_cons_of_mem _ hmem)⟩
          · rintro ⟨he, h⟩ e' l' hmem
            rcases List.mem_cons.mp hmem with heq | hmem
            · cases heq
              exact he
            · exact h e' l' hmem
        rw [htold, show CodeItem.bytes dbg (.block e lineno) = writeBlock dbg lineno e from rfl]
        by_cases hsize : e.sizeWith dbg % 256 = 0
        · -- the block is taken for a jump
          obtain ⟨b, hb⟩ := readPiece_taken hsize lineno (objBytes dbg items)
          refine iff_of_false (fun h => ?_) fun h => h.1 hsize
          have hhead := (List.cons_eq_cons.mp h).1
          rw [hb] at hhead
          cases hhead
        · rw [readPiece_block hsize, List.cons_eq_cons, hrest]
          simp [CodeItem.piece, hsize]
  exact hread _ le_rfl

/-- The bytes of a string among the literals. -/
def charBytes (s : List UInt8) : List UInt8 := word 2 (CHARCTR + 16 * s.length) ++ s

theorem length_charBytes (s : List UInt8) : (charBytes s).length = s.length + 2 := by
  rw [charBytes, List.length_append, length_word]
  exact Nat.add_comm _ _

theorem longStore_size : (charBytes (List.replicate 243 65) ++ charBytes [86]).length = 248 := by
  rw [List.length_append, length_charBytes, length_charBytes, List.length_replicate]
  rfl

/-- `STORE` of a string with 243 characters: its block has 256 bytes. -/
def longStore : Emitted where
  pcode := [⟨PUSH, 0⟩, ⟨VSTORE, 1⟩]
  pdata := charBytes (List.replicate 243 65) ++ charBytes [86]
  code_le := by decide
  size_le := by
    rw [longStore_size]
    decide

theorem longStore_taken : ¬ReadBack false [.block longStore 1, .ljmp (UInt8.ofNat RETURN) 0] := by
  have hsize : longStore.sizeWith false = 256 := by
    have hdata : longStore.pdata.length = 248 := longStore_size
    unfold Emitted.sizeWith Emitted.size
    rw [hdata]
    rfl
  obtain ⟨b, hb⟩ := readPiece_taken (by rw [hsize]) 1 (objBytes false [.ljmp (UInt8.ofNat RETURN) 0])
  have hlen : (writeBlock false 1 longStore).length = 255 + 1 := (length_writeBlock _ _ _).trans hsize
  have hobj : objBytes false [.block longStore 1, .ljmp (UInt8.ofNat RETURN) 0] =
      writeBlock false 1 longStore ++ objBytes false [.ljmp (UInt8.ofNat RETURN) 0] := List.flatMap_cons ..
  intro h
  unfold ReadBack at h
  rw [hobj] at h
  generalize hn : (writeBlock false 1 longStore ++ objBytes false [.ljmp (UInt8.ofNat RETURN) 0]).length = n at h
  rw [List.length_append, hlen] at hn
  obtain ⟨n, rfl⟩ : ∃ k, n = k + 1 := ⟨n - 1, by omega⟩
  have hne : writeBlock false 1 longStore ++ objBytes false [.ljmp (UInt8.ofNat RETURN) 0] ≠ [] :=
    List.append_ne_nil_of_left_ne_nil (CodeItem.bytes_ne_nil false (.block longStore 1)) _
  rw [readPieces, if_neg hne, List.map_cons] at h
  have hhead := (List.cons_eq_cons.mp h).1
  rw [hb] at hhead
  cases hhead

end Db3w.Hb
