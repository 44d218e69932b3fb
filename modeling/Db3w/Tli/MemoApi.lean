/-
Memos through the client API (`dbe_put_memo`, `dbe_get_memo` and the calls around them of hbapi.c, with the file
requests of sys.c behind them). A text is written in transfer packets, which are not whole blocks, and the next free
block is counted from the packets rounded down.
-/
import Db3w.Dbf.PackMemo
import Db3w.Tli.Packet

namespace Db3w.Tli

open Bytes

abbrev MAXMEMOSZ : Nat := 1048576

/-- A memo file behind its descriptor. -/
structure MemoFd where
  file : List UInt8
  pos : Nat

namespace MemoFd

variable (fd : MemoFd)

/-- `DBE_FILE_SEEK`; an offset that is no `off_t` is refused. -/
def seek (off : Nat) : Option MemoFd := if off % 2 ^ 64 < 2 ^ 63 then some { fd with pos := off % 2 ^ 64 } else none

/-- A text up to its end mark. -/
def uptoMark (s : List UInt8) : List UInt8 :=
  match s.findIdx? (· == EOF_MKR) with
  | some i => s.take (i + 1)
  | none => s

/-- `DBE_FILE_READ`. -/
def fileRead (n : Nat) (isbin : Bool) : List UInt8 × MemoFd :=
  let got := readAt fd.pos n fd.file
  (if isbin then got else uptoMark got, { fd with pos := fd.pos + got.length })

/-- `DBE_FILE_WRITE`. -/
def fileWrite (bs : List UInt8) : MemoFd := ⟨Bytes.writeAt fd.pos bs fd.file, fd.pos + bs.length⟩

/-- `dbe_get_next_memo`. -/
def getNextMemo : Option (Nat × MemoFd) := do
  let fd ← fd.seek 0
  let (got, fd) := fd.fileRead 8 true
  if got.length ≠ 8 then none else some (value got, fd)

/-- `dbe_put_next_memo`. -/
def putNextMemo (blkno : Nat) : Option MemoFd := do
  let fd ← fd.seek 0
  some (fd.fileWrite (word 8 blkno))

end MemoFd

/-- Bytes of a client's memory. -/
def cells (mem : Nat → UInt8) (off n : Nat) : List UInt8 := (List.range n).map fun i => mem (off + i)

/-- The loop of `dbe_put_memo`: what has been written, and the file. -/
def putLoop (mem : Nat → UInt8) (size total : Nat) (fd : MemoFd) : Nat × MemoFd :=
  if size = 0 then (total, fd)
  else
    let mem := if size < TRANSBUFSZ ∧ mem (total + size - 1) ≠ EOF_MKR then Function.update mem (total + size) EOF_MKR else mem
    putLoop mem (size - TRANSBUFSZ) (total + TRANSBUFSZ) (fd.fileWrite (cells mem total TRANSBUFSZ))
termination_by size
decreasing_by
  have : TRANSBUFSZ = 4032 := rfl
  omega

/-- `dbe_put_memo`: the number of blocks, and the file. -/
def putMemo (mem : Nat → UInt8) (size : Nat) (fd : MemoFd) (blkno : Nat) : Option (Nat × MemoFd) := do
  let fd ← fd.seek (blkno * BLKSIZE)
  let (total, fd) := putLoop mem size 0 fd
  some (total / BLKSIZE, fd)

/-- The loop of `dbe_get_memo`: what is put into a buffer of `bufsz` bytes. -/
def getLoop (bufsz total : Nat) (fd : MemoFd) : Option (List UInt8) :=
  if total + TRANSBUFSZ > bufsz then none
  else
    let (got, fd) := fd.fileRead TRANSBUFSZ false
    if got.length < TRANSBUFSZ then some got
    else if total + got.length < MAXMEMOSZ then (getLoop bufsz (total + got.length) fd).map (got ++ ·)
    else some got
termination_by MAXMEMOSZ - total
decreasing_by
  have : TRANSBUFSZ = 4032 := rfl
  omega

/-- `dbe_get_memo`, of the memo at a block. -/
def getMemo (bufsz : Nat) (fd : MemoFd) (blkno : Nat) : Option (List UInt8) := do
  let fd ← fd.seek (blkno * BLKSIZE)
  getLoop bufsz 0 fd

/-- A memo text in a client's memory, with whatever is behind it there. -/
structure Memo where
  text : List UInt8
  behind : Nat → UInt8
  noMark : EOF_MKR ∉ text
  lt : text.length < MAXMEMOSZ

def Memo.mem (m : Memo) (i : Nat) : UInt8 := m.text.getD i (m.behind i)

/-- A memo stored in the next free block: that block, and the file. -/
def storeMemo (m : Memo) (fd : MemoFd) : Option (Nat × MemoFd) := do
  let (blkno, fd) ← fd.getNextMemo
  let (cnt, fd) ← putMemo m.mem m.text.length fd blkno
  let fd ← fd.putNextMemo (blkno + cnt)
  some (blkno, fd)

/-- Memos stored one after the other: where each is, and the file. -/
def storeMemos : List Memo → MemoFd → Option (List (Nat × Memo) × MemoFd)
  | [], fd => some ([], fd)
  | m :: ms, fd => do
    let (blkno, fd) ← storeMemo m fd
    let (log, fd) ← storeMemos ms fd
    some ((blkno, m) :: log, fd)

/-- The bytes of two memos, each with its end mark, are apart. -/
def Apart (x y : Nat × Memo) : Prop :=
  x.1 * BLKSIZE + x.2.text.length + 1 ≤ y.1 * BLKSIZE ∨ y.1 * BLKSIZE + y.2.text.length + 1 ≤ x.1 * BLKSIZE

/-- Each memo reads back as its text and the end mark, and no two overlap. -/
structure MemosRight (bufsz : Nat) (log : List (Nat × Memo)) (fd : MemoFd) : Prop where
  reads : ∀ x ∈ log, getMemo bufsz fd x.1 = some (x.2.text ++ [EOF_MKR])
  apart : log.Pairwise Apart

/-- The packets a text takes. -/
def packets (size : Nat) : Nat := (size + (TRANSBUFSZ - 1)) / TRANSBUFSZ

/-- The blocks that are counted for it. -/
def blocksOf (size : Nat) : Nat := packets size * TRANSBUFSZ / BLKSIZE

/-- There is a text; with its end mark it does not end with a packet, and neither does it without; it fits the blocks that are
counted; and the file is not too long. -/
def MemoKept (blkno : Nat) (m : Memo) : Prop :=
  0 < m.text.length ∧ m.text.length % TRANSBUFSZ ≠ 0 ∧ (m.text.length + 1) % TRANSBUFSZ ≠ 0 ∧ m.text.length + 1 ≤ blocksOf m.text.length * BLKSIZE ∧
    (blkno + blocksOf m.text.length) * BLKSIZE < 2 ^ 63

/-- Every memo of a run is kept, at the block the run has come to. -/
def RunKept : Nat → List Memo → Prop
  | _, [] => True
  | blkno, m :: ms => MemoKept blkno m ∧ RunKept (blkno + blocksOf m.text.length) ms

/-! ## Slices of files -/

section Slices

variable {file bs s : List UInt8} {off pos n o : Nat}

/-- A text that is in the file at an offset. -/
def At (file : List UInt8) (o : Nat) (s : List UInt8) : Prop := s <+: file.drop o

theorem at_le (h : At file o s) (hs : s ≠ []) : o + s.length ≤ file.length := by
  have hlen := h.length_le
  have hpos := List.length_pos_iff_ne_nil.mpr hs
  rw [List.length_drop] at hlen
  omega

theorem readAt_of_at (h : At file o s) : readAt o s.length file = s := by
  unfold readAt
  exact List.prefix_iff_eq_take.mp h |>.symm

/-- A text in front of what is written stays. -/
theorem at_write_front (h : At file o s) (hs : s ≠ []) (hle : o + s.length ≤ off) : At (Bytes.writeAt off bs file) o s := by
  have hlen := at_le h hs
  unfold At Bytes.writeAt
  rw [padTo, List.append_assoc, List.drop_append_of_le_length (by rw [List.length_take]; omega), List.drop_take]
  refine List.IsPrefix.trans ?_ (List.prefix_append _ _)
  rw [List.prefix_take_iff]
  exact ⟨h, by omega⟩

/-- And so does one behind it. -/
theorem at_write_behind (h : At file o s) (hle : off + bs.length ≤ o) : At (Bytes.writeAt off bs file) o s := by
  unfold At
  rwa [drop_writeAt_of_le hle]

theorem at_written : At (Bytes.writeAt off bs file) off bs := by
  unfold At
  rw [drop_writeAt]
  exact List.prefix_append _ _

/-- Two texts one behind the other. -/
theorem at_append {t : List UInt8} (hs : At file o s) (ht : At file (o + s.length) t) : At file o (s ++ t) := by
  obtain ⟨r, hr⟩ := hs
  unfold At at ht ⊢
  rw [← List.drop_drop, ← hr, List.drop_left] at ht
  rw [← hr]
  exact (List.prefix_append_right_inj s).mpr ht

theorem at_of_append {t : List UInt8} (h : At file o (s ++ t)) : At file o s ∧ At file (o + s.length) t := by
  obtain ⟨r, hr⟩ := h
  unfold At
  rw [← List.drop_drop, ← hr, List.append_assoc, List.drop_left]
  exact ⟨List.prefix_append _ _, List.prefix_append _ _⟩

end Slices

/-! ## Writing -/

theorem length_cells (mem : Nat → UInt8) (off n : Nat) : (cells mem off n).length = n := by
  rw [cells, List.length_map, List.length_range]

theorem cells_add (mem : Nat → UInt8) (off a b : Nat) : cells mem off (a + b) = cells mem off a ++ cells mem (off + a) b := by
  unfold cells
  rw [List.range_add, List.map_append, List.map_map]
  simp only [Function.comp_def, Nat.add_assoc]

theorem cells_congr {mem mem' : Nat → UInt8} {off n : Nat} (h : ∀ i, off ≤ i → i < off + n → mem i = mem' i) : cells mem off n = cells mem' off n := by
  unfold cells
  refine List.map_congr_left fun i hi => ?_
  have := List.mem_range.mp hi
  exact h _ (by omega) (by omega)

theorem packets_step {size : Nat} (h : 0 < size) : packets size = packets (size - TRANSBUFSZ) + 1 := by
  have hbuf : TRANSBUFSZ = 4032 := rfl
  unfold packets
  rw [hbuf]
  omega

/-- The packets are counted, and what is in front of them stays. -/
theorem putLoop_frame (mem : Nat → UInt8) (size total : Nat) (fd : MemoFd) :
    (putLoop mem size total fd).1 = total + packets size * TRANSBUFSZ ∧
      ∀ o s, s ≠ [] → At fd.file o s → o + s.length ≤ fd.pos → At (putLoop mem size total fd).2.file o s := by
  induction size using Nat.strongRecOn generalizing mem total fd with
  | ind size ih =>
    rw [putLoop]
    rcases Nat.eq_zero_or_pos size with rfl | hpos
    · rw [if_pos rfl]
      exact ⟨rfl, fun o s _ h _ => h⟩
    · rw [if_neg hpos.ne']
      have hbuf : TRANSBUFSZ = 4032 := rfl
      dsimp only
      generalize (if size < TRANSBUFSZ ∧ mem (total + size - 1) ≠ EOF_MKR then Function.update mem (total + size) EOF_MKR else mem) = mem'
      obtain ⟨h1, h2⟩ := ih (size - TRANSBUFSZ) (by omega) mem' (total + TRANSBUFSZ) (fd.fileWrite (cells mem' total TRANSBUFSZ))
      refine ⟨?_, fun o s hs hat hle => h2 o s hs (at_write_front hat hs hle) ?_⟩
      · rw [h1, packets_step hpos]
        ring
      · show _ ≤ fd.pos + (cells mem' total TRANSBUFSZ).length
        omega

/-- What is written is the text with its end mark, unless it ends with a packet. -/
theorem putLoop_data (mem : Nat → UInt8) (size total : Nat) (fd : MemoFd) (hmod : size % TRANSBUFSZ ≠ 0)
    (hmark : ∀ i, total ≤ i → i < total + size → mem i ≠ EOF_MKR) : At (putLoop mem size total fd).2.file fd.pos (cells mem total size ++ [EOF_MKR]) := by
  induction size using Nat.strongRecOn generalizing mem total fd with
  | ind size ih =>
    have hbuf : TRANSBUFSZ = 4032 := rfl
    have hpos : 0 < size := Nat.pos_of_ne_zero fun h => hmod (by rw [h, Nat.zero_mod])
    rw [putLoop, if_neg hpos.ne']
    dsimp only
    rcases Nat.lt_or_ge size TRANSBUFSZ with hlast | hfull
    · -- the last packet has the mark in it
      rw [if_pos ⟨hlast, hmark _ (by omega) (by omega)⟩, putLoop, if_pos (by omega)]
      have hpacket : cells (Function.update mem (total + size) EOF_MKR) total TRANSBUFSZ =
          (cells mem total size ++ [EOF_MKR]) ++ cells (Function.update mem (total + size) EOF_MKR) (total + (size + 1)) (TRANSBUFSZ - (size + 1)) := by
        conv_lhs => rw [show TRANSBUFSZ = size + 1 + (TRANSBUFSZ - (size + 1)) by omega, cells_add, cells_add]
        congr 2
        · refine cells_congr fun i _ hi => Function.update_of_ne (by omega) _ _
        · unfold cells
          simp
      have hwritten : At (fd.fileWrite (cells (Function.update mem (total + size) EOF_MKR) total TRANSBUFSZ)).file fd.pos
          (cells (Function.update mem (total + size) EOF_MKR) total TRANSBUFSZ) := at_written
      conv at hwritten => rhs; rw [hpacket]
      exact (at_of_append hwritten).1
    · rw [if_neg (by omega)]
      have hrest := ih (size - TRANSBUFSZ) (by omega) mem (total + TRANSBUFSZ) (fd.fileWrite (cells mem total TRANSBUFSZ)) (by rwa [← Nat.mod_eq_sub_mod hfull])
        fun i hlo hhi => hmark i (by omega) (by omega)
      have hfirst := (putLoop_frame mem (size - TRANSBUFSZ) (total + TRANSBUFSZ) (fd.fileWrite (cells mem total TRANSBUFSZ))).2 fd.pos (cells mem total TRANSBUFSZ)
        (List.ne_nil_of_length_pos (by rw [length_cells]; omega)) at_written (le_refl _)
      have hsplit : cells mem total size = cells mem total TRANSBUFSZ ++ cells mem (total + TRANSBUFSZ) (size - TRANSBUFSZ) := by
        rw [← cells_add, Nat.add_sub_cancel' hfull]
      rw [hsplit, List.append_assoc]
      exact at_append hfirst hrest

/-! ## Reading -/

theorem uptoMark_self {s : List UInt8} (h : EOF_MKR ∉ s) : MemoFd.uptoMark s = s := by
  unfold MemoFd.uptoMark
  rw [List.findIdx?_eq_none_iff.mpr]
  intro x hx
  exact beq_eq_false_iff_ne.mpr fun heq => h (heq ▸ hx)

theorem uptoMark_append {s : List UInt8} (h : EOF_MKR ∉ s) (r : List UInt8) : MemoFd.uptoMark (s ++ EOF_MKR :: r) = s ++ [EOF_MKR] := by
  unfold MemoFd.uptoMark
  rw [List.findIdx?_append, List.findIdx?_eq_none_iff.mpr, List.findIdx?_cons]
  · simp [List.take_append]
  · intro x hx
    exact beq_eq_false_iff_ne.mpr fun heq => h (heq ▸ hx)

/-- The loop stops at the end mark when that is not the last byte of a packet. -/
theorem getLoop_at {bufsz : Nat} (s : List UInt8) (total : Nat) (fd : MemoFd) (hat : At fd.file fd.pos (s ++ [EOF_MKR])) (hmark : EOF_MKR ∉ s)
    (hmod : (s.length + 1) % TRANSBUFSZ ≠ 0) (hlt : total + s.length < MAXMEMOSZ) (hbuf : total + s.length + TRANSBUFSZ ≤ bufsz) :
    getLoop bufsz total fd = some (s ++ [EOF_MKR]) := by
  have hpkt : TRANSBUFSZ = 4032 := rfl
  induction hn : s.length using Nat.strongRecOn generalizing s total fd with
  | ind n ih =>
    subst hn
    rw [getLoop, if_neg (by omega)]
    unfold MemoFd.fileRead
    dsimp only [Bool.false_eq_true]
    rw [if_neg Bool.false_ne_true]
    rcases Nat.lt_or_ge (s.length + 1) TRANSBUFSZ with hlast | hfull
    · have hgot : MemoFd.uptoMark (readAt fd.pos TRANSBUFSZ fd.file) = s ++ [EOF_MKR] := by
        obtain ⟨r, hr⟩ := hat
        rw [readAt, ← hr, List.append_assoc, List.take_append, List.take_of_length_le (by omega), List.singleton_append,
          List.take_cons (by omega : 0 < TRANSBUFSZ - s.length), uptoMark_append hmark]
      rw [hgot, if_pos (by rw [List.length_append, List.length_singleton]; omega)]
    · have hne : s.length + 1 ≠ TRANSBUFSZ := fun h => hmod (by rw [h, Nat.mod_self])
      obtain ⟨s1, s2, rfl, h1⟩ : ∃ s1 s2, s = s1 ++ s2 ∧ s1.length = TRANSBUFSZ :=
        ⟨s.take TRANSBUFSZ, s.drop TRANSBUFSZ, (List.take_append_drop _ _).symm, by rw [List.length_take]; omega⟩
      rw [List.append_assoc] at hat
      obtain ⟨hat1, hat2⟩ := at_of_append hat
      rw [List.mem_append, not_or] at hmark
      rw [List.length_append] at hmod hlt hbuf
      have hmod2 : (s2.length + 1) % TRANSBUFSZ ≠ 0 := by rwa [Nat.add_assoc, h1, Nat.add_mod_left] at hmod
      have hgot : readAt fd.pos TRANSBUFSZ fd.file = s1 := h1 ▸ readAt_of_at hat1
      rw [hgot, uptoMark_self hmark.1, if_neg (by omega), if_pos (by omega),
        ih s2.length (by rw [List.length_append]; omega) s2 (total + s1.length) _ hat2 hmark.2 hmod2 (by omega) (by omega) rfl, List.append_assoc]
      rfl

theorem seek_eq {fd : MemoFd} {off : Nat} (h : off < 2 ^ 63) : fd.seek off = some { fd with pos := off } := by
  unfold MemoFd.seek
  rw [Nat.mod_eq_of_lt (by omega), if_pos h]

theorem block_le {a b : Nat} (h : a ≤ b) : a * BLKSIZE ≤ b * BLKSIZE := Nat.mul_le_mul_right _ h

theorem getMemo_at {bufsz blkno : Nat} {fd : MemoFd} {m : Memo} (hbuf : m.text.length + TRANSBUFSZ ≤ bufsz) (hoff : blkno * BLKSIZE < 2 ^ 63)
    (hat : At fd.file (blkno * BLKSIZE) (m.text ++ [EOF_MKR])) (hmod : (m.text.length + 1) % TRANSBUFSZ ≠ 0) :
    getMemo bufsz fd blkno = some (m.text ++ [EOF_MKR]) := by
  have hlt := m.lt
  unfold getMemo
  rw [seek_eq hoff]
  exact getLoop_at m.text 0 _ hat m.noMark hmod (by omega) (by omega)

/-! ## Storing -/

theorem cells_mem (m : Memo) : cells m.mem 0 m.text.length = m.text := by
  refine List.ext_getElem (length_cells _ _ _) fun i h1 h2 => ?_
  simp only [cells, List.getElem_map, List.getElem_range, Memo.mem, Nat.zero_add]
  rw [List.getD_eq_getElem?_getD, List.getElem?_eq_getElem h2]
  rfl

theorem mem_ne_mark (m : Memo) {i : Nat} (h : i < m.text.length) : m.mem i ≠ EOF_MKR := by
  unfold Memo.mem
  rw [List.getD_eq_getElem?_getD, List.getElem?_eq_getElem h]
  exact fun heq => m.noMark (heq ▸ List.getElem_mem h)

theorem getNextMemo_at {fd : MemoFd} {blkno : Nat} (hhdr : At fd.file 0 (word 8 blkno)) (hlt : blkno < 2 ^ 64) :
    fd.getNextMemo = some (blkno, ⟨fd.file, 8⟩) := by
  have hread : readAt 0 8 fd.file = word 8 blkno := by
    have h := readAt_of_at hhdr
    rwa [length_word] at h
  unfold MemoFd.getNextMemo
  rw [seek_eq (by omega)]
  show (if (readAt 0 8 fd.file).length ≠ 8 then none else some (value (readAt 0 8 fd.file), (⟨fd.file, 0 + (readAt 0 8 fd.file).length⟩ : MemoFd))) = _
  rw [hread, length_word, if_neg (not_not.mpr rfl), value_word, Nat.mod_eq_of_lt (by omega)]

/-- A memo goes to the block that the file names, and the file then names the one behind those counted. -/
theorem storeMemo_block {fd : MemoFd} {blkno : Nat} (m : Memo) (hhdr : At fd.file 0 (word 8 blkno))
    (hoff : (blkno + blocksOf m.text.length) * BLKSIZE < 2 ^ 63) :
    ∃ fd', storeMemo m fd = some (blkno, fd') ∧ At fd'.file 0 (word 8 (blkno + blocksOf m.text.length)) ∧
      ∀ o s, s ≠ [] → 8 ≤ o → At (putLoop m.mem m.text.length 0 ⟨fd.file, blkno * BLKSIZE⟩).2.file o s → At fd'.file o s := by
  have hoff' : (blkno + blocksOf m.text.length) * 512 < 2 ^ 63 := hoff
  have hseek : blkno * BLKSIZE < 2 ^ 63 := lt_of_le_of_lt (block_le (Nat.le_add_right _ _)) hoff
  have hcnt := (putLoop_frame m.mem m.text.length 0 ⟨fd.file, blkno * BLKSIZE⟩).1
  have hput : putMemo m.mem m.text.length ⟨fd.file, 8⟩ blkno =
      some (blocksOf m.text.length, (putLoop m.mem m.text.length 0 ⟨fd.file, blkno * BLKSIZE⟩).2) := by
    unfold putMemo
    rw [seek_eq hseek]
    show some ((putLoop m.mem m.text.length 0 ⟨fd.file, blkno * BLKSIZE⟩).1 / BLKSIZE, _) = _
    rw [hcnt, Nat.zero_add]
    rfl
  generalize (putLoop m.mem m.text.length 0 ⟨fd.file, blkno * BLKSIZE⟩).2 = fd1 at hput
  refine ⟨⟨Bytes.writeAt 0 (word 8 (blkno + blocksOf m.text.length)) fd1.file, 0 + (word 8 (blkno + blocksOf m.text.length)).length⟩, ?_, at_written, ?_⟩
  · unfold storeMemo MemoFd.putNextMemo
    rw [getNextMemo_at hhdr (by omega)]
    show (putMemo m.mem m.text.length ⟨fd.file, 8⟩ blkno).bind _ = _
    rw [hput]
    rw [Option.bind_some]
    dsimp only
    rw [seek_eq (by omega)]
    rfl
  · intro o s _ ho hat
    exact at_write_behind hat (by rw [length_word]; omega)

/-- The run: every memo is at its block in the end, and what was in front of them is still there. -/
theorem storeMemos_kept (ms : List Memo) : ∀ (fd : MemoFd) (blkno : Nat), At fd.file 0 (word 8 blkno) → 1 ≤ blkno → RunKept blkno ms →
    ∃ log fd', storeMemos ms fd = some (log, fd') ∧ log.map Prod.snd = ms ∧
      (∀ x ∈ log, blkno ≤ x.1 ∧ MemoKept x.1 x.2 ∧ At fd'.file (x.1 * BLKSIZE) (x.2.text ++ [EOF_MKR])) ∧
      (∀ o s, s ≠ [] → 8 ≤ o → o + s.length ≤ blkno * BLKSIZE → At fd.file o s → At fd'.file o s) ∧ log.Pairwise Apart := by
  induction ms with
  | nil => exact fun fd _ _ _ _ => ⟨[], fd, rfl, rfl, by simp, fun _ _ _ _ _ h => h, List.Pairwise.nil⟩
  | cons m ms ih =>
    rintro fd blkno hhdr hpos ⟨hkept, hrest⟩
    obtain ⟨hlen, hmod, -, hfit, hoff⟩ := id hkept
    have hblk : 8 ≤ blkno * BLKSIZE := le_trans (by decide) (block_le hpos)
    have hadd := Nat.add_mul blkno (blocksOf m.text.length) BLKSIZE
    obtain ⟨fd1, hstore, hhdr1, hkeep⟩ := storeMemo_block m hhdr hoff
    obtain ⟨log, fd', hstores, hlog, hat, hframe, hapart⟩ := ih fd1 _ hhdr1 (by omega) hrest
    have hdata := putLoop_data m.mem m.text.length 0 ⟨fd.file, blkno * BLKSIZE⟩ hmod fun i _ hi => mem_ne_mark m (by omega)
    rw [cells_mem] at hdata
    refine ⟨(blkno, m) :: log, fd', ?_, congrArg (m :: ·) hlog, ?_, ?_, ?_⟩
    · show (storeMemo m fd).bind _ = _
      rw [hstore]
      show (storeMemos ms fd1).bind _ = _
      rw [hstores]
      rfl
    · intro x hx
      rcases List.mem_cons.mp hx with rfl | hx
      · refine ⟨le_refl _, hkept, hframe _ _ (by simp) hblk ?_ (hkeep _ _ (by simp) hblk hdata)⟩
        rw [List.length_append, List.length_singleton, hadd]
        exact Nat.add_le_add_left hfit _
      · obtain ⟨h1, h2, h3⟩ := hat x hx
        exact ⟨by omega, h2, h3⟩
    · intro o s hs ho hle hat
      exact hframe o s hs ho (by omega) (hkeep o s hs ho ((putLoop_frame m.mem m.text.length 0 ⟨fd.file, blkno * BLKSIZE⟩).2 o s hs hat hle))
    · refine List.Pairwise.cons (fun x hx => .inl ?_) hapart
      have hle := block_le (hat x hx).1
      show blkno * BLKSIZE + m.text.length + 1 ≤ x.1 * BLKSIZE
      omega

theorem storeMemos_two {fd fd1 fd2 : MemoFd} {m1 m2 : Memo} {b1 b2 : Nat} (h1 : storeMemo m1 fd = some (b1, fd1)) (h2 : storeMemo m2 fd1 = some (b2, fd2)) :
    storeMemos [m1, m2] fd = some ([(b1, m1), (b2, m2)], fd2) := by
  unfold storeMemos storeMemos storeMemos
  simp [h1, h2]

/-- In a run of kept memos each reads back and none overlap. -/
theorem memos_right {bufsz : Nat} {fd : MemoFd} {blkno : Nat} {ms : List Memo} (hbuf : ∀ m ∈ ms, m.text.length + TRANSBUFSZ ≤ bufsz)
    (hhdr : At fd.file 0 (word 8 blkno)) (hpos : 1 ≤ blkno) (hkept : RunKept blkno ms) :
    ∃ log fd', storeMemos ms fd = some (log, fd') ∧ log.map Prod.snd = ms ∧ MemosRight bufsz log fd' := by
  obtain ⟨log, fd', hstores, hlog, hat, -, hapart⟩ := storeMemos_kept ms fd blkno hhdr hpos hkept
  refine ⟨log, fd', hstores, hlog, fun x hx => ?_, hapart⟩
  obtain ⟨-, ⟨-, -, hmod, -, hoff⟩, hx'⟩ := hat x hx
  have hmem : x.2 ∈ ms := hlog ▸ List.mem_map_of_mem hx
  exact getMemo_at (hbuf _ hmem) (lt_of_le_of_lt (block_le (Nat.le_add_right _ _)) hoff) hx' hmod

theorem noMark_letters {n : Nat} {c : UInt8} (hc : EOF_MKR ≠ c) : EOF_MKR ∉ List.replicate n c := fun h => hc (List.eq_of_mem_replicate h)

theorem letters_lt {n : Nat} (c : UInt8) (hn : n < MAXMEMOSZ) : (List.replicate n c).length < MAXMEMOSZ := List.length_replicate.trans_lt hn

/-- A memo of letters. -/
def letters (n : Nat) (c : UInt8) (hc : EOF_MKR ≠ c) (hn : n < MAXMEMOSZ) : Memo := ⟨List.replicate n c, fun _ => 0, noMark_letters hc, letters_lt c hn⟩

theorem letters_kept {blkno n : Nat} {c : UInt8} (hc : EOF_MKR ≠ c) (hn : n < MAXMEMOSZ) : MemoKept blkno (letters n c hc hn) ↔
    0 < n ∧ n % TRANSBUFSZ ≠ 0 ∧ (n + 1) % TRANSBUFSZ ≠ 0 ∧ n + 1 ≤ blocksOf n * BLKSIZE ∧ (blkno + blocksOf n) * BLKSIZE < 2 ^ 63 := by
  unfold MemoKept letters
  rw [List.length_replicate]

/-- A file as it is created, and three memos, the second one of two packets. -/
theorem memos_right_three : ∃ log fd',
    storeMemos [letters 1 97 (by decide) (by decide), letters 5000 98 (by decide) (by decide), letters 1 99 (by decide) (by decide)]
      ⟨word 8 1 ++ List.replicate 504 0, 0⟩ = some (log, fd') ∧
    log.map Prod.snd = [letters 1 97 (by decide) (by decide), letters 5000 98 (by decide) (by decide), letters 1 99 (by decide) (by decide)] ∧
    MemosRight 16384 log fd' := by
  refine @memos_right _ _ 1 _ ?_ (List.prefix_append _ _) (le_refl _) ⟨(letters_kept _ _).2 ?_, ?_⟩
  · simp only [List.mem_cons, List.not_mem_nil, or_false, forall_eq_or_imp, forall_eq, letters, List.length_replicate]
    decide
  · decide
  · rw [show (letters 1 97 (by decide) (by decide)).text.length = 1 from List.length_replicate]
    refine ⟨(letters_kept _ _).2 (by decide), ?_⟩
    rw [show (letters 5000 98 (by decide) (by decide)).text.length = 5000 from List.length_replicate]
    exact ⟨(letters_kept _ _).2 (by decide), trivial⟩

/-- 4000 bytes take one packet, which is counted as seven blocks. -/
theorem storeMemos_overlap {m1 m2 : Memo} {bufsz : Nat} (hlen1 : m1.text.length = 4000) (hlen2 : m2.text.length = 1) :
    ∃ log fd', storeMemos [m1, m2] ⟨word 8 1 ++ List.replicate 504 0, 0⟩ = some (log, fd') ∧ ¬MemosRight bufsz log fd' := by
  have hblocks : blocksOf m1.text.length = 7 := by rw [hlen1]; rfl
  obtain ⟨fd1, h1, hhdr1, -⟩ := @storeMemo_block ⟨word 8 1 ++ List.replicate 504 0, 0⟩ 1 m1 (List.prefix_append _ _) (by rw [hblocks]; decide)
  rw [hblocks] at hhdr1
  obtain ⟨fd2, h2, -⟩ := storeMemo_block m2 hhdr1 (by rw [hlen2]; decide)
  refine ⟨_, fd2, storeMemos_two h1 h2, fun h => ?_⟩
  have hapart : Apart (1, m1) (1 + 7, m2) := List.rel_of_pairwise_cons h.apart List.mem_cons_self
  change 1 * BLKSIZE + m1.text.length + 1 ≤ (1 + 7) * BLKSIZE ∨ (1 + 7) * BLKSIZE + m2.text.length + 1 ≤ 1 * BLKSIZE at hapart
  rw [hlen1, hlen2] at hapart
  exact absurd hapart (by decide)

/-- The memo behind 4000 letters goes into the text. -/
theorem memos_overlap : ∃ log fd', storeMemos [letters 4000 97 (by decide) (by decide), letters 1 98 (by decide) (by decide)] ⟨word 8 1 ++ List.replicate 504 0, 0⟩ = some (log, fd') ∧ ¬MemosRight (MAXMEMOSZ + TRANSBUFSZ) log fd' :=
  storeMemos_overlap List.length_replicate List.length_replicate

end Db3w.Tli
