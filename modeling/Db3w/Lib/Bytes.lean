/-
Byte buffers. A word is stored low byte first in a fixed number of bytes, and text as bytes that
a NUL ends. A buffer is read field by field from its front. A file is read and written at an offset;
writing past its end fills the gap with NULs.
-/
import Mathlib.Data.List.TakeWhile
import Mathlib.Tactic

namespace Bytes

/-- The `n` low bytes of a number, low byte first. -/
def word : Nat → Nat → List UInt8
  | 0, _ => []
  | n + 1, w => UInt8.ofNat w :: word n (w / 256)

/-- The number some bytes stand for, low byte first. -/
def value : List UInt8 → Nat
  | [] => 0
  | b :: bs => b.toNat + 256 * value bs

/-- The number in the first `n` bytes of a buffer. -/
def readWord (n : Nat) (buf : List UInt8) : Nat := value (buf.take n)

/-- The text in front of the first NUL. -/
def cstr (buf : List UInt8) : List UInt8 := buf.takeWhile (· ≠ 0)

/-- `strncpy` of `s` into `n` bytes: what is left of them becomes NUL. -/
def strncpy (s : List UInt8) (n : Nat) : List UInt8 := (cstr s).take n ++ List.replicate (n - (cstr s).length) 0

theorem value_lt (bs : List UInt8) : value bs < 256 ^ bs.length := by
  induction bs with
  | nil => exact Nat.one_pos
  | cons b bs ih =>
    have hb := b.toNat_lt
    rw [value, List.length_cons, Nat.pow_succ']
    omega

theorem readWord_lt (n : Nat) (buf : List UInt8) : readWord n buf < 256 ^ n :=
  (value_lt _).trans_le (Nat.pow_le_pow_right (by decide) (List.length_take_le ..))

@[simp] theorem length_word (n w : Nat) : (word n w).length = n := by
  induction n generalizing w with
  | zero => rfl
  | succ n ih => simp [word, ih]

theorem value_word (n w : Nat) : value (word n w) = w % 256 ^ n := by
  induction n generalizing w with
  | zero => simp [word, value, Nat.mod_one]
  | succ n ih =>
    have hb : (UInt8.ofNat w).toNat = w % 256 := UInt8.toNat_ofNat'
    rw [word, value, ih, hb, Nat.pow_succ', Nat.mod_mul]

/-- A word that fits is read back. -/
theorem readWord_append {n w : Nat} (h : w < 256 ^ n) (l : List UInt8) : readWord n (word n w ++ l) = w := by
  rw [readWord, List.take_left' (length_word n w), value_word, Nat.mod_eq_of_lt h]

theorem cstr_eq_self {s : List UInt8} (h : 0 ∉ s) : cstr s = s := by
  rw [cstr, List.takeWhile_eq_self_iff]
  intro b hb
  rw [decide_eq_true_eq]
  rintro rfl
  exact h hb

/-- Text that holds no NUL is read back. -/
theorem cstr_append {s : List UInt8} (h : 0 ∉ s) (l : List UInt8) : cstr (s ++ 0 :: l) = s := by
  rw [cstr, List.takeWhile_append_of_pos fun b hb => ?_]
  · simp
  · rw [decide_eq_true_eq]
    rintro rfl
    exact h hb

@[simp] theorem length_strncpy (s : List UInt8) (n : Nat) : (strncpy s n).length = n := by
  simp only [strncpy, List.length_append, List.length_take, List.length_replicate]
  omega

/-- Text that fits is read back from where `strncpy` put it. -/
theorem cstr_strncpy {s : List UInt8} {n : Nat} (h : 0 ∉ s) (hn : s.length ≤ n) : cstr (strncpy s n) = s := by
  rw [strncpy, cstr_eq_self h, List.take_of_length_le hn]
  rcases hk : n - s.length with _ | k
  · rw [List.replicate_zero, List.append_nil, cstr_eq_self h]
  · rw [List.replicate_succ, cstr_append h]

/-- Bytes with NULs up to a size. -/
def padTo (n : Nat) (l : List UInt8) : List UInt8 := l ++ List.replicate (n - l.length) 0

theorem length_padTo {n : Nat} {l : List UInt8} (h : l.length ≤ n) : (padTo n l).length = n := by
  simp only [padTo, List.length_append, List.length_replicate]
  omega

/-- At most `n` bytes of a file from an offset on. -/
def readAt (off n : Nat) (file : List UInt8) : List UInt8 := (file.drop off).take n

/-- A file with bytes written at an offset. -/
def writeAt (off : Nat) (bs file : List UInt8) : List UInt8 := padTo off (file.take off) ++ (bs ++ file.drop (off + bs.length))

section WriteAt

variable {off : Nat} {bs file : List UInt8}

theorem length_padTo_take (off : Nat) (file : List UInt8) : (padTo off (file.take off)).length = off :=
  length_padTo (List.length_take_le ..)

theorem length_writeAt : (writeAt off bs file).length = max file.length (off + bs.length) := by
  rw [writeAt, List.length_append, length_padTo_take, List.length_append, List.length_drop]
  omega

/-- What is written is there. -/
theorem drop_writeAt : (writeAt off bs file).drop off = bs ++ file.drop (off + bs.length) := by
  rw [writeAt, List.drop_left' (length_padTo_take off file)]

/-- What comes after it is unchanged. -/
theorem drop_writeAt_of_le {k : Nat} (h : off + bs.length ≤ k) : (writeAt off bs file).drop k = file.drop k := by
  obtain ⟨j, rfl⟩ := Nat.exists_eq_add_of_le h
  rw [Nat.add_assoc, ← List.drop_drop, drop_writeAt, ← List.drop_drop, List.drop_left' rfl, List.drop_drop, Nat.add_assoc]

/-- What comes before it is unchanged. -/
theorem take_writeAt (h : off ≤ file.length) : (writeAt off bs file).take off = file.take off := by
  rw [writeAt, List.take_left' (length_padTo_take off file), padTo, List.length_take, Nat.min_eq_left h, Nat.sub_self,
    List.replicate_zero, List.append_nil]

theorem take_writeAt_of_le {k : Nat} (hk : k ≤ off) (hf : k ≤ file.length) : (writeAt off bs file).take k = file.take k := by
  unfold writeAt padTo
  rw [List.append_assoc, List.take_append_of_le_length (by rw [List.length_take]; omega), List.take_take, Nat.min_eq_left hk]

theorem getElem?_writeAt_of_lt {k : Nat} (hk : k < off) (hf : k < file.length) : (writeAt off bs file)[k]? = file[k]? := by
  have h := congrArg (·[k]?) (@take_writeAt_of_le off bs file (k + 1) hk hf)
  simpa only [List.getElem?_take_of_lt (Nat.lt_succ_self k)] using h

theorem getElem?_writeAt_of_le {k : Nat} (hk : off + bs.length ≤ k) : (writeAt off bs file)[k]? = file[k]? := by
  have h := congrArg (·[0]?) (@drop_writeAt_of_le off bs file k hk)
  simpa only [List.getElem?_drop, Nat.add_zero] using h

end WriteAt

end Bytes
