/-
Character keys. A target of full length without a NUL byte is compared with a stored key byte by
byte, as the bytes are ordered; the entries of an index are then ordered by `Ent.rank`, the bytes
of the key and then the record, and both comparisons of a target are falling along them.
-/
import Mathlib.Data.List.Lex
import Db3w.Ndx.Tree

namespace Db3w

/-- The bytes of a key as numbers, in their lexicographic order. -/
def bytes (k : Key) : List ℕ := k.map UInt8.toNat

theorem bytes_inj {a b : Key} : bytes a = bytes b ↔ a = b :=
  (List.map_injective_iff.2 fun _ _ h => UInt8.toNat_inj.1 h).eq_iff

/-- What entries are ordered by: the key, then the record. -/
def Ent.rank (e : Ent) : List ℕ ×ₗ ℕ := toLex (bytes e.key, e.recno)

theorem Ent.rank_inj {a b : Ent} (h : a.rank = b.rank) : a = b := by
  obtain ⟨h1, h2⟩ := Prod.mk.inj (toLex.injective h)
  cases a
  cases b
  exact congrArg₂ Ent.mk (bytes_inj.1 h1) h2

theorem cmpOrd_cons {α : Type} [LinearOrder α] (a b : α) (l m : List α) :
    cmpOrd (a :: l) (b :: m) = if cmpOrd a b ≠ 0 then cmpOrd a b else cmpOrd l m := by
  rcases lt_trichotomy a b with h | rfl | h
  · have : a :: l < b :: m := List.cons_lt_cons_iff.2 (Or.inl h)
    simp [cmpOrd, h, this, not_lt.2 h.le, not_lt.2 this.le]
  · have hl : ∀ l m : List α, a :: l < a :: m ↔ l < m := fun l m => by simp
    rw [cmpOrd_self, if_neg (by simp)]
    simp only [cmpOrd, gt_iff_lt, hl]
    split_ifs <;> rfl
  · have : b :: m < a :: l := List.cons_lt_cons_iff.2 (Or.inl h)
    simp [cmpOrd, h, this]

theorem cmpByte (a b : UInt8) (r : Int) :
    (if a > b then 1 else if a < b then -1 else r) = if cmpOrd a.toNat b.toNat ≠ 0 then cmpOrd a.toNat b.toNat else r := by
  simp only [cmpOrd, gt_iff_lt, UInt8.lt_iff_toNat_lt]
  split_ifs <;> simp_all

theorem skcmpRest_eq : ∀ (len : Nat) (p q : Key), p.length = len → q.length = len → 0 ∉ p →
    skcmpRest p q len = cmpOrd (bytes p) (bytes q)
  | 0, p, q, hp, hq, _ => by
    rw [List.length_eq_zero_iff.1 hp, List.length_eq_zero_iff.1 hq, cmpOrd_self]
    simp [skcmpRest]
  | len + 1, a :: p, b :: q, hp, hq, h0 => by
    simp only [List.mem_cons, not_or] at h0
    rw [skcmpRest, if_neg (Ne.symm h0.1), skcmpRest_eq len p q (by simpa using hp) (by simpa using hq) h0.2, cmpByte]
    exact (cmpOrd_cons _ _ _ _).symm

/-- A target of full length whose bytes after the first are not NUL is compared byte by byte. -/
theorem skcmp_eq {len : Nat} {p q : Key} (hp : p.length = len) (hq : q.length = len) (h0 : 0 ∉ p.tail) :
    skcmp p q len = cmpOrd (bytes p) (bytes q) := by
  match len, p, q with
  | 0, p, q =>
    rw [List.length_eq_zero_iff.1 hp, List.length_eq_zero_iff.1 hq, cmpOrd_self]
    simp [skcmp]
  | len + 1, a :: p, b :: q =>
    rw [skcmp, skcmpRest_eq len p q (by simpa using hp) (by simpa using hq) h0, cmpByte]
    exact (cmpOrd_cons _ _ _ _).symm

section Char

variable {hdr : NdxHdr} {exactOn : Bool} {target : NdxEntry} {x : Ent} {L : List Ent}

theorem keyCmp_char (ht : hdr.keytyp = 0) (hl : target.key.length = hdr.keylen) (h0 : 0 ∉ target.key.tail)
    (hx : x.key.length = hdr.keylen) : keyCmp hdr exactOn target x = cmpOrd (bytes target.key) (bytes x.key) := by
  rw [keyCmp, keycmp, ht, if_pos (by decide), if_neg (by decide), skcmp_eq hl hx h0]

theorem entCmp_char (ht : hdr.keytyp = 0) (hl : target.key.length = hdr.keylen) (h0 : 0 ∉ target.key.tail)
    (hx : x.key.length = hdr.keylen) : entCmp hdr exactOn target x = cmpOrd target.ent.rank x.rank := by
  rw [entCmp, keyCmp_char ht hl h0 hx, Ent.rank, Ent.rank, cmpOrd_lex]; rfl

theorem keys_le (hs : L.Pairwise fun a b => a.rank < b.rank) : L.Pairwise fun a b => bytes a.key ≤ bytes b.key := by
  refine hs.imp fun {a b} h => ?_
  rcases Prod.Lex.toLex_lt_toLex.1 h with h | h
  · exact h.le
  · exact h.1.le

theorem falling_keyCmp (ht : hdr.keytyp = 0) (hl : target.key.length = hdr.keylen) (h0 : 0 ∉ target.key.tail)
    (hx : ∀ x ∈ L, x.key.length = hdr.keylen) (hs : L.Pairwise fun a b => a.rank < b.rank) :
    Falling (keyCmp hdr exactOn target) L :=
  Falling.of_sorted (f := fun x => bytes x.key) (keys_le hs) fun x hx' => keyCmp_char ht hl h0 (hx x hx')

theorem falling_entCmp (ht : hdr.keytyp = 0) (hl : target.key.length = hdr.keylen) (h0 : 0 ∉ target.key.tail)
    (hx : ∀ x ∈ L, x.key.length = hdr.keylen) (hs : L.Pairwise fun a b => a.rank < b.rank) :
    Falling (entCmp hdr exactOn target) L :=
  Falling.of_sorted (f := Ent.rank) (hs.imp le_of_lt) fun x hx' => entCmp_char ht hl h0 (hx x hx')

end Char

end Db3w
