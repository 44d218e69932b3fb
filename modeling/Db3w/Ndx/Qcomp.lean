/-
The comparison of sort records. A bulk-built tree holds the keys in the order of `qcomp`, and is
searched by that of `keycmp`; the two are the same order of keys, with equal keys in the order of
their record numbers. They differ where the difference of two record numbers loses its sign, or all
of it, in an `int`, and for composite keys: a sort has a byte for the type of its keys, in which that
of composite keys is the type of character keys, so that it compares them as strings.
-/
import Db3w.Ndx.KeyOrder

namespace Db3w

/-! ## Sort records -/

/-- `VSORT_REC`. -/
structure VsortRec where
  recNo : UInt64
  key : Key
  deriving DecidableEq, Repr

/-- The difference of two record numbers as an `int`. -/
def recnoDiff (p q : UInt64) : Int := ((p - q).toNat : Int).bmod (2 ^ 32)

/-- The loop of `qcomp` over the parts of a composite key. -/
def qcompParts : List Cmbk → Key → Key → Int
  | [], _, _ => 0
  | k :: ks, pk, qk =>
    let r := if k.typ = .charctr then skcmp pk qk k.len else nkcmp pk qk
    if r ≠ 0 then r else qcompParts ks (pk.drop k.width) (qk.drop k.width)

/-- `qcomp`: 0 and all ones are the sentinels below and above all record numbers. -/
def qcomp (hdr : NdxHdr) (uniqueOn : Bool) (p q : VsortRec) (keylen keytyp : Nat) : Int :=
  if p.recNo = q.recNo then 0
  else if p.recNo = 0 ∨ q.recNo = -1 then -1
  else if q.recNo = 0 ∨ p.recNo = -1 then 1
  else
    let r := if keytyp = CMBK then qcompParts hdr.cmbkey p.key q.key
      else if keytyp ≠ 0 then nkcmp p.key q.key
      else skcmp p.key q.key keylen
    if r ≠ 0 then r else if uniqueOn then 0 else recnoDiff p.recNo q.recNo

/-! ## The order of the tree -/

/-- What `qcomp` gives in the sort of an index: `VSORT_CTL` has a byte for the type of the keys. -/
def sortQcomp (hdr : NdxHdr) (uniqueOn : Bool) (p q : VsortRec) : Int := qcomp hdr uniqueOn p q hdr.keylen (hdr.keytyp % 256)

/-- The comparison of the sort, UNIQUE off. -/
def sortCmp (hdr : NdxHdr) (p q : VsortRec) : Int := sortQcomp hdr false p q

/-- The order in which a tree is searched: by the keys, then by the record numbers. -/
def treeCmp (hdr : NdxHdr) (exactOn : Bool) (p q : VsortRec) : Int :=
  if keycmp hdr exactOn p.key q.key ≠ 0 then (keycmp hdr exactOn p.key q.key).sign else cmpOrd p.recNo.toNat q.recNo.toNat

/-- A strict total order of the records by their numbers and keys. -/
structure StrictTotal (hdr : NdxHdr) (S : Set VsortRec) : Prop where
  irrefl : ∀ p ∈ S, ¬sortCmp hdr p p < 0
  symm : ∀ p ∈ S, ∀ q ∈ S, sortCmp hdr p q < 0 ↔ 0 < sortCmp hdr q p
  trans : ∀ p ∈ S, ∀ q ∈ S, ∀ r ∈ S, sortCmp hdr p q < 0 → sortCmp hdr q r < 0 → sortCmp hdr p r < 0
  total : ∀ p ∈ S, ∀ q ∈ S, p.recNo ≠ q.recNo → sortCmp hdr p q < 0 ∨ sortCmp hdr q p < 0

/-- The parts of two keys are equal to their comparisons. -/
def partsEqual : List Cmbk → Key → Key → Prop
  | [], _, _ => True
  | k :: ks, p, q => partCmp k p q = 0 ∧ partsEqual ks (p.drop k.width) (q.drop k.width)

instance decidablePartsEqual : ∀ (ks : List Cmbk) (p q : Key), Decidable (partsEqual ks p q)
  | [], _, _ => inferInstanceAs (Decidable True)
  | _ :: ks, _, _ => @instDecidableAnd _ _ _ (decidablePartsEqual ks _ _)

/-- The difference of two record numbers keeps its sign in an `int`. -/
def DiffFits (p q : UInt64) : Prop :=
  (p < q → 0 < (q.toNat - p.toNat) % 2 ^ 32 ∧ (q.toNat - p.toNat) % 2 ^ 32 ≤ 2 ^ 31) ∧
    (q < p → 0 < (p.toNat - q.toNat) % 2 ^ 32 ∧ (p.toNat - q.toNat) % 2 ^ 32 < 2 ^ 31)

/-- Record numbers of a table: no sentinels, and each of one record. -/
structure Recnos (S : Set VsortRec) : Prop where
  ne_zero : ∀ p ∈ S, p.recNo ≠ 0
  ne_max : ∀ p ∈ S, p.recNo ≠ -1
  inj : ∀ p ∈ S, ∀ q ∈ S, p.recNo = q.recNo → p.key = q.key

/-! ## Equal keys -/

section Qcomp

variable {hdr : NdxHdr} {exactOn : Bool} {S : Set VsortRec} {p q : VsortRec}

theorem keycmpParts_zero (ks : List Cmbk) (a b : Key) : keycmpParts false ks a b = 0 ↔ partsEqual ks a b := by
  induction ks generalizing a b with
  | nil => exact iff_of_true rfl trivial
  | cons k ks ih =>
    unfold keycmpParts partsEqual partCmp
    dsimp only
    split_ifs with h h'
    · exact ⟨fun h0 => absurd h0 h', fun h0 => h0.1⟩
    · rw [ih]
      exact (and_iff_right (not_not.mp h')).symm
    · exact ⟨fun h0 => absurd h0 ‹_›, fun h0 => h0.1⟩
    · rw [ih]
      exact (and_iff_right (not_not.mp ‹_›)).symm

/-- A comparison of keys by a byte of their type. -/
def sortKeycmp (hdr : NdxHdr) (a b : Key) : Int := if hdr.keytyp % 256 ≠ 0 then nkcmp a b else skcmp a b hdr.keylen

/-- But for composite keys, the byte is the type. -/
theorem sortKeycmp_of_lt (hlt : hdr.keytyp < 256) (a b : Key) : sortKeycmp hdr a b = keycmp hdr false a b := by
  have hc : hdr.keytyp ≠ CMBK := by
    change _ ≠ 256
    omega
  rw [sortKeycmp, Nat.mod_eq_of_lt hlt, keycmp, if_pos hc]

theorem skcmpRest_self (n : Nat) (p : Key) : skcmpRest p p n = 0 := by
  induction n generalizing p with
  | zero => simp [skcmpRest]
  | succ n ih =>
    cases p with
    | nil => rfl
    | cons a p =>
      rw [skcmpRest, if_neg (UInt8.lt_irrefl a), if_neg (UInt8.lt_irrefl a), ih, ite_self]

theorem skcmp_self (n : Nat) (p : Key) : skcmp p p n = 0 := by
  cases n with
  | zero => simp [skcmp]
  | succ n =>
    cases p with
    | nil => rfl
    | cons a p => rw [skcmp, if_neg (UInt8.lt_irrefl a), if_neg (UInt8.lt_irrefl a), skcmpRest_self]

theorem nkcmp_self (p : Key) : nkcmp p p = 0 := by
  rw [nkcmp, numRel_real]
  exact if_pos (by simp [isequal])

/-- A key is equal to itself, part by part. -/
theorem partsEqual_self (ks : List Cmbk) (p : Key) : partsEqual ks p p := by
  induction ks generalizing p with
  | nil => trivial
  | cons k ks ih =>
    refine ⟨?_, ih _⟩
    unfold partCmp
    split
    · exact skcmp_self _ p
    · exact nkcmp_self p

/-- With EXACT equal composite keys compare as 1, and all others as without. -/
theorem keycmpParts_exact (ks : List Cmbk) (a b : Key) :
    keycmpParts true ks a b = if keycmpParts false ks a b = 0 then 1 else keycmpParts false ks a b := by
  induction ks generalizing a b with
  | nil => rfl
  | cons k ks ih =>
    unfold keycmpParts
    dsimp only
    rw [ih]
    split_ifs <;> simp_all

/-- `keycmp` with EXACT off. -/
theorem keycmp_false (hdr : NdxHdr) (a b : Key) : keycmp hdr false a b = keycmpParts false hdr.parts a b := by
  rw [keycmp_parts]
  split <;> rfl

/-- With EXACT, only equal composite keys compare differently. -/
theorem keycmp_exact (hdr : NdxHdr) (exactOn : Bool) (a b : Key) : keycmp hdr exactOn a b =
    if hdr.keytyp = CMBK ∧ exactOn = true ∧ partsEqual hdr.parts a b then 1 else keycmp hdr false a b := by
  rw [keycmp_false, keycmp_parts]
  by_cases hc : hdr.keytyp = CMBK
  · rw [if_pos hc]
    cases exactOn with
    | false => simp
    | true =>
      rw [keycmpParts_exact]
      by_cases heq : partsEqual hdr.parts a b
      · rw [if_pos ((keycmpParts_zero _ a b).mpr heq), if_pos ⟨hc, rfl, heq⟩]
      · rw [if_neg (mt (keycmpParts_zero _ a b).mp heq), if_neg fun h => heq h.2.2]
  · rw [if_neg hc, if_neg fun h => hc h.1]

/-- The comparison of the sort on records of a table: that of the keys as the byte of their type says, then that of the numbers. -/
theorem sortCmp_eq (hS : Recnos S) (hp : p ∈ S) (hq : q ∈ S) : sortCmp hdr p q =
    if p.recNo = q.recNo then 0
    else if sortKeycmp hdr p.key q.key ≠ 0 then sortKeycmp hdr p.key q.key else recnoDiff p.recNo q.recNo := by
  have hlow : ∀ a ∈ S, ∀ b ∈ S, ¬(a.recNo = 0 ∨ b.recNo = -1) := by
    rintro a ha b hb (h | h)
    · exact hS.ne_zero a ha h
    · exact hS.ne_max b hb h
  have hbyte : hdr.keytyp % 256 ≠ CMBK := by
    change _ ≠ 256
    omega
  unfold sortCmp sortQcomp qcomp
  dsimp only
  rw [if_neg (hlow p hp q hq), if_neg (hlow q hq p hp), if_neg hbyte, if_neg (by decide : ¬false = true)]
  rfl

theorem toNat_sub_of_lt {a b : UInt64} (h : a < b) : (a - b).toNat = 2 ^ 64 - (b.toNat - a.toNat) := by
  have hlt := UInt64.lt_iff_toNat_lt.mp h
  have hb := b.toNat_lt
  rw [UInt64.toNat_sub]
  omega

/-- The sign of the difference of record numbers. -/
theorem recnoDiff_sign {a b : UInt64} (hne : a ≠ b) : (recnoDiff a b).sign = cmpOrd a.toNat b.toNat ↔ DiffFits a b := by
  have hne' : a.toNat ≠ b.toNat := fun h => hne (UInt64.toNat_inj.mp h)
  have ha := a.toNat_lt
  have hb := b.toNat_lt
  unfold recnoDiff DiffFits
  rw [UInt64.lt_iff_toNat_lt, UInt64.lt_iff_toNat_lt]
  rcases lt_or_gt_of_ne hne' with hlt | hlt
  · have hcmp : cmpOrd a.toNat b.toNat = -1 := by
      unfold cmpOrd
      rw [if_neg (by omega), if_pos hlt]
    rw [hcmp, Int.sign_eq_neg_one_iff_neg, toNat_sub_of_lt (UInt64.lt_iff_toNat_lt.mpr hlt), Int.bmod_def]
    constructor
    · intro h
      refine ⟨fun _ => ?_, fun h' => by omega⟩
      split_ifs at h <;> omega
    · rintro ⟨h, -⟩
      have h := h hlt
      split_ifs <;> omega
  · have hcmp : cmpOrd a.toNat b.toNat = 1 := if_pos hlt
    have hsub : (a - b).toNat = a.toNat - b.toNat := UInt64.toNat_sub_of_le _ _ (UInt64.le_iff_toNat_le.mpr hlt.le)
    rw [hcmp, Int.sign_eq_one_iff_pos, hsub, Int.bmod_def]
    constructor
    · intro h
      refine ⟨fun h' => by omega, fun _ => ?_⟩
      split_ifs at h <;> omega
    · rintro ⟨-, h⟩
      have h := h hlt
      split_ifs <;> omega

theorem DiffFits.ne_zero {a b : UInt64} (h : DiffFits a b) (hne : a ≠ b) : recnoDiff a b ≠ 0 := by
  intro h0
  have hs := (recnoDiff_sign hne).mpr h
  rw [h0, Int.sign_zero] at hs
  exact hne (UInt64.toNat_inj.mp (cmpOrd_zero.mp hs.symm))

/-- Without EXACT a record is beside itself in both orders. -/
theorem sign_self (hS : Recnos S) (hp : p ∈ S) (hq : q ∈ S) (hex : ¬(hdr.keytyp = CMBK ∧ exactOn = true)) (hrec : p.recNo = q.recNo) :
    (sortCmp hdr p q).sign = treeCmp hdr exactOn p q := by
  have hkey : keycmp hdr exactOn p.key q.key = 0 := by
    rw [keycmp_exact, if_neg fun h => hex ⟨h.1, h.2.1⟩, keycmp_false, keycmpParts_zero, hS.inj p hp q hq hrec]
    exact partsEqual_self _ _
  unfold treeCmp
  rw [sortCmp_eq hS hp hq, if_pos hrec, if_neg (not_not.mpr hkey), hrec, cmpOrd_self]
  rfl

/-- The two orders agree on two records with keys of one part, but for equal keys and a difference of record numbers that does not fit. -/
theorem sign_iff (hS : Recnos S) (hp : p ∈ S) (hq : q ∈ S) (hlt : hdr.keytyp < 256) :
    (sortCmp hdr p q).sign = treeCmp hdr exactOn p q ↔ (partsEqual hdr.parts p.key q.key → DiffFits p.recNo q.recNo) := by
  have hc : hdr.keytyp ≠ CMBK := by
    change _ ≠ 256
    omega
  have hzero := keycmpParts_zero hdr.parts p.key q.key
  rw [← keycmp_false] at hzero
  by_cases hrec : p.recNo = q.recNo
  · refine iff_of_true (sign_self hS hp hq (fun h => hc h.1) hrec) fun _ => ?_
    rw [hrec]
    exact ⟨fun h => absurd h (UInt64.lt_irrefl _), fun h => absurd h (UInt64.lt_irrefl _)⟩
  unfold treeCmp
  rw [sortCmp_eq hS hp hq, if_neg hrec, keycmp_exact, if_neg (fun h => hc h.1 : ¬(hdr.keytyp = CMBK ∧ _)), sortKeycmp_of_lt hlt]
  by_cases heq : keycmp hdr false p.key q.key = 0
  · rw [if_neg (not_not.mpr heq), if_neg (not_not.mpr heq), recnoDiff_sign hrec]
    exact ⟨fun h _ => h, fun h => h (hzero.mp heq)⟩
  · rw [if_pos heq, if_pos heq]
    exact iff_of_true rfl fun h => absurd (hzero.mpr h) heq

end Qcomp

/-! ## Records far apart -/

/-- A record with the key 1. -/
def sortRec (recNo : UInt64) : VsortRec := ⟨recNo, oneKey⟩

end Db3w
