/-
The order that `keycmp` gives keys. A key has a value for each part of its descriptor, and the
comparison ought to be the lexicographic order of the values. It is, up to two things: numbers that
are mirror images of each other are equal to `num_rel`, which compares absolute values; and with
EXACT the comparison of equal composite keys gives 1.
-/
import Mathlib.Data.Sum.Order
import Db3w.Ndx.CharKey

namespace Db3w

/-! ## Values of keys -/

/-- The value of a part: a number, or the bytes of a string. -/
abbrev PartVal := ℚ ⊕ₗ List ℕ

def partVal (k : Cmbk) (p : Key) : PartVal :=
  if k.typ = .charctr then toLex (.inr (bytes (p.take k.len))) else toLex (.inl (readDouble p))

/-- The values of the parts of a key. -/
def partVals : List Cmbk → Key → List PartVal
  | [], _ => []
  | k :: ks, p => partVal k p :: partVals ks (p.drop k.width)

/-- The parts that a descriptor gives a key. -/
def NdxHdr.parts (hdr : NdxHdr) : List Cmbk :=
  if hdr.keytyp ≠ CMBK then if hdr.keytyp ≠ 0 then [⟨.number, 8⟩] else [⟨.charctr, hdr.keylen⟩] else hdr.cmbkey

/-- A key of full length, of finite numbers and of strings without a NUL byte. -/
def FullKey : List Cmbk → Key → Prop
  | [], p => p = []
  | k :: ks, p => k.width ≤ p.length ∧ (if k.typ = .charctr then 0 ∉ p.take k.len else IsFinite p) ∧ FullKey ks (p.drop k.width)

/-- Two numbers are the same or differ by the tolerance of a comparison. -/
def NumApart (r q : ℚ) : Prop := r = q ∨ dblEpsilon * min (|r| + |q|) dblMax ≤ |r - q|

def PartApart (x y : PartVal) : Prop :=
  match ofLex x, ofLex y with
  | .inl r, .inl q => NumApart r q
  | _, _ => True

/-- The numbers have opposite signs, and absolute values within the tolerance. -/
def mirrored (r q : ℚ) : Bool := r * q < 0 ∧ |(|r| - |q|)| < dblEpsilon * min (|r| + |q|) dblMax

def mirroredPart (x y : PartVal) : Bool :=
  match ofLex x, ofLex y with
  | .inl r, .inl q => mirrored r q
  | _, _ => false

/-- The values of a key in the parts where those of another are no mirror images. -/
def keptVals : List PartVal → List PartVal → List PartVal
  | x :: xs, y :: ys => if mirroredPart x y then keptVals xs ys else x :: keptVals xs ys
  | _, _ => []

/-- The laws of the comparison of keys, on the keys `K`. -/
structure KeyOrder (hdr : NdxHdr) (exactOn : Bool) (K : Set Key) : Prop where
  refl : ∀ a ∈ K, keycmp hdr exactOn a a = 0
  symm : ∀ a ∈ K, ∀ b ∈ K, (keycmp hdr exactOn b a).sign = -(keycmp hdr exactOn a b).sign
  trans : ∀ a ∈ K, ∀ b ∈ K, ∀ c ∈ K, keycmp hdr exactOn a b ≤ 0 → keycmp hdr exactOn b c ≤ 0 → keycmp hdr exactOn a c ≤ 0
  lt_iff : ∀ a ∈ K, ∀ b ∈ K, keycmp hdr exactOn a b < 0 ↔ partVals hdr.parts a < partVals hdr.parts b

/-! ## Numbers -/

/-- A finite double is a multiple of the least one. -/
theorem readDouble_lattice (p : Key) : ∃ n : ℤ, readDouble p = n / 2 ^ 1074 := by
  have hpos : ∀ e m : ℕ, ∃ n : ℤ, (if e = 0 then (m : ℚ) / 2 ^ 1074 else (2 ^ 52 + (m : ℚ)) * 2 ^ e / 2 ^ 1075) = (n : ℚ) / 2 ^ 1074 := by
    intro e m
    rcases e with _ | e
    · exact ⟨m, by rw [if_pos rfl, Int.cast_natCast]⟩
    · refine ⟨(2 ^ 52 + m) * 2 ^ e, ?_⟩
      rw [if_neg (Nat.succ_ne_zero e), show (2 : ℚ) ^ 1075 = 2 ^ 1074 * 2 from pow_succ 2 1074, pow_succ]
      push_cast
      field_simp
      ring
  obtain ⟨n, hn⟩ := hpos (doubleBits p / 2 ^ 52 % 2 ^ 11) (doubleBits p % 2 ^ 52)
  have hread : readDouble p = if doubleBits p / 2 ^ 63 = 0 then (n : ℚ) / 2 ^ 1074 else -((n : ℚ) / 2 ^ 1074) := by
    rw [← hn]
    rfl
  rw [hread]
  split_ifs with hs
  · exact ⟨n, rfl⟩
  · exact ⟨-n, by rw [Int.cast_neg, neg_div]⟩

theorem mirrored_comm (r q : ℚ) : mirrored q r = mirrored r q := by
  unfold mirrored
  rw [mul_comm, abs_sub_comm, add_comm]

theorem mirrored_self (r : ℚ) : mirrored r r = false := by
  unfold mirrored
  simp [not_lt.mpr (mul_self_nonneg r)]

theorem NumApart.of_le {r q : ℚ} (h : dblEpsilon * (|r| + |q|) ≤ |r - q|) : NumApart r q :=
  Or.inr ((mul_le_mul_of_nonneg_left (min_le_left ..) (by unfold dblEpsilon; positivity)).trans h)

theorem NumApart.refl (r : ℚ) : NumApart r r := Or.inl rfl

/-- Numbers that are not the same are equal to a comparison when they are mirror images. -/
theorem isequal_iff {r q : ℚ} (hr : ∃ n : ℤ, r = n / 2 ^ 1074) (hq : ∃ n : ℤ, q = n / 2 ^ 1074) (hap : NumApart r q) :
    isequal r q = true ↔ r = q ∨ mirrored r q = true := by
  by_cases heq : r = q
  · simp [isequal, heq]
  have hap := hap.resolve_left heq
  have hsum : 0 < |r| + |q| := by
    rcases eq_or_ne r 0 with rfl | h0
    · rw [abs_zero, zero_add]
      exact abs_pos.mpr (Ne.symm heq)
    · exact add_pos_of_pos_of_nonneg (abs_pos.mpr h0) (abs_nonneg q)
  have hmin : 0 < min (|r| + |q|) dblMax := lt_min hsum (by unfold dblMax; norm_num)
  -- below the least double only equal absolute values differ
  have hsmall : |(|r| - |q|)| < dblEpsilon * dblMin → |(|r| - |q|)| < dblEpsilon * min (|r| + |q|) dblMax := by
    intro h
    have h0 : |(|r| - |q|)| = 0 := by
      obtain ⟨n, rfl⟩ := hr
      obtain ⟨m, rfl⟩ := hq
      have hpos : (0 : ℚ) < 2 ^ 1074 := by positivity
      have hstep : |(|(n : ℚ) / 2 ^ 1074| - |(m : ℚ) / 2 ^ 1074|)| = ((|(|n| - |m|)| : ℤ) : ℚ) / 2 ^ 1074 := by
        rw [abs_div, abs_div, abs_of_pos hpos, ← sub_div, abs_div, abs_of_pos hpos]
        push_cast
        rfl
      have heps : dblEpsilon * dblMin = 1 / 2 ^ 1074 := by
        rw [dblEpsilon, dblMin, div_mul_div_comm, one_mul, ← pow_add]
      rw [hstep, heps, div_lt_div_iff_of_pos_right hpos] at h
      have h1 : |(|n| - |m|)| < 1 := by exact_mod_cast h
      rw [hstep, Int.abs_lt_one_iff.mp h1, abs_zero, Int.cast_zero, zero_div]
    rw [h0]
    exact mul_pos (by unfold dblEpsilon; positivity) hmin
  have hone : isequal r q = true ↔ |(|r| - |q|)| < dblEpsilon * min (|r| + |q|) dblMax := by
    unfold isequal
    simp only [Bool.or_eq_true, Bool.and_eq_true, decide_eq_true_eq, heq, false_or, div_lt_iff₀ hmin]
    constructor
    · rintro (⟨-, h⟩ | h)
      · exact hsmall h
      · exact h
    · exact Or.inr
  rw [hone, mirrored]
  simp only [heq, false_or, decide_eq_true_eq]
  constructor
  · intro h
    refine ⟨?_, h⟩
    -- of one sign the absolute values differ as much as the numbers
    by_contra hsign
    have hsame : |(|r| - |q|)| = |r - q| := by
      rcases le_total 0 r with hr | hr <;> rcases le_total 0 q with hq | hq
      · rw [abs_of_nonneg hr, abs_of_nonneg hq]
      · rcases eq_or_lt_of_le hr with rfl | hr
        · rw [abs_zero, zero_sub, abs_neg, abs_abs, zero_sub, abs_neg]
        · rcases eq_or_lt_of_le hq with rfl | hq
          · rw [abs_zero, sub_zero, abs_abs, sub_zero]
          · exact absurd (mul_neg_of_pos_of_neg hr hq) hsign
      · rcases eq_or_lt_of_le hq with rfl | hq
        · rw [abs_zero, sub_zero, abs_abs, sub_zero]
        · rcases eq_or_lt_of_le hr with rfl | hr
          · rw [abs_zero, zero_sub, abs_neg, abs_abs, zero_sub, abs_neg]
          · exact absurd (mul_neg_of_neg_of_pos hr hq) hsign
      · rw [abs_of_nonpos hr, abs_of_nonpos hq, neg_sub_neg, abs_sub_comm]
    rw [hsame] at h
    exact absurd hap (not_le.mpr h)
  · exact And.right

/-! ## The comparison of a part -/

theorem skcmpRest_take : ∀ (n : Nat) (p q : Key), skcmpRest p q n = skcmpRest (p.take n) (q.take n) n
  | 0, _, _ => by simp [skcmpRest]
  | n + 1, a :: p, b :: q => by
    rw [List.take_succ_cons, List.take_succ_cons, skcmpRest, skcmpRest, skcmpRest_take n p q]
  | n + 1, [], _ => by simp [skcmpRest]
  | n + 1, a :: p, [] => by simp [skcmpRest]

/-- Only the bytes of the part are compared. -/
theorem skcmp_take (n : Nat) (p q : Key) : skcmp p q n = skcmp (p.take n) (q.take n) n := by
  match n, p, q with
  | 0, _, _ => simp [skcmp]
  | n + 1, a :: p, b :: q => rw [List.take_succ_cons, List.take_succ_cons, skcmp, skcmp, skcmpRest_take]
  | n + 1, [], _ => simp [skcmp]
  | n + 1, a :: p, [] => simp [skcmp]

theorem cmpOrd_inr (s t : List ℕ) : cmpOrd (toLex (.inr s) : PartVal) (toLex (.inr t)) = cmpOrd s t :=
  cmpOrd_map (f := fun s => (toLex (.inr s) : PartVal)) (fun _ _ => Sum.Lex.inr_lt_inr_iff) s t

theorem cmpOrd_inl (r q : ℚ) : cmpOrd (toLex (.inl r) : PartVal) (toLex (.inl q)) = cmpOrd r q :=
  cmpOrd_map (f := fun r => (toLex (.inl r) : PartVal)) (fun _ _ => Sum.Lex.inl_lt_inl_iff) r q

/-- Numbers compare as they are ordered, but for mirror images. -/
theorem nkcmp_eq {p q : Key} (hap : NumApart (readDouble p) (readDouble q)) :
    nkcmp p q = if mirrored (readDouble p) (readDouble q) then 0 else cmpOrd (readDouble p) (readDouble q) := by
  have hiff := isequal_iff (readDouble_lattice p) (readDouble_lattice q) hap
  rw [nkcmp, numRel_real]
  generalize readDouble p = r at *
  generalize readDouble q = q at *
  by_cases hm : mirrored r q = true
  · rw [if_pos (hiff.mpr (Or.inr hm)), if_pos hm]
  rw [if_neg hm]
  by_cases heq : r = q
  · rw [if_pos (hiff.mpr (Or.inl heq)), heq, cmpOrd_self]
  · rw [if_neg fun h => (hiff.mp h).elim heq hm, cmpOrd]
    rcases lt_or_gt_of_ne heq with hlt | hlt
    · rw [if_neg (not_lt.mpr hlt.le), if_neg (not_lt.mpr hlt.le), if_pos hlt]
    · rw [if_pos hlt, if_pos hlt]

/-- What `keycmp` does with a part of two keys. -/
def partCmp (k : Cmbk) (p q : Key) : Int := if k.typ = .charctr then skcmp p q k.len else nkcmp p q

theorem partCmp_eq {k : Cmbk} {ks : List Cmbk} {p q : Key} (hp : FullKey (k :: ks) p) (hq : FullKey (k :: ks) q)
    (hap : PartApart (partVal k p) (partVal k q)) :
    partCmp k p q = if mirroredPart (partVal k p) (partVal k q) then 0 else cmpOrd (partVal k p) (partVal k q) := by
  obtain ⟨hlp, hvp, -⟩ := hp
  obtain ⟨hlq, -, -⟩ := hq
  unfold partCmp partVal at *
  unfold Cmbk.width at hlp hlq
  by_cases hk : k.typ = .charctr
  · simp only [if_pos hk] at *
    have h0 : 0 ∉ (p.take k.len).tail := fun h => hvp (List.mem_of_mem_tail h)
    rw [if_neg (show ¬mirroredPart (toLex (.inr _)) (toLex (.inr _)) = true from Bool.false_ne_true), cmpOrd_inr, skcmp_take,
      skcmp_eq (List.length_take_of_le hlp) (List.length_take_of_le hlq) h0]
  · simp only [if_neg hk] at *
    rw [cmpOrd_inl]
    exact nkcmp_eq hap

/-! ## The comparison of keys -/

section Parts

variable {x y : List PartVal} {ks : List Cmbk} {a b : Key}

theorem mirroredPart_comm (x y : PartVal) : mirroredPart y x = mirroredPart x y := by
  unfold mirroredPart
  rcases ofLex x with r | s <;> rcases ofLex y with q | t
  · exact mirrored_comm r q
  all_goals rfl

theorem mirroredPart_self (x : PartVal) : mirroredPart x x = false := by
  unfold mirroredPart
  rcases ofLex x with r | s
  · exact mirrored_self r
  · rfl

theorem keptVals_self : ∀ x : List PartVal, keptVals x x = x
  | [] => rfl
  | x :: xs => by rw [keptVals, if_neg (by rw [mirroredPart_self]; exact Bool.false_ne_true), keptVals_self xs]

/-- The comparison of the parts is that of the values kept. -/
theorem keycmpParts_eq (exactOn : Bool) : ∀ {ks : List Cmbk} {a b : Key}, FullKey ks a → FullKey ks b →
    List.Forall₂ PartApart (partVals ks a) (partVals ks b) →
    keycmpParts exactOn ks a b =
      if keptVals (partVals ks a) (partVals ks b) = keptVals (partVals ks b) (partVals ks a) then if exactOn then 1 else 0
      else cmpOrd (keptVals (partVals ks a) (partVals ks b)) (keptVals (partVals ks b) (partVals ks a))
  | [], a, b, _, _, _ => by simp [keycmpParts, partVals, keptVals]
  | k :: ks, a, b, ha, hb, hap => by
    obtain ⟨hhead, htail⟩ := List.forall₂_cons.mp hap
    have ih := keycmpParts_eq exactOn ha.2.2 hb.2.2 htail
    have hcmp := partCmp_eq ha hb hhead
    rw [keycmpParts]
    simp only [partVals, keptVals, mirroredPart_comm (partVal k a) (partVal k b)] at *
    unfold partCmp at hcmp
    rw [hcmp, ih]
    by_cases hm : mirroredPart (partVal k a) (partVal k b) = true
    · simp only [if_pos hm, ne_eq, not_true, if_false]
    · simp only [if_neg hm, cmpOrd_cons]
      by_cases heq : partVal k a = partVal k b
      · rw [heq, cmpOrd_self]
        simp
      · have hne : cmpOrd (partVal k a) (partVal k b) ≠ 0 := fun h => heq (cmpOrd_zero.mp h)
        simp [hne, heq]

theorem keycmp_parts (hdr : NdxHdr) (exactOn : Bool) (a b : Key) : keycmp hdr exactOn a b =
    if hdr.keytyp = CMBK then keycmpParts exactOn hdr.parts a b else keycmpParts false hdr.parts a b := by
  unfold keycmp NdxHdr.parts
  by_cases hc : hdr.keytyp = CMBK
  · rw [if_neg (not_not.mpr hc), if_pos hc, if_neg (not_not.mpr hc)]
  · rw [if_pos hc, if_neg hc, if_pos hc]
    by_cases h0 : hdr.keytyp = 0
    · rw [if_neg (not_not.mpr h0), if_neg (not_not.mpr h0)]
      simp [keycmpParts]
    · rw [if_pos h0, if_pos h0]
      simp [keycmpParts]

end Parts

variable {hdr : NdxHdr} {exactOn : Bool} {K : Set Key}

/-- **The comparison of keys is their order**, but for composite keys with EXACT, and where numbers
that are mirror images decide. -/
theorem keyOrder_iff (hfull : ∀ a ∈ K, FullKey hdr.parts a)
    (hap : ∀ a ∈ K, ∀ b ∈ K, List.Forall₂ PartApart (partVals hdr.parts a) (partVals hdr.parts b)) :
    KeyOrder hdr exactOn K ↔ (hdr.keytyp = CMBK → exactOn = true → K = ∅) ∧
      ∀ a ∈ K, ∀ b ∈ K, partVals hdr.parts a < partVals hdr.parts b →
        keptVals (partVals hdr.parts a) (partVals hdr.parts b) < keptVals (partVals hdr.parts b) (partVals hdr.parts a) := by
  by_cases hex : hdr.keytyp = CMBK ∧ exactOn = true
  · -- a key is not even equal to itself
    obtain ⟨hc, rfl⟩ := hex
    have hself : ∀ a ∈ K, keycmp hdr true a a = 1 := by
      intro a ha
      rw [keycmp_parts, if_pos hc, keycmpParts_eq true (hfull a ha) (hfull a ha) (hap a ha a ha), if_pos rfl]
      rfl
    constructor
    · intro h
      have hK : K = ∅ := by
        refine Set.eq_empty_of_forall_notMem fun a ha => ?_
        have := h.refl a ha
        rw [hself a ha] at this
        exact absurd this one_ne_zero
      exact ⟨fun _ _ => hK, by simp [hK]⟩
    · rintro ⟨hK, -⟩
      obtain rfl := hK hc rfl
      constructor <;> simp
  have hcmp : ∀ a ∈ K, ∀ b ∈ K, keycmp hdr exactOn a b =
      cmpOrd (keptVals (partVals hdr.parts a) (partVals hdr.parts b)) (keptVals (partVals hdr.parts b) (partVals hdr.parts a)) := by
    intro a ha b hb
    have hfalse : keycmp hdr exactOn a b = keycmpParts false hdr.parts a b := by
      rw [keycmp_parts]
      by_cases hc : hdr.keytyp = CMBK
      · rw [if_pos hc, Bool.eq_false_iff.mpr fun h => hex ⟨hc, h⟩]
      · rw [if_neg hc]
    rw [hfalse, keycmpParts_eq false (hfull a ha) (hfull b hb) (hap a ha b hb)]
    by_cases heq : keptVals (partVals hdr.parts a) (partVals hdr.parts b) = keptVals (partVals hdr.parts b) (partVals hdr.parts a)
    · rw [if_pos heq, heq, cmpOrd_self, if_neg Bool.false_ne_true]
    · rw [if_neg heq]
  have hsym : ∀ a ∈ K, ∀ b ∈ K, keycmp hdr exactOn b a = -keycmp hdr exactOn a b := by
    intro a ha b hb
    rw [hcmp a ha b hb, hcmp b hb a ha, cmpOrd_swap]
  constructor
  · intro h
    refine ⟨fun hc he => absurd ⟨hc, he⟩ hex, fun a ha b hb hlt => ?_⟩
    have hneg := (h.lt_iff a ha b hb).mpr hlt
    rwa [hcmp a ha b hb, cmpOrd_neg] at hneg
  · rintro ⟨-, h⟩
    have hlt : ∀ a ∈ K, ∀ b ∈ K, keycmp hdr exactOn a b < 0 ↔ partVals hdr.parts a < partVals hdr.parts b := by
      intro a ha b hb
      rw [hcmp a ha b hb, cmpOrd_neg]
      refine ⟨fun hlt => ?_, h a ha b hb⟩
      rcases lt_trichotomy (partVals hdr.parts a) (partVals hdr.parts b) with hv | hv | hv
      · exact hv
      · rw [hv] at hlt
        exact absurd hlt (lt_irrefl _)
      · exact absurd hlt (h b hb a ha hv).not_gt
    -- at most 0 is what the reverse is not below
    have hle : ∀ a ∈ K, ∀ b ∈ K, keycmp hdr exactOn a b ≤ 0 ↔ partVals hdr.parts a ≤ partVals hdr.parts b := by
      intro a ha b hb
      rw [← not_lt, ← not_lt, ← hlt b hb a ha, hsym a ha b hb]
      omega
    refine ⟨fun a ha => ?_, fun a ha b hb => ?_, fun a ha b hb c hc hab hbc => ?_, hlt⟩
    · rw [hcmp a ha a ha, cmpOrd_self]
    · rw [hsym a ha b hb, Int.sign_neg]
    · exact (hle a ha c hc).mpr (((hle a ha b hb).mp hab).trans ((hle b hb c hc).mp hbc))

/-! ## Two keys -/

def numberHdr : NdxHdr := ⟨1, 2, 8, 50, 1, []⟩
def pairHdr : NdxHdr := ⟨1, 2, 9, 50, CMBK, [⟨.charctr, 1⟩, ⟨.number, 8⟩]⟩

/-- The doubles 1, 2 and -1. -/
def oneKey : Key := [0, 0, 0, 0, 0, 0, 0xf0, 0x3f]
def twoKey : Key := [0, 0, 0, 0, 0, 0, 0, 0x40]
def minusOneKey : Key := [0, 0, 0, 0, 0, 0, 0xf0, 0xbf]

theorem fullKey_number {p : Key} (hl : p.length = 8) (hf : IsFinite p) : FullKey numberHdr.parts p :=
  ⟨hl.ge, hf, List.drop_of_length_le hl.le⟩

theorem partVals_number (p : Key) : partVals numberHdr.parts p = [toLex (.inl (readDouble p))] := rfl

/-- The numbers 1 and 2 are ordered. -/
theorem keyOrder_oneTwo : KeyOrder numberHdr false {oneKey, twoKey} := by
  have h1 : readDouble oneKey = 1 := by decide +kernel
  have h2 : readDouble twoKey = 2 := by decide +kernel
  have hfull : ∀ a ∈ ({oneKey, twoKey} : Set Key), FullKey numberHdr.parts a := by
    rintro a (rfl | rfl)
    · exact fullKey_number rfl (by decide)
    · exact fullKey_number rfl (by decide)
  refine (keyOrder_iff hfull ?_).mpr ⟨fun h => absurd h (by decide), ?_⟩
  · rintro a (rfl | rfl) b (rfl | rfl) <;> simp only [partVals_number, h1, h2, List.forall₂_cons, List.Forall₂.nil, and_true] <;>
      first | exact NumApart.refl _ | exact NumApart.of_le (by norm_num [dblEpsilon])
  · rintro a (rfl | rfl) b (rfl | rfl) <;> simp only [partVals_number, h1, h2] <;> decide +kernel

/-- The numbers 1 and -1 are equal to the comparison, and a composite key is not equal to itself with EXACT. -/
theorem keyOrder_mirror :
    (∀ a ∈ ({oneKey, minusOneKey} : Set Key), FullKey numberHdr.parts a) ∧
    (∀ a ∈ ({oneKey, minusOneKey} : Set Key), ∀ b ∈ ({oneKey, minusOneKey} : Set Key),
      List.Forall₂ PartApart (partVals numberHdr.parts a) (partVals numberHdr.parts b)) ∧
    ¬KeyOrder numberHdr false {oneKey, minusOneKey} ∧ FullKey pairHdr.parts (65 :: oneKey) ∧
    ¬KeyOrder pairHdr true {65 :: oneKey} := by
  have h1 : readDouble oneKey = 1 := by decide +kernel
  have h2 : readDouble minusOneKey = -1 := by decide +kernel
  refine ⟨?_, ?_, ?_, ?_, ?_⟩
  · rintro a (rfl | rfl)
    · exact fullKey_number rfl (by decide)
    · exact fullKey_number rfl (by decide)
  · rintro a (rfl | rfl) b (rfl | rfl) <;> simp only [partVals_number, h1, h2, List.forall₂_cons, List.Forall₂.nil, and_true] <;>
      first | exact NumApart.refl _ | exact NumApart.of_le (by norm_num [dblEpsilon])
  · intro h
    have hlt := (h.lt_iff minusOneKey (by simp) oneKey (by simp)).mpr (by rw [partVals_number, partVals_number, h1, h2]; decide +kernel)
    exact absurd hlt (by decide +kernel)
  · exact ⟨by decide, by decide, by decide, by decide, rfl⟩
  · intro h
    have hself := h.refl (65 :: oneKey) rfl
    exact absurd hself (by decide +kernel)

end Db3w
