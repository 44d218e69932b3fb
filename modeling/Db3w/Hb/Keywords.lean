/-
The order of names, and the search for keywords (`kw_bin_srch` of misc.c). Names are compared by `namecmp`, which stops at
the length of the name looked for. For a keyword of four letters and more that is all there is to it, so that several
keywords may compare equal; the first of them is meant.
-/
import Mathlib.Data.Char
import Mathlib.Data.List.Lex
import Db3w.Hb.Names
import Db3w.Lib.Bisect

namespace Db3w

open Bisect

/-! ## The order of names -/

/-- A letter as names of a kind are compared. -/
def fold (type : Nat) (c : Char) : Char := if type = ID_FNAME then c else c.toUpper

def spelling (type : Nat) (s : Str) : Str := s.map (fold type)

instance (s : Str) : Decidable (IsStr s) := inferInstanceAs (Decidable (_ ∉ _))

instance (s : Str) : Decidable (NoWild s) := inferInstanceAs (Decidable (∀ _ ∈ _, _))

/-- The part of the known name that counts when a name of `len` letters is looked for. -/
def compared (type len : Nat) (s : Str) : Str :=
  if type = ID_VNAME ∨ type = ID_FNAME then spelling type s else (spelling type s).take len

section Order

variable {type : Nat} {s t : Str}

theorem isStr_cons {c : Char} (h : IsStr (c :: s)) : c ≠ '\x00' ∧ IsStr s := by
  unfold IsStr at h
  rw [List.mem_cons, not_or] at h
  exact ⟨fun hc => h.1 hc.symm, h.2⟩

theorem nul_lt {c : Char} (h : c ≠ '\x00') : '\x00' < c := by
  have hne : c.toNat ≠ 0 := fun h0 => h (Char.toNat_inj.mp h0)
  have hpos : 0 < c.toNat := Nat.pos_of_ne_zero hne
  exact hpos

theorem fold_ne_nul {c : Char} (h : c ≠ '\x00') : fold type c ≠ '\x00' := by
  unfold fold
  split_ifs
  · exact h
  · exact toUpper_ne_nul h

theorem sub_toNat_neg {c d : Char} : (c.toNat : Int) - d.toNat < 0 ↔ c < d := by
  have hlt : c < d ↔ c.toNat < d.toNat := Iff.rfl
  rw [hlt]
  omega

theorem sub_toNat_pos {c d : Char} : 0 < (c.toNat : Int) - d.toNat ↔ d < c := by
  have hlt : d < c ↔ d.toNat < c.toNat := Iff.rfl
  rw [hlt]
  omega

theorem compared_cons (len : Nat) (c : Char) (s : Str) : compared type (len + 1) (c :: s) = fold type c :: compared type len s := by
  unfold compared spelling
  split_ifs <;> rfl

theorem namecmpLoop_succ (len : Nat) (s t : Str) : namecmpLoop type (len + 1) s t = if chr s = '*' ∨ chr s = '?' then -1
    else if fold type (chr s) = fold type (chr t) then namecmpLoop type len s.tail t.tail
    else ((fold type (chr s)).toNat : Int) - (fold type (chr t)).toNat := rfl

theorem namecmpLoop_zero (s t : Str) : namecmpLoop type 0 s t = if type = ID_VNAME ∨ type = ID_FNAME then ((chr s).toNat : Int) else 0 := rfl

/-- Where the first letters differ, they decide. -/
theorem order_of_ne {c d : Char} (h : c ≠ d) (s t : Str) : ((c.toNat : Int) - d.toNat < 0 ↔ c :: s < d :: t) ∧ (0 < (c.toNat : Int) - d.toNat ↔ d :: t < c :: s) := by
  rw [sub_toNat_neg, sub_toNat_pos, List.cons_lt_cons_iff, List.cons_lt_cons_iff]
  constructor
  · exact ⟨Or.inl, fun h' => h'.resolve_right fun h' => h h'.1⟩
  · exact ⟨Or.inl, fun h' => h'.resolve_right fun h' => h h'.1.symm⟩

/-- The sign of `namecmp` is the order of the spellings, as far as they count. -/
theorem namecmpLoop_order (hwild : NoWild s) (hs : IsStr s) (ht : IsStr t) :
    (namecmpLoop type t.length s t < 0 ↔ compared type t.length s < spelling type t) ∧
      (0 < namecmpLoop type t.length s t ↔ spelling type t < compared type t.length s) := by
  induction t generalizing s with
  | nil =>
    rw [List.length_nil, namecmpLoop_zero]
    unfold compared
    split_ifs
    · cases s with
      | nil => simp [chr, spelling]
      | cons c s =>
        have hpos : 0 < c.toNat := nul_lt (isStr_cons hs).1
        simp [chr, spelling, hpos]
    · simp [spelling]
  | cons d t ih =>
    obtain ⟨hd, ht'⟩ := isStr_cons ht
    rw [List.length_cons, namecmpLoop_succ, show chr (d :: t) = d from rfl, show spelling type (d :: t) = fold type d :: spelling type t from rfl]
    cases s with
    | nil =>
      -- the known name has ended
      have hnul : fold type '\x00' = '\x00' := by
        unfold fold
        split_ifs <;> rfl
      have hlt : '\x00' < fold type d := nul_lt (fold_ne_nul hd)
      have hempty : compared type (t.length + 1) [] = [] := by
        unfold compared spelling
        split_ifs <;> rfl
      rw [show chr [] = '\x00' from rfl, if_neg (by decide), hnul, if_neg hlt.ne, hempty, sub_toNat_neg, sub_toNat_pos]
      constructor
      · simp [hlt]
      · simp [hlt.le]
    | cons c s =>
      obtain ⟨hc, hs'⟩ := isStr_cons hs
      obtain ⟨hw1, hw2⟩ := hwild c List.mem_cons_self
      obtain ⟨ih1, ih2⟩ := ih (fun e he => hwild e (List.mem_cons_of_mem _ he)) hs' ht'
      rw [show chr (c :: s) = c from rfl, if_neg (not_or.mpr ⟨hw1, hw2⟩), compared_cons]
      by_cases heq : fold type c = fold type d
      · rw [if_pos heq, List.tail_cons, List.tail_cons, heq]
        exact ⟨ih1.trans List.cons_lt_cons_self.symm, ih2.trans List.cons_lt_cons_self.symm⟩
      · rw [if_neg heq]
        exact order_of_ne heq _ _

theorem lt_of_take_lt {a b : Str} {n : Nat} (h : a.take n < b.take n) : a < b := by
  induction n generalizing a b with
  | zero => simp at h
  | succ n ih =>
    cases b with
    | nil => simp at h
    | cons d b =>
      cases a with
      | nil => exact List.nil_lt_cons _ _
      | cons c a =>
        rw [List.take_succ_cons, List.take_succ_cons, List.cons_lt_cons_iff] at h
        rw [List.cons_lt_cons_iff]
        exact h.imp_right fun h => ⟨h.1, ih h.2⟩

/-- Cutting keeps the order. -/
theorem cut_le_cut {a b : Str} (h : a ≤ b) (n : Nat) : a.take n ≤ b.take n :=
  not_lt.mp fun hlt => absurd (lt_of_take_lt hlt) (not_lt.mpr h)

end Order

/-! ## Keywords -/

/-- From a place that is meant to the first one of those next to it. -/
def shortest (cmp : Nat → Int) : Nat → Nat
  | 0 => 0
  | i + 1 => if cmp i ≠ 0 then i + 1 else shortest cmp i

/-- `namecmp` of the keyword at a place. -/
def kwcmp (keywords : List Str) (tok : Str) (i : Nat) : Int := namecmp (keywords.getD i []) tok tok.length KEYWORD

/-- `kw_bin_srch`. -/
def kwBinSrch (keywords : List Str) (tok : Str) (start end_ : Int) : Option Nat :=
  if tok = [] then none else (bisect (kwcmp keywords tok) start end_).map (shortest (kwcmp keywords tok))

/-- A keyword table: in the order of the upper-case spellings, and none twice. -/
structure KwTable where
  names : List Str
  sorted : names.Pairwise fun a b => chgcase a < chgcase b
  strs : ∀ k ∈ names, IsStr k

def isWordChar (c : Char) : Bool := c.isAlphanum || c = '_'

/-- A token of letters, digits and underscores. -/
structure Token where
  chars : Str
  ne : chars ≠ []
  word : ∀ c ∈ chars, isWordChar c = true

/-- The keyword a token stands for: the one that is spelled so, else, for at least four letters, the first that it begins. -/
def recognised (names : List Str) (tok : Str) : Option Nat :=
  match names.findIdx? fun k => chgcase k = chgcase tok with
  | some i => some i
  | none => if 4 ≤ tok.length then names.findIdx? fun k => chgcase tok <+: chgcase k else none

def KwRight (names : List Str) (tok : Str) : Prop := kwBinSrch names tok 0 (names.length - 1) = recognised names tok

section Keywords

variable {cmp : Nat → Int} {m n : Nat}

/-- The places that are meant are next to each other. -/
theorem zero_between (hz : Zoned cmp n) {j i : Nat} (hji : j ≤ i) (him : i ≤ m) (hm : m < n) (hj : cmp j = 0) (h0 : cmp m = 0) : cmp i = 0 := by
  by_contra hne
  rcases lt_or_gt_of_ne hne with hlt | hgt
  · have := hz.below j i hji (by omega) hlt
    omega
  · have := hz.above i m him hm hgt
    omega

theorem shortest_spec (hz : Zoned cmp n) (hm : m < n) (h0 : cmp m = 0) : cmp (shortest cmp m) = 0 ∧ ∀ j < shortest cmp m, cmp j ≠ 0 := by
  induction m with
  | zero => exact ⟨h0, fun j hj => absurd hj (Nat.not_lt_zero j)⟩
  | succ i ih =>
    unfold shortest
    split_ifs with hi
    · refine ⟨h0, fun j hj hj0 => hi ?_⟩
      exact zero_between hz (Nat.lt_succ_iff.mp hj) (Nat.le_succ i) hm hj0 h0
    · exact ih (by omega) (not_not.mp hi)

/-- What the search returns is the first place that is meant. -/
theorem search_first (hz : Zoned cmp n) : (bisect cmp 0 (n - 1)).map (shortest cmp) = (List.range n).find? fun i => cmp i = 0 := by
  by_cases hex : ∃ k < n, cmp k = 0
  · obtain ⟨k, hk, h0⟩ := hex
    obtain ⟨m, hm⟩ := bisect_complete hz (le_refl 0) (by omega) (by omega) (by omega : (k : Int) ≤ n - 1) h0
    obtain ⟨hm0, -, hle⟩ := bisect_some (le_refl 0) hm
    obtain ⟨hs0, hsj⟩ := shortest_spec hz (by omega) hm0
    rw [hm, Option.map_some, eq_comm, List.find?_range_eq_some]
    refine ⟨by simpa using hs0, ?_, fun j hj => by simpa using hsj j hj⟩
    rw [List.mem_range]
    by_contra hge
    exact hsj k (by omega) h0
  · push Not at hex
    have hnone : bisect cmp 0 (n - 1) = none := by
      by_contra hne
      obtain ⟨m, hm⟩ := Option.ne_none_iff_exists'.mp hne
      obtain ⟨hm0, -, hle⟩ := bisect_some (le_refl 0) hm
      exact hex m (by omega) hm0
    rw [hnone, Option.map_none, eq_comm, List.find?_eq_none]
    exact fun i hi => by simpa using hex i (List.mem_range.mp hi)

/-! The comparison, by the length of the token. -/

/-- The kind of name a token is compared as. -/
def kwType (tok : Str) : Nat := if tok.length < 4 then ID_VNAME else KEYWORD

variable {tok k : Str}

theorem kwType_ne (tok : Str) : kwType tok ≠ ID_FNAME := by
  unfold kwType
  split_ifs <;> decide

theorem spelling_kwType (tok s : Str) : spelling (kwType tok) s = chgcase s := by
  refine List.map_congr_left fun c _ => ?_
  exact if_neg (kwType_ne tok)

theorem namecmp_keyword (tok k : Str) : namecmp k tok tok.length KEYWORD = namecmpLoop (kwType tok) tok.length k tok := by
  simp [namecmp, kwType, KEYWORD]

/-- What of a keyword counts for a token. -/
def kwKey (tok k : Str) : Str := compared (kwType tok) tok.length k

theorem kwKey_short (h : tok.length < 4) : kwKey tok k = chgcase k := by
  unfold kwKey compared
  rw [spelling_kwType, if_pos (.inl (if_pos h))]

theorem kwKey_long (h : 4 ≤ tok.length) : kwKey tok k = (chgcase k).take tok.length := by
  unfold kwKey compared
  rw [spelling_kwType, if_neg]
  rw [kwType, if_neg (by omega)]
  decide

theorem kwKey_mono {a b : Str} (h : chgcase a ≤ chgcase b) : kwKey tok a ≤ kwKey tok b := by
  rcases Nat.lt_or_ge tok.length 4 with hlen | hlen
  · rwa [kwKey_short hlen, kwKey_short hlen]
  · rw [kwKey_long hlen, kwKey_long hlen]
    exact cut_le_cut h _

theorem namecmp_order (hwild : NoWild k) (hk : IsStr k) (ht : IsStr tok) :
    (namecmp k tok tok.length KEYWORD < 0 ↔ kwKey tok k < chgcase tok) ∧ (0 < namecmp k tok tok.length KEYWORD ↔ chgcase tok < kwKey tok k) := by
  rw [namecmp_keyword, ← spelling_kwType tok tok]
  exact namecmpLoop_order hwild hk ht

theorem namecmp_zero (hwild : NoWild k) (hk : IsStr k) (ht : IsStr tok) : namecmp k tok tok.length KEYWORD = 0 ↔ kwKey tok k = chgcase tok := by
  obtain ⟨h1, h2⟩ := namecmp_order hwild hk ht
  constructor
  · intro h
    rw [h] at h1 h2
    exact le_antisymm (not_lt.mp fun hlt => absurd (h2.mpr hlt) (lt_irrefl 0)) (not_lt.mp fun hlt => absurd (h1.mpr hlt) (lt_irrefl 0))
  · intro h
    rw [h] at h1 h2
    have hle := not_lt.mp fun hlt => lt_irrefl _ (h1.mp hlt)
    have hge := not_lt.mp fun hlt => lt_irrefl _ (h2.mp hlt)
    exact le_antisymm hge hle

theorem le_of_starts {a b : Str} (h : a <+: b) : a ≤ b := not_lt.mp (List.IsPrefix.le h)

theorem Token.isStr (t : Token) : IsStr t.chars := fun h => absurd (t.word _ h) (by decide)

end Keywords

namespace KwTable

variable (t : KwTable) (tok : Token)

theorem getD_eq {i : Nat} (h : i < t.names.length) : t.names.getD i [] = t.names[i] := by
  rw [List.getD_eq_getElem?_getD, List.getElem?_eq_getElem h]
  rfl

theorem le_of_le {i j : Nat} (hij : i ≤ j) (hj : j < t.names.length) : chgcase (t.names.getD i []) ≤ chgcase (t.names.getD j []) := by
  rcases Nat.eq_or_lt_of_le hij with rfl | hlt
  · exact le_refl _
  · rw [t.getD_eq (hlt.trans hj), t.getD_eq hj]
    exact (List.pairwise_iff_getElem.mp t.sorted i j (hlt.trans hj) hj hlt).le

variable {t tok} (hwild : ∀ k ∈ t.names, NoWild k)

include hwild

theorem kwcmp_order {i : Nat} (hi : i < t.names.length) :
    (kwcmp t.names tok.chars i < 0 ↔ kwKey tok.chars (t.names.getD i []) < chgcase tok.chars) ∧
      (0 < kwcmp t.names tok.chars i ↔ chgcase tok.chars < kwKey tok.chars (t.names.getD i [])) := by
  have hmem : t.names.getD i [] ∈ t.names := t.getD_eq hi ▸ List.getElem_mem hi
  exact namecmp_order (hwild _ hmem) (t.strs _ hmem) tok.isStr

theorem kwcmp_zero {i : Nat} (hi : i < t.names.length) : kwcmp t.names tok.chars i = 0 ↔ kwKey tok.chars t.names[i] = chgcase tok.chars := by
  rw [← t.getD_eq hi]
  have hmem : t.names.getD i [] ∈ t.names := t.getD_eq hi ▸ List.getElem_mem hi
  exact namecmp_zero (hwild _ hmem) (t.strs _ hmem) tok.isStr

theorem zoned : Zoned (kwcmp t.names tok.chars) t.names.length :=
  @zoned_of_monotone _ _ _ _ (fun i => kwKey tok.chars (t.names.getD i [])) (chgcase tok.chars) (fun _ _ hij hj => kwKey_mono (t.le_of_le hij hj))
    (fun _ hi => (kwcmp_order hwild hi).1) (fun _ hi => (kwcmp_order hwild hi).2)

end KwTable

/-- For a short token only the whole keyword counts, for a longer one its beginning. -/
theorem kwKey_eq_iff {tok k : Str} : kwKey tok k = chgcase tok ↔ if tok.length < 4 then chgcase k = chgcase tok else chgcase tok <+: chgcase k := by
  split_ifs with hlen
  · rw [kwKey_short hlen]
  · rw [kwKey_long (by omega), List.prefix_iff_eq_take, chgcase_length, eq_comm]

theorem kwKey_of_exact {tok k : Str} (h : chgcase k = chgcase tok) : kwKey tok k = chgcase tok := by
  rw [kwKey_eq_iff, h]
  split_ifs
  · rfl
  · exact List.prefix_refl _

theorem recognised_none {names : List Str} {tok : Str} (h : ∀ k ∈ names, kwKey tok k ≠ chgcase tok) : recognised names tok = none := by
  have hexact : (names.findIdx? fun k => chgcase k = chgcase tok) = none :=
    List.findIdx?_eq_none_iff.mpr fun k hk => by simpa using fun heq => h k hk (kwKey_of_exact heq)
  unfold recognised
  rw [hexact]
  dsimp only
  split_ifs with hlen
  · refine List.findIdx?_eq_none_iff.mpr fun k hk => ?_
    have hk := h k hk
    rw [Ne, kwKey_eq_iff, if_neg (by omega)] at hk
    simpa using hk
  · rfl

/-- The first keyword that compares equal is the exact one, if there is such a one. -/
theorem recognised_some {t : KwTable} {tok : Str} {i : Nat} (hi : i < t.names.length) (hkey : kwKey tok t.names[i] = chgcase tok)
    (hfirst : ∀ j (hj : j < i), kwKey tok (t.names.get ⟨j, hj.trans hi⟩) ≠ chgcase tok) : recognised t.names tok = some i := by
  unfold recognised
  by_cases hexact : chgcase t.names[i] = chgcase tok
  · have hsome : (t.names.findIdx? fun k => chgcase k = chgcase tok) = some i :=
      List.findIdx?_eq_some_iff_getElem.mpr ⟨hi, by simpa using hexact, fun j hj => by simpa using fun heq => hfirst j hj (kwKey_of_exact heq)⟩
    rw [hsome]
  · have hlen : ¬tok.length < 4 := fun hlt => hexact (by rwa [kwKey_eq_iff, if_pos hlt] at hkey)
    have hpre : chgcase tok <+: chgcase t.names[i] := by rwa [kwKey_eq_iff, if_neg hlen] at hkey
    have hnone : (t.names.findIdx? fun k => chgcase k = chgcase tok) = none := by
      refine List.findIdx?_eq_none_iff.mpr fun k hk => ?_
      obtain ⟨e, he, rfl⟩ := List.mem_iff_getElem.mp hk
      simp only [decide_eq_false_iff_not]
      intro heq
      rcases lt_trichotomy e i with hlt | rfl | hgt
      · exact hfirst e hlt (kwKey_of_exact heq)
      · exact hexact heq
      · -- an exact one further on would not be in order
        have hlt := List.pairwise_iff_getElem.mp t.sorted i e hi he hgt
        rw [heq] at hlt
        exact absurd hlt (not_lt.mpr (le_of_starts hpre))
    rw [hnone]
    dsimp only
    rw [if_pos (by omega)]
    refine List.findIdx?_eq_some_iff_getElem.mpr ⟨hi, by simpa using hpre, fun j hj => ?_⟩
    have hj := hfirst j hj
    rw [Ne, kwKey_eq_iff, if_neg hlen] at hj
    simpa using hj

/-- The search follows the rule of abbreviations. -/
theorem kw_right {t : KwTable} (hwild : ∀ k ∈ t.names, NoWild k) (tok : Token) : KwRight t.names tok.chars := by
  unfold KwRight kwBinSrch
  rw [if_neg tok.ne, search_first (KwTable.zoned hwild)]
  cases hfind : (List.range t.names.length).find? fun i => kwcmp t.names tok.chars i = 0 with
  | none =>
    refine (recognised_none fun k hk heq => ?_).symm
    obtain ⟨i, hi, rfl⟩ := List.mem_iff_getElem.mp hk
    have h := List.find?_eq_none.mp hfind i (List.mem_range.mpr hi)
    exact absurd ((KwTable.kwcmp_zero hwild hi).mpr heq) (by simpa using h)
  | some i =>
    obtain ⟨hzero, hmem, hfirst⟩ := List.find?_range_eq_some.mp hfind
    have hi := List.mem_range.mp hmem
    refine (recognised_some hi ((KwTable.kwcmp_zero hwild hi).mp (by simpa using hzero)) fun j hj heq => ?_).symm
    have h := hfirst j hj
    exact absurd ((KwTable.kwcmp_zero hwild (hj.trans hi)).mpr heq) (by simpa using h)

/-- Two keywords and an abbreviation. -/
theorem kw_right_two : KwRight [['A', 'B', 'S'], ['A', 'C', 'C', 'E', 'P', 'T']] ['a', 'c', 'c', 'e'] :=
  @kw_right ⟨[['A', 'B', 'S'], ['A', 'C', 'C', 'E', 'P', 'T']], by decide, by simp [IsStr]⟩ (by simp [NoWild])
    ⟨['a', 'c', 'c', 'e'], by decide, by simp only [← List.all_eq_true]; decide⟩

/-- A keyword with a wildcard is below every token. -/
theorem kw_wild : ∃ (t : KwTable) (tok : Token), ¬KwRight t.names tok.chars := by
  refine ⟨⟨[['A', '1'], ['A', '?'], ['A', '?', 'A']], by decide, by simp [IsStr]⟩,
    ⟨['A', '1'], by decide, by simp only [← List.all_eq_true]; decide⟩, ?_⟩
  have hnone : bisect (kwcmp [['A', '1'], ['A', '?'], ['A', '?', 'A']] ['A', '1']) 0 2 = none := by
    rw [bisect_up (by decide) (by decide), bisect_up (by decide) (by decide), bisect_empty (by decide)]
  have hsearch : kwBinSrch [['A', '1'], ['A', '?'], ['A', '?', 'A']] ['A', '1'] 0 2 = none := by
    unfold kwBinSrch
    rw [hnone]
    rfl
  intro h
  exact absurd (hsearch.symm.trans h) (by decide)

end Db3w
