/-
Comparisons with a fixed target along an ordered list. `cmpOrd` is the comparison of a linear order
as a sign; comparing with the elements of an ordered list gives falling signs. A comparison `c` is falling along a list
when its sign only goes down: first the elements below the target (`0 < c a`), then those equal
to it (`c a = 0`), then those above it (`c a < 0`). Searching an ordered sequence, and inserting
into one, only ever uses this sign pattern, so the order itself stays out of the search proofs.
-/
import Mathlib.Data.List.Basic
import Mathlib.Data.List.Pairwise
import Mathlib.Data.Prod.Lex

namespace Falling

variable {α β : Type} {c : α → Int} {L M : List α}

/-- `b` comes no earlier than `a` as the comparison `c` sees them. -/
def Le (c : α → Int) (a b : α) : Prop := (c a ≤ 0 → c b ≤ 0) ∧ (c a < 0 → c b < 0)

theorem Le.trans {a b d : α} (h1 : Le c a b) (h2 : Le c b d) : Le c a d :=
  ⟨fun h => h2.1 (h1.1 h), fun h => h2.2 (h1.2 h)⟩

theorem Le.pos {a b : α} (h : Le c a b) (hb : 0 < c b) : 0 < c a := by
  by_contra hn
  have := h.1 (by omega)
  omega

theorem Le.nonneg {a b : α} (h : Le c a b) (hb : 0 ≤ c b) : 0 ≤ c a := by
  by_contra hn
  have := h.2 (by omega)
  omega

end Falling

/-- The sign of `c` only goes down along `L`. -/
def Falling {α : Type} (c : α → Int) (L : List α) : Prop := L.Pairwise (Falling.Le c)

namespace Falling

variable {α β : Type} {c : α → Int} {L M : List α}

theorem append_iff : Falling c (L ++ M) ↔ Falling c L ∧ Falling c M ∧ ∀ a ∈ L, ∀ b ∈ M, Le c a b :=
  List.pairwise_append

theorem cons_iff {a : α} : Falling c (a :: L) ↔ (∀ b ∈ L, Le c a b) ∧ Falling c L := List.pairwise_cons

theorem left (h : Falling c (L ++ M)) : Falling c L := (append_iff.1 h).1

theorem right (h : Falling c (L ++ M)) : Falling c M := (append_iff.1 h).2.1

theorem across (h : Falling c (L ++ M)) {a b : α} (ha : a ∈ L) (hb : b ∈ M) : Le c a b :=
  (append_iff.1 h).2.2 a ha b hb

/-- A list whose last element is below the target is below it throughout. -/
theorem pos_of_getLast (h : Falling c L) {e : α} (he : L.getLast? = some e) (hc : 0 < c e) :
    ∀ a ∈ L, 0 < c a := by
  obtain ⟨M, rfl⟩ := List.getLast?_eq_some_iff.1 he
  intro a ha
  rcases List.mem_append.1 ha with hM | hl
  · exact (h.across hM (List.mem_singleton_self e)).pos hc
  · rw [List.mem_singleton.1 hl]; exact hc

/-- What follows an element not below the target is not below it either. -/
theorem nonpos_of_getLast (h : Falling c (L ++ M)) {e : α} (he : L.getLast? = some e) (hc : c e ≤ 0) :
    ∀ b ∈ M, c b ≤ 0 :=
  fun _ hb => (h.across (List.mem_of_getLast? he) hb).1 hc

theorem neg_of_getLast (h : Falling c (L ++ M)) {e : α} (he : L.getLast? = some e) (hc : c e < 0) :
    ∀ b ∈ M, c b < 0 :=
  fun _ hb => (h.across (List.mem_of_getLast? he) hb).2 hc

/-- The three runs of a falling list. -/
theorem split : ∀ {L : List α}, Falling c L →
    ∃ P Z N, L = P ++ Z ++ N ∧ (∀ a ∈ P, 0 < c a) ∧ (∀ a ∈ Z, c a = 0) ∧ ∀ a ∈ N, c a < 0
  | [], _ => ⟨[], [], [], rfl, by simp, by simp, by simp⟩
  | a :: L, h => by
    obtain ⟨ha, hL⟩ := cons_iff.1 h
    obtain ⟨P, Z, N, rfl, hP, hZ, hN⟩ := hL.split
    rcases Int.lt_trichotomy (c a) 0 with hlt | heq | hgt
    · refine ⟨[], [], a :: (P ++ Z ++ N), rfl, by simp, by simp, ?_⟩
      rintro b (_ | ⟨_, hb⟩)
      · exact hlt
      · exact (ha b hb).2 hlt
    · have hnil : P = [] := by
        rcases P with _ | ⟨p, P⟩
        · rfl
        · have h1 := hP p List.mem_cons_self
          have h2 := (ha p (by simp)).1 (by omega)
          omega
      subst hnil
      exact ⟨[], a :: Z, N, by simp, by simp, by simpa [heq] using hZ, hN⟩
    · exact ⟨a :: P, Z, N, by simp, by simpa [hgt] using hP, hZ, hN⟩

theorem filter_pos {P R : List α} (hP : ∀ a ∈ P, 0 < c a) (hR : ∀ a ∈ R, c a < 0) : (P ++ R).filter (0 < c ·) = P := by
  rw [List.filter_append, List.filter_eq_self.2 (by simpa using hP), List.filter_eq_nil_iff.2 (fun a ha => by
    have := hR a ha
    simp only [decide_eq_true_eq]
    omega), List.append_nil]

/-- The place of a target that is not in the list is unique. -/
theorem pos_neg_unique {P R P' R' : List α} (h : P ++ R = P' ++ R') (hP : ∀ a ∈ P, 0 < c a) (hR : ∀ a ∈ R, c a < 0)
    (hP' : ∀ a ∈ P', 0 < c a) (hR' : ∀ a ∈ R', c a < 0) : P = P' ∧ R = R' := by
  have hPP : P = P' := by rw [← filter_pos hP hR, h, filter_pos hP' hR']
  subst hPP
  exact ⟨rfl, List.append_cancel_left h⟩

/-! An element that is not below the target, after elements that are: where it can be in a list
that is given in two pieces. -/

section Position

variable {P R K X Y M' : List α} {x y : α}

/-- The first element not below the target is unique. -/
theorem first_unique (h : P ++ y :: R = L ++ x :: M) (hP : ∀ a ∈ P, 0 < c a) (hy : c y ≤ 0) (hL : ∀ a ∈ L, 0 < c a)
    (hx : c x ≤ 0) : P = L ∧ y = x ∧ R = M := by
  rcases List.append_eq_append_iff.1 h with ⟨K, rfl, h2⟩ | ⟨K, rfl, h2⟩
  · rcases K with _ | ⟨z, K⟩
    · simpa using h2
    · obtain ⟨rfl, -⟩ := List.cons.inj h2
      have := hL y (by simp)
      omega
  · rcases K with _ | ⟨z, K⟩
    · simpa [eq_comm] using h2
    · obtain ⟨rfl, -⟩ := List.cons.inj h2
      have := hP x (by simp)
      omega

/-- It comes after a piece that is below the target throughout. -/
theorem past (h : X ++ Y = L ++ x :: M) (hX : ∀ a ∈ X, 0 < c a) (hx : c x ≤ 0) : ∃ L', L = X ++ L' ∧ Y = L' ++ x :: M := by
  rcases List.append_eq_append_iff.1 h with ⟨K, rfl, h2⟩ | ⟨K, rfl, h2⟩
  · exact ⟨K, rfl, h2⟩
  · rcases K with _ | ⟨z, K⟩
    · exact ⟨[], by simp, by simpa using h2.symm⟩
    · obtain ⟨rfl, -⟩ := List.cons.inj h2
      have := hX x (by simp)
      omega

/-- It is in a piece whose last element is not below the target. -/
theorem within (h : X ++ Y = L ++ x :: M) (hX : Y ≠ [] → ∃ y, X.getLast? = some y ∧ c y ≤ 0) (hL : ∀ a ∈ L, 0 < c a) :
    ∃ M', X = L ++ x :: M' ∧ M = M' ++ Y := by
  have hno : Y ≠ [] → ¬∃ K, L = X ++ K := by
    rintro hY ⟨K, rfl⟩
    obtain ⟨y, hy, hle⟩ := hX hY
    have := hL y (List.mem_append_left _ (List.mem_of_getLast? hy))
    omega
  rcases List.append_eq_append_iff.1 h with ⟨K, hK, rfl⟩ | ⟨K, rfl, h2⟩
  · exact absurd ⟨K, hK⟩ (hno (by simp))
  · rcases K with _ | ⟨z, K⟩
    · exact absurd ⟨[], by simp⟩ (hno (by rintro rfl; simp at h2))
    · obtain ⟨rfl, rfl⟩ := List.cons.inj h2
      exact ⟨K, rfl, rfl⟩

end Position

/-! ## The runs of a list -/

/-- The elements below the target. -/
def below (c : α → Int) (L : List α) : List α := L.filter (0 < c ·)

/-- The elements equal to the target. -/
def equal (c : α → Int) (L : List α) : List α := L.filter (c · = 0)

/-- The elements above the target. -/
def above (c : α → Int) (L : List α) : List α := L.filter (c · < 0)

@[simp] theorem below_append : below c (L ++ M) = below c L ++ below c M := List.filter_append ..
@[simp] theorem equal_append : equal c (L ++ M) = equal c L ++ equal c M := List.filter_append ..
@[simp] theorem above_append : above c (L ++ M) = above c L ++ above c M := List.filter_append ..

@[simp] theorem mem_below {a : α} : a ∈ below c L ↔ a ∈ L ∧ 0 < c a := by simp [below]
@[simp] theorem mem_equal {a : α} : a ∈ equal c L ↔ a ∈ L ∧ c a = 0 := by simp [equal]
@[simp] theorem mem_above {a : α} : a ∈ above c L ↔ a ∈ L ∧ c a < 0 := by simp [above]

theorem below_eq_self (h : ∀ a ∈ L, 0 < c a) : below c L = L := List.filter_eq_self.2 (by simpa using h)

theorem above_eq_self (h : ∀ a ∈ L, c a < 0) : above c L = L := List.filter_eq_self.2 (by simpa using h)

theorem below_eq_nil : below c L = [] ↔ ∀ a ∈ L, c a ≤ 0 := by simp [below, List.filter_eq_nil_iff]

theorem equal_eq_nil : equal c L = [] ↔ ∀ a ∈ L, c a ≠ 0 := by simp [equal, List.filter_eq_nil_iff]

theorem above_eq_nil : above c L = [] ↔ ∀ a ∈ L, 0 ≤ c a := by simp [above, List.filter_eq_nil_iff]
end Falling

/-! ## Comparisons of a linear order -/

section Ord

variable {α β γ : Type} [LinearOrder α] [LinearOrder β]

/-- The sign of a comparison of `a` with `b`. -/
def cmpOrd (a b : α) : Int := if a > b then 1 else if a < b then -1 else 0

theorem cmpOrd_pos {a b : α} : 0 < cmpOrd a b ↔ b < a := by
  unfold cmpOrd
  split_ifs with h1 h2
  · simp [h1]
  · simpa using h2.le
  · simpa using h1

theorem cmpOrd_neg {a b : α} : cmpOrd a b < 0 ↔ a < b := by
  unfold cmpOrd
  split_ifs with h1 h2
  · simpa using h1.le
  · simp [h2]
  · simpa using h2

theorem cmpOrd_zero {a b : α} : cmpOrd a b = 0 ↔ a = b := by
  unfold cmpOrd
  split_ifs with h1 h2
  · simpa using h1.ne'
  · simpa using h2.ne
  · simpa using le_antisymm (not_lt.1 h1) (not_lt.1 h2)

theorem cmpOrd_nonpos {a b : α} : cmpOrd a b ≤ 0 ↔ a ≤ b := by
  rw [← not_lt, ← not_lt, cmpOrd_pos]

theorem cmpOrd_self (a : α) : cmpOrd a a = 0 := cmpOrd_zero.2 rfl

theorem cmpOrd_swap (a b : α) : cmpOrd b a = -cmpOrd a b := by
  rcases lt_trichotomy a b with h | rfl | h
  · simp [cmpOrd, h, not_lt.2 h.le]
  · simp [cmpOrd_self]
  · simp [cmpOrd, h, not_lt.2 h.le]

theorem cmpOrd_map {f : α → β} (h : ∀ a b, f a < f b ↔ a < b) (a b : α) : cmpOrd (f a) (f b) = cmpOrd a b := by
  rcases lt_trichotomy a b with hlt | rfl | hlt
  · simp [cmpOrd, h, hlt, not_lt.2 hlt.le]
  · rw [cmpOrd_self, cmpOrd_self]
  · simp [cmpOrd, h, hlt]

/-- The lexicographic comparison goes on to the second component when the first ones are equal. -/
theorem cmpOrd_lex (a a' : α) (b b' : β) :
    cmpOrd (toLex (a, b)) (toLex (a', b')) = if cmpOrd a a' ≠ 0 then cmpOrd a a' else cmpOrd b b' := by
  rcases lt_trichotomy a a' with h | rfl | h
  · have hl : toLex (a, b) < toLex (a', b') := Prod.Lex.toLex_lt_toLex.2 (Or.inl h)
    simp [cmpOrd, h, hl, not_lt.2 hl.le, not_lt.2 h.le]
  · simp [cmpOrd, Prod.Lex.toLex_lt_toLex]
  · have hl : toLex (a', b') < toLex (a, b) := Prod.Lex.toLex_lt_toLex.2 (Or.inl h)
    simp [cmpOrd, h, hl]

/-- Comparing with the elements of an ordered list gives falling signs. -/
theorem Falling.of_sorted {f : γ → α} {L : List γ} {c : γ → Int} {a : α} (h : L.Pairwise fun x y => f x ≤ f y)
    (hc : ∀ x ∈ L, c x = cmpOrd a (f x)) : Falling c L := by
  refine h.imp_of_mem fun {x y} hx hy hxy => ?_
  rw [Falling.Le, hc x hx, hc y hy, cmpOrd_nonpos, cmpOrd_nonpos, cmpOrd_neg, cmpOrd_neg]
  exact ⟨fun h => h.trans hxy, fun h => h.trans_le hxy⟩

end Ord
