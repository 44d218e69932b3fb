/-
Sorting in memory: on any order of the records that occur, insertion sort and quicksort leave the
pointers a permutation of what they were, in order. The loop that parts a range never leaves it:
in its first round it stops at the middle element, later on at the elements it has exchanged.
-/
import Db3w.Lib.MergePass
import Db3w.Lib.Slots
import Db3w.Ndx.Vsort

namespace Db3w.VsortCtl

open Slots MergePass

/-- A total preorder of the records of `S`, with all ones as a sentinel above them. -/
structure OrderOn (cmp : VsortRec → VsortRec → Int) (S : Set VsortRec) : Prop where
  symm : ∀ p ∈ S, ∀ q ∈ S, cmp p q < 0 ↔ 0 < cmp q p
  trans : ∀ p ∈ S, ∀ q ∈ S, ∀ r ∈ S, cmp p q ≤ 0 → cmp q r ≤ 0 → cmp p r ≤ 0
  top : ∀ p ∈ S, ∀ q : VsortRec, q.recNo = -1 → cmp p q ≤ 0

/-- A total preorder of the records of `S`, which is all that sorting in memory asks for. -/
structure PreOn (cmp : VsortRec → VsortRec → Int) (S : Set VsortRec) : Prop where
  symm : ∀ p ∈ S, ∀ q ∈ S, cmp p q < 0 ↔ 0 < cmp q p
  trans : ∀ p ∈ S, ∀ q ∈ S, ∀ r ∈ S, cmp p q ≤ 0 → cmp q r ≤ 0 → cmp p r ≤ 0

section Order

variable {cmp : VsortRec → VsortRec → Int} {S : Set VsortRec} {p q : VsortRec}

theorem PreOn.self (h : PreOn cmp S) (hp : p ∈ S) : cmp p p = 0 := by
  have := h.symm p hp p hp
  omega

theorem PreOn.le_iff (h : PreOn cmp S) (hp : p ∈ S) (hq : q ∈ S) : cmp p q ≤ 0 ↔ 0 ≤ cmp q p := by
  have := h.symm p hp q hq
  have := h.symm q hq p hp
  omega

theorem OrderOn.pre (h : OrderOn cmp S) : PreOn cmp S := ⟨h.symm, h.trans⟩

theorem OrderOn.le_iff (h : OrderOn cmp S) (hp : p ∈ S) (hq : q ∈ S) : cmp p q ≤ 0 ↔ 0 ≤ cmp q p := h.pre.le_iff hp hq

theorem OrderOn.totalOn (h : OrderOn cmp S) : TotalOn (fun p q => decide (cmp p q ≤ 0)) S := by
  constructor
  · intro p hp q hq
    have := h.le_iff hp hq
    simp only [decide_eq_true_eq]
    omega
  · intro p hp q hq r hr hpq hqr
    simp only [decide_eq_true_eq] at hpq hqr ⊢
    exact h.trans p hp q hq r hr hpq hqr

end Order

/-! ## Slots of `keyptrs` -/

section Segment

variable {v : VsortCtl} {S : Set VsortRec} {K : Keyptrs} {x y z : VsortRec} {o o' : Option VsortRec} {start nitms lo hi i j k m fuel : Nat}

def Pointed (S : Set VsortRec) (o : Option VsortRec) : Prop := ∃ y ∈ S, o = some y

def NotAbove (v : VsortCtl) (S : Set VsortRec) (x : VsortRec) (o : Option VsortRec) : Prop := ∃ y ∈ S, o = some y ∧ v.cmp y x ≤ 0

def NotBelow (v : VsortCtl) (S : Set VsortRec) (x : VsortRec) (o : Option VsortRec) : Prop := ∃ y ∈ S, o = some y ∧ v.cmp x y ≤ 0

def InOrder (v : VsortCtl) (S : Set VsortRec) (o o' : Option VsortRec) : Prop :=
  ∃ y ∈ S, ∃ z ∈ S, o = some y ∧ o' = some z ∧ v.cmp y z ≤ 0

theorem inOrder_of (hS : PreOn v.cmp S) (hx : x ∈ S) (h : NotAbove v S x o) (h' : NotBelow v S x o') : InOrder v S o o' := by
  obtain ⟨y, hy, rfl, hyx⟩ := h
  obtain ⟨z, hz, rfl, hxz⟩ := h'
  exact ⟨y, hy, z, hz, rfl, rfl, hS.trans y hy x hx z hz hyx hxz⟩

/-! ## Insertion -/

theorem insertBelow_spec (hS : PreOn v.cmp S) (hx : x ∈ S) (hi : start ≤ i) (hK : AllIn (Pointed S) start i K)
    (hs : SortedOn (InOrder v S) start i K) : ∃ K', v.insertBelow x start i K = some K' ∧
      Shuffled start (i + 1) (Function.update K i (some x)) K' ∧ SortedOn (InOrder v S) start (i + 1) K' := by
  induction i generalizing K with
  | zero => exact ⟨_, rfl, .refl .., sortedOn_short (by omega) _⟩
  | succ i ih =>
    unfold insertBelow
    by_cases hlt : i < start
    · rw [if_pos hlt]
      exact ⟨_, rfl, .refl .., sortedOn_short (by omega) _⟩
    rw [if_neg hlt]
    obtain ⟨y, hy, hKi⟩ := hK i (by omega) (by omega)
    rw [hKi, Option.bind_eq_bind, Option.bind_some]
    by_cases hxy : v.cmp x y < 0
    · -- `y` moves up, and the hole down
      rw [if_pos hxy]
      have hsame : ∀ k, k ≤ i → Function.update K (i + 1) (some y) k = K k := fun k hk =>
        Function.update_of_ne (by omega) ..
      obtain ⟨K', hrun, hsh, hsort⟩ := ih (K := Function.update K (i + 1) (some y)) (by omega)
        (fun k hk hk' => by rw [hsame k (by omega)]; exact hK k hk (by omega))
        (fun a b ha hab hb => by rw [hsame a (by omega), hsame b (by omega)]; exact hs a b ha hab (by omega))
      have hswap : Function.update (Function.update K (i + 1) (some y)) i (some x) = Function.update (Function.update
          (Function.update K (i + 1) (some x)) (i + 1) (Function.update K (i + 1) (some x) i)) i
          (Function.update K (i + 1) (some x) (i + 1)) := by
        rw [Function.update_self, Function.update_idem, Function.update_of_ne (by omega), hKi]
      refine ⟨K', hrun, @Slots.Shuffled.trans _ _ (Function.update (Function.update K (i + 1) (some y)) i (some x)) _ _ _ ?_ (hsh.mono le_rfl (Nat.le_succ _)), ?_⟩
      · rw [hswap]
        exact shuffled_swap _ ⟨by omega, by omega⟩ ⟨by omega, by omega⟩
      · have hy' : K' (i + 1) = some y := by
          rw [hsh.outside (.inr le_rfl), Function.update_of_ne (by omega), Function.update_self]
        -- whatever has come below `y` is not above it
        have hbelow : AllIn (NotAbove v S y) start (i + 1) (Function.update (Function.update K (i + 1) (some y)) i (some x)) := by
          intro k hk hk'
          by_cases hki : k = i
          · subst hki
            rw [Function.update_self]
            exact ⟨x, hx, rfl, hxy.le⟩
          · rw [Function.update_of_ne hki, hsame k (by omega)]
            obtain ⟨u, hu, w, hw, hku, hkw, huw⟩ := hs k i hk (by omega) (by omega)
            rw [hKi, Option.some_inj] at hkw
            exact ⟨u, hu, hku, hkw ▸ huw⟩
        intro a b ha hab hb
        by_cases hbi : b = i + 1
        · subst hbi
          rw [hy']
          exact inOrder_of hS hy (hbelow.shuffled hsh le_rfl le_rfl a ha hab) ⟨y, hy, rfl, (hS.self hy).le⟩
        · exact hsort a b ha hab (by omega)
    · -- `x` stays behind `y`
      rw [if_neg hxy]
      refine ⟨_, rfl, .refl .., fun a b ha hab hb => ?_⟩
      rw [Function.update_of_ne (by omega) _ K]
      by_cases hbi : b = i + 1
      · subst hbi
        rw [Function.update_self]
        have hyx : v.cmp y x ≤ 0 := (hS.le_iff hy hx).mpr (not_lt.mp hxy)
        refine inOrder_of hS hy (o := K a) ?_ ⟨x, hx, rfl, hyx⟩
        by_cases hai : a = i
        · subst hai
          exact ⟨y, hy, hKi, (hS.self hy).le⟩
        · obtain ⟨u, hu, w, hw, hku, hkw, huw⟩ := hs a i ha (by omega) (by omega)
          rw [hKi, Option.some_inj] at hkw
          exact ⟨u, hu, hku, hkw ▸ huw⟩
      · rw [Function.update_of_ne hbi]
        exact hs a b ha hab (by omega)

theorem insortFrom_spec (hS : PreOn v.cmp S) (hK : AllIn (Pointed S) start (start + k + m) K)
    (hs : SortedOn (InOrder v S) start (start + k) K) : ∃ K', v.insortFrom start m k K = some K' ∧
      Shuffled start (start + k + m) K K' ∧ SortedOn (InOrder v S) start (start + k + m) K' := by
  induction m generalizing k K with
  | zero => exact ⟨K, rfl, .refl .., hs⟩
  | succ m ih =>
    obtain ⟨x, hx, hKx⟩ := hK (start + k) (by omega) (by omega)
    obtain ⟨K1, hrun, hsh, hsort⟩ := insertBelow_spec hS hx (Nat.le_add_right start k) (hK.mono le_rfl (by omega)) hs
    rw [← hKx, Function.update_eq_self] at hsh
    have hsh' : Shuffled start (start + k + (m + 1)) K K1 := hsh.mono le_rfl (by omega)
    have hK1 : AllIn (Pointed S) start (start + (k + 1) + m) K1 := (hK.shuffled hsh' le_rfl le_rfl).mono le_rfl (by omega)
    obtain ⟨K2, hrun2, hsh2, hsort2⟩ := ih hK1 hsort
    refine ⟨K2, ?_, hsh'.trans (hsh2.mono le_rfl (by omega)), ?_⟩
    · unfold insortFrom
      rw [hKx, Option.bind_eq_bind, Option.bind_some, hrun]
      exact hrun2
    · rwa [show start + k + (m + 1) = start + (k + 1) + m by omega]

theorem insort_spec (hS : PreOn v.cmp S) (hK : AllIn (Pointed S) start (start + nitms) K) : ∃ K', v.insort start nitms K = some K' ∧
    Shuffled start (start + nitms) K K' ∧ SortedOn (InOrder v S) start (start + nitms) K' := by
  by_cases hn : nitms = 0
  · subst hn
    exact ⟨K, rfl, .refl .., sortedOn_short (by omega) K⟩
  · have heq : start + 1 + (nitms - 1) = start + nitms := by omega
    have := insortFrom_spec (k := 1) (m := nitms - 1) hS (heq ▸ hK) (sortedOn_short le_rfl K)
    rwa [heq] at this

/-! ## Parting a range -/

theorem scanUp_spec (hK : AllIn (Pointed S) i (m + 1) K) (hm : NotBelow v S x (K m)) (hS : PreOn v.cmp S) (hx : x ∈ S) (him : i ≤ m)
    (hfuel : m < i + fuel) : ∃ i', v.scanUp x fuel i K = some i' ∧ i ≤ i' ∧ i' ≤ m ∧ AllIn (NotAbove v S x) i i' K ∧
      NotBelow v S x (K i') := by
  induction fuel generalizing i with
  | zero => omega
  | succ fuel ih =>
    obtain ⟨y, hy, hKi⟩ := hK i le_rfl (by omega)
    unfold scanUp
    rw [hKi, Option.bind_eq_bind, Option.bind_some]
    by_cases hyx : v.cmp y x < 0
    · rw [if_pos hyx]
      have hne : i ≠ m := by
        rintro rfl
        obtain ⟨z, hz, hKz, hxz⟩ := hm
        rw [hKi, Option.some_inj] at hKz
        subst hKz
        have := hS.symm y hy x hx
        omega
      obtain ⟨i', hrun, hle, hle', hall, hstop⟩ := ih (i := i + 1) (hK.mono (by omega) le_rfl) (by omega) (by omega)
      refine ⟨i', hrun, by omega, hle', fun k hk hk' => ?_, hstop⟩
      by_cases hki : k = i
      · subst hki
        exact ⟨y, hy, hKi, hyx.le⟩
      · exact hall k (by omega) hk'
    · rw [if_neg hyx]
      refine ⟨i, rfl, le_rfl, him, fun k hk hk' => absurd hk' (by omega), y, hy, hKi, ?_⟩
      exact (hS.le_iff hx hy).mpr (not_lt.mp hyx)

theorem scanDown_spec (hK : AllIn (Pointed S) m (j + 1) K) (hm : NotAbove v S x (K m)) (hS : PreOn v.cmp S) (hx : x ∈ S) (hmj : m ≤ j)
    (hfuel : j < m + fuel) : ∃ j', v.scanDown x fuel j K = some j' ∧ m ≤ j' ∧ j' ≤ j ∧ AllIn (NotBelow v S x) (j' + 1) (j + 1) K ∧
      NotAbove v S x (K j') := by
  induction fuel generalizing j with
  | zero => omega
  | succ fuel ih =>
    obtain ⟨y, hy, hKj⟩ := hK j hmj (by omega)
    unfold scanDown
    rw [hKj, Option.bind_eq_bind, Option.bind_some]
    by_cases hyx : v.cmp y x > 0
    · rw [if_pos hyx]
      have hne : j ≠ m := by
        rintro rfl
        obtain ⟨z, hz, hKz, hzx⟩ := hm
        rw [hKj, Option.some_inj] at hKz
        subst hKz
        omega
      rw [dec32, if_neg (by omega)]
      obtain ⟨j', hrun, hle, hle', hall, hstop⟩ := ih (j := j - 1) (hK.mono le_rfl (by omega)) (by omega) (by omega)
      refine ⟨j', hrun, hle, by omega, fun k hk hk' => ?_, hstop⟩
      by_cases hkj : k = j
      · subst hkj
        exact ⟨y, hy, hKj, (hS.le_iff hx hy).mpr hyx.le⟩
      · exact hall k hk (by omega)
    · rw [if_neg hyx]
      exact ⟨j, rfl, hmj, le_rfl, fun k hk hk' => absurd hk' (by omega), y, hy, hKj, not_lt.mp hyx⟩

/-- What has been parted of the range from `lo` to `hi` when the loop has come to `i` and `j`. -/
structure Parted (v : VsortCtl) (S : Set VsortRec) (x : VsortRec) (lo hi i j : Nat) (K : Keyptrs) : Prop where
  all : AllIn (Pointed S) lo hi K
  left : AllIn (NotAbove v S x) lo i K
  right : AllIn (NotBelow v S x) (j + 1) hi K
  low : lo ≤ j
  high : i ≤ hi
  lt : j < hi

/-- An exchange of two records, found by the scans, keeps what has been parted. -/
theorem Parted.swap (h : Parted v S x lo hi i j K) {i' j' : Nat} (hlo : lo ≤ i') (hij : i' ≤ j') (hjj : j' ≤ j) (hj : lo < j')
    (hup : AllIn (NotAbove v S x) i i' K) (hdown : AllIn (NotBelow v S x) (j' + 1) (j + 1) K) (hi' : NotBelow v S x (K i'))
    (hj' : NotAbove v S x (K j')) :
    Parted v S x lo hi (i' + 1) (j' - 1) (Function.update (Function.update K i' (K j')) j' (K i')) := by
  have hlt := h.lt
  have hsh := @Slots.shuffled_swap _ lo hi i' j' K ⟨hlo, by omega⟩ ⟨by omega, by omega⟩
  refine ⟨h.all.shuffled hsh le_rfl le_rfl, fun k hk hk' => ?_, fun k hk hk' => ?_, by omega, by omega, by omega⟩
  · by_cases hkj : k = j'
    · subst hkj
      rw [Function.update_self, show i' = k by omega]
      exact hj'
    rw [Function.update_of_ne hkj]
    by_cases hki : k = i'
    · subst hki
      rw [Function.update_self]
      exact hj'
    · rw [Function.update_of_ne hki]
      by_cases hlt : k < i
      · exact h.left k hk hlt
      · exact hup k (by omega) (by omega)
  · by_cases hkj : k = j'
    · subst hkj
      rw [Function.update_self]
      exact hi'
    · rw [Function.update_of_ne hkj, Function.update_of_ne (by omega)]
      by_cases hlt : k < j + 1
      · exact hdown k (by omega) hlt
      · exact h.right k (by omega) hk'

/-- What the loop leaves. -/
def PartEnd (v : VsortCtl) (S : Set VsortRec) (x : VsortRec) (lo hi : Nat) (K : Keyptrs) (r : Nat × Nat × Keyptrs) : Prop :=
  Shuffled lo hi K r.2.2 ∧ Parted v S x lo hi r.1 r.2.1 r.2.2 ∧ r.2.1 < r.1 ∧ lo < r.1 ∧ r.2.1 + 1 < hi

/-- The rounds after the first one: what has been exchanged stops the scans. -/
theorem part_spec (hS : PreOn v.cmp S) (hx : x ∈ S) (h : Parted v S x lo hi i j K) (hi' : lo < i) (hj : j + 1 < hi)
    (hfuel : j + 3 ≤ i + fuel) (hpos : 0 < fuel) : ∃ r, v.part x fuel i j K = some r ∧ PartEnd v S x lo hi K r := by
  induction fuel generalizing i j K with
  | zero => omega
  | succ fuel ih =>
    unfold part
    by_cases hij : i ≤ j
    · rw [if_pos hij]
      obtain ⟨i1, hrunup, hle, hle1, hup, hstop⟩ := @scanUp_spec _ _ _ _ i (j + 1) fuel (h.all.mono (by omega) (by omega)) (h.right (j + 1) le_rfl hj) hS hx (by omega) (by omega)
      obtain ⟨j1, hrundown, hge, hle', hdown, hstop'⟩ := @scanDown_spec _ _ _ _ j (i - 1) fuel (h.all.mono (by omega) (by omega)) (h.left (i - 1) (by omega) (by omega)) hS hx (by omega) (by omega)
      rw [hrunup, Option.bind_eq_bind, Option.bind_some, hrundown, Option.bind_some]
      have hhigh := h.high
      by_cases hij1 : i1 ≤ j1
      · rw [if_pos hij1, dec32, if_neg (by omega)]
        have hswap := h.swap (by omega) hij1 hle' (by omega) hup hdown hstop hstop'
        obtain ⟨r, hrun, hsh, hend⟩ := ih hswap (by omega) (by omega) (by omega) (by omega)
        have hlt := h.lt
        exact ⟨r, hrun, (shuffled_swap K ⟨by omega, by omega⟩ ⟨by omega, by omega⟩).trans hsh, hend⟩
      · -- the scans have crossed
        rw [if_neg hij1]
        refine ih (i := i1) (j := j1) ⟨h.all, fun k hk hk' => ?_, fun k hk hk' => ?_, by omega, by omega, by omega⟩ (by omega)
          (by omega) (by omega) (by omega)
        · by_cases hlt : k < i
          · exact h.left k hk hlt
          · exact hup k (by omega) hk'
        · by_cases hlt : k < j + 1
          · exact hdown k hk hlt
          · exact h.right k (by omega) hk'
    · rw [if_neg hij]
      exact ⟨(i, j, K), rfl, .refl .., h, not_le.mp hij, hi', hj⟩

/-- The first round: the scans stop at the element the range is parted at. -/
theorem part_first (hS : PreOn v.cmp S) (hx : x ∈ S) (hK : AllIn (Pointed S) lo hi K) (hm : K m = some x) (hlo : lo < m) (hhi : m < hi)
    (hfuel : hi - lo + 2 ≤ fuel) : ∃ r, v.part x fuel lo (hi - 1) K = some r ∧ PartEnd v S x lo hi K r := by
  obtain ⟨fuel, rfl⟩ : ∃ f, fuel = f + 1 := ⟨fuel - 1, by omega⟩
  unfold part
  rw [if_pos (by omega)]
  have hself := (hS.self hx).le
  obtain ⟨i1, hrunup, hle, hle', hup, hstop⟩ := @scanUp_spec _ _ _ _ _ m fuel (hK.mono le_rfl (by omega)) ⟨x, hx, hm, hself⟩ hS hx (by omega) (by omega)
  obtain ⟨j1, hrundown, hge, hge', hdown, hstop'⟩ := @scanDown_spec _ _ _ _ (hi - 1) m fuel (hK.mono hlo.le (by omega)) ⟨x, hx, hm, hself⟩ hS hx (by omega) (by omega)
  rw [hrunup, Option.bind_eq_bind, Option.bind_some, hrundown, Option.bind_some, if_pos (by omega), dec32, if_neg (by omega)]
  have hstart : Parted v S x lo hi lo (hi - 1) K :=
    ⟨hK, fun k hk hk' => absurd hk' (by omega), fun k hk hk' => absurd hk' (by omega), by omega, by omega, by omega⟩
  have hswap := hstart.swap hle (by omega) hge' (by omega) hup hdown hstop hstop'
  obtain ⟨r, hrun, hsh, hend⟩ := @part_spec _ _ _ _ _ _ _ _ fuel hS hx hswap (by omega) (by omega) (by omega) (by omega)
  exact ⟨r, hrun, (shuffled_swap K ⟨by omega, by omega⟩ ⟨by omega, by omega⟩).trans hsh, hend⟩

/-! ## A segment -/

/-- Two sorted parts, with nothing in the one above the middle and nothing in the other below it. -/
theorem sortedOn_parts (hS : PreOn v.cmp S) (hx : x ∈ S) (hl : AllIn (NotAbove v S x) lo i K)
    (hr : AllIn (NotBelow v S x) (j + 1) hi K) (hsl : SortedOn (InOrder v S) lo (j + 1) K) (hsr : SortedOn (InOrder v S) i hi K) :
    SortedOn (InOrder v S) lo hi K := by
  intro a b ha hab hb
  by_cases hbj : b < j + 1
  · exact hsl a b ha hab hbj
  by_cases hai : a < i
  · exact inOrder_of hS hx (hl a ha hai) (hr b (by omega) hb)
  · exact hsr a b (by omega) hab hb

/-- `_qsort_`, with parts shorter than `insortsz` sorted by insertion. -/
def qsortBy (v : VsortCtl) (insortsz : Nat) : Nat → Nat → Nat → Keyptrs → Option Keyptrs
  | 0, _, _, _ => none
  | fuel + 1, start, nitms, K =>
    if nitms < insortsz then v.insort start nitms K
    else do
      let x ← K (start + nitms / 2)
      let r ← v.part x fuel start (start + nitms - 1) K
      let K ← (if r.2.1 > start then qsortBy v insortsz fuel start (r.2.1 - start + 1) r.2.2 else some r.2.2)
      if r.1 < start + nitms - 1 then qsortBy v insortsz fuel r.1 (start + nitms - r.1) K else some K

theorem qsortRange_eq (fuel start nitms : Nat) (K : Keyptrs) : v.qsortRange fuel start nitms K = v.qsortBy INSORTSZ fuel start nitms K := by
  induction fuel generalizing start nitms K with
  | zero => rfl
  | succ fuel ih =>
    unfold qsortRange qsortBy
    simp only [ih]

/-- A range is sorted, and the rest left. -/
theorem qsortBy_spec {insortsz : Nat} (hsz : 2 ≤ insortsz) (hS : PreOn v.cmp S) (hfuel : nitms + 3 ≤ fuel) (hK : AllIn (Pointed S) start (start + nitms) K) :
    ∃ K', v.qsortBy insortsz fuel start nitms K = some K' ∧ Shuffled start (start + nitms) K K' ∧
      SortedOn (InOrder v S) start (start + nitms) K' := by
  induction fuel generalizing start nitms K with
  | zero => omega
  | succ fuel ih =>
    unfold qsortBy
    by_cases hn : nitms < insortsz
    · rw [if_pos hn]
      exact insort_spec hS hK
    obtain ⟨x, hx, hKx⟩ := hK (start + nitms / 2) (by omega) (by omega)
    obtain ⟨⟨i, j, K1⟩, hrun, hsh, hparted, hji, hi, hj⟩ := @part_first _ _ _ _ _ _ _ fuel hS hx hK hKx (by omega) (by omega) (by omega)
    dsimp only at hsh hparted hji hi hj
    rw [if_neg hn, hKx, Option.bind_eq_bind, Option.bind_some, hrun, Option.bind_eq_bind, Option.bind_some]
    dsimp only
    have hlow := hparted.low
    have hhigh := hparted.high
    -- the lower part
    obtain ⟨K2, hrun2, hsh2, hsort2⟩ : ∃ K2, (if j > start then v.qsortBy insortsz fuel start (j - start + 1) K1 else some K1) = some K2 ∧
        Shuffled start (j + 1) K1 K2 ∧ SortedOn (InOrder v S) start (j + 1) K2 := by
      by_cases hjs : j > start
      · have heq : start + (j - start + 1) = j + 1 := by omega
        have := @ih K1 start (j - start + 1) (by omega) (hparted.all.mono le_rfl (by omega))
        rwa [if_pos hjs, ← heq]
      · rw [if_neg hjs]
        exact ⟨K1, rfl, .refl .., sortedOn_short (by omega) K1⟩
    rw [hrun2, Option.bind_eq_bind, Option.bind_some]
    have hall2 := hparted.all.shuffled hsh2 le_rfl (by omega)
    -- the upper part
    obtain ⟨K3, hrun3, hsh3, hsort3⟩ : ∃ K3, (if i < start + nitms - 1 then v.qsortBy insortsz fuel i (start + nitms - i) K2 else some K2) =
        some K3 ∧ Shuffled i (start + nitms) K2 K3 ∧ SortedOn (InOrder v S) i (start + nitms) K3 := by
      by_cases his : i < start + nitms - 1
      · have heq : i + (start + nitms - i) = start + nitms := by omega
        have := @ih K2 i (start + nitms - i) (by omega) (hall2.mono (by omega) (by omega))
        rw [heq] at this
        rwa [if_pos his]
      · rw [if_neg his]
        exact ⟨K2, rfl, .refl .., sortedOn_short (by omega) K2⟩
    refine ⟨K3, hrun3, (hsh.trans (hsh2.mono le_rfl (by omega))).trans (hsh3.mono (by omega) le_rfl), ?_⟩
    have hleft3 := (hparted.left.shuffled hsh2 le_rfl (by omega)).apart hsh3 (.inl le_rfl)
    have hright3 := (hparted.right.apart hsh2 (.inr le_rfl)).shuffled hsh3 (by omega) le_rfl
    exact sortedOn_parts hS hx hleft3 hright3 (hsort2.apart hsh3 (.inl (by omega))) hsort3

/-- `_qsort_` sorts its range, and leaves the rest. -/
theorem qsortRange_spec (hS : PreOn v.cmp S) (hfuel : nitms + 3 ≤ fuel) (hK : AllIn (Pointed S) start (start + nitms) K) :
    ∃ K', v.qsortRange fuel start nitms K = some K' ∧ Shuffled start (start + nitms) K K' ∧
      SortedOn (InOrder v S) start (start + nitms) K' := by
  rw [qsortRange_eq]
  exact qsortBy_spec (by decide) hS hfuel hK

theorem writeAt_end (f recs : List VsortRec) : writeAt f f.length recs = f ++ recs := by
  unfold writeAt
  rw [List.take_length, Nat.sub_self, List.replicate_zero, List.append_nil, List.drop_eq_nil_of_le (by omega), List.append_nil]

theorem writeKeys_spec {l f : List VsortRec} (h : ∀ t, t < l.length → K (i + t) = l[t]?) :
    writeKeys K l.length i f.length f = some (f ++ l) := by
  induction l generalizing i f with
  | nil => rw [List.append_nil, List.length_nil, writeKeys]
  | cons r l ih =>
    have hhead := h 0 (by rw [List.length_cons]; omega)
    rw [Nat.add_zero, List.getElem?_cons_zero] at hhead
    have htail : ∀ t, t < l.length → K (i + 1 + t) = l[t]? := by
      intro t ht
      rw [Nat.add_assoc, Nat.add_comm 1 t, h (t + 1) (by rw [List.length_cons]; omega), List.getElem?_cons_succ]
    have := ih (f := f ++ [r]) htail
    rw [List.length_append, List.length_singleton, List.append_assoc, List.singleton_append] at this
    rw [List.length_cons, writeKeys, hhead, Option.bind_eq_bind, Option.bind_some, writeAt_end]
    exact this

/-- A segment is written in order behind the full ones. -/
theorem qsort_spec {vrecs f : List VsortRec} {segment : Nat} (hS : OrderOn v.cmp S) (hin : ∀ r ∈ vrecs, r ∈ S) (hfuel : vrecs.length + 3 ≤ fuel)
    (hf : f.length = segment * v.nkeys) : ∃ l : List VsortRec, v.qsort_ fuel vrecs segment f = some (f ++ l) ∧ l.Perm vrecs ∧
      l.Pairwise fun p q => decide (v.cmp p q ≤ 0) := by
  have hK : AllIn (Pointed S) 0 (0 + vrecs.length) fun k => vrecs[k]? := by
    intro k _ hk
    have hlt : k < vrecs.length := by omega
    exact ⟨vrecs[k], hin _ (List.getElem_mem hlt), List.getElem?_eq_getElem hlt⟩
  obtain ⟨K, hrun, hsh, hsort⟩ := qsortRange_spec hS.pre hfuel hK
  have hall := hK.shuffled hsh le_rfl le_rfl
  rw [Nat.zero_add] at hsh hsort hall
  obtain ⟨l, hlen, hslot, hl⟩ := exists_slots fun k hk hk' => (hall k hk hk').imp fun _ h => h.2
  refine ⟨l, ?_, ?_, ?_⟩
  · unfold qsort_
    rw [hrun, Option.bind_eq_bind, Option.bind_some, ← hlen, ← hf]
    exact writeKeys_spec fun t ht => by rw [Nat.zero_add, hslot t (hlen ▸ ht)]
  · have hperm := hsh.perm
    rw [hl, map_range_getElem?] at hperm
    exact (List.map_perm_map_iff (Option.some_injective _)).mp hperm
  · have hpair := hsort.pairwise
    rw [hl, List.pairwise_map] at hpair
    refine hpair.imp fun h => ?_
    obtain ⟨y, -, z, -, hy, hz, hyz⟩ := h
    rw [Option.some_inj] at hy hz
    rw [hy, hz]
    exact decide_eq_true hyz

end Segment

end Db3w.VsortCtl
