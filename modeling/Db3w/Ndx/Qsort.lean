/-
Sorting in memory, in the integers of the code (`insort` and `_qsort_` of vsort.c). The counters of `_qsort_` are unsigned
words, those of `insort` are signed. A result `none` means that a pointer outside of the run is read or set, that an
unsigned counter is to go below zero, or that a loop does not come to its end.
-/
import Db3w.Ndx.VsortSegment

namespace Db3w.VsortCtl

open Slots

/-- An `int`. -/
def int32 (n : Int) : Int := Int.bmod n (2 ^ 32)

/-- A `DWORD`. -/
def dword (n : Int) : Nat := (n % 2 ^ 32).toNat

/-- `keyptrs`, with the pointers of a run only. -/
def within (start nitms : Nat) (K : Keyptrs) : Keyptrs := fun i => if start ≤ i ∧ i < start + nitms then K i else none

def getPtr (K : Keyptrs) (i : Int) : Option VsortRec := if 0 ≤ i then K i.toNat else none

def setPtr (K : Keyptrs) (i : Int) (x : VsortRec) : Option Keyptrs :=
  if 0 ≤ i ∧ (K i.toNat).isSome then some (Function.update K i.toNat (some x)) else none

/-- `--j` for a `DWORD`. -/
def down (j : Nat) : Option Nat := if j = 0 then none else some (j - 1)

variable (v : VsortCtl)

/-- The inner loop of `insort`. -/
def insertLoop (x : VsortRec) (start : Int) : Nat → Int → Keyptrs → Option Keyptrs
  | 0, _, _ => none
  | fuel + 1, i, K =>
    if i ≥ start then do
      let y ← getPtr K i
      if v.cmp x y < 0 then do
        let K ← setPtr K (int32 (i + 1)) y
        insertLoop x start fuel (int32 (i - 1)) K
      else setPtr K (int32 (i + 1)) x
    else setPtr K (int32 (i + 1)) x

/-- The outer loop of `insort`; `k < nitms` compares them as `DWORD`. -/
def insortLoop (start : Int) (nitms : Nat) : Nat → Int → Keyptrs → Option Keyptrs
  | 0, _, _ => none
  | fuel + 1, k, K =>
    if dword k < nitms then do
      let x ← getPtr K (int32 (start + k))
      let K ← v.insertLoop x start (nitms + 1) (int32 (int32 (start + k) - 1)) K
      insortLoop start nitms fuel (int32 (k + 1)) K
    else some K

/-- `insort`: its `start` is an `int`. -/
def insortInt (start nitms : Nat) (K : Keyptrs) : Option Keyptrs := v.insortLoop (int32 start) nitms (nitms + 1) 1 K

/-- The first inner loop of `_qsort_`. -/
def scanUpWord (x : VsortRec) : Nat → Nat → Keyptrs → Option Nat
  | 0, _, _ => none
  | fuel + 1, i, K => do
    let y ← K i
    if v.cmp y x < 0 then scanUpWord x fuel (dword (i + 1)) K else some i

/-- The second inner loop. -/
def scanDownWord (x : VsortRec) : Nat → Nat → Keyptrs → Option Nat
  | 0, _, _ => none
  | fuel + 1, j, K => do
    let y ← K j
    if v.cmp y x > 0 then do
      let j ← down j
      scanDownWord x fuel j K
    else some j

/-- The loop of `_qsort_`. -/
def partWord (x : VsortRec) : Nat → Nat → Nat → Keyptrs → Option (Nat × Nat × Keyptrs)
  | 0, _, _, _ => none
  | fuel + 1, i, j, K =>
    if i ≤ j then do
      let i ← v.scanUpWord x fuel i K
      let j ← v.scanDownWord x fuel j K
      if i ≤ j then do
        let y ← K i
        let z ← K j
        let j' ← down j
        partWord x fuel (dword (i + 1)) j' (Function.update (Function.update K i (some z)) j (some y))
      else partWord x fuel i j K
    else some (i, j, K)

/-- `_qsort_`, for any value of `INSORTSZ`. -/
def qsortWord (insortsz : Nat) : Nat → Nat → Nat → Keyptrs → Option Keyptrs
  | 0, _, _, _ => none
  | fuel + 1, start, nitms, K =>
    if nitms < insortsz then v.insortInt start nitms K
    else do
      let x ← K (dword (start + nitms / 2))
      let (i, j, K) ← v.partWord x fuel start (dword (start + nitms - 1)) K
      let K ← (if j > start then qsortWord insortsz fuel start (dword (j - start + 1)) K else some K)
      if i < dword (start + nitms - 1) then qsortWord insortsz fuel i (dword (start + nitms - i)) K else some K

/-! ## Integers that do not wrap -/

theorem int32_eq {n : Int} (h : -2 ^ 31 ≤ n) (h' : n < 2 ^ 31) : int32 n = n := by
  unfold int32
  rw [Int.bmod_eq_emod]
  split <;> omega

theorem dword_eq {n : Int} {m : Nat} (h : n = m) (hlt : m < 2 ^ 32) : dword n = m := by
  unfold dword
  omega

theorem dword_succ {i : Nat} (h : i + 1 < 2 ^ 32) : dword ((i : Int) + 1) = i + 1 := dword_eq (by omega) h

theorem getPtr_natCast (K : Keyptrs) (i : Nat) : getPtr K i = K i := by
  unfold getPtr
  rw [if_pos (by omega), Int.toNat_natCast]

theorem setPtr_natCast {K : Keyptrs} {i : Nat} (h : (K i).isSome) (x : VsortRec) : setPtr K i x = some (Function.update K i (some x)) := by
  unfold setPtr
  rw [Int.toNat_natCast, if_pos ⟨by omega, h⟩]

/-! ## A run that ends stays in its run -/

/-- No pointers from `hi` on. -/
def Below (hi : Nat) (K : Keyptrs) : Prop := ∀ i, hi ≤ i → K i = none

section Simulation

variable {v : VsortCtl} {K K' : Keyptrs} {x y : VsortRec} {hi i j k m start nitms fuel : Nat}

theorem Below.lt (h : Below hi K) (hy : K i = some y) : i < hi := by
  by_contra hge
  rw [h i (by omega)] at hy
  cases hy

theorem Below.update (h : Below hi K) (hi' : i < hi) (o : Option VsortRec) : Below hi (Function.update K i o) := by
  intro k hk
  rw [Function.update_of_ne (by omega)]
  exact h k hk

theorem insertLoop_of (hrun : v.insertBelow x start i K = some K') (hset : (K i).isSome) (hsi : start ≤ i) (hlt : i < 2 ^ 31) (hfuel : i < start + fuel) :
    v.insertLoop x start fuel ((i : Int) - 1) K = some K' := by
  induction i generalizing K fuel with
  | zero =>
    obtain ⟨f, rfl⟩ : ∃ f, fuel = f + 1 := ⟨fuel - 1, by omega⟩
    unfold insertLoop
    rw [if_neg (by omega), int32_eq (by omega) (by omega)]
    exact (setPtr_natCast hset x).trans hrun
  | succ i ih =>
    obtain ⟨f, rfl⟩ : ∃ f, fuel = f + 1 := ⟨fuel - 1, by omega⟩
    have hidx : ((i + 1 : Nat) : Int) - 1 = i := by omega
    have hnext : int32 ((i : Int) + 1) = (i + 1 : Nat) := int32_eq (by omega) (by omega)
    unfold insertLoop
    unfold insertBelow at hrun
    rw [hidx, hnext]
    by_cases hstart : i < start
    · rw [if_pos hstart] at hrun
      rw [if_neg (by omega), setPtr_natCast hset]
      exact hrun
    · rw [if_neg hstart] at hrun
      rw [if_pos (by omega), getPtr_natCast]
      cases hy : K i with
      | none =>
        rw [hy] at hrun
        cases hrun
      | some y =>
        rw [hy, Option.bind_eq_bind, Option.bind_some] at hrun
        rw [Option.bind_eq_bind, Option.bind_some]
        split_ifs at hrun ⊢ with hcmp
        · rw [setPtr_natCast hset, Option.bind_eq_bind, Option.bind_some, int32_eq (by omega) (by omega)]
          refine ih hrun ?_ (by omega) (by omega) (by omega)
          rw [Function.update_of_ne (by omega), hy]
          rfl
        · rw [setPtr_natCast hset]
          exact hrun

theorem insertBelow_below (hrun : v.insertBelow x start i K = some K') (hb : Below hi K) (hlt : i < hi) : Below hi K' := by
  induction i generalizing K with
  | zero =>
    obtain rfl := Option.some.inj hrun
    exact hb.update hlt _
  | succ i ih =>
    unfold insertBelow at hrun
    split_ifs at hrun
    · obtain rfl := Option.some.inj hrun
      exact hb.update hlt _
    · rw [Option.bind_eq_bind, Option.bind_eq_some_iff] at hrun
      obtain ⟨y, -, hrun⟩ := hrun
      split_ifs at hrun
      · exact ih hrun (hb.update hlt _) (by omega)
      · obtain rfl := Option.some.inj hrun
        exact hb.update hlt _

theorem insortLoop_of (hb : Below hi K) (hhi : hi < 2 ^ 31) (hrun : v.insortFrom start m k K = some K') (hn : k + m = nitms) (hn' : nitms < 2 ^ 32)
    (hfuel : m < fuel) : v.insortLoop start nitms fuel k K = some K' ∧ Below hi K' := by
  induction m generalizing k K fuel with
  | zero =>
    obtain ⟨f, rfl⟩ : ∃ f, fuel = f + 1 := ⟨fuel - 1, by omega⟩
    obtain rfl := Option.some.inj hrun
    unfold insortLoop
    rw [dword_eq rfl (by omega), if_neg (by omega)]
    exact ⟨rfl, hb⟩
  | succ m ih =>
    obtain ⟨f, rfl⟩ : ∃ f, fuel = f + 1 := ⟨fuel - 1, by omega⟩
    unfold insortFrom at hrun
    rw [Option.bind_eq_bind, Option.bind_eq_some_iff] at hrun
    obtain ⟨x, hx, hrun⟩ := hrun
    rw [Option.bind_eq_bind, Option.bind_eq_some_iff] at hrun
    obtain ⟨K1, hinsert, hrun⟩ := hrun
    have hlt := hb.lt hx
    have hidx : int32 ((start : Int) + k) = (start + k : Nat) := by
      rw [int32_eq (by omega) (by omega)]
      rfl
    have hprev : int32 (((start + k : Nat) : Int) - 1) = ((start + k : Nat) : Int) - 1 := int32_eq (by omega) (by omega)
    have hnext : int32 ((k : Int) + 1) = (k + 1 : Nat) := int32_eq (by omega) (by omega)
    have hloop := @insertLoop_of v K K1 x (start + k) start (nitms + 1) hinsert (by rw [hx]; rfl) (by omega) (by omega) (by omega)
    unfold insortLoop
    rw [dword_eq rfl (by omega), if_pos (by omega), hidx, hprev, hnext, getPtr_natCast, hx, Option.bind_eq_bind, Option.bind_some, hloop]
    exact ih (insertBelow_below hinsert hb hlt) hrun (by omega) (by omega)

theorem insortInt_of (hb : Below hi K) (hhi : hi < 2 ^ 31) (hend : start + nitms ≤ hi) (hrun : v.insort start nitms K = some K') :
    v.insortInt start nitms K = some K' ∧ Below hi K' := by
  unfold insortInt
  rcases Nat.lt_or_ge 1 nitms with hn | hn
  · rw [int32_eq (by omega) (by omega)]
    exact @insortLoop_of v K K' hi 1 (nitms - 1) start nitms (nitms + 1) hb hhi hrun (by omega) (by omega) (by omega)
  · -- nothing is done, whatever `start` has become
    have hnone : nitms - 1 = 0 := by omega
    unfold insort at hrun
    rw [hnone] at hrun
    obtain rfl := Option.some.inj hrun
    unfold insortLoop
    rw [@dword_eq 1 1 rfl (by decide), if_neg (by omega)]
    exact ⟨rfl, hb⟩

theorem scanUpWord_of (hb : Below hi K) (hhi : hi < 2 ^ 32) (hrun : v.scanUp x fuel i K = some j) : v.scanUpWord x fuel i K = some j := by
  induction fuel generalizing i with
  | zero => cases hrun
  | succ fuel ih =>
    unfold scanUp at hrun
    rw [Option.bind_eq_bind, Option.bind_eq_some_iff] at hrun
    obtain ⟨y, hy, hrun⟩ := hrun
    have hlt := hb.lt hy
    unfold scanUpWord
    rw [hy, Option.bind_eq_bind, Option.bind_some, dword_succ (by omega)]
    split_ifs at hrun ⊢ with hcmp
    · exact ih hrun
    · exact hrun

theorem scanUp_le (hrun : v.scanUp x fuel i K = some j) : i ≤ j ∧ (K j).isSome := by
  induction fuel generalizing i with
  | zero => cases hrun
  | succ fuel ih =>
    unfold scanUp at hrun
    rw [Option.bind_eq_bind, Option.bind_eq_some_iff] at hrun
    obtain ⟨y, hy, hrun⟩ := hrun
    split_ifs at hrun with hcmp
    · obtain ⟨h1, h2⟩ := ih hrun
      exact ⟨by omega, h2⟩
    · obtain rfl := Option.some.inj hrun
      exact ⟨le_refl _, by rw [hy]; rfl⟩

/-- A counter that goes below zero is above the run. -/
theorem scanDown_top (hb : Below hi K) (hhi : hi < 2 ^ 32) : v.scanDown x fuel (2 ^ 32 - 1) K = none := by
  cases fuel with
  | zero => rfl
  | succ fuel =>
    unfold scanDown
    rw [hb _ (by omega)]
    rfl

theorem scanDownWord_of (hb : Below hi K) (hhi : hi < 2 ^ 32) (hrun : v.scanDown x fuel i K = some j) :
    v.scanDownWord x fuel i K = some j ∧ j ≤ i ∧ (K j).isSome := by
  induction fuel generalizing i with
  | zero => cases hrun
  | succ fuel ih =>
    unfold scanDown at hrun
    rw [Option.bind_eq_bind, Option.bind_eq_some_iff] at hrun
    obtain ⟨y, hy, hrun⟩ := hrun
    unfold scanDownWord
    rw [hy, Option.bind_eq_bind, Option.bind_some]
    split_ifs at hrun ⊢ with hcmp
    · unfold dec32 at hrun
      unfold down
      split_ifs at hrun ⊢ with hzero
      · rw [scanDown_top hb hhi] at hrun
        cases hrun
      · obtain ⟨h1, h2, h3⟩ := ih hrun
        exact ⟨h1, by omega, h3⟩
    · obtain rfl := Option.some.inj hrun
      exact ⟨rfl, le_refl _, by rw [hy]; rfl⟩

/-- And so the loop does not end with it. -/
theorem part_top {r : Nat × Nat × Keyptrs} (hb : Below hi K) (hhi : hi < 2 ^ 32) (hi' : i ≤ 2 ^ 32 - 1) : v.part x fuel i (2 ^ 32 - 1) K ≠ some r := by
  intro hrun
  cases fuel with
  | zero => cases hrun
  | succ fuel =>
    unfold part at hrun
    rw [if_pos hi', Option.bind_eq_bind, Option.bind_eq_some_iff] at hrun
    obtain ⟨i1, -, hrun⟩ := hrun
    rw [scanDown_top hb hhi] at hrun
    cases hrun

theorem partWord_of {r : Nat × Nat × Keyptrs} (hb : Below hi K) (hhi : hi < 2 ^ 32 - 1) (hrun : v.part x fuel i j K = some r) :
    v.partWord x fuel i j K = some r ∧ Below hi r.2.2 ∧ r.2.1 ≤ j := by
  induction fuel generalizing i j K with
  | zero => cases hrun
  | succ fuel ih =>
    unfold part at hrun
    unfold partWord
    split_ifs at hrun ⊢ with hij
    · rw [Option.bind_eq_bind, Option.bind_eq_some_iff] at hrun
      obtain ⟨i1, hup, hrun⟩ := hrun
      rw [Option.bind_eq_some_iff] at hrun
      obtain ⟨j1, hdown, hrun⟩ := hrun
      obtain ⟨hle, hset⟩ := scanUp_le hup
      obtain ⟨hdown', hle', hset'⟩ := scanDownWord_of hb (by omega) hdown
      rw [scanUpWord_of hb (by omega) hup, Option.bind_eq_bind, Option.bind_some, hdown', Option.bind_eq_bind, Option.bind_some]
      split_ifs at hrun ⊢ with hij1
      · obtain ⟨y, hy⟩ := Option.isSome_iff_exists.mp hset
        obtain ⟨z, hz⟩ := Option.isSome_iff_exists.mp hset'
        have hlt := hb.lt hy
        have hlt' := hb.lt hz
        have hb' := (hb.update hlt (some z)).update hlt' (some y)
        rw [hy, hz] at hrun
        rw [hy, Option.bind_some, hz, Option.bind_some]
        unfold dec32 at hrun
        unfold down
        split_ifs at hrun ⊢ with hzero
        · exact absurd hrun (part_top hb' (by omega) (by omega))
        · rw [Option.bind_some, dword_succ (by omega)]
          obtain ⟨h1, h2, h3⟩ := ih hb' hrun
          exact ⟨h1, h2, by omega⟩
      · obtain ⟨h1, h2, h3⟩ := ih hb hrun
        exact ⟨h1, h2, by omega⟩
    · obtain rfl := Option.some.inj hrun
      exact ⟨rfl, hb, le_refl _⟩

/-- Where the run has an end below `2 ^ 31`, the integers do not matter. -/
theorem qsortWord_of {insortsz : Nat} (hb : Below hi K) (hhi : hi < 2 ^ 31) (hend : start + nitms ≤ hi) (hrun : v.qsortBy insortsz fuel start nitms K = some K')
    (hsz : 1 ≤ insortsz) : v.qsortWord insortsz fuel start nitms K = some K' ∧ Below hi K' := by
  induction fuel generalizing start nitms K K' with
  | zero => cases hrun
  | succ fuel ih =>
    unfold qsortBy at hrun
    unfold qsortWord
    by_cases hn : nitms < insortsz
    · rw [if_pos hn] at hrun ⊢
      exact insortInt_of hb hhi hend hrun
    rw [if_neg hn, Option.bind_eq_bind, Option.bind_eq_some_iff] at hrun
    obtain ⟨x, hx, hrun⟩ := hrun
    rw [Option.bind_eq_bind, Option.bind_eq_some_iff] at hrun
    obtain ⟨⟨i, j, K1⟩, hpart, hrun⟩ := hrun
    obtain ⟨hpart', hb1, hj⟩ := partWord_of hb (by omega) hpart
    dsimp only at hrun hb1 hj
    rw [Option.bind_eq_bind, Option.bind_eq_some_iff] at hrun
    obtain ⟨K2, hleft, hright⟩ := hrun
    have hmid : dword ((start : Int) + (nitms : Int) / 2) = start + nitms / 2 := dword_eq (by omega) (by omega)
    have hlast : dword ((start : Int) + nitms - 1) = start + nitms - 1 := dword_eq (by omega) (by omega)
    rw [if_neg hn, hmid, hx, Option.bind_eq_bind, Option.bind_some, hlast, hpart', Option.bind_eq_bind, Option.bind_some]
    dsimp only
    obtain ⟨hleft', hb2⟩ : (if j > start then v.qsortWord insortsz fuel start (dword ((j : Int) - start + 1)) K1 else some K1) = some K2 ∧ Below hi K2 := by
      by_cases hjs : j > start
      · rw [if_pos hjs] at hleft ⊢
        rw [@dword_eq _ (j - start + 1) (by omega) (by omega)]
        exact ih hb1 (by omega) hleft
      · rw [if_neg hjs] at hleft ⊢
        exact ⟨hleft, Option.some.inj hleft ▸ hb1⟩
    rw [hleft', Option.bind_eq_bind, Option.bind_some]
    by_cases his : i < start + nitms - 1
    · rw [if_pos his] at hright ⊢
      rw [@dword_eq _ (start + nitms - i) (by omega) (by omega)]
      exact ih hb2 (by omega) hright
    · rw [if_neg his] at hright ⊢
      exact ⟨hright, Option.some.inj hright ▸ hb2⟩

end Simulation

/-! ## The run -/

/-- The comparison may be taken the other way. -/
theorem preOn_cmp {v : VsortCtl} {S : Set VsortRec} (h : PreOn v.qcomp S) : PreOn v.cmp S := by
  by_cases hd : v.descending
  · have hcmp : ∀ p q, v.cmp p q = -v.qcomp p q := fun p q => if_pos hd
    constructor
    · intro p hp q hq
      have := h.symm q hq p hp
      rw [hcmp, hcmp]
      omega
    · intro p hp q hq r hr hpq hqr
      rw [hcmp] at hpq hqr ⊢
      have h1 := (h.le_iff hq hp).mpr (by omega)
      have h2 := (h.le_iff hr hq).mpr (by omega)
      have h3 := (h.le_iff hr hp).mp (h.trans r hr q hq p hp h2 h1)
      omega
  · have hcmp : v.cmp = v.qcomp := funext fun p => funext fun q => if_neg hd
    rwa [hcmp]

/-- The pointers of a run. -/
def pointers (start nitms : Nat) (K : Keyptrs) : List (Option VsortRec) := (List.range' start nitms).map K

/-- A run in order, of the pointers that were there. -/
structure SortedRun (v : VsortCtl) (start nitms : Nat) (K K' : Keyptrs) : Prop where
  perm : (pointers start nitms K').Perm (pointers start nitms K)
  order : (pointers start nitms K').Pairwise fun o o' => ∃ y z, o = some y ∧ o' = some z ∧ v.cmp y z ≤ 0

/-- Both procedures come to their end within the run, and leave it in order. -/
structure RunRight (v : VsortCtl) (insortsz start nitms : Nat) (K : Keyptrs) : Prop where
  insort : ∃ K', v.insortInt start nitms (within start nitms K) = some K' ∧ SortedRun v start nitms K K'
  qsort : ∀ fuel, nitms + 3 ≤ fuel → ∃ K', v.qsortWord insortsz fuel start nitms (within start nitms K) = some K' ∧ SortedRun v start nitms K K'

section Run

variable {v : VsortCtl} {S : Set VsortRec} {start nitms : Nat} {K K' : Keyptrs}

theorem below_within : Below (start + nitms) (within start nitms K) := fun _ hi => if_neg (by omega)

theorem pointed_within (hK : ∀ i, start ≤ i → i < start + nitms → ∃ y ∈ S, K i = some y) :
    AllIn (Pointed S) start (start + nitms) (within start nitms K) := by
  intro i hi hi'
  unfold within
  rw [if_pos ⟨hi, hi'⟩]
  exact hK i hi hi'

theorem pointers_within : pointers start nitms (within start nitms K) = pointers start nitms K := by
  refine List.map_congr_left fun i hi => ?_
  exact if_pos (List.mem_range'_1.mp hi)

theorem sortedRun_of (hsh : Shuffled start (start + nitms) (within start nitms K) K') (hsort : SortedOn (InOrder v S) start (start + nitms) K') :
    SortedRun v start nitms K K' := by
  constructor
  · exact hsh.perm_range'.trans (List.Perm.of_eq pointers_within)
  · refine hsort.pairwise_range'.imp fun h => ?_
    obtain ⟨y, -, z, -, hy, hz, hyz⟩ := h
    exact ⟨y, z, hy, hz, hyz⟩

/-- A run that ends below `2 ^ 31` is sorted, and nothing outside of it touched. -/
theorem run_right {insortsz : Nat} (hpre : PreOn v.qcomp S) (hK : ∀ i, start ≤ i → i < start + nitms → ∃ y ∈ S, K i = some y) (hsz : 2 ≤ insortsz)
    (hend : start + nitms < 2 ^ 31) : RunRight v insortsz start nitms K := by
  have hin := pointed_within hK
  constructor
  · obtain ⟨K', hrun, hsh, hsort⟩ := insort_spec (preOn_cmp hpre) hin
    exact ⟨K', (insortInt_of below_within hend (le_refl _) hrun).1, sortedRun_of hsh hsort⟩
  · intro fuel hfuel
    obtain ⟨K', hrun, hsh, hsort⟩ := qsortBy_spec hsz (preOn_cmp hpre) hfuel hin
    exact ⟨K', (qsortWord_of below_within hend (le_refl _) hrun (by omega)).1, sortedRun_of hsh hsort⟩

/-- The records by their numbers. -/
def byRecno : VsortCtl := ⟨1, 8, fun p q => (p.recNo.toNat : Int) - q.recNo.toNat, false, by decide, by decide⟩

theorem preOn_byRecno : PreOn byRecno.qcomp Set.univ where
  symm p _ q _ := by
    change (p.recNo.toNat : Int) - q.recNo.toNat < 0 ↔ 0 < (q.recNo.toNat : Int) - p.recNo.toNat
    omega
  trans p _ q _ r _ := by
    change (p.recNo.toNat : Int) - q.recNo.toNat ≤ 0 → (q.recNo.toNat : Int) - r.recNo.toNat ≤ 0 → (p.recNo.toNat : Int) - r.recNo.toNat ≤ 0
    omega

/-- Six records, two of them equal, in a run that starts behind others. -/
theorem run_right_six : RunRight byRecno 2 4 6 fun i => some ⟨[3, 1, 5, 1, 6, 2].getD (i - 4) 0, []⟩ :=
  run_right preOn_byRecno (fun _ _ _ => ⟨_, Set.mem_univ _, rfl⟩) (le_refl _) (by decide)

/-- From `2 ^ 31` on the start of `insort` is negative. -/
theorem run_wrong : ∃ (v : VsortCtl) (K : Keyptrs), PreOn v.qcomp Set.univ ∧ (∀ i, K i = some ⟨0, []⟩) ∧ ¬RunRight v 2 (2 ^ 31) 2 K := by
  refine ⟨⟨1, 8, fun _ _ => 0, false, by decide, by decide⟩, fun _ => some ⟨0, []⟩, ⟨?_, ?_⟩, fun _ => rfl, ?_⟩
  · simp
  · simp
  · rintro ⟨⟨K', hrun, -⟩, -⟩
    have hnone : VsortCtl.insortInt ⟨1, 8, fun _ _ => 0, false, by decide, by decide⟩ (2 ^ 31) 2 (within (2 ^ 31) 2 fun _ => some ⟨0, []⟩) = none := by
      rfl
    rw [hnone] at hrun
    cases hrun

end Run

end Db3w.VsortCtl
