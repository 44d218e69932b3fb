/-
The table of the memory variables. The declarations of a level come in groups: those of one slot
follow each other, an array's with its descriptor first. A slot leads to the first declaration of its
newest group, and that one to the group it hides; a slot without a group is free. The slots that
are free are a list of their own.
-/
import Db3w.Hb.MvarDecs

namespace Db3w.Mvar

open Db3w.Hb Links Arena

/-- The slots of a level with their declarations. -/
abbrev Groups := List (Nat × List Nat)

def entries (gs : Groups) : List Nat := gs.flatMap Prod.snd

def slots (gs : Groups) : List Nat := gs.map Prod.fst

/-- The first declaration of a slot in a level, or 0. -/
def headAt (gs : Groups) (ve : Nat) : Nat := ((gs.lookup ve).bind List.head?).getD 0

/-- The first declaration of a slot in the levels below `k`, or 0. -/
def top (G : Nat → Groups) : Nat → Nat → Nat
  | 0, _ => 0
  | k + 1, ve => if headAt (G k) ve = 0 then top G k ve else headAt (G k) ve

section

variable {gs : Groups} {G G' : Nat → Groups} {ve : Nat} {d : Nat} {ds : List Nat}

theorem lookup_of_mem (hnodup : (slots gs).Nodup) (h : (ve, ds) ∈ gs) : gs.lookup ve = some ds := by
  obtain ⟨a, c, rfl⟩ := List.append_of_mem h
  refine List.lookup_eq_some_iff.mpr ⟨a, c, rfl, fun p hp => ?_⟩
  unfold slots at hnodup
  rw [List.map_append, List.map_cons] at hnodup
  rw [bne_iff_ne]
  exact Ne.symm ((List.nodup_append.mp hnodup).2.2 p.1 (List.mem_map_of_mem hp) ve List.mem_cons_self)

theorem headAt_of_mem (hnodup : (slots gs).Nodup) (h : (ve, d :: ds) ∈ gs) : headAt gs ve = d := by
  rw [headAt, lookup_of_mem hnodup h]
  rfl

theorem headAt_of_not_mem (h : ve ∉ slots gs) : headAt gs ve = 0 := by
  have hnone : gs.lookup ve = none := by
    refine List.lookup_eq_none_iff.mpr fun p hp => ?_
    rw [bne_iff_ne]
    rintro rfl
    exact h (List.mem_map_of_mem hp)
  rw [headAt, hnone]
  rfl

theorem mem_of_headAt (h : headAt gs ve ≠ 0) : ∃ ds, (ve, headAt gs ve :: ds) ∈ gs := by
  unfold headAt at h ⊢
  cases hl : gs.lookup ve with
  | none =>
    rw [hl] at h
    exact absurd rfl h
  | some l =>
    rw [hl] at h
    obtain ⟨a, c, hgs, -⟩ := List.lookup_eq_some_iff.mp hl
    cases l with
    | nil => exact absurd rfl h
    | cons d ds =>
      refine ⟨ds, ?_⟩
      rw [hgs]
      exact List.mem_append_right _ List.mem_cons_self

theorem mem_entries {x : Nat} : x ∈ entries gs ↔ ∃ ve ds, (ve, ds) ∈ gs ∧ x ∈ ds := by
  unfold entries
  rw [List.mem_flatMap]
  constructor
  · rintro ⟨⟨ve, ds⟩, hg, hx⟩
    exact ⟨ve, ds, hg, hx⟩
  · rintro ⟨ve, ds, hg, hx⟩
    exact ⟨(ve, ds), hg, hx⟩

theorem entries_append (gs hs : Groups) : entries (gs ++ hs) = entries gs ++ entries hs := List.flatMap_append

theorem entries_cons (g : Nat × List Nat) : entries (g :: gs) = g.2 ++ entries gs := List.flatMap_cons

/-- Only the levels below count. -/
theorem top_congr {k : Nat} (h : ∀ i, i < k → headAt (G' i) ve = headAt (G i) ve) : top G' k ve = top G k ve := by
  induction k with
  | zero => rfl
  | succ k ih => rw [top, top, h k (Nat.lt_succ_self k), ih fun i hi => h i (Nat.lt_succ_of_lt hi)]

/-- Levels without the slot do not count. -/
theorem top_of_none {i k : Nat} (hik : i ≤ k) (h : ∀ j, i ≤ j → j < k → headAt (G j) ve = 0) : top G k ve = top G i ve := by
  induction k with
  | zero =>
    obtain rfl : i = 0 := by omega
    rfl
  | succ k ih =>
    rcases Nat.lt_or_ge k i with hki | hki
    · obtain rfl : i = k + 1 := by omega
      rfl
    · rw [top, if_pos (h k hki (Nat.lt_succ_self k))]
      exact ih hki fun j hj hjk => h j hj (Nat.lt_succ_of_lt hjk)

theorem top_ne_zero {k : Nat} (h : top G k ve ≠ 0) :
    ∃ i, i < k ∧ (∃ ds, (ve, top G k ve :: ds) ∈ G i) ∧ ∀ j, i < j → j < k → headAt (G j) ve = 0 := by
  induction k with
  | zero => exact absurd rfl h
  | succ k ih =>
    unfold top at h ⊢
    by_cases hk : headAt (G k) ve = 0
    · rw [if_pos hk] at h ⊢
      obtain ⟨i, hi, hmem, hnone⟩ := ih h
      refine ⟨i, Nat.lt_succ_of_lt hi, hmem, fun j hj hjk => ?_⟩
      rcases Nat.lt_succ_iff_lt_or_eq.mp hjk with hjk | rfl
      · exact hnone j hj hjk
      · exact hk
    · rw [if_neg hk]
      exact ⟨k, Nat.lt_succ_self k, mem_of_headAt hk, fun j hj hjk => absurd hj (by omega)⟩

theorem top_eq_zero {i k : Nat} (h : top G k ve = 0) (hik : i < k) : headAt (G i) ve = 0 := by
  induction k with
  | zero => omega
  | succ k ih =>
    unfold top at h
    by_cases hk : headAt (G k) ve = 0
    · rw [if_pos hk] at h
      rcases Nat.lt_succ_iff_lt_or_eq.mp hik with hik | rfl
      · exact ih h hik
      · exact hk
    · rw [if_neg hk] at h
      exact absurd h hk

end

/-- The declarations in groups, with the slots they belong to. `V` are the slots that are free. -/
structure Table (s : St) (D : Option Nat → List Nat) (G : Nat → Groups) (V : List Nat) : Prop where
  lists : Lists s D
  entries_eq : ∀ i, D (some i) = entries (G i)
  nodup : ∀ i, (slots (G i)).Nodup
  ne_nil : ∀ i ve ds, (ve, ds) ∈ G i → ds ≠ []
  slot : ∀ i ve ds, (ve, ds) ∈ G i → ve ≠ 0 ∧ ve ∉ V ∧ ∀ d ∈ ds, (s.decTable d).varEntry = ve
  head : ∀ ve, (s.varTable ve).decEntry = top G (s.currLvl + 1) ve
  prior : ∀ i ve d ds, (ve, d :: ds) ∈ G i → (s.decTable d).prior.toNat = top G i ve
  zero : (s.decTable 0).varEntry = 0
  free : Path (fun v => (s.varTable v).hlink) (s.varTable 0).hlink V VARTABSZ
  free_nodup : V.Nodup
  free_pos : 0 ∉ V

section

variable {s s' : St} {D : Option Nat → List Nat} {G : Nat → Groups} {V : List Nat} {os : List (Nat × RawVal)} {i e ve d : Nat} {ds : List Nat}

theorem Table.mem (ht : Table s D G V) (hg : (ve, ds) ∈ G i) (hd : d ∈ ds) : d ∈ D (some i) :=
  ht.entries_eq i ▸ mem_entries.mpr ⟨ve, ds, hg, hd⟩

theorem Table.head_pos (ht : Table s D G V) (hg : (ve, d :: ds) ∈ G i) : d ≠ 0 :=
  (ht.lists.range _ d (ht.mem hg List.mem_cons_self)).1.ne'

/-- A level without the first declaration of a slot has none of it. -/
theorem Table.headAt_eq_zero (ht : Table s D G V) : headAt (G i) ve = 0 ↔ ve ∉ slots (G i) := by
  constructor
  · intro h0 hm
    obtain ⟨⟨ve', ds⟩, hg, rfl⟩ := List.mem_map.mp hm
    cases ds with
    | nil => exact ht.ne_nil i ve' [] hg rfl
    | cons d ds =>
      rw [headAt_of_mem (ht.nodup i) hg] at h0
      exact ht.head_pos hg h0
  · exact headAt_of_not_mem

theorem Table.le_currLvl (ht : Table s D G V) (hm : ve ∈ slots (G i)) : i ≤ s.currLvl := by
  by_contra hi
  obtain ⟨⟨ve', ds⟩, hg, rfl⟩ := List.mem_map.mp hm
  obtain ⟨d, hd⟩ := List.exists_mem_of_ne_nil ds (ht.ne_nil i ve' ds hg)
  have hmem := ht.mem hg hd
  rw [ht.lists.above i (by omega)] at hmem
  exact List.not_mem_nil hmem

/-- The declaration that a slot leads to. -/
theorem Table.decEntry (ht : Table s D G V) (h : (s.varTable ve).decEntry ≠ 0) :
    ∃ i, i ≤ s.currLvl ∧ (∃ ds, (ve, (s.varTable ve).decEntry :: ds) ∈ G i) ∧ ∀ j, i < j → ve ∉ slots (G j) := by
  rw [ht.head] at h ⊢
  obtain ⟨i, hi, hmem, hnone⟩ := top_ne_zero h
  refine ⟨i, by omega, hmem, fun j hj hm => ?_⟩
  have := ht.le_currLvl hm
  exact ht.headAt_eq_zero.mp (hnone j hj (by omega)) hm

theorem Table.decEntry_eq_zero (ht : Table s D G V) (h : (s.varTable ve).decEntry = 0) (i : Nat) : ve ∉ slots (G i) := by
  intro hm
  rw [ht.head] at h
  exact ht.headAt_eq_zero.mp (top_eq_zero h (Nat.lt_succ_of_le (ht.le_currLvl hm))) hm

theorem Table.in_use (ht : Table s D G V) (h : (s.varTable ve).decEntry ≠ 0) : ve ≠ 0 ∧ ve ∉ V := by
  obtain ⟨i, -, ⟨ds, hg⟩, -⟩ := ht.decEntry h
  exact ⟨(ht.slot i ve _ hg).1, (ht.slot i ve _ hg).2.1⟩

theorem Table.decEntry_zero (ht : Table s D G V) : (s.varTable 0).decEntry = 0 := by
  by_contra h
  exact (ht.in_use h).1 rfl

/-- A change of values only. -/
theorem Table.congr (ht : Table s D G V) (hvars : SameVars s s') (hvlevel : s'.vlevel = s.vlevel)
    (hdec : ∀ j, SameDec (s.decTable j) (s'.decTable j)) : Table s' D G V := by
  have hvar : ∀ j, (s'.decTable j).varEntry = (s.decTable j).varEntry := fun j => by rw [hdec j]
  have hprior : ∀ j, (s'.decTable j).prior = (s.decTable j).prior := fun j => by rw [hdec j]
  refine ⟨ht.lists.congr (fun j => (hdec j).link) hvlevel hvars.currLvl, ht.entries_eq, ht.nodup, ht.ne_nil, fun i ve ds hg => ?_, fun ve => ?_,
    fun i ve d ds hg => ?_, ?_, ?_, ht.free_nodup, ht.free_pos⟩
  · obtain ⟨h0, hV, hds⟩ := ht.slot i ve ds hg
    exact ⟨h0, hV, fun d hd => (hvar d).trans (hds d hd)⟩
  · rw [hvars.varTable, hvars.currLvl]
    exact ht.head ve
  · rw [hprior]
    exact ht.prior i ve d ds hg
  · rw [hvar]
    exact ht.zero
  · rw [hvars.varTable]
    exact ht.free

/-! ## Looking up names -/

/-- All but names and chains. -/
structure SameDecs (s s' : St) : Prop where
  decTable : s'.decTable = s.decTable
  pool : s'.pool = s.pool
  vlevel : s'.vlevel = s.vlevel
  arrayDe : s'.arrayDe = s.arrayDe
  currLvl : s'.currLvl = s.currLvl
  decEntry : ∀ v, (s'.varTable v).decEntry = (s.varTable v).decEntry

theorem SameDecs.refl (s : St) : SameDecs s s := ⟨rfl, rfl, rfl, rfl, rfl, fun _ => rfl⟩

theorem SameDecs.vals (h : SameDecs s s') (hv : Vals s D os) : Vals s' D os :=
  hv.congr h.pool (fun e _ => by rw [h.decTable]) (fun _ he => .inl he) fun _ he => he

/-- A table whose names and chains change, but for the list of the free slots. -/
theorem Table.same_decs (ht : Table s D G V) (h : SameDecs s s') {V' : List Nat} (hV : V' ⊆ V) (hnodup : V'.Nodup)
    (hfree : Path (fun v => (s'.varTable v).hlink) (s'.varTable 0).hlink V' VARTABSZ) : Table s' D G V' := by
  have hlink : ∀ j, s'.link j = s.link j := fun j => by rw [St.link, h.decTable]; rfl
  refine ⟨ht.lists.congr hlink h.vlevel h.currLvl, ht.entries_eq, ht.nodup, ht.ne_nil, fun i ve ds hg => ?_, fun ve => ?_, fun i ve d ds hg => ?_,
    ?_, hfree, hnodup, fun h0 => ht.free_pos (hV h0)⟩
  · obtain ⟨h0, hV', hds⟩ := ht.slot i ve ds hg
    exact ⟨h0, fun hm => hV' (hV hm), h.decTable ▸ hds⟩
  · rw [h.decEntry, h.currLvl]
    exact ht.head ve
  · rw [h.decTable]
    exact ht.prior i ve d ds hg
  · rw [h.decTable]
    exact ht.zero

/-- A chain is only entered at slots in use. -/
def HPtr.Ok (s : St) (p : HPtr) : Prop := ∀ x, p = .slot x → (s.varTable x).decEntry ≠ 0

theorem HPtr.set_spec (p : HPtr) (s : St) (f : Nat) :
    SameDecs s (p.set s f) ∧ ∀ v, p ≠ .slot v → (p.set s f).varTable v = s.varTable v := by
  cases p with
  | bucket h => exact ⟨⟨rfl, rfl, rfl, rfl, rfl, fun _ => rfl⟩, fun _ _ => rfl⟩
  | slot x =>
    refine ⟨⟨rfl, rfl, rfl, rfl, rfl, fun v => ?_⟩, fun v hv => ?_⟩
    · show ((s.setVar x _).varTable v).decEntry = _
      by_cases hvx : v = x
      · subst hvx
        rw [St.setVar_self]
      · rw [St.setVar_of_ne hvx]
    · exact St.setVar_of_ne fun hvx => hv (congrArg HPtr.slot hvx.symm)

/-- What is found is in use; what is put in was free. -/
theorem hlink_spec {ins : Bool} {name : Str} {fuel : Nat} {p : HPtr} (ht : Table s D G V) (hp : p.Ok s)
    (h : hlink ins name fuel p s = .ok (e, s')) :
    (s' = s ∧ (s.varTable e).decEntry ≠ 0) ∨ (ins = false ∧ s' = s ∧ e = 0) ∨
      (ins = true ∧ SameDecs s s' ∧ (s.varTable e).decEntry = 0 ∧ ∃ V', V = e :: V' ∧ Table s' D G V') := by
  induction fuel generalizing p with
  | zero => cases h
  | succ fuel ih =>
    unfold hlink at h
    dsimp only at h
    split at h
    · rename_i hused
      split at h
      · exact ih (fun x hx => (HPtr.slot.inj hx) ▸ hused) h
      · cases h
        exact .inl ⟨rfl, hused⟩
    split at h
    · rename_i hins
      cases h
      rw [Bool.not_eq_true'] at hins
      exact .inr (.inl ⟨hins, rfl, rfl⟩)
    rename_i hins
    split at h
    · cases h
    rename_i hmax
    cases h
    refine .inr (.inr ⟨by simpa using hins, ?_⟩)
    cases V with
    | nil => exact absurd ht.free hmax
    | cons f V =>
      obtain ⟨hf, hfree⟩ := ht.free
      obtain ⟨hfV, hnodup⟩ := List.nodup_cons.mp ht.free_nodup
      have hunused : ∀ v ∈ f :: V, (s.varTable v).decEntry = 0 := by
        intro v hv
        by_contra hne
        exact (ht.in_use hne).2 hv
      have hf0 : f ≠ 0 := fun h0 => ht.free_pos (h0 ▸ List.mem_cons_self)
      obtain ⟨hset, hsetv⟩ := p.set_spec s f
      have hslot : ∀ v ∈ 0 :: f :: V, p ≠ .slot v := by
        rintro v hv rfl
        rcases List.mem_cons.mp hv with rfl | hv
        · exact hp 0 rfl ht.decEntry_zero
        · exact hp v rfl (hunused v hv)
      rw [hf]
      have hdec : SameDecs s (((p.set s f).setVar 0 { (p.set s f).varTable 0 with hlink := ((p.set s f).varTable f).hlink }).setVar f
          { ((p.set s f).setVar 0 { (p.set s f).varTable 0 with hlink := ((p.set s f).varTable f).hlink }).varTable f with
            hlink := 0, name := chgcase name }) := by
        refine ⟨hset.decTable, hset.pool, hset.vlevel, hset.arrayDe, hset.currLvl, fun v => ?_⟩
        by_cases hvf : v = f
        · subst hvf
          rw [St.setVar_self, St.setVar_of_ne hf0]
          exact hset.decEntry v
        · rw [St.setVar_of_ne hvf]
          by_cases hv0 : v = 0
          · subst hv0
            rw [St.setVar_self]
            exact hset.decEntry 0
          · rw [St.setVar_of_ne hv0]
            exact hset.decEntry v
      refine ⟨hdec, hunused f List.mem_cons_self, V, rfl, ht.same_decs hdec (List.subset_cons_self f V) hnodup ?_⟩
      rw [St.setVar_of_ne (Ne.symm hf0), St.setVar_self, hsetv f (hslot f (List.mem_cons_of_mem _ List.mem_cons_self))]
      refine hfree.congr fun v hv => ?_
      have hvf : v ≠ f := ne_of_mem_of_not_mem hv hfV
      have hv0 : v ≠ 0 := fun h0 => ht.free_pos (h0 ▸ List.mem_cons_of_mem _ hv)
      rw [St.setVar_of_ne hvf, St.setVar_of_ne hv0, hsetv v (hslot v (List.mem_cons_of_mem _ (List.mem_cons_of_mem _ hv)))]

theorem varsrin_spec {ins : Bool} {name : Str} (ht : Table s D G V) (h : varsrin ins name s = .ok (e, s')) :
    (s' = s ∧ (s.varTable e).decEntry ≠ 0) ∨ (ins = false ∧ s' = s ∧ e = 0) ∨
      (ins = true ∧ SameDecs s s' ∧ (s.varTable e).decEntry = 0 ∧ ∃ V', V = e :: V' ∧ Table s' D G V') :=
  hlink_spec ht (by rintro x hx; cases hx) h

end

end Db3w.Mvar
