/-
What a store does to the table of the memory variables. A new variable, and one that hides another,
gets a group of its own in its level: one declaration, or the elements of an array. Any other store
only changes the value of one declaration.
-/
import Db3w.Hb.MvarTable

namespace Db3w.Mvar

open Db3w.Hb Links Arena

variable {s s' u : St} {D : Option Nat → List Nat} {G : Nat → Groups} {V F news : List Nat} {os : List (Nat × RawVal)} {lvl i e ve d de : Nat} {t : RawVal}

/-! ## Taking several declarations -/

/-- The lists when the first free declarations go to a level, each in front of the others. -/
def takenAll (D : Option Nat → List Nat) (lvl : Nat) (news F : List Nat) : Option Nat → List Nat :=
  Function.update (Function.update D none F) (some lvl) (news ++ D (some lvl))

theorem takenAll_none : takenAll D lvl news F none = F := by
  rw [takenAll, Function.update_of_ne (Option.some_ne_none lvl).symm, Function.update_self]

theorem takenAll_self : takenAll D lvl news F (some lvl) = news ++ D (some lvl) := Function.update_self ..

theorem takenAll_of_ne (h : i ≠ lvl) : takenAll D lvl news F (some i) = D (some i) := by
  rw [takenAll, Function.update_of_ne fun heq => h (Option.some_injective _ heq), Function.update_of_ne (Option.some_ne_none i)]

theorem takenAll_nil (D : Option Nat → List Nat) (lvl : Nat) : takenAll D lvl [] (D none) = D := by
  unfold takenAll
  rw [Function.update_eq_self, List.nil_append, Function.update_eq_self]

theorem takenAll_taken {F' : List Nat} : takenAll (taken D lvl e F') lvl news F = takenAll D lvl (news ++ [e]) F := by
  funext k
  cases k with
  | none => rw [takenAll_none, takenAll_none]
  | some i =>
    by_cases hi : i = lvl
    · subst hi
      rw [takenAll_self, takenAll_self, taken_self, List.append_assoc, List.singleton_append]
    · rw [takenAll_of_ne hi, takenAll_of_ne hi, taken_of_ne hi]

theorem live_takenAll : Live (takenAll D lvl news F) e ↔ e ∈ news ∨ Live D e := by
  constructor
  · rintro ⟨i, hi⟩
    by_cases hil : i = lvl
    · subst hil
      rw [takenAll_self] at hi
      exact (List.mem_append.mp hi).imp_right fun hi => ⟨i, hi⟩
    · rw [takenAll_of_ne hil] at hi
      exact .inr ⟨i, hi⟩
  · rintro (he | ⟨i, hi⟩)
    · exact ⟨lvl, takenAll_self ▸ List.mem_append_left _ he⟩
    · by_cases hil : i = lvl
      · subst hil
        exact ⟨i, takenAll_self ▸ List.mem_append_right _ hi⟩
      · exact ⟨i, (takenAll_of_ne hil).symm ▸ hi⟩

/-- The declarations after some have been taken. -/
structure TookAll (lvl ve : Nat) (news : List Nat) (s s' : St) : Prop where
  vars : SameVars s s'
  pool : s'.pool = s.pool
  zero : (s'.decTable 0).varEntry = (s.decTable 0).varEntry
  new : ∀ x ∈ news, (s'.decTable x).level = (s.decTable x).level ∧ (s'.decTable x).varEntry = ve ∧
    (s'.decTable x).prior = (if lvl = 0 then 0 else -1) ∧ (s'.decTable x).value = none
  old : ∀ x, x ≠ 0 → x ∉ news → s'.decTable x = s.decTable x

theorem takeDecs_spec {n : Nat} (hl : Lists s D) (hlvl : lvl ≤ s.currLvl) (h : takeDecs lvl ve n de s = .ok (d, s')) :
    ∃ news F, D none = news.reverse ++ F ∧ news.length = n ∧ (news ++ [de]).head? = some d ∧ TookAll lvl ve news s s' ∧
      Lists s' (takenAll D lvl news F) := by
  induction n generalizing s D de with
  | zero =>
    cases h
    exact ⟨[], D none, rfl, rfl, rfl, ⟨.refl _, rfl, rfl, fun x hx => absurd hx List.not_mem_nil, fun x _ _ => rfl⟩, (takenAll_nil D lvl).symm ▸ hl⟩
  | succ n ih =>
    unfold takeDecs at h
    dsimp only at h
    cases hr : getNextDec lvl ve s with
    | mk x s₁ =>
      rw [hr] at h
      split at h
      · cases h
      rename_i hx
      obtain ⟨F₁, hF₁, htook⟩ := hl.getNextDec hr hx
      have hl₁ := htook.lists hl hlvl hF₁
      obtain ⟨news, F, hF, hlen, hhead, htail, hl'⟩ := ih hl₁ (htook.vars.currLvl.symm ▸ hlvl) h
      rw [taken_none] at hF
      have hnodup := hl.split.nodup none
      rw [hF₁] at hnodup
      have hxF : x ∉ news := fun hm => (List.nodup_cons.mp hnodup).1 (hF ▸ List.mem_append_left _ (List.mem_reverse.mpr hm))
      refine ⟨news ++ [x], F, ?_, ?_, ?_, ⟨htook.vars.trans htail.vars, htail.pool.trans htook.pool, ?_, fun y hy => ?_, fun y hy0 hy => ?_⟩, ?_⟩
      · rw [hF₁, hF, List.reverse_append, List.reverse_singleton, List.singleton_append, List.cons_append]
      · rw [List.length_append, hlen, List.length_singleton]
      · rw [List.head?_append, hhead, Option.some_or]
      · rw [htail.zero, htook.zero]
      · rcases List.mem_append.mp hy with hy | hy
        · have hyF : y ∈ D none := hF₁ ▸ List.mem_cons_of_mem _ (hF ▸ List.mem_append_left _ (List.mem_reverse.mpr hy))
          rw [← htook.old y (hl.range none y hyF).1.ne' (ne_of_mem_of_not_mem hy hxF)]
          exact htail.new y hy
        · obtain rfl := List.mem_singleton.mp hy
          rw [htail.old y hx hxF, htook.new]
          exact ⟨rfl, rfl, rfl, rfl⟩
      · rw [List.mem_append, List.mem_singleton, not_or] at hy
        rw [htail.old y hy0 hy.1, htook.old y hy0 hy.2]
      · rw [← takenAll_taken]
        exact hl'

/-! ## A new group -/

/-- The levels when a slot gets a group in one of them. -/
def withGroup (G : Nat → Groups) (lvl e : Nat) (news : List Nat) : Nat → Groups := Function.update G lvl ((e, news) :: G lvl)

theorem headAt_withGroup_of_ne (hve : ve ≠ e) (i : Nat) : headAt (withGroup G lvl e news i) ve = headAt (G i) ve := by
  unfold withGroup
  by_cases hi : i = lvl
  · subst hi
    rw [Function.update_self]
    unfold headAt
    rw [List.lookup_cons, beq_eq_false_iff_ne.mpr hve]
  · rw [Function.update_of_ne hi]

theorem mem_withGroup {ds : List Nat} : (ve, ds) ∈ withGroup G lvl e news i ↔ (i = lvl ∧ ve = e ∧ ds = news) ∨ (ve, ds) ∈ G i := by
  unfold withGroup
  by_cases hi : i = lvl
  · subst hi
    rw [Function.update_self, List.mem_cons, Prod.mk.injEq]
    constructor
    · rintro (h | h)
      · exact .inl ⟨rfl, h⟩
      · exact .inr h
    · rintro (⟨-, h⟩ | h)
      · exact .inl h
      · exact .inr h
  · rw [Function.update_of_ne hi]
    constructor
    · exact Or.inr
    · rintro (⟨h, -⟩ | h)
      · exact absurd h hi
      · exact h

/-- The table when a slot that has no group from the level `lvl` on gets the group `news` there. -/
theorem Table.newGroup (ht : Table s D G V) (hl : Lists u (takenAll D lvl news F)) (hF : D none = news.reverse ++ F) (hne : news.head? = some d)
    (hnew : ∀ x ∈ news, (u.decTable x).varEntry = e)
    (hold : ∀ x, x ≠ 0 → x ∉ news → (u.decTable x).varEntry = (s.decTable x).varEntry ∧ (u.decTable x).prior = (s.decTable x).prior)
    (hzero : (u.decTable 0).varEntry = 0) (hlvl : u.currLvl = s.currLvl) (hle : lvl ≤ s.currLvl) (hlink : ∀ v, (u.varTable v).hlink = (s.varTable v).hlink)
    (hdec : ∀ v, (u.varTable v).decEntry = if v = e then d else (s.varTable v).decEntry)
    (hprior : (u.decTable d).prior.toNat = top G lvl e) (he0 : e ≠ 0) (heV : e ∉ V) (hfresh : ∀ i, lvl ≤ i → e ∉ slots (G i)) :
    Table u (takenAll D lvl news F) (withGroup G lvl e news) V := by
  have hdmem : d ∈ news := List.mem_of_mem_head? hne
  have hd0 : d ≠ 0 := (hl.range (some lvl) d (takenAll_self ▸ List.mem_append_left _ hdmem)).1.ne'
  have hnodup : ∀ i, (slots (withGroup G lvl e news i)).Nodup := by
    intro i
    unfold withGroup
    by_cases hi : i = lvl
    · subst hi
      rw [Function.update_self]
      exact List.nodup_cons.mpr ⟨hfresh i le_rfl, ht.nodup i⟩
    · rw [Function.update_of_ne hi]
      exact ht.nodup i
  -- a declaration of an old group has not just been taken
  have hmem : ∀ i ve ds, (ve, ds) ∈ G i → ∀ x ∈ ds, x ≠ 0 ∧ x ∉ news := by
    intro i ve ds hg x hx
    have hxi := ht.mem hg hx
    refine ⟨(ht.lists.range _ x hxi).1.ne', fun hxn => ht.lists.not_free ⟨i, hxi⟩ ?_⟩
    rw [hF]
    exact List.mem_append_left _ (List.mem_reverse.mpr hxn)
  have htop : ∀ i ve, ve ≠ e ∨ i ≤ lvl → top (withGroup G lvl e news) i ve = top G i ve := by
    intro i ve h
    refine top_congr fun j hj => ?_
    rcases h with h | h
    · exact headAt_withGroup_of_ne h j
    · rw [withGroup, Function.update_of_ne (by omega)]
  refine ⟨hl, fun i => ?_, hnodup, fun i ve ds hg => ?_, fun i ve ds hg => ?_, fun ve => ?_, fun i ve x ds hg => ?_, hzero, ?_, ht.free_nodup, ht.free_pos⟩
  · unfold withGroup
    by_cases hi : i = lvl
    · subst hi
      rw [takenAll_self, Function.update_self, entries_cons, ht.entries_eq]
    · rw [takenAll_of_ne hi, Function.update_of_ne hi, ht.entries_eq]
  · rcases mem_withGroup.mp hg with ⟨-, -, rfl⟩ | hg
    · exact List.ne_nil_of_mem hdmem
    · exact ht.ne_nil i ve ds hg
  · rcases mem_withGroup.mp hg with ⟨-, rfl, rfl⟩ | hg
    · exact ⟨he0, heV, hnew⟩
    · obtain ⟨h0, hV, hds⟩ := ht.slot i ve ds hg
      exact ⟨h0, hV, fun x hx => (hold x (hmem i ve ds hg x hx).1 (hmem i ve ds hg x hx).2).1.trans (hds x hx)⟩
  · rw [hdec, hlvl]
    by_cases hve : ve = e
    · subst hve
      have hhead : headAt (withGroup G lvl ve news lvl) ve = d := by
        obtain ⟨ds, rfl⟩ : ∃ ds, news = d :: ds := by
          cases news with
          | nil => cases hne
          | cons x ds =>
            cases hne
            exact ⟨ds, rfl⟩
        exact headAt_of_mem (hnodup lvl) (mem_withGroup.mpr (.inl ⟨rfl, rfl, rfl⟩))
      rw [if_pos rfl, top_of_none (i := lvl + 1) (Nat.succ_le_succ hle), top, if_neg (hhead.symm ▸ hd0), hhead]
      intro j hj hjk
      rw [withGroup, Function.update_of_ne (by omega)]
      exact headAt_of_not_mem (hfresh j (by omega))
    · rw [if_neg hve, htop _ _ (.inl hve)]
      exact ht.head ve
  · rcases mem_withGroup.mp hg with ⟨rfl, rfl, hds⟩ | hold'
    · rw [← hds] at hne
      cases hne
      rw [htop _ _ (.inr le_rfl)]
      exact hprior
    · rw [(hold x (hmem i ve _ hold' x List.mem_cons_self).1 (hmem i ve _ hold' x List.mem_cons_self).2).2, htop]
      · exact ht.prior i ve x ds hold'
      · by_contra hcon
        rw [not_or, not_not] at hcon
        obtain ⟨rfl, hi⟩ := hcon
        exact hfresh i (by omega) (List.mem_map_of_mem (f := Prod.fst) hold')
  · rw [hlink]
    have : (fun v => (u.varTable v).hlink) = fun v => (s.varTable v).hlink := funext hlink
    rw [this]
    exact ht.free

/-! ## Placing a value -/

theorem place_value {eo : Option Nat} (h : place lvl eo de t s = .ok s') (ht : t.typ ≠ ARRAYTYP) :
    s' = ({ s with pool := s.pool ++ t.bytes } : St).setDec de { s.decTable de with value := some s.pool.length } := by
  unfold place at h
  obtain ⟨r, hr, h⟩ := VRes.bind_eq_ok h
  obtain ⟨-, rfl⟩ := addVal_ok hr
  rw [if_neg ht] at h
  cases h
  rfl

theorem place_array {eo : Option Nat} (hl : Lists s D) (hlvl : lvl ≤ s.currLvl) (h : place lvl eo de t s = .ok s') (ht : t.typ = ARRAYTYP) :
    ∃ e d news F u, eo = some e ∧ D none = news.reverse ++ F ∧ (news ++ [de]).head? = some d ∧
      TookAll lvl e news { s with pool := s.pool ++ t.bytes } u ∧ Lists u (takenAll D lvl news F) ∧
      s' = (u.setVar e { u.varTable e with decEntry := d }).setDec d { u.decTable d with value := some s.pool.length } := by
  unfold place at h
  obtain ⟨r, hr, h⟩ := VRes.bind_eq_ok h
  obtain ⟨-, rfl⟩ := addVal_ok hr
  rw [if_pos ht] at h
  cases eo with
  | none => cases h
  | some e =>
    dsimp only at h
    split at h
    · cases h
    obtain ⟨⟨d, u⟩, hd, h⟩ := VRes.bind_eq_ok h
    cases h
    have hl' : Lists { s with pool := s.pool ++ t.bytes } D := hl.congr (fun _ => rfl) rfl rfl
    obtain ⟨news, F, hF, -, hhead, htook, hlists⟩ := takeDecs_spec hl' hlvl hd
    exact ⟨e, d, news, F, u, rfl, hF, hhead, htook, hlists, rfl⟩

/-! ## The invariant -/

/-- The table with the values, the levels that hide, and references that lead to lower levels. -/
structure Good (s : St) (D : Option Nat → List Nat) (G : Nat → Groups) (V : List Nat) (os : List (Nat × RawVal)) : Prop where
  table : Table s D G V
  vals : Vals s D os
  shown : ∀ x ∈ D (some s.currLvl), (s.decTable x).level = 0
  hidden : ∀ x ∈ D (some 0), (s.decTable x).level ≤ s.currLvl
  unused : ∀ x ∈ D none, (s.decTable x).level = 0
  refs : ∀ i x v, x ∈ D (some i) → (x, v) ∈ os → v.typ = ADDR → ∃ j, j < i ∧ getWord v.buf ∈ D (some j)
  array : s.arrayDe = 0

/-- The declaration `d` gets the value `w`; the others keep theirs. -/
def Stored (w : RawVal) (d : Nat) (D' : Option Nat → List Nat) (os os' : List (Nat × RawVal)) : Prop :=
  ∀ x v, Live D' x → ((x, v) ∈ os' ↔ if x = d then v = w else (x, v) ∈ os)

/-- The declarations keep their values. -/
def Kept (D' : Option Nat → List Nat) (os os' : List (Nat × RawVal)) : Prop := ∀ x v, Live D' x → ((x, v) ∈ os' ↔ (x, v) ∈ os)

theorem Vals.stored_append {D' : Option Nat → List Nat} (he : e ∉ os.map Prod.fst) : Stored t e D' os (os ++ [(e, t)]) := by
  intro x v _
  rw [List.mem_append, List.mem_singleton, Prod.mk.injEq]
  by_cases hxe : x = e
  · subst hxe
    rw [if_pos rfl]
    constructor
    · rintro (h | ⟨-, h⟩)
      · exact absurd (List.mem_map_of_mem (f := Prod.fst) h) he
      · exact h
    · rintro rfl
      exact .inr ⟨rfl, rfl⟩
  · rw [if_neg hxe]
    constructor
    · rintro (h | ⟨h, -⟩)
      · exact h
      · exact absurd h hxe
    · exact Or.inl

/-- A declaration `x` has been taken for the slot `e`, which leads to it now. -/
structure Begun (lvl e x : Nat) (pr : Int) (s u : St) : Prop where
  pool : u.pool = s.pool
  arrayDe : u.arrayDe = s.arrayDe
  currLvl : u.currLvl = s.currLvl
  var : u.varTable = Function.update s.varTable e { s.varTable e with decEntry := x }
  new : (u.decTable x).level = (s.decTable x).level ∧ (u.decTable x).varEntry = e ∧ (u.decTable x).prior = pr ∧ (u.decTable x).value = none
  zero : (u.decTable 0).varEntry = (s.decTable 0).varEntry
  old : ∀ j, j ≠ 0 → j ≠ x → u.decTable j = s.decTable j

end Db3w.Mvar
