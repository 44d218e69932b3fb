/-
The declarations of the memory variables as lists: one for each procedure level and one of those
that are free. No declaration is on two of them. The buffer of values holds the values of the
declarations in use, packed; what takes a declaration, frees it, deletes its value or gives it one
keeps this.
-/
import Db3w.Hb.Mvar
import Db3w.Lib.Arena

namespace Db3w.Mvar

open Db3w.Hb Links Arena

variable {s s' : St} {D : Option Nat → List Nat} {os : List (Nat × RawVal)} {e j : Nat}

/-- Where a list begins: that of a level, or the free one. -/
def starts (s : St) : Option Nat → Nat
  | none => s.link 0
  | some i => s.vlevel i

/-- What a list ends with. -/
def stops : Option Nat → Nat
  | none => DCLNTABSZ
  | some _ => 0

/-- The lists of declarations. -/
structure Lists (s : St) (D : Option Nat → List Nat) : Prop where
  split : Split s.link (starts s) stops D
  range : ∀ k, ∀ x ∈ D k, 0 < x ∧ x < DCLNTABSZ
  above : ∀ i, s.currLvl < i → D (some i) = []

/-- A declaration in use. -/
def Live (D : Option Nat → List Nat) (e : Nat) : Prop := ∃ i, e ∈ D (some i)

/-- The values of the declarations in use. -/
structure Vals (s : St) (D : Option Nat → List Nat) (os : List (Nat × RawVal)) : Prop where
  packed : Arena.Packed RawVal.bytes s.pool (fun e => (s.decTable e).value) os
  owns : ∀ e, e ∈ os.map Prod.fst ↔ Live D e ∧ (s.decTable e).value ≠ none

/-- All but the declarations and their values. -/
structure SameVars (s s' : St) : Prop where
  varTable : s'.varTable = s.varTable
  hashTable : s'.hashTable = s.hashTable
  arrayDe : s'.arrayDe = s.arrayDe
  currLvl : s'.currLvl = s.currLvl

theorem SameVars.refl (s : St) : SameVars s s := ⟨rfl, rfl, rfl, rfl⟩

theorem SameVars.trans {t : St} (h : SameVars s t) (h' : SameVars t s') : SameVars s s' :=
  ⟨h'.varTable.trans h.varTable, h'.hashTable.trans h.hashTable, h'.arrayDe.trans h.arrayDe, h'.currLvl.trans h.currLvl⟩

/-- Two declarations that agree on everything but the value. -/
def SameDec (d d' : Dcln) : Prop := d' = { d with value := d'.value }

theorem SameDec.link {d d' : Dcln} (h : SameDec d d') : d'.link = d.link := by rw [h]

theorem SameDec.trans {d d' d'' : Dcln} (h : SameDec d d') (h' : SameDec d' d'') : SameDec d d'' := by
  unfold SameDec
  rw [h', h]

/-! ## The lists -/

theorem Lists.not_mem_zero (h : Lists s D) (k : Option Nat) : 0 ∉ D k := fun h0 => (h.range k 0 h0).1.false

theorem Lists.congr (h : Lists s D) (hlink : ∀ j, s'.link j = s.link j) (hvlevel : s'.vlevel = s.vlevel) (hlvl : s'.currLvl = s.currLvl) :
    Lists s' D := by
  refine ⟨h.split.congr (fun _ j _ => hlink j) fun k => ?_, h.range, fun i hi => h.above i (hlvl ▸ hi)⟩
  cases k with
  | none => exact hlink 0
  | some i => exact congrFun hvlevel i

theorem Lists.length_le (h : Lists s D) (k : Option Nat) : (D k).length ≤ DCLNTABSZ := by
  have hsub : (D k) ⊆ List.range DCLNTABSZ := fun x hx => List.mem_range.mpr (h.range k x hx).2
  have := ((h.split.nodup k).subperm hsub).length_le
  rwa [List.length_range] at this

theorem Lists.levelList (h : Lists s D) (i : Nat) : levelList s i = some (D (some i)) := by
  unfold Mvar.levelList
  refine Path.walk (h.split.path (some i)) (decide_eq_true rfl) (fun x hx => decide_eq_false ?_) (h.length_le _)
  exact (h.range _ x hx).1.ne'

/-- The declarations of all levels. -/
def allOf (s : St) (D : Option Nat → List Nat) : List Nat := (List.range (s.currLvl + 1)).flatMap fun i => D (some i)

theorem Lists.mapM_levelList (h : Lists s D) (l : List Nat) : l.mapM (Mvar.levelList s) = some (l.map fun i => D (some i)) := by
  induction l with
  | nil => rfl
  | cons i l ih =>
    rw [List.mapM_cons, h.levelList, ih]
    rfl

theorem Lists.levelEntries (h : Lists s D) : levelEntries s = some (allOf s D) := by
  unfold Mvar.levelEntries
  rw [h.mapM_levelList]
  rfl

theorem Lists.mem_allOf (h : Lists s D) : e ∈ allOf s D ↔ Live D e := by
  unfold allOf Live
  rw [List.mem_flatMap]
  constructor
  · rintro ⟨i, -, hi⟩
    exact ⟨i, hi⟩
  · rintro ⟨i, hi⟩
    refine ⟨i, List.mem_range.mpr ?_, hi⟩
    by_contra hlt
    rw [h.above i (by omega)] at hi
    exact List.not_mem_nil hi

theorem Lists.nodup_allOf (h : Lists s D) : (allOf s D).Nodup := by
  refine List.nodup_flatMap.mpr ⟨fun i _ => h.split.nodup _, ?_⟩
  refine List.nodup_range.imp ?_
  intro i j hij x hi hj
  exact hij (Option.some_injective _ (h.split.disj _ _ x hi hj))

theorem Lists.not_live_zero (h : Lists s D) : ¬Live D 0 := fun ⟨_, h0⟩ => h.not_mem_zero _ h0

/-- A declaration in use has no place among the free ones. -/
theorem Lists.not_free (h : Lists s D) (he : Live D e) : e ∉ D none := by
  obtain ⟨i, hi⟩ := he
  intro hf
  cases h.split.disj _ _ e hi hf

theorem lists_init : Lists varInit fun k => if k = none then List.range' 1 (DCLNTABSZ - 1) else [] := by
  have hpath : ∀ n a : Nat, Path varInit.link a (List.range' a n) (a + n) := by
    intro n
    induction n with
    | zero => exact fun a => rfl
    | succ n ih =>
      intro a
      refine ⟨rfl, ?_⟩
      have := ih (a + 1)
      rwa [Nat.add_right_comm] at this
  refine ⟨⟨fun k => ?_, fun k => ?_, fun j k x hj hk => ?_⟩, fun k x hx => ?_, fun i _ => rfl⟩
  · cases k with
    | none => exact hpath (DCLNTABSZ - 1) 1
    | some i => rfl
  · cases k with
    | none => exact List.nodup_range' ..
    | some i => exact List.nodup_nil
  · cases j with
    | none =>
      cases k with
      | none => rfl
      | some i => exact absurd hk List.not_mem_nil
    | some i => exact absurd hj List.not_mem_nil
  · cases k with
    | none =>
      obtain ⟨h1, h2⟩ := List.mem_range'_1.mp hx
      have : DCLNTABSZ = 65536 := rfl
      omega
    | some i => exact absurd hx List.not_mem_nil

/-! ## The values -/

theorem Vals.live (h : Vals s D os) {v : RawVal} (ho : (e, v) ∈ os) : Live D e :=
  ((h.owns e).mp (List.mem_map_of_mem (f := Prod.fst) ho)).1

/-- What is read where the value of a declaration is. -/
theorem Vals.read (h : Vals s D os) {v : RawVal} (ho : (e, v) ∈ os) :
    ∃ p, (s.decTable e).value = some p ∧ readVal (s.pool.drop p) = some v := by
  obtain ⟨a, c, hos⟩ := List.append_of_mem ho
  obtain ⟨p, hp, hdrop⟩ := h.packed.drop hos
  exact ⟨p, hp, hdrop ▸ RawVal.readVal_bytes v _⟩

theorem Vals.valueOf (h : Vals s D os) {v : RawVal} (ho : (e, v) ∈ os) : s.valueOf e = some v := by
  obtain ⟨p, hp, hv⟩ := h.read ho
  unfold St.valueOf
  rw [hp]
  exact hv

theorem Vals.readAt (h : Vals s D os) {v : RawVal} (ho : (e, v) ∈ os) : readAt s (s.decTable e).value = .ok v := by
  unfold Mvar.readAt
  rw [show ((s.decTable e).value.bind fun p => readVal (s.pool.drop p)) = some v from h.valueOf ho]

theorem Vals.valueOf_none (h : Vals s D os) (hl : Live D e) (he : e ∉ os.map Prod.fst) : s.valueOf e = none := by
  have hnone : (s.decTable e).value = none := by
    by_contra hne
    exact he ((h.owns e).mpr ⟨hl, hne⟩)
  unfold St.valueOf
  rw [hnone]
  rfl

/-- The values are as the list of them says. -/
theorem Vals.mem_iff (h : Vals s D os) (hl : Live D e) {v : RawVal} : (e, v) ∈ os ↔ s.valueOf e = some v := by
  constructor
  · exact h.valueOf
  · intro hv
    by_cases hm : e ∈ os.map Prod.fst
    · obtain ⟨⟨k, w⟩, ho, rfl⟩ := List.mem_map.mp hm
      rwa [Option.some_injective _ (hv.symm.trans (h.valueOf ho))]
    · rw [h.valueOf_none hl hm] at hv
      cases hv

theorem Vals.congr (h : Vals s D os) (hpool : s'.pool = s.pool) {D' : Option Nat → List Nat}
    (hval : ∀ e, Live D e → (s'.decTable e).value = (s.decTable e).value)
    (hlive : ∀ e, Live D' e → Live D e ∨ (s'.decTable e).value = none) (hlive' : ∀ e, Live D e → Live D' e) : Vals s' D' os := by
  refine ⟨?_, fun e => ?_⟩
  · rw [hpool]
    exact h.packed.congr fun o ho => hval _ (h.live ho)
  · rw [h.owns]
    constructor
    · rintro ⟨hl, hne⟩
      exact ⟨hlive' e hl, hval e hl ▸ hne⟩
    · rintro ⟨hl, hne⟩
      rcases hlive e hl with hl | hn
      · exact ⟨hl, hval e hl ▸ hne⟩
      · exact absurd hn hne

/-! ## Deleting a value -/

/-- A declaration whose value has been moved. -/
def shift (p len : Nat) (d : Dcln) : Dcln := { d with value := d.value.map fun q => if p < q then q - len else q }

theorem shift_of_le {p len : Nat} {d : Dcln} (h : ∀ q, d.value = some q → ¬p < q) : shift p len d = d := by
  unfold shift
  cases hv : d.value with
  | none =>
    rw [Option.map_none, ← hv]
  | some q =>
    rw [Option.map_some, if_neg (h q hv), ← hv]

theorem relocate_eq (p len : Nat) (dec : Nat → Dcln) (j : Nat) : relocate p len dec j = Function.update dec j (shift p len (dec j)) := by
  unfold relocate
  cases hv : (dec j).value with
  | none =>
    rw [shift_of_le (fun q hq => absurd (hv.symm.trans hq) nofun), Function.update_eq_self]
  | some q =>
    dsimp only
    by_cases hpq : p < q
    · rw [if_pos hpq, shift, hv, Option.map_some, if_pos hpq]
    · rw [if_neg hpq, shift_of_le, Function.update_eq_self]
      intro q' hq'
      rwa [← Option.some_injective _ (hv.symm.trans hq')]

theorem foldl_relocate (p len : Nat) {es : List Nat} (hes : es.Nodup) (dec : Nat → Dcln) (j : Nat) :
    es.foldl (relocate p len) dec j = if j ∈ es then shift p len (dec j) else dec j := by
  induction es generalizing dec with
  | nil => rfl
  | cons i es ih =>
    obtain ⟨hi, hes⟩ := List.nodup_cons.mp hes
    rw [List.foldl_cons, ih hes, relocate_eq]
    by_cases hji : j = i
    · subst hji
      rw [if_neg hi, if_pos List.mem_cons_self, Function.update_self]
    · rw [Function.update_of_ne hji]
      simp only [List.mem_cons, hji, false_or]

/-- What `del_val` leaves of the values. -/
def without (e : Nat) (os : List (Nat × RawVal)) : List (Nat × RawVal) := os.filter fun o => decide (o.1 ≠ e)

theorem mem_without {o : Nat × RawVal} : o ∈ without e os ↔ o ∈ os ∧ o.1 ≠ e := by
  rw [without, List.mem_filter, decide_eq_true_iff]

theorem without_of_not_mem (h : e ∉ os.map Prod.fst) : without e os = os :=
  List.filter_eq_self.mpr fun _ ho => decide_eq_true fun heq => h (heq ▸ List.mem_map_of_mem (f := Prod.fst) ho)

theorem without_append {a c : List (Nat × RawVal)} {v : RawVal} (h : ((a ++ (e, v) :: c).map Prod.fst).Nodup) :
    without e (a ++ (e, v) :: c) = a ++ c := by
  rw [List.map_append, List.map_cons] at h
  obtain ⟨-, hec, hdis⟩ := List.nodup_append.mp h
  have ha := without_of_not_mem fun hm => hdis e hm e List.mem_cons_self rfl
  have hc := without_of_not_mem (List.nodup_cons.mp hec).1
  unfold without at ha hc ⊢
  rw [List.filter_append, List.filter_cons, if_neg (by rw [decide_eq_true_iff]; exact fun h => h rfl), ha, hc]

/-- The state after `del_val`: the declarations are as before but for where their values are. -/
structure Deleted (e : Nat) (s s' : St) (os : List (Nat × RawVal)) : Prop where
  vars : SameVars s s'
  vlevel : s'.vlevel = s.vlevel
  decs : ∀ j, SameDec (s.decTable j) (s'.decTable j)
  value : ∀ j, (s'.decTable j).value = none ↔ (s.decTable j).value = none
  packed : Arena.Packed RawVal.bytes s'.pool (fun e => (s'.decTable e).value) (without e os)

theorem delVal_spec (hl : Lists s D) (hv : Vals s D os) (he : Live D e) (h : delVal (s.decTable e).value s = .ok s') : Deleted e s s' os := by
  by_cases hnone : (s.decTable e).value = none
  · rw [hnone] at h
    cases h
    have hne : e ∉ os.map Prod.fst := fun hm => ((hv.owns e).mp hm).2 hnone
    exact ⟨.refl s, rfl, fun j => rfl, fun j => Iff.rfl, (without_of_not_mem hne).symm ▸ hv.packed⟩
  obtain ⟨⟨k, v⟩, ho, hk⟩ := List.mem_map.mp ((hv.owns e).mpr ⟨he, hnone⟩)
  obtain rfl : k = e := hk
  obtain ⟨a, c, rfl⟩ := List.append_of_mem ho
  have hp : (s.decTable k).value = some (lay RawVal.bytes a).length := hv.packed.at_ a k v c rfl
  have hread := hv.readAt ho
  rw [hp] at h hread
  unfold delVal at h
  simp only [hread, hl.levelEntries] at h
  change (if s.pool.length < v.size then Except.error VErr.internErr else _) = _ at h
  split at h
  · cases h
  cases h
  have hfold := fun j => foldl_relocate (lay RawVal.bytes a).length v.size hl.nodup_allOf s.decTable j
  refine ⟨⟨rfl, rfl, rfl, rfl⟩, rfl, fun j => ?_, fun j => ?_, ?_⟩
  · unfold SameDec
    dsimp only
    rw [hfold]
    split <;> rfl
  · dsimp only
    rw [hfold]
    split
    · exact Option.map_eq_none_iff
    · exact Iff.rfl
  · rw [without_append hv.packed.nodup, ← v.length_bytes]
    refine hv.packed.remove RawVal.bytes_ne_nil fun o ho => ?_
    have hlive : Live D o.1 := hv.live (v := o.2) (by
      rcases List.mem_append.mp ho with ho | ho
      · exact List.mem_append_left _ ho
      · exact List.mem_append_right _ (List.mem_cons_of_mem _ ho))
    dsimp only
    rw [v.length_bytes, hfold, if_pos (hl.mem_allOf.mpr hlive)]
    rfl

theorem Deleted.lists (h : Deleted e s s' os) (hl : Lists s D) : Lists s' D :=
  hl.congr (fun j => (h.decs j).link) h.vlevel h.vars.currLvl

/-- Once the declaration itself forgets its value, the values are those of the others. -/
theorem Deleted.vals (h : Deleted e s s' os) (hv : Vals s D os) {t : St} (hpool : t.pool = s'.pool) {D' : Option Nat → List Nat}
    (hval : ∀ j, j ≠ e → (t.decTable j).value = (s'.decTable j).value) (hlive : ∀ j, j ≠ e → (Live D' j ↔ Live D j))
    (he : Live D' e → (t.decTable e).value = none) : Vals t D' (without e os) := by
  refine ⟨?_, fun j => ?_⟩
  · rw [hpool]
    exact h.packed.congr fun o ho => hval _ (mem_without.mp ho).2
  · by_cases hje : j = e
    · subst hje
      constructor
      · intro hm
        obtain ⟨o, ho, hoj⟩ := List.mem_map.mp hm
        exact absurd hoj (mem_without.mp ho).2
      · rintro ⟨hlj, hne⟩
        exact absurd (he hlj) hne
    · rw [hlive j hje, hval j hje, Ne, h.value j, ← Ne, ← hv.owns j]
      constructor
      · intro hm
        obtain ⟨o, ho, rfl⟩ := List.mem_map.mp hm
        exact List.mem_map_of_mem (f := Prod.fst) (mem_without.mp ho).1
      · intro hm
        obtain ⟨o, ho, rfl⟩ := List.mem_map.mp hm
        exact List.mem_map_of_mem (f := Prod.fst) (mem_without.mpr ⟨ho, hje⟩)

/-! ## Giving a value -/

theorem clearOld_spec (hl : Lists s D) (hv : Vals s D os) (he : Live D e) (h : clearOld e s = .ok s') :
    SameVars s s' ∧ s'.vlevel = s.vlevel ∧ (∀ j, SameDec (s.decTable j) (s'.decTable j)) ∧ Vals s' D (without e os) ∧
      (s'.decTable e).value = none := by
  unfold clearOld at h
  obtain ⟨v, -, h⟩ := VRes.bind_eq_ok h
  split at h
  · cases h
  obtain ⟨t, hd, h⟩ := VRes.bind_eq_ok h
  cases h
  have hdel := delVal_spec hl hv he hd
  refine ⟨⟨hdel.vars.varTable, hdel.vars.hashTable, hdel.vars.arrayDe, hdel.vars.currLvl⟩, hdel.vlevel, fun j => ?_, ?_, ?_⟩
  · by_cases hje : j = e
    · subst hje
      rw [St.setDec_self]
      exact (hdel.decs j).trans rfl
    · rw [St.setDec_of_ne hje]
      exact hdel.decs j
  · refine hdel.vals (t := t.setDec e _) hv rfl (fun j hj => ?_) (fun j _ => Iff.rfl) fun _ => ?_
    · rw [St.setDec_of_ne hj]
    · rw [St.setDec_self]
  · rw [St.setDec_self]

theorem addVal_ok {t : RawVal} {r : Nat × St} (h : addVal t s = .ok r) :
    s.pool.length + t.size ≤ VALBUFSZ ∧ r = (s.pool.length, { s with pool := s.pool ++ t.bytes }) := by
  unfold addVal at h
  split at h
  · cases h
  · cases h
    exact ⟨by omega, rfl⟩

/-- A declaration without a value is given the one that has been added last. -/
theorem Vals.give (hv : Vals s D os) (he : e ∉ os.map Prod.fst) {u : St} {D' : Option Nat → List Nat} {t : RawVal} (hpool : u.pool = s.pool ++ t.bytes)
    (hnew : (u.decTable e).value = some s.pool.length) (hlive : Live D' e) (hold : ∀ x, Live D x → x ≠ e → (u.decTable x).value = (s.decTable x).value)
    (hkeep : ∀ x, Live D x → Live D' x) (hrest : ∀ x, Live D' x → x ≠ e → Live D x ∨ (u.decTable x).value = none) : Vals u D' (os ++ [(e, t)]) := by
  refine ⟨?_, fun x => ?_⟩
  · rw [hpool]
    refine hv.packed.append he (fun o ho => hold _ (hv.live ho) ?_) hnew t
    exact ne_of_mem_of_not_mem (List.mem_map_of_mem (f := Prod.fst) ho) he
  · rw [List.map_append, List.mem_append, List.map_singleton, List.mem_singleton]
    by_cases hxe : x = e
    · subst hxe
      constructor
      · rintro -
        exact ⟨hlive, by rw [hnew]; exact Option.some_ne_none _⟩
      · rintro -
        exact .inr rfl
    · rw [hv.owns]
      constructor
      · rintro (⟨hl, hne⟩ | h)
        · exact ⟨hkeep x hl, (hold x hl hxe).symm ▸ hne⟩
        · exact absurd h hxe
      · rintro ⟨hl', hne⟩
        rcases hrest x hl' hxe with hl | hnone
        · exact .inl ⟨hl, hold x hl hxe ▸ hne⟩
        · exact absurd hnone hne

/-! ## Taking a declaration -/

/-- The lists when the first free declaration goes to a level. -/
def taken (D : Option Nat → List Nat) (lvl e : Nat) (F : List Nat) : Option Nat → List Nat :=
  Function.update (Function.update D none F) (some lvl) (e :: D (some lvl))

theorem taken_none {lvl : Nat} {F : List Nat} : taken D lvl e F none = F := by
  rw [taken, Function.update_of_ne (Option.some_ne_none lvl).symm, Function.update_self]

theorem taken_self {lvl : Nat} {F : List Nat} : taken D lvl e F (some lvl) = e :: D (some lvl) := Function.update_self ..

theorem taken_of_ne {lvl i : Nat} {F : List Nat} (h : i ≠ lvl) : taken D lvl e F (some i) = D (some i) := by
  rw [taken, Function.update_of_ne fun heq => h (Option.some_injective _ heq), Function.update_of_ne (Option.some_ne_none i)]

theorem live_taken {lvl : Nat} {F : List Nat} : Live (taken D lvl e F) j ↔ j = e ∨ Live D j := by
  constructor
  · rintro ⟨i, hi⟩
    by_cases hil : i = lvl
    · subst hil
      rw [taken_self] at hi
      rcases List.mem_cons.mp hi with rfl | hi
      · exact .inl rfl
      · exact .inr ⟨i, hi⟩
    · rw [taken_of_ne hil] at hi
      exact .inr ⟨i, hi⟩
  · rintro (rfl | ⟨i, hi⟩)
    · exact ⟨lvl, taken_self ▸ List.mem_cons_self⟩
    · by_cases hil : i = lvl
      · subst hil
        exact ⟨i, taken_self ▸ List.mem_cons_of_mem _ hi⟩
      · exact ⟨i, (taken_of_ne hil).symm ▸ hi⟩

/-- A new declaration, with the fields that `get_next_dec` sets. -/
def newDec (d : Dcln) (lvl ve link : Nat) : Dcln := { d with prior := if lvl = 0 then 0 else -1, varEntry := ve, value := none, link := link }

/-- What `get_next_dec` does when a declaration is left. -/
structure Took (lvl ve e : Nat) (s s' : St) : Prop where
  vars : SameVars s s'
  pool : s'.pool = s.pool
  vlevel : s'.vlevel = Function.update s.vlevel lvl e
  new : s'.decTable e = newDec (s.decTable e) lvl ve (s.vlevel lvl)
  zero : s'.decTable 0 = { s.decTable 0 with link := (s.decTable e).link }
  old : ∀ j, j ≠ 0 → j ≠ e → s'.decTable j = s.decTable j

theorem getNextDec_took {lvl ve : Nat} (hlink : (s.decTable 0).link = e) (h0 : e ≠ 0) (hmax : e ≠ DCLNTABSZ) :
    ∃ s', getNextDec lvl ve s = (e, s') ∧ Took lvl ve e s s' := by
  refine ⟨(getNextDec lvl ve s).2, ?_, ?_⟩
  all_goals
    unfold getNextDec
    simp only [hlink, if_neg hmax]
  refine ⟨⟨rfl, rfl, rfl, rfl⟩, rfl, rfl, St.setDec_self, ?_, fun j hj0 hje => ?_⟩
  · exact (St.setDec_of_ne (Ne.symm h0)).trans St.setDec_self
  · exact (St.setDec_of_ne hje).trans (St.setDec_of_ne hj0)

/-- The declaration that is taken is the first of the free ones. -/
theorem Lists.getNextDec (hl : Lists s D) {lvl ve : Nat} {s' : St} (h : getNextDec lvl ve s = (e, s')) (he : e ≠ 0) :
    ∃ F, D none = e :: F ∧ Took lvl ve e s s' := by
  have hpath := hl.split.path none
  cases hF : D none with
  | nil =>
    rw [hF] at hpath
    have hlink : (s.decTable 0).link = DCLNTABSZ := hpath
    unfold Mvar.getNextDec at h
    simp only [hlink, if_true] at h
    exact absurd (congrArg Prod.fst h).symm he
  | cons x F =>
    rw [hF] at hpath
    obtain ⟨hx0, hxmax⟩ := hl.range none x (hF ▸ List.mem_cons_self)
    obtain ⟨t, ht, htook⟩ := @getNextDec_took _ _ lvl ve hpath.1 (by omega) (by omega)
    cases h.symm.trans ht
    exact ⟨F, rfl, htook⟩

theorem Took.lists {lvl ve : Nat} (h : Took lvl ve e s s') (hl : Lists s D) (hlvl : lvl ≤ s.currLvl) {F : List Nat} (hF : D none = e :: F) :
    Lists s' (taken D lvl e F) := by
  have hpath := hl.split.path none
  have hnodup := hl.split.nodup none
  rw [hF] at hpath hnodup
  have hefree : ∀ k, e ∈ D k → k = none := fun k hk => hl.split.disj k none e hk (hF ▸ List.mem_cons_self)
  have he0 : e ≠ 0 := (hl.range none e (hF ▸ List.mem_cons_self)).1.ne'
  have hold : ∀ k, ∀ y ∈ D k, y ≠ e → s'.link y = s.link y := by
    intro k y hy hye
    unfold St.link
    rw [h.old y (hl.range k y hy).1.ne' hye]
  -- first out of the free list, then into that of the level
  have hcut : Split s'.link (Function.update (starts s) none (s.link e)) stops (Function.update D none F) := by
    refine hl.split.cut (l := []) hF ?_ (fun k y hy _ hye => hold k y hy hye) fun k hk => Function.update_of_ne hk ..
    exact Function.update_self ..
  refine ⟨?_, fun k x hx => ?_, fun i hi => ?_⟩
  · have hpush := @Links.Split.push _ s'.link e _ _ _ (starts s') _ _ (some lvl) hcut (fun k hk => ?_) ?_ ?_ (fun _ _ _ => rfl) ?_
    · rwa [Function.update_of_ne (Option.some_ne_none lvl)] at hpush
    · by_cases hkn : k = none
      · subst hkn
        rw [Function.update_self] at hk
        exact (List.nodup_cons.mp hnodup).1 hk
      · rw [Function.update_of_ne hkn] at hk
        exact hkn (hefree k hk)
    · unfold St.link
      rw [h.new, Function.update_of_ne (Option.some_ne_none lvl)]
      rfl
    · show s'.vlevel lvl = e
      rw [h.vlevel, Function.update_self]
    · intro k hk
      cases k with
      | none =>
        rw [Function.update_self]
        unfold starts St.link
        rw [h.zero]
      | some i =>
        rw [Function.update_of_ne (Option.some_ne_none i)]
        show s'.vlevel i = s.vlevel i
        rw [h.vlevel, Function.update_of_ne fun heq => hk (congrArg some heq)]
  · cases k with
    | none =>
      rw [taken_none] at hx
      exact hl.range none x (hF ▸ List.mem_cons_of_mem _ hx)
    | some i =>
      rcases live_taken.mp ⟨i, hx⟩ with rfl | ⟨j, hj⟩
      · exact hl.range none x (hF ▸ List.mem_cons_self)
      · exact hl.range _ x hj
  · rw [h.vars.currLvl] at hi
    rw [taken_of_ne (by omega)]
    exact hl.above i hi

theorem Took.vals {lvl ve : Nat} (h : Took lvl ve e s s') (hl : Lists s D) (hv : Vals s D os) {F : List Nat} (hF : D none = e :: F) :
    Vals s' (taken D lvl e F) os := by
  refine hv.congr h.pool (fun j hj => ?_) (fun j hj => ?_) fun j hj => live_taken.mpr (.inr hj)
  · have hje : j ≠ e := fun heq => hl.not_free hj (heq ▸ hF ▸ List.mem_cons_self)
    have hj0 : j ≠ 0 := fun heq => hl.not_live_zero (heq ▸ hj)
    rw [h.old j hj0 hje]
  · rcases live_taken.mp hj with rfl | hj
    · exact .inr (by rw [h.new]; rfl)
    · exact .inl hj

/-! ## Freeing a declaration -/

/-- Where `ip` points in the list of the level `c`: behind `a`. -/
def PointsAt (c : Nat) (a : List Nat) : DPtr → Prop
  | .head i => i = c ∧ a = []
  | .dec x => ∃ b, a = b ++ [x]

theorem Lists.path_at (hl : Lists s D) {ip : DPtr} {c : Nat} {a rest : List Nat} (hc : D (some c) = a ++ rest) (hip : PointsAt c a ip) :
    Path s.link (ip.get s) rest 0 := by
  have hpath := hl.split.path (some c)
  rw [hc] at hpath
  cases ip with
  | head i =>
    obtain ⟨rfl, rfl⟩ := hip
    exact hpath
  | dec x =>
    obtain ⟨b, rfl⟩ := hip
    rw [List.append_assoc] at hpath
    obtain ⟨y, -, rfl, hrest⟩ := path_append.mp hpath
    exact hrest

/-- The lists when a declaration of the level `c`, in which `l` is left, is free. -/
def freed (D : Option Nat → List Nat) (c e : Nat) (l : List Nat) : Option Nat → List Nat :=
  Function.update (Function.update D (some c) l) none (e :: D none)

theorem freed_none {c : Nat} {l : List Nat} : freed D c e l none = e :: D none := Function.update_self ..

theorem freed_self {c : Nat} {l : List Nat} : freed D c e l (some c) = l := by
  rw [freed, Function.update_of_ne (Option.some_ne_none c), Function.update_self]

theorem freed_of_ne {c i : Nat} {l : List Nat} (h : i ≠ c) : freed D c e l (some i) = D (some i) := by
  rw [freed, Function.update_of_ne (Option.some_ne_none i), Function.update_of_ne fun heq => h (Option.some_injective _ heq)]

/-- What freeing a declaration leaves as it is. -/
structure Freed (e : Nat) (s s' : St) : Prop where
  vars : SameVars s s'
  level : ∀ j, (s'.decTable j).level = (s.decTable j).level
  prior : ∀ j, (s'.decTable j).prior = (s.decTable j).prior
  varEntry : ∀ j, j ≠ e → (s'.decTable j).varEntry = (s.decTable j).varEntry

theorem DPtr.set_vars (ip : DPtr) (s : St) (x : Nat) : SameVars s (ip.set s x) ∧ (ip.set s x).pool = s.pool := by
  cases ip with
  | head i => exact ⟨⟨rfl, rfl, rfl, rfl⟩, rfl⟩
  | dec y => exact ⟨⟨rfl, rfl, rfl, rfl⟩, rfl⟩

theorem DPtr.set_field {α : Type} (ip : DPtr) (s : St) (x : Nat) (f : Dcln → α) (hf : ∀ d l, f { d with link := l } = f d) (j : Nat) :
    f ((ip.set s x).decTable j) = f (s.decTable j) := by
  cases ip with
  | head i => rfl
  | dec y => exact St.setLink_field s f hf y x j

/-- The declaration to be freed forgets its variable. -/
theorem unlinkDec_field {α : Type} (ip : DPtr) (e : Nat) (s : St) (f : Dcln → α) (hf : ∀ d l, f { d with link := l } = f d) (j : Nat) :
    f ((unlinkDec ip e s).decTable j) = f ((s.disown e).decTable j) := by
  unfold unlinkDec
  dsimp only
  rw [St.setLink_field _ f hf, St.setLink_field _ f hf, ip.set_field _ _ f hf]

theorem unlinkDec_freed (ip : DPtr) (e : Nat) (s : St) : Freed e s (unlinkDec ip e s) := by
  obtain ⟨⟨h1, h2, h3, h4⟩, -⟩ := ip.set_vars (s.disown e) ((s.disown e).link e)
  refine ⟨⟨h1, h2, h3, h4⟩, fun j => ?_, fun j => ?_, fun j hje => ?_⟩
  · rw [unlinkDec_field ip e s Dcln.level fun _ _ => rfl, St.disown_field s Dcln.level fun _ _ => rfl]
  · rw [unlinkDec_field ip e s Dcln.prior fun _ _ => rfl, St.disown_field s Dcln.prior fun _ _ => rfl]
  · rw [unlinkDec_field ip e s Dcln.varEntry fun _ _ => rfl]
    exact congrArg Dcln.varEntry (St.setDec_of_ne hje)

theorem unlinkDec_value (ip : DPtr) (e : Nat) (s : St) (j : Nat) : ((unlinkDec ip e s).decTable j).value = (s.decTable j).value := by
  rw [unlinkDec_field ip e s Dcln.value fun _ _ => rfl, St.disown_field s Dcln.value fun _ _ => rfl]

theorem unlinkDec_varEntry (ip : DPtr) (e : Nat) (s : St) : ((unlinkDec ip e s).decTable e).varEntry = 0 := by
  rw [unlinkDec_field ip e s Dcln.varEntry fun _ _ => rfl]
  exact congrArg Dcln.varEntry St.setDec_self

theorem unlinkDec_pool (ip : DPtr) (e : Nat) (s : St) : (unlinkDec ip e s).pool = s.pool :=
  (ip.set_vars (s.disown e) ((s.disown e).link e)).2

/-- The links after a declaration has been freed. -/
theorem unlinkDec_link (ip : DPtr) {e : Nat} {s : St} (he : e ≠ 0) (hip : ip ≠ .dec 0) :
    (unlinkDec ip e s).link 0 = e ∧ (unlinkDec ip e s).link e = s.link 0 ∧
      ∀ j, j ≠ 0 → j ≠ e → (unlinkDec ip e s).link j = if ip = .dec j then s.link e else s.link j := by
  have hlink : (s.disown e).link = s.link := funext fun j => St.disown_field s Dcln.link (fun _ _ => rfl) e j
  have hset : ∀ j, (ip.set (s.disown e) (s.link e)).link j = if ip = .dec j then s.link e else s.link j := by
    intro j
    cases ip with
    | head i =>
      rw [if_neg nofun]
      exact congrFun hlink j
    | dec y =>
      rw [show ((DPtr.dec y).set (s.disown e) (s.link e)).link = Function.update s.link y (s.link e) by
        rw [← hlink]
        exact St.setLink_link ..]
      by_cases hyj : y = j
      · subst hyj
        rw [Function.update_self, if_pos rfl]
      · rw [Function.update_of_ne (Ne.symm hyj), if_neg fun heq => hyj (DPtr.dec.inj heq)]
  unfold unlinkDec
  dsimp only
  rw [hlink, St.setLink_link, St.setLink_link, hset 0, if_neg hip]
  refine ⟨Function.update_self .., ?_, fun j hj0 hje => ?_⟩
  · rw [Function.update_of_ne he, Function.update_self]
  · rw [Function.update_of_ne hj0, Function.update_of_ne hje, hset]

theorem unlinkDec_vlevel (ip : DPtr) (e : Nat) (s : St) (i : Nat) :
    (unlinkDec ip e s).vlevel i = if ip = .head i then s.link e else s.vlevel i := by
  have hlink : (s.disown e).link e = s.link e := St.disown_field s Dcln.link (fun _ _ => rfl) e e
  cases ip with
  | head k =>
    show Function.update s.vlevel k ((s.disown e).link e) i = _
    rw [hlink]
    by_cases hki : k = i
    · subst hki
      rw [Function.update_self, if_pos rfl]
    · rw [Function.update_of_ne (Ne.symm hki), if_neg fun heq => hki (DPtr.head.inj heq)]
  | dec y =>
    rw [if_neg nofun]
    rfl

theorem unlinkDec_lists (hl : Lists s D) {ip : DPtr} {c : Nat} {a rest : List Nat} (hc : D (some c) = a ++ e :: rest) (hip : PointsAt c a ip) :
    Lists (unlinkDec ip e s) (freed D c e (a ++ rest)) := by
  have hec : e ∈ D (some c) := hc ▸ List.mem_append_right _ List.mem_cons_self
  have he0 : e ≠ 0 := (hl.range _ e hec).1.ne'
  have hnodup := hl.split.nodup (some c)
  rw [hc] at hnodup
  have hip0 : ip ≠ .dec 0 := by
    rintro rfl
    obtain ⟨b, rfl⟩ := hip
    refine hl.not_mem_zero (some c) ?_
    rw [hc]
    simp
  obtain ⟨hl0, hle, hlj⟩ := unlinkDec_link (s := s) ip he0 hip0
  obtain ⟨-, herest, hdis⟩ := List.nodup_append.mp hnodup
  have hea : e ∉ a := fun hm => hdis e hm e List.mem_cons_self rfl
  have hnot : ∀ k, e ∉ Function.update D (some c) (a ++ rest) k := by
    intro k hk
    by_cases hkc : k = some c
    · subst hkc
      rw [Function.update_self] at hk
      rcases List.mem_append.mp hk with hk | hk
      · exact hea hk
      · exact (List.nodup_cons.mp herest).1 hk
    · rw [Function.update_of_ne hkc] at hk
      exact hkc (hl.split.disj k (some c) e hk hec)
  -- out of the list of the level
  have hcut : Split (Function.update (unlinkDec ip e s).link e (s.link e)) (fun k => if k = none then s.link 0 else starts (unlinkDec ip e s) k) stops
      (Function.update D (some c) (a ++ rest)) := by
    refine hl.split.cut hc ?_ (fun k y hk hya hye => ?_) fun k hk => ?_
    · rw [if_neg (Option.some_ne_none c)]
      cases ip with
      | head i =>
        obtain ⟨rfl, rfl⟩ := hip
        show (unlinkDec (.head i) e s).vlevel i = s.link e
        rw [unlinkDec_vlevel, if_pos rfl]
      | dec x =>
        obtain ⟨b, rfl⟩ := hip
        have hpath := hl.split.path (some c)
        rw [hc] at hpath
        obtain ⟨y, hpre, hy, -⟩ := path_append.mp hpath
        rw [hy] at hpre
        show Path _ ((unlinkDec (.dec x) e s).vlevel c) _ _
        rw [unlinkDec_vlevel, if_neg nofun]
        obtain ⟨hb, -, hbx⟩ := List.nodup_append.mp (List.nodup_append.mp hnodup).1
        refine (hpre.relast fun hx => hbx x hx x List.mem_cons_self rfl).congr fun y hy => ?_
        have hyc : y ∈ D (some c) := hc ▸ List.mem_append_left _ hy
        have hye : y ≠ e := ne_of_mem_of_not_mem hy hea
        rw [Function.update_of_ne hye, hlj y (hl.range _ y hyc).1.ne' hye]
        by_cases hxy : x = y
        · subst hxy
          rw [if_pos rfl, Function.update_self]
        · rw [if_neg fun heq => hxy (DPtr.dec.inj heq), Function.update_of_ne (Ne.symm hxy)]
    · rw [Function.update_of_ne hye, hlj y (hl.range k y hk).1.ne' hye, if_neg]
      rintro rfl
      obtain ⟨b, rfl⟩ := hip
      exact hya (List.mem_append_right _ List.mem_cons_self)
    · cases k with
      | none => rfl
      | some i =>
        rw [if_neg (Option.some_ne_none i)]
        show (unlinkDec ip e s).vlevel i = s.vlevel i
        rw [unlinkDec_vlevel, if_neg]
        rintro rfl
        exact hk (congrArg some hip.1)
  refine ⟨?_, fun k x hx => ?_, fun i hi => ?_⟩
  · have hpush := @Links.Split.push _ (unlinkDec ip e s).link e _ _ _ (starts (unlinkDec ip e s)) _ _ none hcut hnot hle hl0 ?_ ?_
    · rwa [Function.update_of_ne (Option.some_ne_none c).symm] at hpush
    · intro k y hy
      rw [Function.update_of_ne (ne_of_mem_of_not_mem hy (hnot k))]
    · intro k hk
      rw [if_neg hk]
  · cases k with
    | none =>
      rw [freed_none] at hx
      rcases List.mem_cons.mp hx with rfl | hx
      · exact hl.range _ x hec
      · exact hl.range none x hx
    | some i =>
      by_cases hic : i = c
      · subst hic
        rw [freed_self] at hx
        exact hl.range _ x (hc ▸ (List.Sublist.append_left (List.sublist_cons_self e rest) a).subset hx)
      · rw [freed_of_ne hic] at hx
        exact hl.range _ x hx
  · rw [(unlinkDec_freed ip e s).vars.currLvl] at hi
    by_cases hic : i = c
    · subst hic
      rw [hl.above i hi] at hec
      exact absurd hec List.not_mem_nil
    · rw [freed_of_ne hic]
      exact hl.above i hi

theorem live_freed (hl : Lists s D) {c : Nat} {a rest : List Nat} (hc : D (some c) = a ++ e :: rest) :
    Live (freed D c e (a ++ rest)) j ↔ j ≠ e ∧ Live D j := by
  have hec : e ∈ D (some c) := hc ▸ List.mem_append_right _ List.mem_cons_self
  have hnodup := hl.split.nodup (some c)
  rw [hc] at hnodup
  obtain ⟨-, herest, hdis⟩ := List.nodup_append.mp hnodup
  constructor
  · rintro ⟨i, hi⟩
    by_cases hic : i = c
    · subst hic
      rw [freed_self] at hi
      refine ⟨?_, i, hc ▸ (List.Sublist.append_left (List.sublist_cons_self e rest) a).subset hi⟩
      rintro rfl
      rcases List.mem_append.mp hi with hi | hi
      · exact hdis j hi j List.mem_cons_self rfl
      · exact (List.nodup_cons.mp herest).1 hi
    · rw [freed_of_ne hic] at hi
      refine ⟨?_, i, hi⟩
      rintro rfl
      exact hic (Option.some_injective _ (hl.split.disj _ _ j hi hec))
  · rintro ⟨hje, i, hi⟩
    by_cases hic : i = c
    · subst hic
      refine ⟨i, ?_⟩
      rw [freed_self]
      rw [hc] at hi
      rcases List.mem_append.mp hi with hi | hi
      · exact List.mem_append_left _ hi
      · exact List.mem_append_right _ ((List.mem_cons.mp hi).resolve_left hje)
    · exact ⟨i, (freed_of_ne hic).symm ▸ hi⟩

/-- One round of the inner loop of `release`. -/
theorem freeDec_spec (hl : Lists s D) (hv : Vals s D os) {ip : DPtr} {c : Nat} {a rest : List Nat} (hc : D (some c) = a ++ e :: rest)
    (hip : PointsAt c a ip) {t : St} (h : delVal (s.decTable e).value s = .ok t) :
    Lists (unlinkDec ip e t) (freed D c e (a ++ rest)) ∧ Vals (unlinkDec ip e t) (freed D c e (a ++ rest)) (without e os) ∧ Freed e s (unlinkDec ip e t) ∧
      ((unlinkDec ip e t).decTable e).varEntry = 0 := by
  have hec : e ∈ D (some c) := hc ▸ List.mem_append_right _ List.mem_cons_self
  have hdel := delVal_spec hl hv ⟨c, hec⟩ h
  obtain ⟨hvars, hlevel, hprior, hvar⟩ := unlinkDec_freed ip e t
  refine ⟨unlinkDec_lists (hdel.lists hl) hc hip, ?_, ⟨hdel.vars.trans hvars, fun j => ?_, fun j => ?_, fun j hje => ?_⟩, unlinkDec_varEntry ip e t⟩
  · refine hdel.vals hv (unlinkDec_pool ip e t) (fun j _ => unlinkDec_value ip e t j) (fun j hje => ?_) fun he => ?_
    · rw [live_freed hl hc]
      exact and_iff_right hje
    · exact absurd rfl ((live_freed hl hc).mp he).1
  · rw [hlevel, hdel.decs j]
  · rw [hprior, hdel.decs j]
  · rw [hvar j hje, hdel.decs j]

end Db3w.Mvar
