/-
File names made from what a client gives: the loop that takes the relative directories out of a path, in place,
as `form_fn` of fn.c and `SET PATH` of setto.c have it. The two differ in where a `..` leads to.
-/
import Db3w.Lib.Paths

namespace Db3w.Dbf

open Paths

abbrev FULFNLEN : Nat := 1024

abbrev SWITCHAR : UInt8 := 47

abbrev DOT : UInt8 := 46

/-- `"./"`. -/
def CURRENT_DIR : List UInt8 := [DOT, SWITCHAR]

/-- `"../"`. -/
def PARENT_DIR : List UInt8 := [DOT, DOT, SWITCHAR]

/-- `strchr` from the index `i` on. -/
def strchr (s : List UInt8) (c : UInt8) (i : Nat) : Option Nat := ((s.drop i).findIdx? (· == c)).map (i + ·)

theorem strchr_lt {s : List UInt8} {c : UInt8} {i p : Nat} (h : strchr s c i = some p) : i ≤ p ∧ p < s.length := by
  obtain ⟨k, hk, rfl⟩ := Option.map_eq_some_iff.mp h
  have := (List.findIdx?_eq_some_iff_findIdx_eq.mp hk).1
  rw [List.length_drop] at this
  omega

/-- The loop over the separators from the index `i` on. `back` gives the index that a `..` at an index leads to; it can be outside
of the text. -/
def relDirLoop (back : List UInt8 → Nat → Option Nat) (s : List UInt8) (i : Nat) : Option (List UInt8) :=
  match h : strchr s SWITCHAR i with
  | none => some s
  | some p =>
    if CURRENT_DIR <+: s.drop (p + 1) then relDirLoop back (s.take p ++ s.drop (p + 2)) p
    else if PARENT_DIR <+: s.drop (p + 1) then
      match back s p with
      | none => none
      | some q => relDirLoop back (s.take q ++ s.drop (p + 3)) q
    else relDirLoop back s (p + 1)
termination_by s.length - i
decreasing_by
  · have := strchr_lt h
    rw [List.length_append, List.length_take, List.length_drop]
    omega
  · have := strchr_lt h
    rw [List.length_append, List.length_take, List.length_drop]
    omega
  · have := strchr_lt h
    omega

/-- `form_fn`: to the separator in front, unless the path starts here. -/
def separatorBefore (s : List UInt8) : Nat → Option Nat
  | 0 => none
  | p + 1 => if s[p]? = some SWITCHAR then some p else separatorBefore s p

def backFn (s : List UInt8) (p : Nat) : Option Nat := if p > 0 then separatorBefore s p else some p

/-- `SET PATH`: to the separator in front, but not in front of `rootEnd`. -/
def separatorFrom (rootEnd : Nat) (s : List UInt8) : Nat → Nat
  | 0 => 0
  | p + 1 => if p + 1 > rootEnd then if s[p]? = some SWITCHAR then p else separatorFrom rootEnd s p else p + 1

def backPath (rootEnd : Nat) (s : List UInt8) (p : Nat) : Option Nat := some (separatorFrom rootEnd s p)

/-! ## One turn of the loop -/

variable {back : List UInt8 → Nat → Option Nat} {s A r c : List UInt8} {i p : Nat}

theorem strchr_eq_none (h : SWITCHAR ∉ s.drop i) : strchr s SWITCHAR i = none := by
  unfold strchr
  rw [List.findIdx?_eq_none_iff.mpr]
  · rfl
  · intro x hx
    exact beq_eq_false_iff_ne.mpr fun heq => h (heq ▸ hx)

/-- The first separator behind a text. -/
theorem strchr_append (A : List UInt8) (hc : SWITCHAR ∉ c) (r : List UInt8) : strchr (A ++ (c ++ SWITCHAR :: r)) SWITCHAR A.length = some (A.length + c.length) := by
  unfold strchr
  rw [List.drop_left, List.findIdx?_append, List.findIdx?_eq_none_iff.mpr, List.findIdx?_cons]
  · simp
  · intro x hx
    exact beq_eq_false_iff_ne.mpr fun heq => hc (heq ▸ hx)

theorem relDirLoop_none (h : strchr s SWITCHAR i = none) : relDirLoop back s i = some s := by
  rw [relDirLoop]
  split
  · rfl
  · rename_i heq
    rw [h] at heq
    cases heq

theorem relDirLoop_some (h : strchr s SWITCHAR i = some p) : relDirLoop back s i =
    if CURRENT_DIR <+: s.drop (p + 1) then relDirLoop back (s.take p ++ s.drop (p + 2)) p
    else if PARENT_DIR <+: s.drop (p + 1) then (back s p).bind fun q => relDirLoop back (s.take q ++ s.drop (p + 3)) q
    else relDirLoop back s (p + 1) := by
  conv_lhs => rw [relDirLoop]
  split
  · rename_i heq
    rw [h] at heq
    cases heq
  · rename_i q heq
    rw [h] at heq
    cases heq
    congr 1
    congr 1
    cases back s p <;> rfl

/-- Where the scan starts does not matter as long as the next separator is the same. -/
theorem relDirLoop_congr {j : Nat} (h : strchr s SWITCHAR i = strchr s SWITCHAR j) : relDirLoop back s i = relDirLoop back s j := by
  cases hj : strchr s SWITCHAR j with
  | none => rw [relDirLoop_none (h.trans hj), relDirLoop_none hj]
  | some p => rw [relDirLoop_some (h.trans hj), relDirLoop_some hj]

theorem strchr_here (A r : List UInt8) : strchr (A ++ SWITCHAR :: r) SWITCHAR A.length = some A.length :=
  strchr_append A (c := []) List.not_mem_nil r

theorem drop_behind (A r : List UInt8) (i : Nat) : (A ++ SWITCHAR :: r).drop (A.length + (i + 1)) = r.drop i := List.drop_length_add_append (i + 1)

theorem dot_ne : DOT ≠ SWITCHAR := by decide

theorem current_prefix_iff (hc : SWITCHAR ∉ c) (r : List UInt8) : CURRENT_DIR <+: c ++ SWITCHAR :: r ↔ c = [DOT] := by
  unfold CURRENT_DIR
  rcases c with _ | ⟨a, _ | ⟨b, c⟩⟩
  · simp [List.cons_prefix_cons, dot_ne]
  · simp [List.cons_prefix_cons, eq_comm]
  · have hb : SWITCHAR ≠ b := fun h => hc (by simp [h])
    simp [List.cons_prefix_cons, hb]

theorem parent_prefix_iff (hc : SWITCHAR ∉ c) (r : List UInt8) : PARENT_DIR <+: c ++ SWITCHAR :: r ↔ c = [DOT, DOT] := by
  unfold PARENT_DIR
  rcases c with _ | ⟨a, _ | ⟨b, _ | ⟨d, c⟩⟩⟩
  · simp [List.cons_prefix_cons, dot_ne]
  · simp [List.cons_prefix_cons, dot_ne]
  · simp [List.cons_prefix_cons, eq_comm]
  · have hd : SWITCHAR ≠ d := fun h => hc (by simp [h])
    simp [List.cons_prefix_cons, hd]

/-- The last component is left as it is. -/
theorem turn_last (A : List UInt8) (hc : SWITCHAR ∉ c) : relDirLoop back (A ++ SWITCHAR :: c) A.length = some (A ++ SWITCHAR :: c) := by
  have hcur : ¬CURRENT_DIR <+: c := fun h => hc (h.subset (by decide))
  have hpar : ¬PARENT_DIR <+: c := fun h => hc (h.subset (by decide))
  rw [relDirLoop_some (strchr_here A c), drop_behind A c 0, List.drop_zero, if_neg hcur, if_neg hpar]
  exact relDirLoop_none (strchr_eq_none (by rwa [drop_behind A c 0, List.drop_zero]))

theorem turn_dot (A r : List UInt8) : relDirLoop back (A ++ SWITCHAR :: ([DOT] ++ SWITCHAR :: r)) A.length = relDirLoop back (A ++ SWITCHAR :: r) A.length := by
  rw [relDirLoop_some (strchr_here A _), drop_behind A _ 0, List.drop_zero, if_pos ⟨r, rfl⟩, drop_behind A _ 1, List.take_left]
  rfl

theorem turn_up (A r : List UInt8) : relDirLoop back (A ++ SWITCHAR :: ([DOT, DOT] ++ SWITCHAR :: r)) A.length =
    (back (A ++ SWITCHAR :: ([DOT, DOT] ++ SWITCHAR :: r)) A.length).bind fun q =>
      relDirLoop back ((A ++ SWITCHAR :: ([DOT, DOT] ++ SWITCHAR :: r)).take q ++ SWITCHAR :: r) q := by
  have hcur : ¬CURRENT_DIR <+: [DOT, DOT] ++ SWITCHAR :: r := (current_prefix_iff (by decide) r).not.mpr (by decide)
  rw [relDirLoop_some (strchr_here A _), drop_behind A _ 0, List.drop_zero, if_neg hcur, if_pos ⟨r, rfl⟩, drop_behind A _ 2]
  rfl

/-- A name is passed. -/
theorem turn_name (A : List UInt8) (hc : SWITCHAR ∉ c) (hdots : ¬IsDots DOT c) (r : List UInt8) :
    relDirLoop back (A ++ SWITCHAR :: (c ++ SWITCHAR :: r)) A.length = relDirLoop back (A ++ SWITCHAR :: c ++ SWITCHAR :: r) (A ++ SWITCHAR :: c).length := by
  rw [IsDots, not_or] at hdots
  rw [relDirLoop_some (strchr_here A _), drop_behind A _ 0, List.drop_zero, if_neg ((current_prefix_iff hc r).not.mpr hdots.1),
    if_neg ((parent_prefix_iff hc r).not.mpr hdots.2)]
  have h1 := strchr_append (A ++ [SWITCHAR]) hc r
  have h2 := strchr_here (A ++ SWITCHAR :: c) r
  rw [List.length_append, List.length_singleton, List.append_assoc] at h1
  rw [List.append_assoc, List.length_append, List.length_cons] at h2
  rw [List.append_assoc, List.length_append, List.length_cons]
  refine relDirLoop_congr (h1.trans (Eq.trans ?_ h2.symm))
  rw [Nat.add_assoc, Nat.add_comm 1]

/-! ## The loop as a walk -/

/-- What is left of a text of components when a walk starts at `pos`: `back` cuts it where `up` leads to. -/
structure Leads (back : List UInt8 → Nat → Option Nat) (up : List (List UInt8) → Option (List (List UInt8))) (I : List (List UInt8) → Prop) : Prop where
  ne_nil : ∀ {pos}, I pos → pos ≠ []
  name : ∀ {pos c}, SWITCHAR ∉ c → I pos → I (pos ++ [c])
  back_eq : ∀ {pos} (r), I pos → back (join SWITCHAR pos ++ SWITCHAR :: r) (join SWITCHAR pos).length = (up pos).map fun q => (join SWITCHAR q).length
  up_below : ∀ {pos q}, I pos → up pos = some q → I q ∧ join SWITCHAR q <+: join SWITCHAR pos

/-- The loop follows the components, all but the last one. -/
theorem relDirLoop_join {up : List (List UInt8) → Option (List (List UInt8))} {I : List (List UInt8) → Prop} (hl : Leads back up I)
    {pos cs : List (List UInt8)} (hpos : I pos) (hcs : ∀ d ∈ cs, SWITCHAR ∉ d) (hc : SWITCHAR ∉ c) :
    relDirLoop back (join SWITCHAR pos ++ SWITCHAR :: join SWITCHAR (cs ++ [c])) (join SWITCHAR pos).length =
      (walk DOT up pos cs).map fun q => join SWITCHAR (q ++ [c]) := by
  induction cs generalizing pos with
  | nil =>
    rw [List.nil_append, join_singleton, turn_last _ hc]
    exact congrArg some (join_concat (hl.ne_nil hpos) c).symm
  | cons d cs ih =>
    have hd := hcs d List.mem_cons_self
    have ih := fun {pos} (hpos : I pos) => ih hpos fun e he => hcs e (List.mem_cons_of_mem _ he)
    rw [List.cons_append, join_cons (List.append_ne_nil_of_right_ne_nil cs (List.cons_ne_nil c []))]
    show _ = ((step DOT up pos d).bind fun pos => walk DOT up pos cs).map _
    by_cases hdots : IsDots DOT d
    · rcases hdots with rfl | rfl
      · rw [turn_dot, ih hpos, step_dot]
        rfl
      · rw [turn_up, hl.back_eq _ hpos, step_up, Option.map_bind, Option.bind_map]
        refine Option.bind_congr fun q hq => ?_
        obtain ⟨hq, hpre⟩ := hl.up_below hpos hq
        obtain ⟨B, hB⟩ := hpre
        show relDirLoop back ((join SWITCHAR pos ++ _).take (join SWITCHAR q).length ++ _) _ = (walk DOT up q cs).map _
        rw [← ih hq, ← hB, List.append_assoc, List.take_left]
    · rw [turn_name _ hd hdots, ← join_concat (hl.ne_nil hpos), ih (hl.name hd hpos), step_name hdots]
      rfl

/-- Names in front are passed. -/
theorem relDirLoop_names {pos cs : List (List UInt8)} (hpos : pos ≠ []) (hcs : ∀ d ∈ cs, SWITCHAR ∉ d) (hclean : Clean DOT cs) (r : List UInt8) :
    relDirLoop back (join SWITCHAR (pos ++ cs) ++ SWITCHAR :: r) (join SWITCHAR pos).length =
      relDirLoop back (join SWITCHAR (pos ++ cs) ++ SWITCHAR :: r) (join SWITCHAR (pos ++ cs)).length := by
  induction cs generalizing pos with
  | nil => rw [List.append_nil]
  | cons d cs ih =>
    have hstep := @ih (pos ++ [d]) (by simp) (fun e he => hcs e (List.mem_cons_of_mem _ he)) fun e he => hclean e (List.mem_cons_of_mem _ he)
    rw [List.append_assoc, List.singleton_append] at hstep
    rw [← hstep]
    rcases eq_or_ne cs [] with rfl | hne
    · rw [join_concat hpos, List.append_assoc, List.cons_append, turn_name _ (hcs d List.mem_cons_self) (hclean d List.mem_cons_self), List.append_assoc, List.cons_append]
    · rw [join_append hpos (List.cons_ne_nil d cs), join_cons hne, join_concat hpos]
      have := @turn_name back _ (join SWITCHAR pos) (hcs d List.mem_cons_self) (hclean d List.mem_cons_self) (join SWITCHAR cs ++ SWITCHAR :: r)
      simp only [List.append_assoc, List.cons_append] at this ⊢
      exact this

/-- The whole text: its first component is no one's way up. -/
theorem relDirLoop_text {up : List (List UInt8) → Option (List (List UInt8))} {I : List (List UInt8) → Prop} (hl : Leads back up I)
    {pos cs : List (List UInt8)} (hpos : I pos) (hsep : ∀ d ∈ pos, SWITCHAR ∉ d) (hclean : Clean DOT pos.tail) (hcs : ∀ d ∈ cs, SWITCHAR ∉ d) (hc : SWITCHAR ∉ c) :
    relDirLoop back (join SWITCHAR pos ++ SWITCHAR :: join SWITCHAR (cs ++ [c])) 0 = (walk DOT up pos cs).map fun q => join SWITCHAR (q ++ [c]) := by
  obtain ⟨d, ds, rfl⟩ := List.exists_cons_of_ne_nil (hl.ne_nil hpos)
  rw [← relDirLoop_join hl hpos hcs hc]
  have hd := hsep d List.mem_cons_self
  have hds : ∀ e ∈ ds, SWITCHAR ∉ e := fun e he => hsep e (List.mem_cons_of_mem _ he)
  have hnames := @relDirLoop_names back [d] ds (List.cons_ne_nil d []) hds hclean (join SWITCHAR (cs ++ [c]))
  rw [join_singleton] at hnames
  refine Eq.trans (relDirLoop_congr ?_) hnames
  obtain ⟨r, hr⟩ : ∃ r, join SWITCHAR (d :: ds) ++ SWITCHAR :: join SWITCHAR (cs ++ [c]) = d ++ SWITCHAR :: r := by
    rcases eq_or_ne ds [] with rfl | hne
    · exact ⟨_, by rw [join_singleton]⟩
    · exact ⟨_, by rw [join_cons hne, List.append_assoc, List.cons_append]⟩
  rw [hr, strchr_here]
  exact (strchr_append [] hd r).trans (congrArg some (Nat.zero_add _))

/-! ## The ways up -/

theorem getElem_component_ne (B d r : List UInt8) (hd : SWITCHAR ∉ d) {k : Nat} (hk : k < d.length) :
    (B ++ SWITCHAR :: d ++ r)[B.length + 1 + k]? ≠ some SWITCHAR := by
  rw [List.append_assoc, Nat.add_assoc, List.getElem?_append_right (by omega), Nat.add_sub_cancel_left, Nat.add_comm 1, List.cons_append, List.getElem?_cons_succ,
    List.getElem?_append_left hk, List.getElem?_eq_getElem hk]
  intro h
  exact hd (Option.some.inj h ▸ List.getElem_mem _)

/-- The last separator is where the last component begins. -/
theorem separatorBefore_join (B d r : List UInt8) (hd : SWITCHAR ∉ d) : separatorBefore (B ++ SWITCHAR :: d ++ r) (B.length + 1 + d.length) = some B.length := by
  have hstep : ∀ k, k ≤ d.length → separatorBefore (B ++ SWITCHAR :: d ++ r) (B.length + 1 + k) = some B.length := by
    intro k
    induction k with
    | zero =>
      intro _
      exact if_pos (by simp)
    | succ k ih =>
      intro hk
      rw [← Nat.add_assoc, separatorBefore, if_neg (getElem_component_ne B d r hd hk), ih (by omega)]
  exact hstep _ (le_refl _)

theorem separatorFrom_join (B d r : List UInt8) (hd : SWITCHAR ∉ d) {e : Nat} (he : e ≤ B.length) :
    separatorFrom e (B ++ SWITCHAR :: d ++ r) (B.length + 1 + d.length) = B.length := by
  have hstep : ∀ k, k ≤ d.length → separatorFrom e (B ++ SWITCHAR :: d ++ r) (B.length + 1 + k) = B.length := by
    intro k
    induction k with
    | zero =>
      intro _
      exact (if_pos (Nat.lt_succ_of_le he)).trans (if_pos (by simp))
    | succ k ih =>
      intro hk
      rw [← Nat.add_assoc, separatorFrom, if_pos (by omega), if_neg (getElem_component_ne B d r hd hk), ih (by omega)]
  exact hstep _ (le_refl _)

end Db3w.Dbf
