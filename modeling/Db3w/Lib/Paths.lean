/-
Paths: texts of components with a separator between them, and walks along the components of one, where one
dot stays and two dots go up.
-/
import Mathlib.Tactic

namespace Paths

variable {α : Type*} (dot sep : α)

/-- The text of the components. -/
abbrev join (cs : List (List α)) : List α := [sep].intercalate cs

/-- One dot or two, and no name. -/
def IsDots (c : List α) : Prop := c = [dot] ∨ c = [dot, dot]

/-- All components are names. -/
def Clean (cs : List (List α)) : Prop := ∀ c ∈ cs, ¬IsDots dot c

instance [DecidableEq α] (c : List α) : Decidable (IsDots dot c) := inferInstanceAs (Decidable (_ ∨ _))

instance [DecidableEq α] (cs : List (List α)) : Decidable (Clean dot cs) := inferInstanceAs (Decidable (∀ c ∈ cs, _))

section Join

variable {sep} {c d : List α} {cs ds : List (List α)}

theorem join_cons (h : cs ≠ []) : join sep (c :: cs) = c ++ sep :: join sep cs := by
  rw [join, List.intercalate_cons_of_ne_nil h, List.append_assoc]
  rfl

theorem join_singleton (c : List α) : join sep [c] = c := List.intercalate_singleton

theorem join_append (hc : cs ≠ []) (hd : ds ≠ []) : join sep (cs ++ ds) = join sep cs ++ sep :: join sep ds := by
  induction cs with
  | nil => exact absurd rfl hc
  | cons c cs ih =>
    rcases eq_or_ne cs [] with rfl | hne
    · rw [List.singleton_append, join_cons hd, join_singleton]
    · rw [List.cons_append, join_cons (List.append_ne_nil_of_left_ne_nil hne ds), ih hne, join_cons hne, List.append_assoc]
      rfl

theorem join_concat (hc : cs ≠ []) (c : List α) : join sep (cs ++ [c]) = join sep cs ++ sep :: c := by
  rw [join_append hc (List.cons_ne_nil c []), join_singleton]

/-- The components of a text. -/
theorem join_splitOn [DecidableEq α] (sep : α) (s : List α) : join sep (s.splitOn sep) = s := List.intercalate_splitOn sep

theorem splitOn_join [DecidableEq α] (h : ∀ c ∈ cs, sep ∉ c) (hne : cs ≠ []) : (join sep cs).splitOn sep = cs := List.splitOn_intercalate sep h hne

/-- No component of a text has a separator in it. -/
theorem not_mem_splitOn [DecidableEq α] (sep : α) (s : List α) : ∀ c ∈ s.splitOn sep, sep ∉ c := by
  induction s with
  | nil => simp [List.splitOn_nil]
  | cons a s ih =>
    rw [List.splitOn_cons_eq_if_modifyHead]
    split
    · intro c hc
      rcases List.mem_cons.mp hc with rfl | hc
      · exact List.not_mem_nil
      · exact ih c hc
    · rename_i hne
      obtain ⟨d, ds, hds⟩ := List.exists_cons_of_ne_nil (List.splitOn_ne_nil sep s)
      rw [hds] at ih ⊢
      intro c hc
      rcases List.mem_cons.mp hc with rfl | hc
      · rw [List.mem_cons, not_or]
        exact ⟨fun h => hne (by rw [h]; exact beq_self_eq_true a), ih d List.mem_cons_self⟩
      · exact ih c (List.mem_cons_of_mem _ hc)

theorem join_below (hc : cs ≠ []) (hd : ds ≠ []) : join sep cs ++ [sep] <+: join sep (cs ++ ds) := by
  rw [join_append hc hd]
  exact ⟨join sep ds, by simp⟩

end Join

/-! ## Walks -/

section Walk

variable [DecidableEq α] {up : List (List α) → Option (List (List α))} {pos pos' cs ds : List (List α)} {c : List α}

/-- One component further; `up` is where two dots lead to. -/
def step (up : List (List α) → Option (List (List α))) (pos : List (List α)) (c : List α) : Option (List (List α)) :=
  if c = [dot] then some pos else if c = [dot, dot] then up pos else some (pos ++ [c])

/-- The way along all components. -/
def walk (up : List (List α) → Option (List (List α))) (pos : List (List α)) : List (List α) → Option (List (List α))
  | [] => some pos
  | c :: cs => (step dot up pos c).bind fun pos => walk up pos cs

variable {dot}

theorem step_name (h : ¬IsDots dot c) : step dot up pos c = some (pos ++ [c]) := by
  rw [IsDots, not_or] at h
  unfold step
  rw [if_neg h.1, if_neg h.2]

theorem step_dot : step dot up pos [dot] = some pos := if_pos rfl

theorem step_up : step dot up pos [dot, dot] = up pos := by
  unfold step
  rw [if_neg (by simp), if_pos rfl]

/-- A walk gets to its end when there is a way up from everywhere. -/
theorem walk_isSome {I : List (List α) → Prop} (hname : ∀ pos c, I pos → I (pos ++ [c])) (hup : ∀ pos, I pos → ∃ q, up pos = some q ∧ I q) (h : I pos) :
    ∃ q, walk dot up pos cs = some q := by
  induction cs generalizing pos with
  | nil => exact ⟨pos, rfl⟩
  | cons c cs ih =>
    have hstep : ∃ q, step dot up pos c = some q ∧ I q := by
      unfold step
      split_ifs
      · exact ⟨pos, rfl, h⟩
      · exact hup pos h
      · exact ⟨_, rfl, hname pos c h⟩
    obtain ⟨q, hq, hI⟩ := hstep
    obtain ⟨q', hq'⟩ := ih hI
    refine ⟨q', ?_⟩
    show (step dot up pos c).bind _ = _
    rw [hq]
    exact hq'

/-- What a name and a way up preserve, a walk does. -/
theorem walk_induct {I : List (List α) → Prop} (hname : ∀ pos, ∀ c ∈ cs, I pos → ¬IsDots dot c → I (pos ++ [c]))
    (hup : ∀ pos pos', I pos → up pos = some pos' → I pos') (h : I pos) (hwalk : walk dot up pos cs = some pos') : I pos' := by
  induction cs generalizing pos with
  | nil =>
    cases hwalk
    exact h
  | cons c cs ih =>
    obtain ⟨q, hq, hrest⟩ := Option.bind_eq_some_iff.mp hwalk
    refine ih (fun pos d hd => hname pos d (List.mem_cons_of_mem _ hd)) ?_ hrest
    by_cases hdots : IsDots dot c
    · rcases hdots with rfl | rfl
      · rw [step_dot] at hq
        cases hq
        exact h
      · rw [step_up] at hq
        exact hup pos q h hq
    · rw [step_name hdots] at hq
      cases hq
      exact hname pos c List.mem_cons_self h hdots

omit [DecidableEq α] in
theorem clean_append (h : Clean dot cs) (hd : Clean dot ds) : Clean dot (cs ++ ds) := fun c hc =>
  (List.mem_append.mp hc).elim (h c) (hd c)

/-! ### Where a walk ends, by counting -/

/-- The number of components that one more component leads to. -/
def level (dot : α) (top n : Nat) (c : List α) : Nat :=
  if c = [dot] then n else if c = [dot, dot] then if n > top then n - 1 else n else n + 1

/-- The number of components at the end. -/
def levels (dot : α) (top n : Nat) (cs : List (List α)) : Nat := cs.foldl (level dot top) n

/-- The last name that is entered as the component number `j`. -/
def lastAt (dot : α) (top j : Nat) : Nat → List (List α) → Option (List α)
  | _, [] => none
  | n, c :: cs => (lastAt dot top j (level dot top n c) cs).or (if ¬IsDots dot c ∧ n = j then some c else none)

/-- Two dots take the last component away as long as there are more than `top`. -/
def PopsTo (top : Nat) (up : List (List α) → Option (List (List α))) : Prop :=
  ∀ pos q, up pos = some q → q = if pos.length > top then pos.dropLast else pos

variable {top : Nat}

theorem step_length (hup : PopsTo top up) (h : step dot up pos c = some pos') : pos'.length = level dot top pos.length c := by
  unfold step at h
  unfold level
  split_ifs at h ⊢ with h1 h2 h3
  · cases h
    rfl
  · rw [hup pos pos' h, if_pos h3, List.length_dropLast]
  · rw [hup pos pos' h, if_neg h3]
  · cases h
    exact List.length_append

theorem walk_length (hup : PopsTo top up) (h : walk dot up pos cs = some pos') : pos'.length = levels dot top pos.length cs := by
  induction cs generalizing pos with
  | nil =>
    cases h
    rfl
  | cons c cs ih =>
    obtain ⟨q, hq, hrest⟩ := Option.bind_eq_some_iff.mp h
    rw [ih hrest, step_length hup hq]
    rfl

/-- A component at the end is the one entered last, or one that was there before. -/
theorem walk_getElem (hup : PopsTo top up) (h : walk dot up pos cs = some pos') {j : Nat} (hj : j < pos'.length) :
    pos'[j]? = (lastAt dot top j pos.length cs).or pos[j]? := by
  induction cs generalizing pos with
  | nil =>
    cases h
    rfl
  | cons c cs ih =>
    obtain ⟨q, hq, hrest⟩ := Option.bind_eq_some_iff.mp h
    have hih := ih hrest
    have hsome : pos'[j]? = some pos'[j] := List.getElem?_eq_getElem hj
    rw [step_length hup hq] at hih
    show _ = ((lastAt dot top j _ cs).or _).or _
    cases hlast : lastAt dot top j (level dot top pos.length c) cs with
    | some d =>
      rw [hih, hlast]
      rfl
    | none =>
      rw [hlast, Option.none_or] at hih
      rw [hih, Option.none_or]
      -- nothing is entered here later on, so the component is there after this step
      by_cases hdots : IsDots dot c
      · rw [if_neg (fun h => h.1 hdots), Option.none_or]
        rcases hdots with rfl | rfl
        · rw [step_dot] at hq
          cases hq
          rfl
        · rw [step_up] at hq
          have hpop := hup pos q hq
          split_ifs at hpop
          · rw [hsome, hpop] at hih
            rw [hpop]
            obtain ⟨hlt, -⟩ := List.getElem?_eq_some_iff.mp hih.symm
            rw [List.getElem?_dropLast, if_pos (by rwa [List.length_dropLast] at hlt)]
          · rw [hpop]
      · rw [step_name hdots] at hq
        cases hq
        by_cases hn : pos.length = j
        · rw [if_pos ⟨hdots, hn⟩, ← hn, List.getElem?_append_right (le_refl _), Nat.sub_self]
          rfl
        · rw [if_neg (fun h => hn h.2), Option.none_or]
          rw [hsome] at hih
          obtain ⟨hlt, -⟩ := List.getElem?_eq_some_iff.mp hih.symm
          rw [List.length_append, List.length_singleton] at hlt
          rw [List.getElem?_append_left (by omega)]

/-- The walk ends below `root` exactly if it ends deep enough and whatever it enters last above that depth is `root`'s. -/
theorem walk_prefix_iff (hup : PopsTo top up) {root : List (List α)} (hroot : root <+: pos) (h : walk dot up pos cs = some pos') :
    root <+: pos' ↔ root.length ≤ levels dot top pos.length cs ∧ ∀ j < root.length, ∀ c, lastAt dot top j pos.length cs = some c → root[j]? = some c := by
  have hlen := walk_length hup h
  have hget : ∀ {l : List (List α)}, root <+: l ↔ root.length ≤ l.length ∧ ∀ j < root.length, l[j]? = root[j]? := by
    intro l
    rw [List.prefix_iff_getElem?]
    constructor
    · intro hpre
      refine ⟨?_, fun j hj => by rw [hpre j hj, List.getElem?_eq_getElem hj]⟩
      by_contra hlt
      have := hpre l.length (by omega)
      rw [List.getElem?_eq_none (le_refl _)] at this
      cases this
    · rintro ⟨-, hall⟩ j hj
      rw [hall j hj, List.getElem?_eq_getElem hj]
  have hpos := (hget.mp hroot).2
  rw [hget, hlen]
  refine and_congr_right fun hle => forall₂_congr fun j hj => ?_
  rw [walk_getElem hup h (by omega), hpos j hj]
  cases lastAt dot top j pos.length cs with
  | none => simp
  | some c =>
    rw [Option.some_or]
    exact ⟨fun heq d hd => by rw [← heq, hd], fun hall => (hall c rfl).symm⟩

/-- Two dots where there is nothing to take away. -/
def Falls (dot : α) (top : Nat) : Nat → List (List α) → Prop
  | _, [] => False
  | n, c :: cs => (c = [dot, dot] ∧ n ≤ top) ∨ Falls dot top (level dot top n c) cs

theorem walk_eq_none_iff {I : List (List α) → Prop} (hname : ∀ pos c, I pos → I (pos ++ [c])) (hI : ∀ pos q, I pos → up pos = some q → I q)
    (hpop : PopsTo top up) (hnone : ∀ pos, I pos → (up pos = none ↔ pos.length ≤ top)) (h : I pos) :
    walk dot up pos cs = none ↔ Falls dot top pos.length cs := by
  induction cs generalizing pos with
  | nil => exact iff_of_false nofun id
  | cons c cs ih =>
    show (step dot up pos c).bind _ = none ↔ (c = [dot, dot] ∧ pos.length ≤ top) ∨ Falls dot top _ cs
    cases hq : step dot up pos c with
    | none =>
      refine iff_of_true rfl (.inl ?_)
      by_cases hdots : IsDots dot c
      · rcases hdots with rfl | rfl
        · rw [step_dot] at hq
          cases hq
        · rw [step_up] at hq
          exact ⟨rfl, (hnone pos h).mp hq⟩
      · rw [step_name hdots] at hq
        cases hq
    | some q =>
      have hIq : I q := by
        by_cases hdots : IsDots dot c
        · rcases hdots with rfl | rfl
          · rw [step_dot] at hq
            cases hq
            exact h
          · exact hI pos q h (step_up.symm.trans hq)
        · rw [step_name hdots] at hq
          cases hq
          exact hname pos c h
      have hnot : ¬(c = [dot, dot] ∧ pos.length ≤ top) := by
        rintro ⟨rfl, hle⟩
        rw [step_up, (hnone pos h).mpr hle] at hq
        cases hq
      rw [or_iff_right hnot, ← step_length hpop hq, ← ih hIq]
      rfl

end Walk

end Paths
