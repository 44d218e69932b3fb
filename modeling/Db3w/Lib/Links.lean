/-
Linked lists in an array of links. A path leads from one index along a list of others to an index
where it ends; links that are not on it can change without it. Several lists that share no index
can be kept in one array, with the free ones in a list of their own.
-/
import Mathlib.Tactic

namespace Links

variable {link link' : Nat → Nat} {a b x y z : Nat} {l m : List Nat}

/-- From `a` the links lead along `l` to `z`. -/
def Path (link : Nat → Nat) : Nat → List Nat → Nat → Prop
  | a, [], z => a = z
  | a, x :: l, z => a = x ∧ Path link (link x) l z

@[simp] theorem path_nil : Path link a [] z ↔ a = z := Iff.rfl

@[simp] theorem path_cons : Path link a (x :: l) z ↔ a = x ∧ Path link (link x) l z := Iff.rfl

theorem path_append : Path link a (l ++ m) z ↔ ∃ y, Path link a l y ∧ Path link y m z := by
  induction l generalizing a with
  | nil =>
    constructor
    · intro h
      exact ⟨a, rfl, h⟩
    · rintro ⟨y, rfl, h⟩
      exact h
  | cons x l ih =>
    rw [List.cons_append, path_cons, ih]
    constructor
    · rintro ⟨rfl, y, hl, hm⟩
      exact ⟨y, ⟨rfl, hl⟩, hm⟩
    · rintro ⟨y, ⟨rfl, hl⟩, hm⟩
      exact ⟨rfl, y, hl, hm⟩

/-- A path only depends on the links of what is on it. -/
theorem Path.congr (h : Path link a l z) (heq : ∀ x ∈ l, link' x = link x) : Path link' a l z := by
  induction l generalizing a with
  | nil => exact h
  | cons x l ih =>
    obtain ⟨rfl, h⟩ := h
    refine ⟨rfl, ?_⟩
    rw [heq a List.mem_cons_self]
    exact ih h fun y hy => heq y (List.mem_cons_of_mem _ hy)

/-- Two paths from one index that end where neither goes on are the same. -/
theorem Path.unique (h : Path link a l z) (h' : Path link a m y) (hz : z ∉ m) (hy : y ∉ l) : l = m ∧ z = y := by
  induction l generalizing a m with
  | nil =>
    cases m with
    | nil => exact ⟨rfl, h.symm.trans h'⟩
    | cons x m => exact absurd (h ▸ h'.1 ▸ List.mem_cons_self) hz
  | cons x l ih =>
    obtain ⟨rfl, h⟩ := h
    cases m with
    | nil => exact absurd (h' ▸ List.mem_cons_self) hy
    | cons x' m =>
      obtain ⟨rfl, h'⟩ := h'
      obtain ⟨rfl, rfl⟩ := ih h h' (fun hm => hz (List.mem_cons_of_mem _ hm)) fun hm => hy (List.mem_cons_of_mem _ hm)
      exact ⟨rfl, rfl⟩

/-! ## Following links -/

/-- The indices passed from `a` on before the first one that `stop` says, if there are no more than `n`. -/
def walk (link : Nat → Nat) (stop : Nat → Bool) : Nat → Nat → Option (List Nat)
  | 0, a => if stop a then some [] else none
  | n + 1, a => if stop a then some [] else (walk link stop n (link a)).map (a :: ·)

theorem Path.walk {stop : Nat → Bool} {n : Nat} (h : Path link a l z) (hz : stop z = true) (hl : ∀ x ∈ l, stop x = false) (hn : l.length ≤ n) :
    walk link stop n a = some l := by
  induction l generalizing a n with
  | nil =>
    have haz : a = z := h
    cases n with
    | zero => exact if_pos (haz ▸ hz)
    | succ n => exact if_pos (haz ▸ hz)
  | cons x l ih =>
    obtain ⟨rfl, h⟩ := h
    obtain ⟨n, rfl⟩ : ∃ k, n = k + 1 := ⟨n - 1, by rw [List.length_cons] at hn; omega⟩
    rw [Links.walk, if_neg (by rw [hl a List.mem_cons_self]; exact Bool.false_ne_true),
      ih h (fun x hx => hl x (List.mem_cons_of_mem _ hx)) (by rw [List.length_cons] at hn; omega)]
    rfl

/-! ## Taking out and putting in -/

/-- A new first index. -/
theorem Path.cons (h : Path link b l z) (hx : x ∉ l) : Path (Function.update link x b) x (x :: l) z := by
  refine ⟨rfl, ?_⟩
  rw [Function.update_self]
  exact h.congr fun y hy => Function.update_of_ne (ne_of_mem_of_not_mem hy hx) ..

/-- What is not on a path can be linked anew. -/
theorem Path.update (h : Path link a l z) (hx : x ∉ l) : Path (Function.update link x b) a l z :=
  h.congr fun _ hy => Function.update_of_ne (ne_of_mem_of_not_mem hy hx) ..

/-- The last link of a path leads elsewhere. -/
theorem Path.relast (h : Path link a (l ++ [x]) z) (hx : x ∉ l) : Path (Function.update link x b) a (l ++ [x]) b := by
  obtain ⟨y, hl, rfl, -⟩ := path_append.mp h
  refine path_append.mpr ⟨y, hl.update hx, rfl, ?_⟩
  exact Function.update_self ..

/-! ## Several lists -/

variable {κ : Type*} [DecidableEq κ] {start start' stop : κ → Nat} {D : κ → List Nat} {c : List Nat} {j k : κ}

/-- Lists that share no index. Each has the index where it starts and the one where it ends. -/
structure Split (link : Nat → Nat) (start stop : κ → Nat) (D : κ → List Nat) : Prop where
  path : ∀ k, Path link (start k) (D k) (stop k)
  nodup : ∀ k, (D k).Nodup
  disj : ∀ j k x, x ∈ D j → x ∈ D k → j = k

omit [DecidableEq κ] in
theorem Split.congr (h : Split link start stop D) (hlink : ∀ k, ∀ x ∈ D k, link' x = link x) (hstart : ∀ k, start' k = start k) :
    Split link' start' stop D :=
  ⟨fun k => (hstart k).symm ▸ (h.path k).congr (hlink k), h.nodup, h.disj⟩

/-- An index that is on no list becomes the first of one. -/
theorem Split.push (h : Split link start stop D) (hx : ∀ j, x ∉ D j) (hlink : link' x = start k) (hstart : start' k = x)
    (hlinks : ∀ j, ∀ y ∈ D j, link' y = link y) (hstarts : ∀ j, j ≠ k → start' j = start j) :
    Split link' start' stop (Function.update D k (x :: D k)) := by
  refine ⟨fun j => ?_, fun j => ?_, fun i j y hi hj => ?_⟩
  · by_cases hjk : j = k
    · subst hjk
      rw [Function.update_self, hstart]
      exact ⟨rfl, hlink.symm ▸ (h.path j).congr (hlinks j)⟩
    · rw [Function.update_of_ne hjk, hstarts j hjk]
      exact (h.path j).congr (hlinks j)
  · by_cases hjk : j = k
    · subst hjk
      rw [Function.update_self]
      exact List.nodup_cons.mpr ⟨hx j, h.nodup j⟩
    · rw [Function.update_of_ne hjk]
      exact h.nodup j
  · by_cases hik : i = k
    · subst hik
      by_cases hji : j = i
      · exact hji.symm
      rw [Function.update_self] at hi
      rw [Function.update_of_ne hji] at hj
      rcases List.mem_cons.mp hi with rfl | hi
      · exact absurd hj (hx j)
      · exact h.disj i j y hi hj
    · rw [Function.update_of_ne hik] at hi
      by_cases hjk : j = k
      · subst hjk
        rw [Function.update_self] at hj
        rcases List.mem_cons.mp hj with rfl | hj
        · exact absurd hi (hx i)
        · exact h.disj i j y hi hj
      · rw [Function.update_of_ne hjk] at hj
        exact h.disj i j y hi hj

/-- An index is taken out of a list: what led to it leads to what comes behind it. -/
theorem Split.cut (h : Split link start stop D) (hk : D k = l ++ x :: c) (hpath : Path link' (start' k) l (link x))
    (hlinks : ∀ j, ∀ y ∈ D j, y ∉ l → y ≠ x → link' y = link y) (hstarts : ∀ j, j ≠ k → start' j = start j) :
    Split link' start' stop (Function.update D k (l ++ c)) := by
  have hnodup := h.nodup k
  rw [hk] at hnodup
  have hsub : ∀ j, ∀ y ∈ Function.update D k (l ++ c) j, y ∈ D j := by
    intro j y hy
    by_cases hjk : j = k
    · subst hjk
      rw [Function.update_self] at hy
      rw [hk]
      exact (List.Sublist.append_left (List.sublist_cons_self x c) l).subset hy
    · rwa [Function.update_of_ne hjk] at hy
  refine ⟨fun j => ?_, fun j => ?_, fun i j y hi hj => h.disj i j y (hsub i y hi) (hsub j y hj)⟩
  · by_cases hjk : j = k
    · subst hjk
      rw [Function.update_self]
      have hpk := h.path j
      rw [hk] at hpk
      obtain ⟨y, -, rfl, hc⟩ := path_append.mp hpk
      obtain ⟨-, hxc, hdis⟩ := List.nodup_append.mp hnodup
      refine path_append.mpr ⟨_, hpath, hc.congr fun w hw => hlinks j w ?_ ?_ ?_⟩
      · rw [hk]
        exact List.mem_append_right _ (List.mem_cons_of_mem _ hw)
      · exact fun hl => hdis w hl w (List.mem_cons_of_mem _ hw) rfl
      · exact fun hwx => (List.nodup_cons.mp hxc).1 (hwx ▸ hw)
    · rw [Function.update_of_ne hjk, hstarts j hjk]
      refine (h.path j).congr fun y hy => hlinks j y hy (fun hl => ?_) fun hyx => ?_
      · exact hjk (h.disj j k y hy (hk ▸ List.mem_append_left _ hl))
      · exact hjk (h.disj j k y hy (hk ▸ hyx ▸ List.mem_append_right _ List.mem_cons_self))
  · by_cases hjk : j = k
    · subst hjk
      rw [Function.update_self]
      exact hnodup.sublist (List.Sublist.append_left (List.sublist_cons_self x c) l)
    · rw [Function.update_of_ne hjk]
      exact h.nodup j

end Links
