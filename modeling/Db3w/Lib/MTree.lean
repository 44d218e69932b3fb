/-
Multiway search trees over pages. A leaf page holds entries, an internal page holds separators
and subtrees, one subtree more than separators. Everything a search or a traversal can see of a
tree is a function of its leaf pages in order: the entries, and for each entry the page and the
index that address it (`slots`).

`Routes` is the choice of a subtree by a comparison that is falling along the entries: all
subtrees before the chosen one end below the target, and the chosen one does not, unless it is
the last. `Shape` says that the separators belong to the last entry of the subtree to their left
and bounds the size of the pages; `AtDepth` that all leaves are equally deep.
-/
import Db3w.Lib.Falling
import Mathlib.Tactic

/-- A tree of pages `ι` over entries `α`. -/
inductive MTree (ι α : Type) where
  | leaf (page : ι) (es : List α)
  | node (page : ι) (seps : List α) (kids : List (MTree ι α))

/-- An entry of a leaf page and its address. -/
structure Slot (ι α : Type) where
  page : ι
  idx : Nat
  ent : α
  deriving DecidableEq, Repr

namespace MTree

variable {ι α : Type}

/-! ## Leaves, entries and pages -/

/-- The page of the root. -/
def page : MTree ι α → ι
  | leaf p _ => p
  | node p _ _ => p

mutual
/-- The leaf pages in order. -/
def leaves : MTree ι α → List (ι × List α)
  | leaf p es => [(p, es)]
  | node _ _ ks => leavesOf ks
/-- The leaf pages of a list of trees. -/
def leavesOf : List (MTree ι α) → List (ι × List α)
  | [] => []
  | k :: ks => leaves k ++ leavesOf ks
end

mutual
/-- All pages of the tree. -/
def pages : MTree ι α → List ι
  | leaf p _ => [p]
  | node p _ ks => p :: pagesOf ks
/-- All pages of a list of trees. -/
def pagesOf : List (MTree ι α) → List ι
  | [] => []
  | k :: ks => pages k ++ pagesOf ks
end

mutual
/-- The number of pages on a longest path from the root to a leaf. -/
def height : MTree ι α → Nat
  | leaf _ _ => 1
  | node _ _ ks => heightOf ks + 1
/-- The height of the highest of a list of trees. -/
def heightOf : List (MTree ι α) → Nat
  | [] => 0
  | k :: ks => max (height k) (heightOf ks)
end

/-- The entries in order. -/
def entries (t : MTree ι α) : List α := t.leaves.flatMap (·.2)

/-- The entries in order with their addresses. -/
def slots (t : MTree ι α) : List (Slot ι α) := t.leaves.flatMap fun l => l.2.mapIdx (Slot.mk l.1)

/-- The last entry. -/
def last? (t : MTree ι α) : Option α := t.entries.getLast?

/-- An induction over trees: a node from all its subtrees. -/
@[elab_as_elim]
theorem ind {P : MTree ι α → Prop} (leaf : ∀ p es, P (leaf p es))
    (node : ∀ p ss ks, (∀ k ∈ ks, P k) → P (node p ss ks)) (t : MTree ι α) : P t :=
  match t with
  | .leaf p es => leaf p es
  | .node p ss ks => node p ss ks fun k _ => ind leaf node k
  termination_by sizeOf t

theorem leavesOf_eq : ∀ ks : List (MTree ι α), leavesOf ks = ks.flatMap leaves
  | [] => rfl
  | k :: ks => by rw [leavesOf, leavesOf_eq ks, List.flatMap_cons]

theorem pagesOf_eq : ∀ ks : List (MTree ι α), pagesOf ks = ks.flatMap pages
  | [] => rfl
  | k :: ks => by rw [pagesOf, pagesOf_eq ks, List.flatMap_cons]

@[simp] theorem leaves_leaf (p : ι) (es : List α) : (leaf p es).leaves = [(p, es)] := by simp [leaves]

@[simp] theorem leaves_node (p : ι) (ss : List α) (ks : List (MTree ι α)) :
    (node p ss ks).leaves = ks.flatMap leaves := by rw [leaves, leavesOf_eq]

@[simp] theorem pages_leaf (p : ι) (es : List α) : (leaf p es).pages = [p] := by simp [pages]

@[simp] theorem pages_node (p : ι) (ss : List α) (ks : List (MTree ι α)) :
    (node p ss ks).pages = p :: ks.flatMap pages := by rw [pages, pagesOf_eq]

@[simp] theorem entries_leaf (p : ι) (es : List α) : (leaf p es).entries = es := by simp [entries]

@[simp] theorem entries_node (p : ι) (ss : List α) (ks : List (MTree ι α)) :
    (node p ss ks).entries = ks.flatMap entries := by
  unfold entries; rw [leaves_node, List.flatMap_assoc]

@[simp] theorem slots_leaf (p : ι) (es : List α) : (leaf p es).slots = es.mapIdx (Slot.mk p) := by simp [slots]

@[simp] theorem slots_node (p : ι) (ss : List α) (ks : List (MTree ι α)) :
    (node p ss ks).slots = ks.flatMap slots := by
  unfold slots; rw [leaves_node, List.flatMap_assoc]

theorem map_ent_mapIdx (p : ι) (es : List α) : (es.mapIdx (Slot.mk p)).map Slot.ent = es :=
  List.ext_getElem (by simp) (by simp)

theorem map_ent_slots (t : MTree ι α) : t.slots.map Slot.ent = t.entries := by
  simp only [slots, entries, List.map_flatMap, map_ent_mapIdx]

theorem height_leaf (p : ι) (es : List α) : (leaf p es).height = 1 := by simp [height]

theorem heightOf_le : ∀ {ks : List (MTree ι α)} {k : MTree ι α}, k ∈ ks → k.height ≤ heightOf ks
  | k' :: ks, k, h => by
    rw [heightOf]
    rcases List.mem_cons.1 h with rfl | h
    · exact le_max_left _ _
    · exact (heightOf_le h).trans (le_max_right _ _)

theorem height_kid (p : ι) (ss : List α) {ks : List (MTree ι α)} {k : MTree ι α} (h : k ∈ ks) :
    k.height < (node p ss ks).height := by
  rw [height]
  exact Nat.lt_succ_of_le (heightOf_le h)

/-! ## Well-formed trees -/

/-- The separators of an internal page each belong, by `S`, to the last entry of the subtree on
their left, and there is one subtree more than separators. -/
structure Sepd (S : α → α → Prop) (ss : List α) (ks : List (MTree ι α)) : Prop where
  len : ks.length = ss.length + 1
  sep : ∀ x ∈ ss.zip ks, ∃ e, x.2.last? = some e ∧ S x.1 e

theorem sepd_iff {S : α → α → Prop} {ss : List α} {ks : List (MTree ι α)} :
    Sepd S ss ks ↔ ks.length = ss.length + 1 ∧ ∀ x ∈ ss.zip ks, ∃ e, x.2.last? = some e ∧ S x.1 e :=
  ⟨fun h => ⟨h.len, h.sep⟩, fun h => ⟨h.1, h.2⟩⟩

/-- No leaf is empty, and separators belong to the subtrees on their left. -/
inductive Shape (S : α → α → Prop) : MTree ι α → Prop
  | leaf {p : ι} {es : List α} : es ≠ [] → Shape S (leaf p es)
  | node {p : ι} {ss : List α} {ks : List (MTree ι α)} : Sepd S ss ks → (∀ k ∈ ks, Shape S k) → Shape S (node p ss ks)

/-- The number of entries or separators of every page satisfies `P`. -/
inductive Sized (P : Nat → Prop) : MTree ι α → Prop
  | leaf {p : ι} {es : List α} : P es.length → Sized P (leaf p es)
  | node {p : ι} {ss : List α} {ks : List (MTree ι α)} : P ss.length → (∀ k ∈ ks, Sized P k) → Sized P (node p ss ks)

/-- All leaves are `d` levels below the root. -/
inductive AtDepth : Nat → MTree ι α → Prop
  | leaf {p : ι} {es : List α} : AtDepth 0 (leaf p es)
  | node {d : Nat} {p : ι} {ss : List α} {ks : List (MTree ι α)} : (∀ k ∈ ks, AtDepth d k) → AtDepth (d + 1) (node p ss ks)

variable {S : α → α → Prop} {p : ι} {ss : List α} {ks A B : List (MTree ι α)} {k t : MTree ι α} {c : α → Int}

@[simp] theorem shape_leaf {es : List α} : Shape S (leaf p es) ↔ es ≠ [] :=
  ⟨fun h => by cases h; assumption, .leaf⟩

@[simp] theorem shape_node : Shape S (node p ss ks) ↔ Sepd S ss ks ∧ ∀ k ∈ ks, Shape S k :=
  ⟨fun h => by cases h; exact ⟨‹_›, ‹_›⟩, fun h => .node h.1 h.2⟩

@[simp] theorem sized_leaf {P : Nat → Prop} {es : List α} : Sized P (leaf p es) ↔ P es.length :=
  ⟨fun h => by cases h; assumption, .leaf⟩

@[simp] theorem sized_node {P : Nat → Prop} : Sized P (node p ss ks) ↔ P ss.length ∧ ∀ k ∈ ks, Sized P k :=
  ⟨fun h => by cases h; exact ⟨‹_›, ‹_›⟩, fun h => .node h.1 h.2⟩

@[simp] theorem atDepth_leaf {es : List α} {d : Nat} : AtDepth d (leaf p es) ↔ d = 0 :=
  ⟨fun h => by cases h; rfl, fun h => h ▸ .leaf⟩

@[simp] theorem atDepth_node {d : Nat} : AtDepth (d + 1) (node p ss ks) ↔ ∀ k ∈ ks, AtDepth d k :=
  ⟨fun h => by cases h; assumption, .node⟩

theorem AtDepth.kids {d : Nat} (h : AtDepth d (MTree.node p ss ks)) : ∃ e, d = e + 1 ∧ ∀ k ∈ ks, AtDepth e k := by
  cases h with
  | @node e _ _ _ hk => exact ⟨e, rfl, hk⟩

theorem Sepd.ne_nil (h : Sepd S ss ks) : ks ≠ [] := by
  rintro rfl
  simpa using h.len

theorem flatMap_entries_ne_nil (hk : k ∈ ks) (h : k.entries ≠ []) : ks.flatMap entries ≠ [] := by
  simp only [ne_eq, List.flatMap_eq_nil_iff, not_forall]
  exact ⟨k, hk, h⟩

theorem Shape.entries_ne_nil (h : Shape S t) : t.entries ≠ [] := by
  induction t using ind with
  | leaf p es =>
    cases h with
    | leaf he => simpa using he
  | node p ss ks ih =>
    cases h with
    | node hs hk =>
      obtain ⟨k, hk'⟩ := List.exists_mem_of_ne_nil ks hs.ne_nil
      rw [entries_node]
      exact flatMap_entries_ne_nil hk' (ih k hk' (hk k hk'))

theorem Shape.last?_isSome (h : Shape S t) : ∃ e, t.last? = some e :=
  ⟨t.entries.getLast h.entries_ne_nil, List.getLast?_eq_some_getLast h.entries_ne_nil⟩

/-- The last entry of a list of trees is that of its last tree. -/
theorem getLast?_flatMap_entries (h : k.entries ≠ []) :
    ((A ++ [k]).flatMap entries).getLast? = k.last? := by
  rw [List.flatMap_append, List.flatMap_singleton, List.getLast?_append_of_ne_nil _ h]; rfl

theorem last?_node_concat (h : k.entries ≠ []) : (node p ss (A ++ [k])).last? = k.last? := by
  rw [last?, entries_node, getLast?_flatMap_entries h]

/-! ## Choosing a subtree -/

/-- The choice of the subtree `k` among `A ++ k :: B` by a comparison with the last entries. -/
structure Routes (c : α → Int) (A : List (MTree ι α)) (k : MTree ι α) (B : List (MTree ι α)) : Prop where
  before : ∀ a ∈ A, ∃ e, a.last? = some e ∧ 0 < c e
  after : B ≠ [] → ∃ e, k.last? = some e ∧ c e ≤ 0

theorem falling_kid (h : Falling c (ks.flatMap entries)) (hk : k ∈ ks) : Falling c k.entries := by
  obtain ⟨A, B, rfl⟩ := List.append_of_mem hk
  rw [List.flatMap_append, List.flatMap_cons] at h
  exact h.right.left

theorem Routes.pos_before (h : Routes c A k B) (hf : Falling c ((A ++ k :: B).flatMap entries)) :
    ∀ e ∈ A.flatMap entries, 0 < c e := by
  intro e he
  obtain ⟨a, ha, hea⟩ := List.mem_flatMap.1 he
  obtain ⟨x, hx, hc⟩ := h.before a ha
  exact (falling_kid hf (List.mem_append_left _ ha)).pos_of_getLast hx hc e hea

theorem Routes.nonpos_after (h : Routes c A k B) (hf : Falling c ((A ++ k :: B).flatMap entries)) :
    ∀ e ∈ B.flatMap entries, c e ≤ 0 := by
  rcases B with _ | ⟨b, B⟩
  · simp
  · obtain ⟨x, hx, hc⟩ := h.after (by simp)
    rw [List.flatMap_append, List.flatMap_cons] at hf
    exact hf.right.nonpos_of_getLast hx hc

theorem neg_after {x : α} (hf : Falling c ((A ++ k :: B).flatMap entries)) (hx : k.last? = some x) (hc : c x < 0) :
    ∀ e ∈ B.flatMap entries, c e < 0 := by
  rw [List.flatMap_append, List.flatMap_cons] at hf
  exact hf.right.neg_of_getLast hx hc

/-- Only one subtree is chosen. -/
theorem Routes.unique : ∀ {A A' : List (MTree ι α)} {k k' : MTree ι α} {B B' : List (MTree ι α)},
    A ++ k :: B = A' ++ k' :: B' → Routes c A k B → Routes c A' k' B' → A = A' ∧ k = k' ∧ B = B'
  | [], [], k, k', B, B', h, _, _ => by simpa using h
  | [], a :: A', k, k', B, B', h, h1, h2 => by
    obtain ⟨rfl, rfl⟩ : k = a ∧ B = A' ++ k' :: B' := by simpa using h
    obtain ⟨e, he, hc⟩ := h1.after (by simp)
    obtain ⟨e', he', hc'⟩ := h2.before k List.mem_cons_self
    rw [he, Option.some.injEq] at he'
    subst he'; omega
  | a :: A, [], k, k', B, B', h, h1, h2 => by
    obtain ⟨rfl, rfl⟩ : a = k' ∧ A ++ k :: B = B' := by simpa using h
    obtain ⟨e, he, hc⟩ := h1.before a List.mem_cons_self
    obtain ⟨e', he', hc'⟩ := h2.after (by simp)
    rw [he, Option.some.injEq] at he'
    subst he'; omega
  | a :: A, a' :: A', k, k', B, B', h, h1, h2 => by
    obtain ⟨rfl, h'⟩ : a = a' ∧ A ++ k :: B = A' ++ k' :: B' := by simpa using h
    obtain ⟨rfl, rfl, rfl⟩ := Routes.unique h' ⟨fun x hx => h1.before x (List.mem_cons_of_mem _ hx), h1.after⟩
      ⟨fun x hx => h2.before x (List.mem_cons_of_mem _ hx), h2.after⟩
    exact ⟨rfl, rfl, rfl⟩

/-! ## Changing the subtrees of a page -/

theorem insertIdx_length_append {β : Type} (x : β) : ∀ (l m : List β), (l ++ m).insertIdx l.length x = l ++ x :: m
  | [], m => by simp
  | a :: l, m => by simp [insertIdx_length_append x l m]

theorem insertIdx_eq_append {β : Type} {l : List β} {x : β} {n : Nat} (h : n ≤ l.length) :
    l.insertIdx n x = l.take n ++ x :: l.drop n := by
  have := insertIdx_length_append x (l.take n) (l.drop n)
  rwa [List.take_append_drop, List.length_take, Nat.min_eq_left h] at this

theorem zip_kid (h : ss.length = A.length + B.length) :
    ss.zip (A ++ k :: B) = (ss.take A.length).zip A ++ (ss.drop A.length).zip (k :: B) := by
  rw [← List.zip_append (by rw [List.length_take]; omega), List.take_append_drop]

theorem Sepd.length_kid (h : Sepd S ss (A ++ k :: B)) : ss.length = A.length + B.length := by
  have := h.len
  simp only [List.length_append, List.length_cons] at this
  omega

/-- A subtree is replaced by one that ends with the same entry. -/
theorem Sepd.replace (k' : MTree ι α) (h : Sepd S ss (A ++ k :: B)) (hl : B ≠ [] → k'.last? = k.last?) :
    Sepd S ss (A ++ k' :: B) := by
  refine ⟨by simpa using h.len, fun x hx => ?_⟩
  have hs := h.sep
  rw [zip_kid h.length_kid] at hx hs
  rcases List.mem_append.1 hx with hx | hx
  · exact hs x (List.mem_append_left _ hx)
  rcases hd : ss.drop A.length with _ | ⟨s, ss'⟩
  · simp [hd] at hx
  rw [hd, List.zip_cons_cons] at hx hs
  rcases List.mem_cons.1 hx with rfl | hx
  · have hB : B ≠ [] := by
      rintro rfl
      have := congrArg List.length hd
      rw [List.length_drop, h.length_kid] at this
      simp at this
    obtain ⟨e, he, hse⟩ := hs (s, k) (by simp)
    exact ⟨e, (hl hB).trans he, hse⟩
  · exact hs x (by simp [hx])

/-- A subtree is replaced by two with a separator between them. -/
theorem Sepd.insert {l r : MTree ι α} {s : α} (h : Sepd S ss (A ++ k :: B)) (hs : ∃ e, l.last? = some e ∧ S s e)
    (hl : B ≠ [] → r.last? = k.last?) : Sepd S (ss.insertIdx A.length s) (A ++ l :: r :: B) := by
  have hlen := h.length_kid
  have hr := h.replace r hl
  have hins := insertIdx_eq_append (l := ss) (x := s) (n := A.length) (by omega)
  refine ⟨by rw [hins]; simp; omega, fun x hx => ?_⟩
  have hs' := hr.sep
  rw [zip_kid hlen] at hs'
  rw [hins, List.zip_append (by rw [List.length_take]; omega), List.zip_cons_cons] at hx
  rcases List.mem_append.1 hx with hx | hx
  · exact hs' x (List.mem_append_left _ hx)
  rcases List.mem_cons.1 hx with rfl | hx
  · exact hs
  · exact hs' x (List.mem_append_right _ hx)

theorem sepd_iff_get : Sepd S ss ks ↔ ks.length = ss.length + 1 ∧
    ∀ (i : Nat) (s : α) (k : MTree ι α), ss[i]? = some s → ks[i]? = some k → ∃ e, k.last? = some e ∧ S s e := by
  rw [sepd_iff]
  refine and_congr_right fun _ => ⟨fun h i s k hs hk => ?_, fun h x hx => ?_⟩
  · exact h (s, k) (List.mem_of_getElem? (i := i) (List.getElem?_zip_eq_some.2 ⟨hs, hk⟩))
  · obtain ⟨i, hi⟩ := List.mem_iff_getElem?.1 hx
    obtain ⟨h1, h2⟩ := List.getElem?_zip_eq_some.1 hi
    exact h i x.1 x.2 h1 h2

theorem eraseIdx_length_append {β : Type} (x : β) (l m : List β) : (l ++ x :: m).eraseIdx l.length = l ++ m := by
  rw [List.eraseIdx_append_of_length_le le_rfl, Nat.sub_self, List.eraseIdx_cons_zero]

/-- A subtree is taken out, with the separator after it or else the last one. -/
theorem Sepd.erase (h : Sepd S ss (A ++ k :: B)) (hpos : 0 < ss.length) :
    Sepd S (ss.eraseIdx (min A.length (ss.length - 1))) (A ++ B) := by
  have hlen := h.length_kid
  rw [← eraseIdx_length_append k A B]
  obtain ⟨hl, hs⟩ := sepd_iff_get.1 h
  refine sepd_iff_get.2 ⟨?_, fun i s j h1 h2 => ?_⟩
  · rw [List.length_eraseIdx_of_lt (by omega), List.length_eraseIdx_of_lt (by omega)]
    omega
  · rw [List.getElem?_eraseIdx] at h1 h2
    split_ifs at h1 h2 with h3 h4 h5
    · exact hs i s j h1 h2
    · have := (List.getElem?_eq_some_iff.1 h1).1
      omega
    · have := (List.getElem?_eq_some_iff.1 h1).1
      omega
    · exact hs (i + 1) s j h1 h2

theorem Sepd.init (h : Sepd S ss (A ++ [k])) (hpos : 0 < ss.length) : Sepd S ss.dropLast A := by
  have h1 := h.erase hpos
  have hlen := h.length_kid
  rw [List.length_nil, Nat.add_zero] at hlen
  rwa [Nat.min_eq_right (by omega), List.eraseIdx_length_sub_one, List.append_nil] at h1

/-- A subtree is replaced, and the separator after it with it. -/
theorem Sepd.rekey {b : MTree ι α} {s e : α} (k' : MTree ι α) (h : Sepd S ss (A ++ k :: b :: B)) (he : k'.last? = some e) (hs : S s e) :
    Sepd S (ss.set A.length s) (A ++ k' :: b :: B) := by
  have hset : A ++ k' :: b :: B = (A ++ k :: b :: B).set A.length k' := by simp
  rw [hset]
  obtain ⟨hl, hget⟩ := sepd_iff_get.1 h
  refine sepd_iff_get.2 ⟨by simpa using hl, fun i s' j h1 h2 => ?_⟩
  rw [List.getElem?_set] at h1 h2
  split_ifs at h1 h2 with h3 h4 h5
  · obtain rfl : s = s' := Option.some.inj h1
    obtain rfl : k' = j := Option.some.inj h2
    exact ⟨e, he, hs⟩
  · exact hget i s' j h1 h2
theorem Sepd.take {n : Nat} (h : Sepd S ss ks) (hn : n ≤ ss.length) : Sepd S (ss.take n) (ks.take (n + 1)) := by
  have hl := h.len
  refine ⟨by simp only [List.length_take]; omega, fun x hx => h.sep x ?_⟩
  have hz : (ss.take n).zip (ks.take (n + 1)) = (ss.zip ks).take n := by
    rw [List.zip, List.take_zipWith, List.zipWith_eq_zipWith_take_min]
    simp only [List.length_take, List.take_take]
    congr 2 <;> omega
  rw [hz] at hx
  exact List.mem_of_mem_take hx

theorem Sepd.drop {n : Nat} (h : Sepd S ss ks) (hn : n ≤ ss.length) : Sepd S (ss.drop n) (ks.drop n) := by
  have hl := h.len
  refine ⟨by simp only [List.length_drop]; omega, fun x hx => h.sep x ?_⟩
  rw [List.zip, ← List.drop_zipWith] at hx
  exact List.mem_of_mem_drop hx

/-- The separator in the middle belongs to the last entry of the subtrees up to it. -/
theorem Sepd.take_last {n : Nat} {s : α} (h : Sepd S ss ks) (hs : ss[n]? = some s) (hne : ∀ k ∈ ks, k.entries ≠ []) :
    ∃ e, (MTree.node p (ss.take n) (ks.take (n + 1))).last? = some e ∧ S s e := by
  have hlt : n < ss.length := (List.getElem?_eq_some_iff.1 hs).1
  have hk : n < ks.length := by rw [h.len]; omega
  obtain ⟨e, he, hse⟩ := h.sep (s, ks[n]) (by
    refine List.mem_of_getElem? (i := n) ?_
    rw [List.getElem?_zip_eq_some]
    exact ⟨hs, List.getElem?_eq_getElem hk⟩)
  refine ⟨e, ?_, hse⟩
  rw [List.take_succ_eq_append_getElem hk, last?_node_concat (hne _ (List.getElem_mem hk)), he]

/-! ## Entries and their addresses -/

theorem mem_entries_of_slot {s : Slot ι α} (h : s ∈ t.slots) : s.ent ∈ t.entries := by
  rw [← map_ent_slots]
  exact List.mem_map_of_mem h

theorem exists_slot {e : α} (h : e ∈ t.entries) : ∃ s ∈ t.slots, s.ent = e := by
  rw [← map_ent_slots] at h
  exact List.mem_map.1 h

/-- The first slot is the first of its page. -/
theorem idx_head {s : Slot ι α} (h : t.slots.head? = some s) : s.idx = 0 := by
  unfold slots at h
  generalize t.leaves = ls at h
  induction ls with
  | nil => simp at h
  | cons l ls ih =>
    obtain ⟨p, es⟩ := l
    rcases es with _ | ⟨e, es⟩
    · exact ih (by simpa using h)
    · simp only [List.flatMap_cons, List.mapIdx_cons, List.cons_append, List.head?_cons, Option.some.injEq] at h
      rw [← h]

theorem mapIdx_mk_append (p : ι) (P R : List α) :
    (P ++ R).mapIdx (Slot.mk p) = P.mapIdx (Slot.mk p) ++ R.mapIdx fun i => Slot.mk p (i + P.length) :=
  List.mapIdx_append

theorem mem_mapIdx_mk {p : ι} {P : List α} {n : Nat} {s : Slot ι α} (h : s ∈ P.mapIdx fun i => Slot.mk p (i + n)) : s.ent ∈ P := by
  obtain ⟨i, hi, rfl⟩ := List.mem_mapIdx.1 h
  exact List.getElem_mem hi

/-- The first entry of a leaf that passes a test, with its address. -/
theorem leaf_first {p : ι} {P R : List α} {x : α} {f : α → Bool} (hP : ∀ a ∈ P, f a = false) (hx : f x = true) :
    (((leaf p (P ++ x :: R)).slots).filter fun s => f s.ent).head? = some ⟨p, P.length, x⟩ := by
  have hnil : (P.mapIdx (Slot.mk p)).filter (fun s => f s.ent) = [] :=
    List.filter_eq_nil_iff.2 fun s hs => by simp [hP s.ent (mem_mapIdx_mk (n := 0) hs)]
  rw [slots_leaf, mapIdx_mk_append, List.filter_append, hnil, List.mapIdx_cons, List.nil_append,
    List.filter_cons_of_pos (by exact hx), Nat.zero_add, List.head?_cons]

/-- The last entry of a leaf that passes a test, with its address. -/
theorem leaf_last {p : ι} {P R : List α} {x : α} {f : α → Bool} (hx : f x = true) (hR : ∀ a ∈ R, f a = false) :
    (((leaf p (P ++ x :: R)).slots).filter fun s => f s.ent).getLast? = some ⟨p, P.length, x⟩ := by
  have hnil : (R.mapIdx (fun i => Slot.mk p (i + 1 + P.length))).filter (fun s => f s.ent) = [] :=
    List.filter_eq_nil_iff.2 fun s hs => by
      obtain ⟨i, hi, rfl⟩ := List.mem_mapIdx.1 hs
      simp [hR _ (List.getElem_mem hi)]
  rw [slots_leaf, mapIdx_mk_append, List.filter_append, List.mapIdx_cons, List.filter_cons_of_pos (by exact hx), hnil, Nat.zero_add,
    List.getLast?_concat]

end MTree
