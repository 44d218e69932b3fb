/-
Traversal of a stored tree. Within a leaf the position moves by one entry; from the end of a leaf the way
down from the root leads to the leaf behind it, which the entry at the end tells apart from all others.
-/
import Db3w.Ndx.Cursor
import Db3w.Ndx.Seek

namespace Db3w

open Falling

section Leaves

variable {st : Ndx} {t k : Tree} {p : Pageno} {es : List Ent} {L M : List (Pageno × List Ent)} {x : Ent} {c : Ent → Int}

/-- The entries of the leaves in front of `x` compare as below the target, those behind as above it. -/
structure Parts (c : Ent → Int) (L : List (Pageno × List Ent)) (es : List Ent) (x : Ent) (M : List (Pageno × List Ent)) : Prop where
  last : es.getLast? = some x
  before : ∀ e ∈ L.flatMap (·.2), 0 < c e
  within : ∀ e ∈ es.dropLast, 0 < c e
  target : c x = 0
  behind : ∀ e ∈ M.flatMap (·.2), c e < 0

theorem leaf_ne_nil (h : t.Shape SameKey) (hm : (p, es) ∈ t.leaves) : es ≠ [] := by
  induction t using MTree.ind with
  | leaf q fs =>
    rw [MTree.leaves_leaf, List.mem_singleton] at hm
    cases hm
    cases h with
    | leaf he => exact he
  | node q ss ks ih =>
    cases h with
    | node hsep hk =>
      rw [MTree.leaves_node] at hm
      obtain ⟨k, hk', hm⟩ := List.mem_flatMap.mp hm
      exact ih k hk' (hk k hk') hm

/-- The last entry of the subtree with the target in it. -/
theorem Parts.last_kid (h : Parts c L es x M) {L' M' N : List (Pageno × List Ent)} (hk : k.leaves = L' ++ (p, es) :: M') (hM : M = M' ++ N)
    (hsh : k.Shape SameKey) : ∃ y, k.last? = some y ∧ c y ≤ 0 ∧ (c y = 0 ↔ M' = []) := by
  rcases List.eq_nil_or_concat M' with rfl | ⟨M'', q, rfl⟩
  · have hlast : k.last? = some x := by
      unfold MTree.last? MTree.entries
      rw [hk, List.flatMap_append, List.flatMap_cons, List.flatMap_nil, List.append_nil, List.getLast?_append_of_ne_nil _ (by
        rintro hn
        rw [show es = [] from hn] at h
        exact absurd h.last (by simp))]
      exact h.last
    exact ⟨x, hlast, h.target.le, iff_of_true h.target rfl⟩
  · rw [List.concat_eq_append] at *
    obtain ⟨q, fs⟩ := q
    have hne : fs ≠ [] := leaf_ne_nil (p := q) hsh (by rw [hk]; simp)
    have hlast : k.last? = some (fs.getLast hne) := by
      unfold MTree.last? MTree.entries
      rw [hk, List.flatMap_append, List.flatMap_cons, List.flatMap_append, List.flatMap_singleton, ← List.append_assoc, ← List.append_assoc,
        List.getLast?_append_of_ne_nil _ hne, List.getLast?_eq_some_getLast hne]
    have hneg : c (fs.getLast hne) < 0 := by
      refine h.behind _ ?_
      rw [hM]
      exact List.mem_flatMap.mpr ⟨(q, fs), by simp, List.getLast_mem hne⟩
    exact ⟨_, hlast, hneg.le, iff_of_false hneg.ne (by simp)⟩

/-- The subtree with the target in it is the one that the comparison leads to. -/
theorem Parts.routes (h : Parts c L es x M) {A B : List Tree} {L' M' : List (Pageno × List Ent)} (hk : k.leaves = L' ++ (p, es) :: M')
    (hL : L = A.flatMap MTree.leaves ++ L') (hM : M = M' ++ B.flatMap MTree.leaves) (hsh : ∀ j ∈ A ++ k :: B, j.Shape SameKey) :
    MTree.Routes c A k B := by
  obtain ⟨y, hy, hle, -⟩ := h.last_kid hk hM (hsh k (by simp))
  refine ⟨fun a ha => ?_, fun _ => ⟨y, hy, hle⟩⟩
  obtain ⟨z, hz⟩ := (hsh a (by simp [ha])).last?_isSome
  refine ⟨z, hz, h.before z ?_⟩
  obtain ⟨l, hl, hzl⟩ := List.mem_flatMap.mp (List.mem_of_getLast? hz)
  rw [hL]
  exact List.mem_flatMap.mpr ⟨l, List.mem_append_left _ (List.mem_flatMap.mpr ⟨a, ha, hl⟩), hzl⟩

/-- The same with the leaves of one subtree only. -/
theorem Parts.kid (h : Parts c L es x M) {L' M' A B : List (Pageno × List Ent)} (hL : L = A ++ L') (hM : M = M' ++ B) : Parts c L' es x M' where
  last := h.last
  before e he := h.before e (by rw [hL, List.flatMap_append]; exact List.mem_append_right _ he)
  within := h.within
  target := h.target
  behind e he := h.behind e (by rw [hM, List.flatMap_append]; exact List.mem_append_left _ he)

end Leaves

/-! ## The step to the next leaf -/

section Forward

variable {st : Ndx} {cfg : Cfg} {fuel : Nat} {junk : List Bool → Pageno} {target : NdxEntry} {t : Tree} {p : Pageno} {es : List Ent}
  {L M : List (Pageno × List Ent)} {x : Ent}

end Forward

/-! ## The step that pushes the key -/

/-- The step of `nextndx(dir, 1)` from a position: what it pushes is the key of an entry within the page; at the end
of a page it pushes nothing. -/
def stepPush (cfg : Cfg) (fuel : Nat) (dir : Dir) (junk : List Bool → Pageno) : NdxM (Recno × Option Key) := do
  let st ← get
  let cpg ← getpage st.pageNo
  if st.entryNo = (if dir = .forward then (cpg.entryCnt : Int) - 1 else 0) then
    let target ← getEntry cpg ((cpg.entryCnt : Int) - 1)
    match ← lfind cfg fuel dir junk target with
    | none => return (0, none)
    | some ne => return if outOfOrder (← get).hdr dir ne target then (0, none) else (ne.recno, none)
  else
    let entryNo := st.entryNo + (if dir = .forward then 1 else -1)
    modify fun st => { st with entryNo }
    let ne ← getEntry cpg entryNo
    return (ne.recno, some ne.key)

/-- `nextndx` with `push_key`. -/
def nextndxPush (cfg : Cfg) (fuel : Nat) (dir : Dir) (cur : Option NdxEntry) (junk : List Bool → Pageno) : NdxM (Recno × Option Key) := do
  readHdrIfShared cfg
  let st ← get
  let found ← if st.pageNo ≠ 0 then pure true
    else match cur with
      | none => pure false
      | some target =>
        if (← btsrch cfg fuel st.hdr.rootno .tequal target) = 0 then throw (.ntndx st.seq)
        else pure true
  if !found then return (0, none)
  stepPush cfg fuel dir junk

theorem stepPush_fst (cfg : Cfg) (fuel : Nat) (dir : Dir) (junk : List Bool → Pageno) :
    (do return (← stepPush cfg fuel dir junk).1 : NdxM Recno) = do
      let st ← get
      let cpg ← getpage st.pageNo
      if st.entryNo = (if dir = .forward then (cpg.entryCnt : Int) - 1 else 0) then
        let target ← getEntry cpg ((cpg.entryCnt : Int) - 1)
        match ← lfind cfg fuel dir junk target with
        | none => return 0
        | some ne => return if outOfOrder (← get).hdr dir ne target then 0 else ne.recno
      else
        let entryNo := st.entryNo + (if dir = .forward then 1 else -1)
        modify fun st => { st with entryNo }
        return (← getEntry cpg entryNo).recno := by
  unfold stepPush
  rw [bind_assoc]
  refine bind_congr fun st => ?_
  rw [bind_assoc]
  refine bind_congr fun cpg => ?_
  generalize (if dir = .forward then (cpg.entryCnt : Int) - 1 else 0) = last
  by_cases hlast : st.entryNo = last
  · rw [if_pos hlast, if_pos hlast, bind_assoc]
    refine bind_congr fun target => ?_
    rw [bind_assoc]
    refine bind_congr fun o => ?_
    rcases o with _ | ne
    · exact pure_bind _ _
    · rw [bind_assoc]
      refine bind_congr fun st' => ?_
      rw [pure_bind]
      split <;> rfl
  · rw [if_neg hlast, if_neg hlast]
    simp only [bind_assoc, pure_bind]

/-- Apart from the key it is `nextndx`. -/
theorem nextndx_eq (cfg : Cfg) (fuel : Nat) (dir : Dir) (cur : Option NdxEntry) (junk : List Bool → Pageno) :
    nextndx cfg fuel dir cur junk = do return (← nextndxPush cfg fuel dir cur junk).1 := by
  unfold nextndx nextndxPush
  rw [bind_assoc]
  refine bind_congr fun _ => ?_
  rw [bind_assoc]
  refine bind_congr fun st => ?_
  dsimp only
  by_cases hpage : st.pageNo ≠ 0
  · rw [if_pos hpage, if_pos hpage]
    exact (stepPush_fst cfg fuel dir junk).symm
  · rw [if_neg hpage, if_neg hpage]
    rcases cur with _ | target
    · rfl
    · dsimp only
      rw [bind_assoc]
      refine bind_congr fun n => ?_
      by_cases hn : n = 0
      · rw [if_pos hn, if_pos hn]
        rfl
      · rw [if_neg hn, if_neg hn]
        exact (stepPush_fst cfg fuel dir junk).symm

/-! ## Character indexes -/

/-- A character index with entries, whose header on disk is the one in memory. -/
structure TextIndex (st : Ndx) (t : Tree) : Prop where
  search : SearchIndex st (some t)
  shape : t.Shape SameKey
  text : ∀ e ∈ t.entries, 0 ∉ e.key.tail
  sync : st.hdrPage = st.hdr

section Char

variable {st : Ndx} {cfg : Cfg} {fuel : Nat} {junk : List Bool → Pageno} {cur : Option NdxEntry} {t : Tree} {p : Pageno} {es : List Ent}
  {L M : List (Pageno × List Ent)} {i : Nat}

theorem TextIndex.root (h : TextIndex st t) : st.hdr.rootno = t.page := by
  cases h.search.index with
  | some hroot _ => exact hroot

theorem TextIndex.stored (h : TextIndex st t) : Stored st t := by
  cases h.search.index with
  | some _ hst => exact hst

/-- Moving the position changes nothing of the index. -/
theorem TextIndex.moved (h : TextIndex st t) (q : Pageno) (n : Int) : TextIndex { st with pageNo := q, entryNo := n } t where
  search :=
    { index := .some h.root (h.stored.congr le_rfl fun _ _ => rfl)
      keytyp := h.search.keytyp
      sorted := h.search.sorted
      keylen := h.search.keylen
      recno := h.search.recno
      shape := h.search.shape }
  shape := h.shape
  text := h.text
  sync := h.sync

/-- Whatever is looked for, the entries are in its order. -/
theorem TextIndex.falling (h : TextIndex st t) {exactOn : Bool} {key : Key} (hl : key.length = st.hdr.keylen) :
    Falling (srchCmp st.hdr exactOn ⟨0, 0, key⟩) t.entries := by
  have hc : srchCmp st.hdr exactOn ⟨0, 0, key⟩ = keyCmp st.hdr exactOn ⟨0, 0, key⟩ := by
    funext x
    rw [srchCmp, if_pos rfl]
  rw [hc]
  by_cases h0 : 0 ∈ key.tail
  · -- a NUL cuts the key
    obtain ⟨a, k, rfl⟩ : ∃ a k, key = a :: k := by
      cases key with
      | nil => cases h0
      | cons a k => exact ⟨a, k, rfl⟩
    obtain ⟨u, rest, hk, hu⟩ := List.eq_append_cons_of_mem h0
    exact @falling_cut _ _ _ _ (a :: u) rest h.search.keytyp hl (congrArg (a :: ·) hk) (List.cons_ne_nil _ _) hu h.search.keylen h.search.sorted
  · exact falling_keyCmp h.search.keytyp hl h0 h.search.keylen h.search.sorted

/-- At the end of a leaf the target is the last entry of it. -/
theorem TextIndex.parts (h : TextIndex st t) (hl : t.leaves = L ++ (p, es) :: M) {x : Ent} (hx : es.getLast? = some x) (n : Pageno) :
    Parts (entCmp st.hdr cfg.exactOn ⟨n, x.recno, x.key⟩) L es x M := by
  obtain ⟨ds, rfl⟩ := List.getLast?_eq_some_iff.mp hx
  have hent : t.entries = L.flatMap (·.2) ++ (ds ++ x :: M.flatMap (·.2)) := by
    unfold MTree.entries
    rw [hl, List.flatMap_append, List.flatMap_cons]
    simp
  have hxm : x ∈ t.entries := by
    rw [hent]
    simp
  have hsort : t.entries.Pairwise fun a b => a.rank < b.rank := h.search.sorted
  have hcmp : ∀ e ∈ t.entries, entCmp st.hdr cfg.exactOn ⟨n, x.recno, x.key⟩ e = cmpOrd x.rank e.rank := fun e he =>
    entCmp_char h.search.keytyp (h.search.keylen x hxm) (h.text x hxm) (h.search.keylen e he)
  rw [hent] at hsort
  obtain ⟨-, hrest, hL⟩ := List.pairwise_append.mp hsort
  obtain ⟨-, hM, hds⟩ := List.pairwise_append.mp hrest
  refine ⟨hx, fun e he => ?_, fun e he => ?_, ?_, fun e he => ?_⟩
  · rw [hcmp e (by rw [hent]; exact List.mem_append_left _ he), cmpOrd_pos]
    exact hL e he x (by simp)
  · rw [List.dropLast_concat] at he
    rw [hcmp e (by rw [hent]; simp [he]), cmpOrd_pos]
    exact hds e he x (by simp)
  · rw [hcmp x hxm, cmpOrd_self]
  · rw [hcmp e (by rw [hent]; simp only [List.mem_append, List.mem_cons]; tauto), cmpOrd_neg]
    exact (List.pairwise_cons.mp hM).1 e he

end Char

/-! ## By the place of an entry -/

section Place

variable {st : Ndx} {cfg : Cfg} {fuel : Nat} {junk : List Bool → Pageno} {cur : Option NdxEntry} {t : Tree} {s : Slot Pageno Ent} {n : Nat}

end Place

end Db3w
