/-
Deletion from a stored tree. Where the entry to delete is the last one below a separator, `del`
takes it out of the subtree and gives the separator the key of the entry before it; elsewhere
`btsrdel` goes down to its leaf. Either leaves the tree in one of three ways: nothing is left of
it, it keeps its root page, or an orphan is left, the only subtree of a root page that has lost
its last separator.

The proof follows the tree: what is left of a subtree decides what its page does, and a page that
loses a subtree loses the separator beside it.
-/
import Db3w.Ndx.CharKey
import Db3w.Ndx.Insert

namespace Db3w

/-! ## Changes to the file -/

/-- The two states differ in the pages `ps` of the file at most. -/
structure Written (ps : List Pageno) (st st' : Ndx) : Prop where
  eq : st' = { st with file := st'.file }
  file : ∀ q, q ∉ ps → st'.file q = st.file q

section Frame

variable {st st' st2 : Ndx} {t : Tree} {ps qs : List Pageno} {p : Pageno}

theorem Written.refl (st : Ndx) : Written [] st st := ⟨rfl, fun _ _ => rfl⟩

theorem Written.page (st : Ndx) (p : Pageno) (pg : NdxPage) :
    Written [p] st { st with file := Function.update st.file p pg } :=
  ⟨rfl, fun _ hq => Function.update_of_ne (List.ne_of_not_mem_cons hq) _ _⟩

theorem Written.trans (h1 : Written ps st st') (h2 : Written qs st' st2) : Written (ps ++ qs) st st2 where
  eq := by rw [h2.eq, h1.eq]
  file q hq := by
    rw [List.mem_append, not_or] at hq
    rw [h2.file q hq.2, h1.file q hq.1]

theorem Written.mono (h : Written ps st st') (hs : ∀ q ∈ ps, q ∈ qs) : Written qs st st' :=
  ⟨h.eq, fun q hq => h.file q fun hm => hq (hs q hm)⟩

theorem Written.hdr (h : Written ps st st') : st'.hdr = st.hdr := by rw [h.eq]

theorem Stored.written (h : Stored st t) (hw : Written ps st st') (hd : ∀ q ∈ t.pages, q ∉ ps) : Stored st' t :=
  h.congr (by rw [hw.hdr]) fun q hq => hw.file q (hd q hq)

end Frame

/-! ## Trees with one entry less -/

/-- The trees `new` hold the entries `L` and `M` of the trees `old` but not the entry `x` between
them; only the pages `ps` were written. -/
structure Shrunk (ps : List Pageno) (st st' : Ndx) (L : List Ent) (x : Ent) (M : List Ent) (old new : List Tree) : Prop where
  stored : ∀ k ∈ new, Stored st' k
  shape : ∀ k ∈ new, k.Shape SameKey
  populated : ∀ k ∈ new, k.Sized (0 < ·)
  capped : ∀ cap, (∀ k ∈ old, k.Sized (· ≤ cap)) → ∀ k ∈ new, k.Sized (· ≤ cap)
  before : old.flatMap MTree.entries = L ++ x :: M
  after : new.flatMap MTree.entries = L ++ M
  nodup : (new.flatMap MTree.pages).Nodup
  pages : ∀ q ∈ new.flatMap MTree.pages, q ∈ old.flatMap MTree.pages
  written : Written ps st st'

section Shrunk

variable {st st' st2 : Ndx} {ps qs rs : List Pageno} {p : Pageno} {ss ss' : List Ent} {ks ks' ts A B : List Tree} {k k' : Tree}
  {L M : List Ent} {x : Ent}

/-- A tree of which nothing is left. -/
theorem Shrunk.gone (hk : k.entries = [x]) (hw : Written ps st st') : Shrunk ps st st' [] x [] [k] [] :=
  ⟨by simp, by simp, by simp, by simp, by simpa using hk, by simp, by simp, by simp, hw⟩

/-- The subtrees beside the one that lost the entry are as they were. -/
theorem Shrunk.kids (h : Shrunk ps st st' L x M [k] ts) (hst : ∀ j ∈ A ++ k :: B, Stored st j) (hsh : ∀ j ∈ A ++ k :: B, j.Shape SameKey)
    (hpop : ∀ j ∈ A ++ k :: B, j.Sized (0 < ·)) (hnd : ((A ++ k :: B).flatMap MTree.pages).Nodup)
    (hd : ∀ j ∈ A ++ B, ∀ q ∈ j.pages, q ∉ ps) :
    Shrunk ps st st' (A.flatMap MTree.entries ++ L) x (M ++ B.flatMap MTree.entries) (A ++ k :: B) (A ++ ts ++ B) := by
  have hmem : ∀ {Q : Tree → Prop}, (∀ j ∈ ts, Q j) → (∀ j ∈ A ++ k :: B, Q j) → ∀ j ∈ A ++ ts ++ B, Q j := by
    intro Q h1 h2 j hj
    simp only [List.mem_append, List.mem_cons] at hj h2
    rcases hj with (hj | hj) | hj
    · exact h2 j (Or.inl hj)
    · exact h1 j hj
    · exact h2 j (Or.inr (Or.inr hj))
  have hb := h.before
  have hpg := h.pages
  simp only [List.flatMap_singleton] at hb hpg
  refine ⟨fun j hj => ?_, hmem h.shape hsh, hmem h.populated hpop, fun cap hc => hmem (h.capped cap ?_) hc, ?_, ?_, ?_, ?_, h.written⟩
  · simp only [List.mem_append] at hj
    rcases hj with (hj | hj) | hj
    · exact (hst j (by simp [hj])).written h.written (hd j (by simp [hj]))
    · exact h.stored j hj
    · exact (hst j (by simp [hj])).written h.written (hd j (by simp [hj]))
  · intro j hj
    rw [List.mem_singleton.1 hj]
    exact hc k (by simp)
  · rw [List.flatMap_append, List.flatMap_cons, hb]; simp
  · rw [List.flatMap_append, List.flatMap_append, h.after]; simp
  · rw [List.flatMap_append, List.flatMap_append, List.append_assoc]
    rw [List.flatMap_append, List.flatMap_cons] at hnd
    exact nodup_replace hnd h.nodup fun q hq => Or.inl (hpg q hq)
  · intro q hq
    simp only [List.flatMap_append, List.flatMap_cons, List.mem_append] at hq ⊢
    rcases hq with (hq | hq) | hq
    · exact Or.inl hq
    · exact Or.inr (Or.inl (hpg q hq))
    · exact Or.inr (Or.inr hq)

/-- Pages that are not among those of the trees were written. -/
theorem Shrunk.write (h : Shrunk ps st st' L x M ks ks') (hw : Written qs st' st2) (hq : ∀ q ∈ qs, q ∉ ks.flatMap MTree.pages) :
    Shrunk (ps ++ qs) st st2 L x M ks ks' :=
  ⟨fun k hk => (h.stored k hk).written hw fun q hqk hqs => hq q hqs (h.pages q (List.mem_flatMap.2 ⟨k, hk, hqk⟩)), h.shape, h.populated,
    h.capped, h.before, h.after, h.nodup, h.pages, h.written.trans hw⟩

/-- The only subtree left of an internal page. -/
theorem Shrunk.orphan (h : Shrunk ps st st' L x M ks [k']) (hs : ∀ q ∈ ps, q ∈ rs) : Shrunk rs st st' L x M [.node p ss ks] [k'] where
  stored := h.stored
  shape := h.shape
  populated := h.populated
  capped cap hc := h.capped cap (MTree.sized_node.1 (hc _ (List.mem_singleton_self _))).2
  before := by simpa using h.before
  after := h.after
  nodup := h.nodup
  pages q hq := by
    rw [List.flatMap_singleton, MTree.pages_node]
    exact List.mem_cons_of_mem _ (h.pages q hq)
  written := h.written.mono hs

/-- An internal page with what is left of its subtrees. -/
theorem Shrunk.node (h : Shrunk ps st st' L x M ks ks') (h0 : p ≠ 0) (hlt : p < st.hdr.pagecnt) (hp : p ∉ ks.flatMap MTree.pages)
    (hes : (st'.file p).ents = ss') (hps : (st'.file p).pnos = ks'.map MTree.page) (hsep : MTree.Sepd SameKey ss' ks')
    (hpos : 0 < ss'.length) (hle : ss'.length ≤ ss.length) (hs : ∀ q ∈ ps, q ∈ rs) :
    Shrunk rs st st' L x M [.node p ss ks] [.node p ss' ks'] := by
  refine ⟨?_, ?_, ?_, ?_, by simpa using h.before, by simpa using h.after, ?_, ?_, h.written.mono hs⟩ <;>
    simp only [List.mem_singleton, forall_eq, List.flatMap_singleton, MTree.pages_node]
  · exact .node h0 (by rw [h.written.hdr]; exact hlt) hes hps h.stored
  · exact .node hsep h.shape
  · exact .node hpos h.populated
  · intro cap hc
    obtain ⟨h1, h2⟩ := MTree.sized_node.1 hc
    exact .node (hle.trans h1) (h.capped cap h2)
  · exact List.nodup_cons.2 ⟨fun hm => hp (h.pages p hm), h.nodup⟩
  · intro q hq
    rcases List.mem_cons.1 hq with rfl | hq
    · exact List.mem_cons_self
    · exact List.mem_cons_of_mem _ (h.pages q hq)

/-- The last entry of a tree that has lost an entry before it is as it was. -/
theorem Shrunk.last_eq (h : Shrunk ps st st' L x M [k] [k']) (hM : M ≠ []) : k'.last? = k.last? := by
  have h1 := h.before
  have h2 := h.after
  rw [List.flatMap_singleton] at h1 h2
  rw [MTree.last?, MTree.last?, h1, h2, List.getLast?_append_of_ne_nil _ hM, List.getLast?_append_of_ne_nil _ (by simp),
    List.getLast?_cons_of_ne_nil hM]

end Shrunk

/-! ## The last entry below a separator -/

/-- Page `q'` is page `q` with the key of entry `i` replaced; its record may be anything. -/
structure Rekeyed (q q' : NdxPage) (i : Nat) (key : Key) : Prop where
  cnt : q'.entryCnt = q.entryCnt
  key : (q'.entries i).key = key
  ent : ∀ j, j ≠ i → (q'.entries j).ent = (q.entries j).ent
  pno : ∀ j, (q'.entries j).pno = (q.entries j).pno

/-- How `del` ends below a page that holds the entries `L` and then `x`. -/
inductive DelPost (st : Ndx) (apno : Pageno) (q : NdxPage) (i : Nat) (target : NdxEntry) (s : Tree) (L : List Ent) (x : Ent) :
    EStateM.Result HbErr Ndx (Bool × NdxPage × NdxEntry) → Prop
  | gone {st' : Ndx} (hL : L = []) (hw : Written s.pages st st') : DelPost st apno q i target s L x (.ok (true, q, target) st')
  | kept {st' : Ndx} {q' : NdxPage} {y : Ent} (s' : Tree) (hpage : s'.page = s.page) (hy : L.getLast? = some y)
      (hq : Rekeyed q q' i y.key) (hfile : st'.file apno = q') (hs : Shrunk (apno :: s.pages) st st' L x [] [s] [s']) :
      DelPost st apno q i target s L x (.ok (false, q', target) st')
  | orphan {st' : Ndx} {q' : NdxPage} {y : Ent} (s' : Tree) (hy : L.getLast? = some y) (hq : Rekeyed q q' i y.key)
      (hfile : st'.file apno = q') (hs : Shrunk (apno :: s.pages) st st' L x [] [s] [s']) :
      DelPost st apno q i target s L x (.ok (true, q', { target with pno := s'.page }) st')

section Del

variable {st st' : Ndx} {fuel i : Nat} {target : NdxEntry} {p apno : Pageno} {pg q : NdxPage} {es L ss : List Ent} {x y : Ent} {s k : Tree}
  {A : List Tree}

variable (pg) in
/-- Page `p` without its last entry. -/
theorem NdxPage.init_lists (hpos : 0 < pg.entryCnt) :
    ({ pg with entryCnt := pg.entryCnt - 1 } : NdxPage).ents = pg.ents.dropLast ∧
      ({ pg with entryCnt := pg.entryCnt - 1 } : NdxPage).pnos = pg.pnos.dropLast := by
  constructor
  · refine NdxPage.ents_eq (by simp) fun j hj => ?_
    have hj' : j < pg.entryCnt - 1 := hj
    rw [List.getElem?_dropLast, NdxPage.length_ents, if_pos hj', NdxPage.ents_get (by omega)]
  · refine NdxPage.pnos_eq (by simp; omega) fun j hj => ?_
    have hj' : j ≤ pg.entryCnt - 1 := hj
    rw [List.getElem?_dropLast, NdxPage.length_pnos, if_pos (by omega), NdxPage.pnos_get (by omega)]

theorem nePutRecno_ok (st : Ndx) (p : NdxPage) {i : Int} {n : Nat} (hi : i = n) (h : n ≤ p.entryCnt) (recno : Recno) :
    nePutRecno p i recno st = .ok (p.set n { p.entries n with recno }) st := by
  subst hi
  rw [nePutRecno, NdxM.bind_ok (getEntry_ok (n := n) rfl h), NdxM.pure_apply, Int.toNat_natCast]

/-- Moving the entry before the page pointer of `q` after entry `i` was taken from `q` itself. -/
theorem Rekeyed.move {a : Nat} (h : (pg.entries (a + 1)).pno = (q.entries (i + 1)).pno) : Rekeyed q (q.move pg a i) i (pg.entries a).key where
  cnt := rfl
  key := congrArg Ent.key ((NdxPage.move_ent i).trans (if_pos rfl))
  ent j hj := (NdxPage.move_ent j).trans (if_neg hj)
  pno j := by
    rw [NdxPage.move_pno]
    split
    · subst j; exact h
    · rfl

variable (pg) in
/-- Entry `i` of a page takes the key of entry `a` of a leaf. -/
theorem rekey_leaf (st : Ndx) {a : Nat} {j : Int} (hj : j = a) (ha : a + 1 ≤ pg.entryCnt) (hi : i + 1 ≤ q.entryCnt) :
    ∃ q', Rekeyed q q' i (pg.entries a).key ∧ ∀ f : NdxPage → NdxM (Bool × NdxPage × NdxEntry), (do
      let q1 ← moveEntry pg j q i
      let q2 ← nePutRecno q1 i 0
      let q3 ← nePutPageno q2 ((i : Int) + 1) (q.entries (i + 1)).pno
      f q3) st = f q' st := by
  subst hj
  refine ⟨((q.move pg a i).set i { (q.move pg a i).entries i with recno := 0 }).set (i + 1)
    { ((q.move pg a i).set i { (q.move pg a i).entries i with recno := 0 }).entries (i + 1) with pno := (q.entries (i + 1)).pno },
    ⟨rfl, ?_, fun j hj => ?_, fun j => ?_⟩, fun f => ?_⟩
  · simp only [NdxPage.set_entries, if_pos, if_neg (Nat.succ_ne_self i).symm]
    exact congrArg Ent.key ((NdxPage.move_ent i).trans (if_pos rfl))
  · simp only [NdxPage.set_entries, if_neg hj]
    split
    · subst j
      rw [if_neg (Nat.succ_ne_self i)]
      exact (NdxPage.move_ent (i + 1)).trans (if_neg hj)
    · exact (NdxPage.move_ent j).trans (if_neg hj)
  · simp only [NdxPage.set_entries]
    split
    · subst j; rfl
    · rename_i hj
      split
      · subst j
        exact (NdxPage.move_pno i).trans (if_neg hj)
      · exact (NdxPage.move_pno j).trans (if_neg hj)
  · rw [NdxM.bind_ok (moveEntry_ok rfl rfl ha hi), NdxM.bind_ok (nePutRecno_ok _ _ (n := i) rfl (by rw [NdxPage.move_entryCnt]; omega) 0),
      NdxM.bind_ok (nePutPageno_ok _ _ (n := i + 1) (by omega) (by simpa using hi) _)]

/-- `del` at a leaf. -/
theorem del_leaf (hst : Stored st (.leaf p (L ++ [x]))) (ha : apno ≠ p) (hi : i + 1 ≤ q.entryCnt) :
    DelPost st apno q i target (.leaf p (L ++ [x])) L x (del (fuel + 2) p apno q i target st) := by
  cases hst with
  | leaf h0 hlt hes hps =>
    have hcnt : (st.file p).entryCnt = L.length + 1 := by rw [← NdxPage.length_ents, hes]; simp
    obtain ⟨hes', hps'⟩ := NdxPage.init_lists (st.file p) (by omega)
    have hdown : del (fuel + 1) 0 apno q i target st = .ok (true, q, target) st := rfl
    rw [del, if_neg h0, NdxM.bind_ok (getpage_ok hlt), NdxM.bind_ok (neGetPageno_ok (n := (st.file p).entryCnt) rfl le_rfl),
      NdxPage.pno_zero hps le_rfl, NdxM.bind_ok hdown]
    dsimp only
    rw [if_neg (by simp), if_neg (by omega), if_pos rfl, NdxM.bind_ok (writePage_ok p _)]
    rcases List.eq_nil_or_concat L with rfl | ⟨L', y, rfl⟩
    · rw [if_pos (by simp [hcnt])]
      exact .gone rfl (by simpa using Written.page st p _)
    · simp only [List.concat_eq_append, List.length_append, List.length_singleton] at hcnt hes hes'
      have hle : L'.length + 1 ≤ (st.file p).entryCnt - 1 := by omega
      have hy : ((st.file p).entries L'.length).ent = y := (ent_at (R := [x]) (by rw [hes]; simp)).2
      obtain ⟨q', hq, hrun⟩ := rekey_leaf { st.file p with entryCnt := (st.file p).entryCnt - 1 } { st with file := Function.update st.file p { st.file p with entryCnt := (st.file p).entryCnt - 1 } }
        (a := L'.length) (j := (((st.file p).entryCnt - 1 : Nat) : Int) - 1)
        (by omega) hle hi
      rw [if_neg (by omega), NdxM.bind_ok (neGetPageno_ok (n := i + 1) (by omega) hi), hrun, NdxM.bind_ok (writePage_ok apno _)]
      refine .kept (y := y) (.leaf p (L' ++ [y])) rfl (by simp) (hy ▸ hq) (Function.update_self _ _ _)
        ⟨?_, by simp, by simp, ?_, by simp, by simp, by simp, by simp, ((Written.page st p _).trans (Written.page _ apno _)).mono (by simp)⟩
      · simp only [List.mem_singleton, forall_eq]
        have hfile : Function.update (Function.update st.file p { st.file p with entryCnt := (st.file p).entryCnt - 1 }) apno q' p =
            { st.file p with entryCnt := (st.file p).entryCnt - 1 } := by
          rw [Function.update_of_ne ha.symm, Function.update_self]
        refine .leaf h0 hlt ((congrArg NdxPage.ents hfile).trans ?_) ((congrArg NdxPage.pnos hfile).trans ?_)
        · rw [hes', hes, List.dropLast_concat]
        · rw [hps', hps, List.dropLast_replicate]
          simp
      · simp only [List.mem_singleton, forall_eq, MTree.sized_leaf]
        intro cap hc
        simp only [List.concat_eq_append, List.length_append, List.length_singleton] at hc ⊢
        omega

end Del

/-- An internal page of a stored tree without empty pages. -/
structure Inner (st : Ndx) (p : Pageno) (ss : List Ent) (ks : List Tree) : Prop where
  page_ne : p ≠ 0
  page_lt : p < st.hdr.pagecnt
  ents : (st.file p).ents = ss
  pnos : (st.file p).pnos = ks.map MTree.page
  kids : ∀ k ∈ ks, Stored st k
  sepd : MTree.Sepd SameKey ss ks
  shape : ∀ k ∈ ks, k.Shape SameKey
  pos : 0 < ss.length
  populated : ∀ k ∈ ks, k.Sized (0 < ·)
  fresh : p ∉ ks.flatMap MTree.pages
  nodup : (ks.flatMap MTree.pages).Nodup

section Inner

variable {st st' st2 : Ndx} {fuel i : Nat} {target : NdxEntry} {p apno : Pageno} {pg q q' : NdxPage} {L M K ss : List Ent} {x y : Ent} {s k k' : Tree}
  {ks ts A B : List Tree} {ps rs : List Pageno}

theorem Inner.of (hst : Stored st (.node p ss ks)) (hsh : (MTree.node p ss ks).Shape SameKey) (hpop : (MTree.node p ss ks).Sized (0 < ·))
    (hnd : (MTree.node p ss ks).pages.Nodup) : Inner st p ss ks := by
  rw [MTree.pages_node] at hnd
  obtain ⟨hfresh, hnd⟩ := List.nodup_cons.1 hnd
  cases hst with
  | node h0 hlt hes hps hkst =>
  cases hsh with
  | node hsep hksh =>
  cases hpop with
  | node hpos hkpop => exact ⟨h0, hlt, hes, hps, hkst, hsep, hksh, hpos, hkpop, hfresh, hnd⟩

namespace Inner

theorem cnt (h : Inner st p ss (A ++ k :: B)) : (st.file p).entryCnt = A.length + B.length := by
  rw [← NdxPage.length_ents, h.ents, h.sepd.length_kid]

theorem kid (h : Inner st p ss (A ++ k :: B)) : Stored st k ∧ k.Shape SameKey ∧ k.Sized (0 < ·) ∧ k.pages.Nodup := by
  have hk : k ∈ A ++ k :: B := by simp
  refine ⟨h.kids k hk, h.shape k hk, h.populated k hk, ?_⟩
  have hnd := h.nodup
  rw [List.flatMap_append, List.flatMap_cons] at hnd
  exact (List.nodup_append.1 (List.nodup_append.1 hnd).2.1).1

theorem kid_pages (_ : Inner st p ss (A ++ k :: B)) {r : Pageno} (hr : r ∈ k.pages) : r ∈ (A ++ k :: B).flatMap MTree.pages :=
  List.mem_flatMap.2 ⟨k, by simp, hr⟩

/-- The subtrees of the page after the entry was taken out of one. -/
theorem shrunk (h : Inner st p ss (A ++ k :: B)) (hs : Shrunk ps st st' L x M [k] ts)
    (hps : ∀ r ∈ ps, r ∈ k.pages ∨ r ∉ (A ++ k :: B).flatMap MTree.pages) :
    Shrunk ps st st' (A.flatMap MTree.entries ++ L) x (M ++ B.flatMap MTree.entries) (A ++ k :: B) (A ++ ts ++ B) := by
  refine hs.kids h.kids h.shape h.populated h.nodup fun j hj r hr hrp => ?_
  have hnd := h.nodup
  simp only [List.flatMap_append, List.flatMap_cons, List.nodup_append, List.mem_append] at hnd hps
  rcases hps r hrp with hk | hn
  · rcases List.mem_append.1 hj with hj | hj
    · exact hnd.2.2 r (List.mem_flatMap.2 ⟨j, hj, hr⟩) r (Or.inl hk) rfl
    · exact hnd.2.1.2.2 r hk r (List.mem_flatMap.2 ⟨j, hj, hr⟩) rfl
  · refine hn ?_
    rcases List.mem_append.1 hj with hj | hj
    · exact Or.inl (List.mem_flatMap.2 ⟨j, hj, hr⟩)
    · exact Or.inr (Or.inr (List.mem_flatMap.2 ⟨j, hj, hr⟩))

end Inner

/-! ## `del` at an internal page -/

theorem getLast?_before (hy : K.getLast? = some y) (L : List Ent) : (L ++ K).getLast? = some y := by
  rw [List.getLast?_append, hy]; rfl

/-- The subtree kept its root page. -/
theorem Inner.del_kept (h : Inner st p ss (A ++ [k])) (ha : apno ∉ p :: (A ++ [k]).flatMap MTree.pages) (hpage : k'.page = k.page)
    (hy : K.getLast? = some y) (hq : Rekeyed q q' i y.key) (hfile : st'.file apno = q')
    (hs : Shrunk (apno :: k.pages) st st' K x [] [k] [k']) :
    DelPost st apno q i target (.node p ss (A ++ [k])) (A.flatMap MTree.entries ++ K) x (.ok (false, q', target) st') := by
  rw [List.mem_cons, not_or] at ha
  have hkids := h.shrunk hs fun r hr => (List.mem_cons.1 hr).elim (fun he => Or.inr (he ▸ ha.2)) Or.inl
  have hp : st'.file p = st.file p := hs.written.file p fun hm => by
    rcases List.mem_cons.1 hm with rfl | hm
    · exact ha.1 rfl
    · exact h.fresh (h.kid_pages hm)
  rw [List.append_nil, List.flatMap_nil, List.append_nil] at hkids
  refine .kept (.node p ss (A ++ [k'])) rfl (getLast?_before hy _) hq hfile
    (hkids.node h.page_ne h.page_lt h.fresh (by rw [hp, h.ents]) (by rw [hp, h.pnos]; simp [hpage])
      (h.sepd.replace k' (by simp)) h.pos le_rfl fun r hr => ?_)
  rw [MTree.pages_node]
  rcases List.mem_cons.1 hr with rfl | hr
  · exact List.mem_cons_self
  · exact List.mem_cons_of_mem _ (List.mem_cons_of_mem _ (h.kid_pages hr))

/-- The subtree left an orphan. -/
theorem Inner.del_orphan (h : Inner st p ss (A ++ [k])) (ha : apno ∉ p :: (A ++ [k]).flatMap MTree.pages)
    (hy : K.getLast? = some y) (hq : Rekeyed q q' i y.key) (hfile : st'.file apno = q')
    (hs : Shrunk (apno :: k.pages) st st' K x [] [k] [k']) :
    DelPost st apno q i target (.node p ss (A ++ [k])) (A.flatMap MTree.entries ++ K) x ((do
      let pg ← nePutPageno (st.file p) (st.file p).entryCnt k'.page
      writePage p pg
      return (false, q', target)) st') := by
  rw [List.mem_cons, not_or] at ha
  have hkids := h.shrunk hs fun r hr => (List.mem_cons.1 hr).elim (fun he => Or.inr (he ▸ ha.2)) Or.inl
  have hcnt := h.cnt
  rw [List.length_nil, Nat.add_zero] at hcnt
  obtain ⟨hes, hps⟩ := NdxPage.put_pno (p := st.file p) le_rfl k'.page
  rw [NdxM.bind_ok (nePutPageno_ok st' (st.file p) rfl le_rfl k'.page), NdxM.bind_ok (writePage_ok p _), NdxM.pure_apply]
  rw [List.append_nil, List.flatMap_nil, List.append_nil] at hkids
  have hw := hkids.write (Written.page st' p ((st.file p).set (st.file p).entryCnt
    { (st.file p).entries (st.file p).entryCnt with pno := k'.page })) (by simpa using h.fresh)
  refine .kept (.node p ss (A ++ [k'])) rfl (getLast?_before hy _) hq ?_
    (hw.node h.page_ne h.page_lt h.fresh ?_ ?_ (h.sepd.replace k' (by simp)) h.pos le_rfl fun r hr => ?_)
  · exact (Function.update_of_ne ha.1 _ _).trans hfile
  · exact (congrArg NdxPage.ents (Function.update_self _ _ _)).trans (hes.trans h.ents)
  · refine (congrArg NdxPage.pnos (Function.update_self _ _ _)).trans (hps.trans ?_)
    rw [h.pnos, hcnt]
    simp
  · rw [MTree.pages_node]
    simp only [List.mem_append, List.mem_cons, List.not_mem_nil, or_false] at hr ⊢
    rcases hr with (rfl | hr) | rfl
    · exact Or.inl rfl
    · exact Or.inr (Or.inr (by simpa using h.kid_pages hr))
    · exact Or.inr (Or.inl rfl)

/-- Nothing was left of the subtree: the last entry of the page moves up. -/
theorem Inner.del_gone (h : Inner st p ss (A ++ [k])) (ha : apno ∉ p :: (A ++ [k]).flatMap MTree.pages) (hi : i + 1 ≤ q.entryCnt)
    (hk : k.entries = [x]) (hw : Written k.pages st st') :
    DelPost st apno q i target (.node p ss (A ++ [k])) (A.flatMap MTree.entries) x ((do
      let pn ← neGetPageno q (i + 1)
      let pg ← nePutPageno (st.file p) (st.file p).entryCnt pn
      let q ← moveEntry pg ((pg.entryCnt : Int) - 1) q i
      writePage apno q
      let pg := { pg with entryCnt := pg.entryCnt - 1 }
      writePage p pg
      if pg.entryCnt = 0 then return (true, q, { target with pno := ← neGetPageno pg 0 })
      else return (false, q, target)) st') := by
  rw [List.mem_cons, not_or] at ha
  have hkids := h.shrunk (Shrunk.gone hk hw) fun r hr => Or.inl hr
  have hcnt := h.cnt
  have hlen := h.sepd.length_kid
  have hpos := h.pos
  rw [List.length_nil, Nat.add_zero] at hcnt hlen
  obtain ⟨A', a, rfl⟩ : ∃ A' a, A = A' ++ [a] := by
    rcases List.eq_nil_or_concat A with rfl | ⟨A', a, rfl⟩
    · rw [List.length_nil] at hlen
      omega
    · exact ⟨A', a, List.concat_eq_append⟩
  have ham : a ∈ A' ++ [a] ++ [k] := by simp
  have hane := (h.shape a ham).entries_ne_nil
  obtain ⟨-, y, hy, hkey⟩ := sep_key (A := A') (k := a) (b := k) (B := []) (by simpa using h.sepd) h.ents
  rw [List.length_append, List.length_singleton] at hcnt hlen
  -- the page with the pointer after entry `i` of the page above at its end
  obtain ⟨hes, hps⟩ := NdxPage.put_pno (p := st.file p) le_rfl (q.entries (i + 1)).pno
  generalize hpg : (st.file p).set (st.file p).entryCnt { (st.file p).entries (st.file p).entryCnt with pno := (q.entries (i + 1)).pno } = pg
    at hes hps
  have hpc : pg.entryCnt = A'.length + 1 := by rw [← hpg]; exact hcnt
  have hpk : (pg.entries A'.length).key = y.key := by
    rw [← hpg, NdxPage.set_entries, if_neg (by omega)]
    exact hkey
  have hpn : (pg.entries (A'.length + 1)).pno = (q.entries (i + 1)).pno := by rw [← hpg, NdxPage.set_entries, if_pos hcnt.symm]
  have hput : nePutPageno (st.file p) (st.file p).entryCnt (q.entries (i + 1)).pno st' = .ok pg st' := by
    rw [← hpg]; exact nePutPageno_ok st' (st.file p) rfl le_rfl _
  obtain ⟨hes', hps'⟩ := NdxPage.init_lists pg (by omega)
  have hq : Rekeyed q (q.move pg A'.length i) i y.key := hpk ▸ Rekeyed.move hpn
  rw [NdxM.bind_ok (neGetPageno_ok (n := i + 1) (by omega) hi), NdxM.bind_ok hput,
    NdxM.bind_ok (moveEntry_ok (a := A'.length) (b := i) (by omega) rfl (by omega) hi), NdxM.bind_ok (writePage_ok apno _),
    NdxM.bind_ok (writePage_ok p _)]
  have hsh := (hkids.write (Written.page st' apno (q.move pg A'.length i)) (by simpa using ha.2)).write
    (Written.page _ p { pg with entryCnt := pg.entryCnt - 1 }) (by simpa using h.fresh)
  rw [List.append_nil, List.append_nil, List.append_nil, List.flatMap_nil] at hsh
  have hrs : ∀ r ∈ k.pages ++ [apno] ++ [p], r ∈ apno :: (MTree.node p ss (A' ++ [a] ++ [k])).pages := by
    intro r hr
    rw [MTree.pages_node]
    simp only [List.mem_append, List.mem_cons, List.not_mem_nil, or_false] at hr ⊢
    rcases hr with (hr | rfl) | rfl
    · exact Or.inr (Or.inr (by simpa using h.kid_pages hr))
    · exact Or.inl rfl
    · exact Or.inr (Or.inl rfl)
  have hlast : ((A' ++ [a]).flatMap MTree.entries).getLast? = some y := (MTree.getLast?_flatMap_entries hane).trans hy
  have hfa : ∀ f : Pageno → NdxPage, Function.update (Function.update f apno (q.move pg A'.length i)) p
      { pg with entryCnt := pg.entryCnt - 1 } apno = q.move pg A'.length i := fun f => by
    rw [Function.update_of_ne ha.1, Function.update_self]
  by_cases hone : pg.entryCnt - 1 = 0
  · -- the page has lost its last separator
    obtain rfl : A' = [] := List.eq_nil_of_length_eq_zero (by omega)
    have hpa : (pg.entries 0).pno = a.page := by
      rw [← hpg, NdxPage.set_entries, if_neg (by omega)]
      exact (NdxPage.pno_kid (A := []) (k := a) (B := [k]) h.pnos).2
    rw [if_pos hone, NdxM.bind_ok (neGetPageno_ok (i := 0) (n := 0) rfl (Nat.zero_le _)), NdxM.pure_apply, hpa]
    exact .orphan a hlast hq (hfa _) (hsh.orphan hrs)
  · rw [if_neg hone, NdxM.pure_apply]
    have hinit := h.sepd.init h.pos
    refine .kept (.node p ss.dropLast (A' ++ [a])) rfl hlast hq (hfa _) (hsh.node h.page_ne ?_ h.fresh ?_ ?_ hinit ?_ ?_ hrs)
    · exact h.page_lt
    · exact (congrArg NdxPage.ents (Function.update_self _ _ _)).trans (by rw [hes', hes, h.ents])
    · refine (congrArg NdxPage.pnos (Function.update_self _ _ _)).trans ?_
      rw [hps', hps, h.pnos, hcnt]
      simp
    · rw [List.length_dropLast]; omega
    · rw [List.length_dropLast]; omega

/-- The last entry below page `s`, whose key is that of entry `i` of page `q`, is removed. -/
theorem del_ok (hst : Stored st s) (hsh : s.Shape SameKey) (hpop : s.Sized (0 < ·)) (hnd : s.pages.Nodup) (ha : apno ∉ s.pages)
    (hi : i + 1 ≤ q.entryCnt) (h0 : target.pno = 0) (hx : s.entries = L ++ [x]) (hfuel : s.height < fuel) :
    DelPost st apno q i target s L x (del fuel s.page apno q i target st) := by
  induction s using MTree.ind generalizing fuel L with
  | leaf p es =>
    rw [MTree.height_leaf] at hfuel
    obtain ⟨fuel, rfl⟩ : ∃ n, fuel = n + 2 := ⟨fuel - 2, by omega⟩
    rw [MTree.entries_leaf] at hx
    subst hx
    exact del_leaf hst (by simpa using ha) hi
  | node p ss ks ih =>
    have hin := Inner.of hst hsh hpop hnd
    obtain ⟨A, k, rfl⟩ : ∃ A k, ks = A ++ [k] :=
      ⟨ks.dropLast, ks.getLast hin.sepd.ne_nil, (List.dropLast_append_getLast hin.sepd.ne_nil).symm⟩
    obtain ⟨hkst, hksh, hkpop, hknd⟩ := hin.kid
    have hkm : k ∈ A ++ [k] := by simp
    have hh := MTree.height_kid p ss hkm
    obtain ⟨fuel, rfl⟩ : ∃ n, fuel = n + 1 := ⟨fuel - 1, by omega⟩
    rw [MTree.pages_node] at ha
    have hcnt := hin.cnt
    rw [List.length_nil, Nat.add_zero] at hcnt
    obtain ⟨K, hK⟩ : ∃ K, k.entries = K ++ [x] := by
      have hl : (MTree.node p ss (A ++ [k])).last? = k.last? := MTree.last?_node_concat hksh.entries_ne_nil
      rw [MTree.last?, hx, List.getLast?_concat] at hl
      obtain ⟨K, hK⟩ := List.getLast?_eq_some_iff.1 hl.symm
      exact ⟨K, hK⟩
    have hL : L = A.flatMap MTree.entries ++ K := by
      rw [MTree.entries_node, List.flatMap_append, List.flatMap_singleton, hK, ← List.append_assoc] at hx
      exact (List.append_cancel_right hx).symm
    subst hL
    have hpost := ih k hkm hkst hksh hkpop hknd (fun hm => ha (List.mem_cons_of_mem _ (hin.kid_pages hm))) hK (show k.height < fuel by omega)
    have hne : (st.file p).entryCnt ≠ 0 := by
      rw [← NdxPage.length_ents, hin.ents]
      exact hin.pos.ne'
    have hpn : ((st.file p).entries (st.file p).entryCnt).pno = k.page := by rw [hcnt]; exact (NdxPage.pno_kid hin.pnos).2
    rw [del, MTree.page, if_neg hin.page_ne, NdxM.bind_ok (getpage_ok hin.page_lt),
      NdxM.bind_ok (neGetPageno_ok (n := (st.file p).entryCnt) rfl le_rfl), hpn, NdxM.bind_apply]
    generalize del fuel k.page apno q i target st = res at hpost
    cases hpost with
    | @gone st' hK' hw =>
      subst hK'
      dsimp only
      rw [if_neg (by simp), if_neg hne, if_neg hkst.page_ne, if_neg (by simp [h0]), List.append_nil]
      exact hin.del_gone ha hi hK hw
    | kept k' hpage hy hq hfile hs =>
      dsimp only
      rw [if_pos (by simp)]
      exact hin.del_kept ha hpage hy hq hfile hs
    | orphan k' hy hq hfile hs =>
      have hk0 := (hs.stored k' (by simp)).page_ne
      dsimp only
      rw [if_neg (by simp), if_neg hne, if_neg hkst.page_ne, if_pos hk0]
      have htarget : { target with pno := 0 } = target := by rw [← h0]
      rw [htarget]
      exact hin.del_orphan ha hy hq hfile hs

end Inner

/-! ## The way to the entry -/

/-- How `btsrdel` ends below a page that holds the entries `L`, then `x`, then `M`. -/
inductive RemPost (st : Ndx) (target : NdxEntry) (t : Tree) (L : List Ent) (x : Ent) (M : List Ent) :
    EStateM.Result HbErr Ndx (Bool × NdxEntry) → Prop
  | gone {st' : Ndx} (ht : t.entries = [x]) (hL : L = []) (hM : M = []) (hw : Written t.pages st st') :
      RemPost st target t L x M (.ok (true, target) st')
  | kept {st' : Ndx} (t' : Tree) (hpage : t'.page = t.page) (hs : Shrunk t.pages st st' L x M [t] [t']) :
      RemPost st target t L x M (.ok (false, target) st')
  | orphan {st' : Ndx} (t' : Tree) (hs : Shrunk t.pages st st' L x M [t] [t']) :
      RemPost st target t L x M (.ok (true, { target with pno := t'.page }) st')

section Remove

variable {st st' : Ndx} {cfg : Cfg} {fuel : Nat} {target : NdxEntry} {p : Pageno} {pg q q' : NdxPage} {L M P R ss ss' es : List Ent} {x : Ent} {t k k' : Tree}
  {A B : List Tree} {ps : List Pageno} {c : Ent → Int} {i : Nat}

theorem Rekeyed.ents {key : Key} (h : Rekeyed q q' i key) (hi : i < q.entryCnt) : ∃ e : Ent, e.key = key ∧ q'.ents = q.ents.set i e := by
  refine ⟨(q'.entries i).ent, h.key, NdxPage.ents_eq (by simp [h.cnt]) fun j hj => ?_⟩
  rw [h.cnt] at hj
  rw [List.getElem?_set, NdxPage.length_ents, if_pos hi]
  split_ifs with hij
  · rw [hij]
  · rw [h.ent j (Ne.symm hij), NdxPage.ents_get hj]

theorem Rekeyed.pnos {key : Key} (h : Rekeyed q q' i key) : q'.pnos = q.pnos := by
  refine NdxPage.pnos_eq (by simp [h.cnt]) fun j hj => ?_
  rw [h.cnt] at hj
  rw [h.pno j, NdxPage.pnos_get hj]

/-- The page takes the orphan in place of the subtree. -/
theorem Inner.mend_orphan (h : Inner st p ss (A ++ k :: B)) (hs : Shrunk ps st st' L x M (A ++ k :: B) (A ++ k' :: B))
    (hps : ∀ r ∈ ps, r ∈ p :: (A ++ k :: B).flatMap MTree.pages) (hes : pg.ents = ss') (hns : pg.pnos = (A ++ k :: B).map MTree.page)
    (hsep : MTree.Sepd SameKey ss' (A ++ k' :: B)) (hlen : ss'.length = ss.length) (h0 : target.pno = 0) :
    RemPost st target (.node p ss (A ++ k :: B)) L x M (mendPage pg p A.length { target with pno := k'.page } st') := by
  have hk0 := (hs.stored k' (by simp)).page_ne
  obtain ⟨hle, -⟩ := NdxPage.pno_kid hns
  obtain ⟨hes', hns'⟩ := NdxPage.put_pno hle k'.page
  have htarget : { target with pno := 0 } = target := by rw [← h0]
  rw [mendPage, if_pos hk0, NdxM.bind_ok (nePutPageno_ok st' pg rfl hle k'.page), NdxM.bind_ok (writePage_ok p _), NdxM.pure_apply]
  have hw := hs.write (Written.page st' p (pg.set A.length { pg.entries A.length with pno := k'.page })) (by simpa using h.fresh)
  simp only [htarget]
  refine .kept (.node p ss' (A ++ k' :: B)) rfl (hw.node h.page_ne h.page_lt h.fresh ?_ ?_ hsep ?_ hlen.le fun r hr => ?_)
  · exact (congrArg NdxPage.ents (Function.update_self _ _ _)).trans (hes'.trans hes)
  · refine (congrArg NdxPage.pnos (Function.update_self _ _ _)).trans (hns'.trans ?_)
    rw [hns]
    simp
  · rw [hlen]; exact h.pos
  · rw [MTree.pages_node]
    rcases List.mem_append.1 hr with hr | hr
    · exact hps r hr
    · rw [List.mem_singleton.1 hr]
      exact List.mem_cons_self

/-- The page loses the subtree. -/
theorem Inner.mend_gone (h : Inner st p ss (A ++ k :: B)) (hs : Shrunk ps st st' L x M (A ++ k :: B) (A ++ [] ++ B))
    (hps : ∀ r ∈ ps, r ∈ p :: (A ++ k :: B).flatMap MTree.pages) (h0 : target.pno = 0) :
    RemPost st target (.node p ss (A ++ k :: B)) L x M (mendPage (st.file p) p A.length target st') := by
  have hcnt := h.cnt
  have hlen := h.sepd.length_kid
  have hpos := h.pos
  rw [List.append_nil] at hs
  obtain ⟨hle, -⟩ := NdxPage.pno_kid h.pnos
  obtain ⟨pg', hrun, hes, hns⟩ := dropSlot_ok st' hle (by omega)
  have hsep := h.sepd.erase h.pos
  rw [h.pnos, List.eraseIdx_map, MTree.eraseIdx_length_append] at hns
  rw [h.ents, show (st.file p).entryCnt = ss.length by omega] at hes
  have hc' : pg'.entryCnt = ss.length - 1 := by
    rw [← NdxPage.length_ents, hes, List.length_eraseIdx_of_lt (by omega)]
  rw [mendPage, if_neg (by simp [h0]), NdxM.bind_ok hrun, NdxM.bind_ok (writePage_ok p _)]
  have hw := hs.write (Written.page st' p pg') (by simpa using h.fresh)
  have hrs : ∀ r ∈ ps ++ [p], r ∈ (MTree.node p ss (A ++ k :: B)).pages := by
    intro r hr
    rw [MTree.pages_node]
    rcases List.mem_append.1 hr with hr | hr
    · exact hps r hr
    · rw [List.mem_singleton.1 hr]
      exact List.mem_cons_self
  by_cases hone : pg'.entryCnt = 0
  · -- the page has lost its last separator
    obtain ⟨a, ha⟩ : ∃ a, A ++ B = [a] := List.length_eq_one_iff.1 (by rw [List.length_append]; omega)
    rw [ha] at hns hw
    rw [if_pos hone, NdxM.bind_ok (neGetPageno_ok (i := 0) (n := 0) rfl (Nat.zero_le _)), NdxM.pure_apply,
      show (pg'.entries 0).pno = a.page from (NdxPage.pno_kid (A := []) (B := []) hns).2]
    exact .orphan a (hw.orphan hrs)
  · rw [if_neg hone, NdxM.pure_apply]
    have hl' : (ss.eraseIdx (min A.length (ss.length - 1))).length = ss.length - 1 := List.length_eraseIdx_of_lt (by omega)
    refine .kept (.node p (ss.eraseIdx (min A.length (ss.length - 1))) (A ++ B)) rfl
      (hw.node h.page_ne h.page_lt h.fresh ?_ ?_ hsep ?_ ?_ hrs)
    · exact (congrArg NdxPage.ents (Function.update_self _ _ _)).trans hes
    · exact (congrArg NdxPage.pnos (Function.update_self _ _ _)).trans hns
    · rw [hl']; omega
    · rw [hl']; omega

/-- The page after the separator beside a subtree was given the key of the entry before its last one. -/
theorem Inner.rekeyed {b : Tree} {y : Ent} (h : Inner st p ss (A ++ k :: b :: B)) (hy : L.getLast? = some y)
    (hq : Rekeyed (st.file p) q' A.length y.key) (hs : Shrunk (p :: k.pages) st st' L x [] [k] [k']) :
    ∃ s : Ent, s.key = y.key ∧ q'.ents = ss.set A.length s ∧ q'.pnos = (A ++ k :: b :: B).map MTree.page ∧
      MTree.Sepd SameKey (ss.set A.length s) (A ++ k' :: b :: B) ∧
      Shrunk (p :: k.pages) st st' (A.flatMap MTree.entries ++ L) x ([] ++ (b :: B).flatMap MTree.entries) (A ++ k :: b :: B)
        (A ++ k' :: b :: B) := by
  have hcnt := h.cnt
  rw [List.length_cons] at hcnt
  obtain ⟨s, hsk, hes⟩ := hq.ents (by omega)
  have hlast : k'.last? = some y := by
    have ha := hs.after
    rw [List.flatMap_singleton, List.append_nil] at ha
    rw [MTree.last?, ha, hy]
  have hkids := h.shrunk hs fun r hr => (List.mem_cons.1 hr).elim (fun he => Or.inr (he ▸ h.fresh)) Or.inl
  rw [List.append_assoc, List.singleton_append] at hkids
  exact ⟨s, hsk, by rw [hes, h.ents], by rw [hq.pnos, h.pnos], h.sepd.rekey k' hlast hsk, hkids⟩

/-- Where the loop over a page found no match, the subtree keeps its last entry. -/
theorem Shrunk.last_of {e : Int} (hs : Shrunk ps st st' L x M [k] [k']) (hstop : StopKid c k B e) (he : e ≠ 0)
    (hx : c x = 0) : B ≠ [] → k'.last? = k.last? := by
  intro hB
  obtain ⟨h1, -⟩ | ⟨-, y, hy, rfl, hle⟩ := hstop
  · exact absurd h1 hB
  · refine hs.last_eq ?_
    rintro rfl
    have hb := hs.before
    rw [List.flatMap_singleton] at hb
    rw [MTree.last?, hb, List.getLast?_concat, Option.some.injEq] at hy
    exact he (hy ▸ hx)

theorem btsrdelCmp_leaf (hes : pg.ents = P ++ x :: R) :
    btsrdelCmp cfg fuel pg target P.length 0 st = .ok (entCmp st.hdr cfg.exactOn target x) st := by
  obtain ⟨hlt, rfl⟩ := ent_at hes
  rw [btsrdelCmp, NdxM.bind_ok (neGetRecno_ok (n := P.length) rfl hlt.le), NdxM.bind_ok (neGetKey_ok (n := P.length) rfl hlt.le),
    NdxM.bind_ok (NdxM.get_apply st)]
  simp only [entCmp, keyCmp, NdxEntry.ent]
  by_cases h1 : keycmp st.hdr cfg.exactOn target.key (pg.entries P.length).key = 0 <;> simp [h1, NdxM.pure_apply]

theorem btsrdelCmp_kid (hst : Stored st k) (hsh : k.Shape SameKey) (hh : k.height ≤ fuel) (hx : k.last? = some x)
    (hi : i < pg.entryCnt) (hkey : (pg.entries i).key = x.key) :
    btsrdelCmp cfg fuel pg target i k.page st = .ok (entCmp st.hdr cfg.exactOn target x) st := by
  rw [btsrdelCmp, NdxM.bind_ok (neGetRecno_ok (n := i) rfl hi.le), NdxM.bind_ok (neGetKey_ok (n := i) rfl hi.le),
    NdxM.bind_ok (NdxM.get_apply st), hkey]
  simp only [entCmp, keyCmp]
  by_cases h1 : keycmp st.hdr cfg.exactOn target.key x.key = 0
  · simp only [h1, ne_eq, not_true_eq_false, if_false, hst.page_ne]
    exact btlr_ok hst hsh hh hx _
  · simp [h1, NdxM.pure_apply]

/-- `btsrdel` at the leaf of the entry. -/
theorem btsrdel_leaf (hst : Stored st (.leaf p (L ++ x :: M))) (hL : ∀ a ∈ L, 0 < entCmp st.hdr cfg.exactOn target a)
    (hx : entCmp st.hdr cfg.exactOn target x = 0) (h0 : target.pno = 0) :
    RemPost st target (.leaf p (L ++ x :: M)) L x M (btsrdel cfg (fuel + 2) p target st) := by
  cases hst with
  | leaf hp0 hlt hes hps =>
    have hcnt : (st.file p).entryCnt = (L ++ x :: M).length := by rw [← hes, NdxPage.length_ents]
    obtain ⟨P, R, e, hPR, hloop, hP, hstop⟩ := slotLoop_ents (btsrdelCmp cfg (fuel + 1) (st.file p) target) st
      (c := entCmp st.hdr cfg.exactOn target) hes hps (fun P x R h => btsrdelCmp_leaf (hes.trans h)) (L ++ x :: M) [] rfl (by simp)
    rw [List.length_nil] at hloop
    obtain ⟨rfl, -⟩ | ⟨y, R', rfl, rfl, hle⟩ := hstop
    · have := hP x (by rw [List.append_nil] at hPR; rw [← hPR]; simp)
      omega
    obtain ⟨rfl, rfl, rfl⟩ := Falling.first_unique hPR.symm hP hle hL hx.le
    have hlen : P.length < (st.file p).entryCnt := by rw [hcnt]; simp
    have hdown : del (fuel + 1) 0 p (st.file p) P.length target st = .ok (true, st.file p, target) st := rfl
    obtain ⟨pg', hrun, hes', hns'⟩ := dropSlot_ok st hlen.le (by omega)
    rw [hes, Nat.min_eq_left (by omega), MTree.eraseIdx_length_append] at hes'
    rw [hps, List.eraseIdx_replicate, if_pos (by omega), Nat.add_sub_cancel] at hns'
    have hc' : pg'.entryCnt = (P ++ R').length := by rw [← hes', NdxPage.length_ents]
    have hcnt' := hcnt
    rw [List.length_append, List.length_cons] at hcnt'
    rw [List.length_append] at hc'
    rw [btsrdel, if_neg hp0, NdxM.bind_ok (getpage_ok hlt), NdxM.bind_ok (neGetPageno_ok (i := 0) (n := 0) rfl (Nat.zero_le _)),
      NdxPage.pno_zero hps (Nat.zero_le _), hcnt, NdxM.bind_ok hloop]
    dsimp only
    rw [if_pos hx, NdxM.bind_ok hdown]
    dsimp only
    rw [if_pos rfl, mendPage, if_neg (by simp [h0]), NdxM.bind_ok hrun, NdxM.bind_ok (writePage_ok p _)]
    have hw : Written (MTree.leaf p (P ++ y :: R')).pages st { st with file := Function.update st.file p pg' } := by
      simpa using Written.page st p pg'
    by_cases hone : pg'.entryCnt = 0
    · obtain rfl : P = [] := List.eq_nil_of_length_eq_zero (by omega)
      obtain rfl : R' = [] := List.eq_nil_of_length_eq_zero (by omega)
      have htarget : { target with pno := 0 } = target := by rw [← h0]
      rw [if_pos hone, NdxM.bind_ok (neGetPageno_ok (i := 0) (n := 0) rfl (Nat.zero_le _)), NdxM.pure_apply,
        NdxPage.pno_zero (show pg'.pnos = List.replicate (([] : List Ent).length + 1) 0 by simpa using hns') (Nat.zero_le _), htarget]
      exact .gone (by simp) rfl rfl hw
    · rw [if_neg hone, NdxM.pure_apply]
      have hpl : 0 < (P ++ R').length := by rw [List.length_append]; omega
      refine .kept (.leaf p (P ++ R')) rfl ⟨?_, ?_, ?_, ?_, by simp, by simp, by simp, by simp, hw⟩ <;>
        simp only [List.mem_singleton, forall_eq]
      · refine .leaf hp0 hlt ((congrArg NdxPage.ents (Function.update_self _ _ _)).trans hes')
          ((congrArg NdxPage.pnos (Function.update_self _ _ _)).trans (hns'.trans ?_))
        congr 1
        simp
        omega
      · exact .leaf (List.ne_nil_of_length_pos hpl)
      · exact .leaf hpl
      · intro cap hc
        cases hc with
        | leaf hc =>
          refine .leaf (le_trans ?_ hc)
          simp

/-- `btsrdel` below a page of a stored tree that holds the entry. -/
theorem btsrdel_ok (hst : Stored st t) (hsh : t.Shape SameKey) (hpop : t.Sized (0 < ·)) (hnd : t.pages.Nodup)
    (he : t.entries = L ++ x :: M) (hf : Falling (entCmp st.hdr cfg.exactOn target) t.entries) (hL : ∀ a ∈ L, 0 < entCmp st.hdr cfg.exactOn target a)
    (hx : entCmp st.hdr cfg.exactOn target x = 0) (hM : ∀ b ∈ M, entCmp st.hdr cfg.exactOn target b < 0) (h0 : target.pno = 0)
    (hfuel : t.height < fuel) : RemPost st target t L x M (btsrdel cfg fuel t.page target st) := by
  induction t using MTree.ind generalizing fuel L M with
  | leaf p es =>
    rw [MTree.height_leaf] at hfuel
    obtain ⟨fuel, rfl⟩ : ∃ n, fuel = n + 2 := ⟨fuel - 2, by omega⟩
    rw [MTree.entries_leaf] at he
    subst he
    exact btsrdel_leaf hst hL hx h0
  | node p ss ks ih =>
    have hin := Inner.of hst hsh hpop hnd
    obtain ⟨fuel, rfl⟩ : ∃ n, fuel = n + 1 := ⟨fuel - 1, by omega⟩
    have hkh : ∀ k ∈ ks, k.height < fuel := fun k hk => by
      have := MTree.height_kid p ss hk
      omega
    rw [MTree.entries_node] at he hf
    obtain ⟨k0, B0, hks0⟩ := List.exists_cons_of_ne_nil hin.sepd.ne_nil
    have hB0 : (st.file p).entryCnt = B0.length := by simpa using (hks0 ▸ hin : Inner st p ss ([] ++ k0 :: B0)).cnt
    have hpn0 : ((st.file p).entries 0).pno = k0.page := (NdxPage.pno_kid (A := []) (hks0 ▸ hin.pnos)).2
    obtain ⟨A, k, B, e, rfl, hloop, hA, hstop⟩ := slotLoop_kids (btsrdelCmp cfg fuel (st.file p) target) st
      (c := entCmp st.hdr cfg.exactOn target) hin.pnos (fun A k b B h => by
        have hkm : k ∈ ks := by rw [h]; simp
        obtain ⟨hi, x, hx, hkey⟩ := sep_key (h ▸ hin.sepd) hin.ents
        exact ⟨x, hx, btsrdelCmp_kid (hin.kids k hkm) (hin.shape k hkm) (hkh k hkm).le hx hi hkey⟩) B0 [] k0 hks0 (by simp)
    have hkm : k ∈ A ++ k :: B := by simp
    obtain ⟨hkst, hksh, hkpop, hknd⟩ := hin.kid
    have hr := hstop.routes hA
    rw [List.length_nil] at hloop
    rw [btsrdel, MTree.page, if_neg hin.page_ne, NdxM.bind_ok (getpage_ok hin.page_lt),
      NdxM.bind_ok (neGetPageno_ok (i := 0) (n := 0) rfl (Nat.zero_le _)), hpn0, hB0, NdxM.bind_ok hloop]
    dsimp only
    -- the entry is in the subtree that was chosen
    have hposA := hr.pos_before hf
    rw [List.flatMap_append, List.flatMap_cons] at he
    obtain ⟨L', rfl, hkB⟩ := Falling.past he hposA hx.le
    have hL' : ∀ a ∈ L', 0 < entCmp st.hdr cfg.exactOn target a := fun a ha => hL a (List.mem_append_right _ ha)
    obtain ⟨M', hk, rfl⟩ := Falling.within hkB (fun hB => hr.after (by rintro rfl; simp at hB)) hL'
    have hM' : ∀ b ∈ M', entCmp st.hdr cfg.exactOn target b < 0 := fun b hb => hM b (List.mem_append_left _ hb)
    have hsub : ∀ r ∈ k.pages, r ∈ p :: (A ++ k :: B).flatMap MTree.pages := fun r hr => List.mem_cons_of_mem _ (hin.kid_pages hr)
    by_cases he0 : e = 0
    · -- the entry is the last one of the subtree
      obtain ⟨-, h1⟩ | ⟨hB, y, hy, rfl, -⟩ := hstop
      · omega
      obtain rfl : M' = [] := by
        rcases List.eq_nil_or_concat M' with rfl | ⟨K, z, rfl⟩
        · rfl
        · rw [MTree.last?, hk, List.concat_eq_append, ← List.cons_append, ← List.append_assoc, List.getLast?_concat, Option.some.injEq] at hy
          have := hM' z (by simp)
          rw [hy] at this
          omega
      obtain ⟨b, B, rfl⟩ := List.exists_cons_of_ne_nil hB
      have hcnt := hin.cnt
      rw [List.length_cons] at hcnt
      have hpost := del_ok (i := A.length) (q := st.file p) hkst hksh hkpop hknd
        (fun hm => hin.fresh (hin.kid_pages hm)) (by omega) h0 hk (hkh k hkm)
      rw [if_pos he0, NdxM.bind_apply]
      generalize del fuel k.page p (st.file p) A.length target st = res at hpost
      cases hpost with
      | gone hK hw =>
        subst hK
        dsimp only
        rw [if_pos rfl]
        exact hin.mend_gone (hin.shrunk (Shrunk.gone hk hw) fun r hr => Or.inl hr) hsub h0
      | @kept st' q' y' k' hpage hy' hq hfile hs =>
        obtain ⟨s, hsk, hes, hns, hsep, hkids⟩ := hin.rekeyed hy' hq hs
        dsimp only
        rw [if_neg (by simp), NdxM.pure_apply]
        refine .kept (.node p (ss.set A.length s) (A ++ k' :: b :: B)) rfl (hkids.node hin.page_ne hin.page_lt hin.fresh
          (by rw [hfile, hes]) ?_ hsep (by rw [List.length_set]; exact hin.pos) (by rw [List.length_set]) fun r hr => ?_)
        · rw [hfile, hns]
          simp [hpage]
        · rw [MTree.pages_node]
          exact (List.mem_cons.1 hr).elim (fun h => h ▸ List.mem_cons_self) (hsub r)
      | @orphan st' q' y' k' hy' hq hfile hs =>
        obtain ⟨s, hsk, hes, hns, hsep, hkids⟩ := hin.rekeyed hy' hq hs
        dsimp only
        rw [if_pos rfl]
        exact hin.mend_orphan hkids (fun r hr => (List.mem_cons.1 hr).elim (fun h => h ▸ List.mem_cons_self) (hsub r)) hes hns hsep
          (List.length_set ..) h0
    · have hpost := ih k hkm hkst hksh hkpop hknd hk (MTree.falling_kid hf hkm) hL' hM' (hkh k hkm)
      rw [if_neg he0, NdxM.bind_apply]
      generalize btsrdel cfg fuel k.page target st = res at hpost
      cases hpost with
      | gone hk hL0 hM0 hw =>
        subst hL0 hM0
        dsimp only
        rw [if_pos rfl]
        exact hin.mend_gone (hin.shrunk (Shrunk.gone hk hw) fun r hr => Or.inl hr) hsub h0
      | @kept st' k' hpage hs =>
        have hkids := hin.shrunk hs fun r hr => Or.inl hr
        have hlast := hs.last_of hstop he0 hx
        rw [List.append_assoc, List.singleton_append] at hkids
        have hfile : st'.file p = st.file p := hs.written.file p fun hm => hin.fresh (hin.kid_pages hm)
        dsimp only
        rw [if_neg (by simp), NdxM.pure_apply]
        refine .kept (.node p ss (A ++ k' :: B)) rfl (hkids.node hin.page_ne hin.page_lt hin.fresh (by rw [hfile, hin.ents])
          (by rw [hfile, hin.pnos]; simp [hpage]) (hin.sepd.replace k' hlast) hin.pos le_rfl fun r hr => ?_)
        rw [MTree.pages_node]
        exact hsub r hr
      | @orphan st' k' hs =>
        have hkids := hin.shrunk hs fun r hr => Or.inl hr
        have hlast := hs.last_of hstop he0 hx
        rw [List.append_assoc, List.singleton_append] at hkids
        dsimp only
        rw [if_pos rfl]
        exact hin.mend_orphan hkids hsub hin.ents hin.pnos (hin.sepd.replace k' hlast) rfl h0

end Remove
end Db3w
