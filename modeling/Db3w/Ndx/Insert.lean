/-
Insertion into a stored tree. For a comparison that is falling along the entries, `btsrin` ends in
one of four ways: the entry is a duplicate and nothing is written; the tree takes the entry and
keeps its root page; the tree becomes two, the new one on a new page, with a separator for the
level above; or a split is refused (`Clash`): a full internal page is to split left of the place
where a full subtree sends up a separator without a record.

The proof follows the tree. A leaf takes the entry into its list; an internal page takes the two
halves of a subtree that was split, and becomes two itself if it was full.
-/
import Db3w.Ndx.PageOps

namespace Db3w

/-! ## What a full subtree sends up -/

/-- Inserting the entry splits the tree, and the promoted separator has record `n`. -/
inductive Promotes (cap : Nat) (c : Ent → Int) (x : Ent) : Tree → Recno → Prop
  | leaf {p : Pageno} {P R : List Ent} {e : Ent} (hP : ∀ a ∈ P, 0 < c a) (hR : ∀ a ∈ R, c a < 0)
      (hfull : (P ++ R).length = cap) (hmid : (P ++ x :: R)[cap / 2]? = some e) : Promotes cap c x (.leaf p (P ++ R)) e.recno
  | node {p : Pageno} {ss : List Ent} {A B : List Tree} {k : Tree} {n : Recno} {e : Ent} (key : Key)
      (hr : MTree.Routes c A k B) (hk : Promotes cap c x k n) (hfull : ss.length = cap)
      (hmid : (ss.insertIdx A.length ⟨key, n⟩)[cap / 2]? = some e) : Promotes cap c x (.node p ss (A ++ k :: B)) e.recno

/-- Somewhere on the way of the entry a full page is to split left of the place where it is sent a
separator without a record. -/
inductive Clash (cap : Nat) (c : Ent → Int) (x : Ent) : Tree → Prop
  | here {p : Pageno} {ss : List Ent} {A B : List Tree} {k : Tree} (hr : MTree.Routes c A k B)
      (hk : Promotes cap c x k 0) (hfull : ss.length = cap) (hright : cap / 2 < A.length) : Clash cap c x (.node p ss (A ++ k :: B))
  | inside {p : Pageno} {ss : List Ent} {A B : List Tree} {k : Tree} (hr : MTree.Routes c A k B) (hk : Clash cap c x k) :
      Clash cap c x (.node p ss (A ++ k :: B))

/-! ## Changes to the file -/

/-- The state after an insertion below the pages `ps`: other pages in use are as before, and only
the number of pages has changed in the header. -/
structure Grown (ps : List Pageno) (st st' : Ndx) : Prop where
  hdr : st'.hdr = { st.hdr with pagecnt := st'.hdr.pagecnt }
  le : st.hdr.pagecnt ≤ st'.hdr.pagecnt
  fsync : st'.fsync = st.fsync
  seq : st'.seq = st.seq
  file : ∀ q, q < st.hdr.pagecnt → q ∉ ps → st'.file q = st.file q
  sync : st.hdrPage = st.hdr ∨ st.wHdr = true → st'.hdrPage = st'.hdr ∨ st'.wHdr = true

section Frame

variable {st st1 st2 : Ndx} {t : Tree} {ps qs : List Pageno}

theorem Grown.of_cursor (ps : List Pageno) (h : CursorOnly st st1) : Grown ps st st1 := by
  obtain ⟨pn, en, rfl⟩ := h
  exact ⟨rfl, le_rfl, rfl, rfl, fun _ _ _ => rfl, id⟩

theorem Grown.trans (h1 : Grown ps st st1) (h2 : Grown qs st1 st2) (hq : ∀ q ∈ qs, q < st.hdr.pagecnt → q ∈ ps) :
    Grown ps st st2 where
  hdr := by rw [h2.hdr, h1.hdr]
  le := h1.le.trans h2.le
  fsync := h2.fsync.trans h1.fsync
  seq := h2.seq.trans h1.seq
  file q hlt hn := by
    rw [h2.file q (hlt.trans_le h1.le) fun hm => hn (hq q hm hlt), h1.file q hlt hn]
  sync h := h2.sync (h1.sync h)

theorem Grown.mono (h : Grown ps st st1) (hs : ∀ q ∈ ps, q ∈ qs) : Grown qs st st1 :=
  ⟨h.hdr, h.le, h.fsync, h.seq, fun q hlt hn => h.file q hlt fun hm => hn (hs q hm), h.sync⟩

/-- A tree is still stored when none of its pages was changed. -/
theorem Stored.congr (h : Stored st t) (hc : st.hdr.pagecnt ≤ st1.hdr.pagecnt)
    (hf : ∀ q ∈ t.pages, st1.file q = st.file q) : Stored st1 t := by
  induction t using MTree.ind with
  | leaf p es =>
    cases h with
    | leaf h0 hlt hes hps =>
      have := hf p (by simp)
      exact .leaf h0 (hlt.trans_le hc) (by rw [this, hes]) (by rw [this, hps])
  | node p ss ks ih =>
    cases h with
    | node h0 hlt hes hps hk =>
      have := hf p (by simp)
      refine .node h0 (hlt.trans_le hc) (by rw [this, hes]) (by rw [this, hps]) fun k hk' => ih k hk' (hk k hk') fun q hq => hf q ?_
      rw [MTree.pages_node]
      exact List.mem_cons_of_mem _ (List.mem_flatMap.2 ⟨k, hk', hq⟩)

theorem Stored.pages_lt (h : Stored st t) : ∀ q ∈ t.pages, q < st.hdr.pagecnt := by
  induction t using MTree.ind with
  | leaf p es =>
    cases h with
    | leaf h0 hlt hes hps => simpa using hlt
  | node p ss ks ih =>
    cases h with
    | node h0 hlt hes hps hk =>
      intro q hq
      rw [MTree.pages_node] at hq
      rcases List.mem_cons.1 hq with rfl | hq
      · exact hlt
      · obtain ⟨k, hk', hq'⟩ := List.mem_flatMap.1 hq
        exact ih k hk' (hk k hk') q hq'

theorem Stored.grown (h : Stored st t) (hg : Grown ps st st1) (hd : ∀ q ∈ t.pages, q ∉ ps) : Stored st1 t :=
  h.congr hg.le fun q hq => hg.file q (h.pages_lt q hq) (hd q hq)

/-- Writing a page of the tree. -/
theorem Grown.write {p : Pageno} (pg : NdxPage) (hp : p ∈ ps) :
    Grown ps st { st with file := Function.update st.file p pg } := by
  refine ⟨rfl, le_rfl, rfl, rfl, fun q _ hn => Function.update_of_ne ?_ _ _, id⟩
  rintro rfl
  exact hn hp

theorem writePage_ok (pno : Pageno) (pg : NdxPage) :
    writePage pno pg st = .ok () { st with file := Function.update st.file pno pg } := rfl

/-- The two halves of a split page and the header are written. -/
theorem writeSplit_ok (st : Ndx) {pno : Pageno} (pg q : NdxPage) (hkt : st.hdr.keytyp &&& 0x7f = st.hdr.keytyp) (hp : pno ∈ ps) :
    ∃ st', writeSplit pno pg q st = .ok st.hdr.pagecnt st' ∧ Grown ps st st' ∧ st'.hdr.pagecnt = st.hdr.pagecnt + 1 ∧
      st'.file = Function.update (Function.update st.file pno pg) st.hdr.pagecnt q := by
  have hfile : ∀ q', q' < st.hdr.pagecnt → q' ∉ ps →
      Function.update (Function.update st.file pno pg) st.hdr.pagecnt q q' = st.file q' := by
    intro q' hlt hn
    rw [Function.update_of_ne hlt.ne, Function.update_of_ne]
    rintro rfl
    exact hn hp
  cases hfs : st.fsync with
  | true =>
    refine ⟨{ st with
        hdr := { st.hdr with pagecnt := st.hdr.pagecnt + 1 }
        hdrPage := { st.hdr with pagecnt := st.hdr.pagecnt + 1 }
        file := Function.update (Function.update st.file pno pg) st.hdr.pagecnt q }, ?_,
      ⟨rfl, Nat.le_succ _, rfl, rfl, hfile, fun _ => Or.inl rfl⟩, rfl, rfl⟩
    simp only [writeSplit, NdxM.bind_apply, NdxM.get_apply, NdxM.modify_apply, writePage_ok, hfs, if_true, writeNdxHdr,
      NdxM.pure_apply, hkt]
  | false =>
    refine ⟨{ st with
        hdr := { st.hdr with pagecnt := st.hdr.pagecnt + 1 }
        wHdr := true
        file := Function.update (Function.update st.file pno pg) st.hdr.pagecnt q }, ?_,
      ⟨rfl, Nat.le_succ _, rfl, rfl, hfile, fun _ => Or.inr rfl⟩, rfl, rfl⟩
    simp only [writeSplit, NdxM.bind_apply, NdxM.get_apply, NdxM.modify_apply, writePage_ok, hfs, Bool.false_eq_true, if_false,
      NdxM.pure_apply]

end Frame

section Put

variable {p : NdxPage} {st : Ndx} {r : Nat} {pno : Pageno} {target : NdxEntry} {ps : List Pageno}

theorem putEntry_room (ps : List Pageno) (hroom : p.entryCnt < st.hdr.norecpp) (hr : r ≤ p.entryCnt) (ha : Accepts p target) (hps : pno ∈ ps) :
    ∃ st', putEntry p pno r target st = .ok { target with recno := 0, pno := 0 } st' ∧ Grown ps st st' ∧
      (st'.file pno).ents = p.ents.insertIdx r target.ent ∧ (st'.file pno).pnos = p.pnos.insertIdx (r + 1) target.pno := by
  obtain ⟨p', st1, hins, hcur, hes, hns⟩ := insertPage_ok st pno hr ha
  have hg := (Grown.of_cursor ps hcur).trans (Grown.write p' hps) fun q hq _ => hq
  refine ⟨_, ?_, hg, ?_, ?_⟩
  · rw [putEntry, NdxM.bind_ok (NdxM.get_apply st), if_pos hroom, NdxM.bind_ok hins, NdxM.bind_ok (writePage_ok pno p')]; rfl
  · simp only [Function.update_self, hes]
  · simp only [Function.update_self, hns]

theorem putEntry_split (ps : List Pageno) (hfull : p.entryCnt = st.hdr.norecpp) (h2 : 2 ≤ st.hdr.norecpp) (hr : r ≤ p.entryCnt)
    (hkt : st.hdr.keytyp &&& 0x7f = st.hdr.keytyp) (ha : SplitAccepts p (st.hdr.norecpp / 2) r target) (hps : pno ∈ ps)
    (hlt : pno < st.hdr.pagecnt) :
    ∃ target' st', putEntry p pno r target st = .ok target' st' ∧ Grown ps st st' ∧
      st'.hdr.pagecnt = st.hdr.pagecnt + 1 ∧ target'.pno = st.hdr.pagecnt ∧
      (st'.file pno).ents = (p.ents.insertIdx r target.ent).take (keepCnt p (st.hdr.norecpp / 2)) ∧
      (st'.file pno).pnos = (p.pnos.insertIdx (r + 1) target.pno).take (keepCnt p (st.hdr.norecpp / 2) + 1) ∧
      (st'.file st.hdr.pagecnt).ents = (p.ents.insertIdx r target.ent).drop (st.hdr.norecpp / 2 + 1) ∧
      (st'.file st.hdr.pagecnt).pnos = (p.pnos.insertIdx (r + 1) target.pno).drop (st.hdr.norecpp / 2 + 1) ∧
      (p.ents.insertIdx r target.ent)[st.hdr.norecpp / 2]? = some target'.ent := by
  obtain ⟨p', q', target', st1, hsp, hcur, h1, h2', h3, h4, h5⟩ := splitPage_ok pno hfull rfl h2 hr ha
  obtain ⟨pn, en, rfl⟩ := hcur
  obtain ⟨st2, hw, hg, hc, hf⟩ := writeSplit_ok { st with pageNo := pn, entryNo := en } p' q' hkt hps
  refine ⟨{ target' with pno := st.hdr.pagecnt }, st2, ?_, (Grown.of_cursor ps ⟨pn, en, rfl⟩).trans hg fun q hq _ => hq, hc, rfl, ?_, ?_, ?_, ?_,
    h5⟩
  · rw [putEntry, NdxM.bind_ok (NdxM.get_apply st), if_neg (by omega), NdxM.bind_ok hsp]
    dsimp only
    rw [NdxM.bind_ok hw]; rfl
  · simp only [hf, Function.update_of_ne hlt.ne, Function.update_self, h1]
  · simp only [hf, Function.update_of_ne hlt.ne, Function.update_self, h2']
  · simp only [hf, Function.update_self, h3]
  · simp only [hf, Function.update_self, h4]

theorem putEntry_refused (hfull : p.entryCnt = st.hdr.norecpp) (hr : r ≤ p.entryCnt) (hgt : st.hdr.norecpp / 2 < r)
    (h0 : target.recno = 0) : putEntry p pno r target st = .error (.invalidEntry st.hdr.pagecnt) st := by
  rw [putEntry, NdxM.bind_ok (NdxM.get_apply st), if_neg (by omega), NdxM.bind_error (splitPage_refused hfull hr hgt h0)]

end Put

/-! ## The ways an insertion ends -/

/-- The trees `new` hold the entries of the trees `old` and the entry `x`, at its place, on their pages and on new ones. -/
structure Grew (c : Ent → Int) (st st' : Ndx) (x : Ent) (old new : List Tree) : Prop where
  stored : ∀ k ∈ new, Stored st' k
  shape : ∀ k ∈ new, k.Shape SameKey
  sized : ∀ k ∈ new, k.Sized (· ≤ st.hdr.norecpp)
  depth : ∀ d, (∀ k ∈ old, k.AtDepth d) → ∀ k ∈ new, k.AtDepth d
  populated : (∀ k ∈ old, k.Sized (0 < ·)) → ∀ k ∈ new, k.Sized (0 < ·)
  entries : ∃ L M, old.flatMap MTree.entries = L ++ M ∧ new.flatMap MTree.entries = L ++ x :: M ∧ (∀ a ∈ L, 0 < c a) ∧
    ∀ b ∈ M, c b < 0
  nodup : (new.flatMap MTree.pages).Nodup
  pages : ∀ q ∈ new.flatMap MTree.pages, q ∈ old.flatMap MTree.pages ∨ st.hdr.pagecnt ≤ q
  grown : Grown (old.flatMap MTree.pages) st st'

/-- What `btsrin` does below the root page of a stored tree. -/
inductive InsPost (c : Ent → Int) (st : Ndx) (target : NdxEntry) (t : Tree) :
    EStateM.Result HbErr Ndx (Rc × NdxEntry) → Prop
  | dup (hd : ∃ e ∈ t.entries, c e = 0) : InsPost c st target t (.ok (.dupkey, target) st)
  | clash {st' : Ndx} {e : Int} (hc : Clash st.hdr.norecpp c target.ent t) :
      InsPost c st target t (.error (.invalidEntry e) st')
  | fit {st' : Ndx} (t' : Tree) {target' : NdxEntry} (hrec : target'.recno = 0) (hpno : target'.pno = 0)
      (hpage : t'.page = t.page) (hg : Grew c st st' target.ent [t] [t'])
      (hpr : ∀ n, ¬Promotes st.hdr.norecpp c target.ent t n) (hnc : ¬Clash st.hdr.norecpp c target.ent t) :
      InsPost c st target t (.ok (.zero, target') st')
  | split {st' : Ndx} {l r : Tree} {target' : NdxEntry} (hpage : l.page = t.page) (hnew : target'.pno = r.page)
      (hsep : ∃ e, l.last? = some e ∧ SameKey target'.ent e) (hg : Grew c st st' target.ent [t] [l, r])
      (hpr : ∀ n, Promotes st.hdr.norecpp c target.ent t n ↔ n = target'.recno)
      (hnc : ¬Clash st.hdr.norecpp c target.ent t) : InsPost c st target t (.ok (.zero, target') st')

section Leaf

variable {st : Ndx} {cfg : Cfg} {fuel : Nat} {target : NdxEntry} {p : Pageno} {es P R : List Ent} {pg : NdxPage} {c : Ent → Int}
  {x e : Ent} {cap n : Nat}

theorem btsrinCmp_leaf (hes : pg.ents = P ++ x :: R) : btsrinCmp cfg fuel pg target P.length 0 st = .ok (insCmp cfg st.hdr target x) st := by
  obtain ⟨hlt, rfl⟩ := ent_at hes
  rw [btsrinCmp, NdxM.bind_ok (neGetRecno_ok (n := P.length) rfl hlt.le), NdxM.bind_ok (neGetKey_ok (n := P.length) rfl hlt.le),
    NdxM.bind_ok (NdxM.get_apply st)]
  simp only [insCmp, entCmp, keyCmp, NdxEntry.ent]
  split_ifs <;> first | rfl | simp_all [NdxM.pure_apply]

theorem not_clash_leaf : ¬Clash cap c x (.leaf p es) := nofun

/-- What a leaf sends up is the entry in the middle. -/
theorem promotes_leaf_iff (hP : ∀ a ∈ P, 0 < c a) (hR : ∀ a ∈ R, c a < 0) {n : Recno} :
    Promotes cap c x (.leaf p (P ++ R)) n ↔ (P ++ R).length = cap ∧ ∃ e, (P ++ x :: R)[cap / 2]? = some e ∧ e.recno = n := by
  constructor
  · intro h
    generalize hes : P ++ R = es at h
    cases h with
    | @leaf _ P' R' e hP' hR' hfull hmid =>
      obtain ⟨rfl, rfl⟩ := Falling.pos_neg_unique hes hP hR hP' hR'
      exact ⟨hfull, e, hmid, rfl⟩
  · rintro ⟨hfull, e, hmid, rfl⟩
    exact .leaf hP hR hfull hmid

theorem insertIdx_replicate {a : Pageno} {m i : Nat} (h : i ≤ m) : (List.replicate m a).insertIdx i a = List.replicate (m + 1) a := by
  rw [MTree.insertIdx_eq_append (by simpa using h), List.take_replicate, List.drop_replicate, Nat.min_eq_left h, ← List.replicate_succ,
    List.replicate_append_replicate]
  congr 1
  omega

/-- A leaf with the entry in its place. -/
theorem grew_leaf {st' : Ndx} (h0 : p ≠ 0) (hlt : p < st.hdr.pagecnt) (hg : Grown [p] st st') (hP : ∀ a ∈ P, 0 < c a)
    (hR : ∀ a ∈ R, c a < 0) (hcap : (P ++ R).length < st.hdr.norecpp) (hes : (st'.file p).ents = P ++ x :: R)
    (hns : (st'.file p).pnos = List.replicate ((P ++ R).length + 1 + 1) 0) :
    Grew c st st' x [.leaf p (P ++ R)] [.leaf p (P ++ x :: R)] := by
  have hl : (P ++ x :: R).length = (P ++ R).length + 1 := by simp; omega
  refine ⟨?_, ?_, ?_, ?_, ?_, ⟨P, R, by simp, by simp, hP, hR⟩, by simp, by simp, by simpa using hg⟩ <;>
    simp only [List.mem_singleton, forall_eq]
  · exact .leaf h0 (hlt.trans_le hg.le) hes (by rw [hns, hl])
  · exact .leaf (by simp)
  · exact .leaf (by omega)
  · intro d hd
    rw [MTree.atDepth_leaf.1 hd]
    exact .leaf
  · exact fun _ => .leaf (by omega)

/-- The two halves of a leaf with the entry in its place. -/
theorem grew_leaf_split {st' : Ndx} (h0 : p ≠ 0) (hlt : p < st.hdr.pagecnt) (hg : Grown [p] st st')
    (hc : st'.hdr.pagecnt = st.hdr.pagecnt + 1) (hP : ∀ a ∈ P, 0 < c a) (hR : ∀ a ∈ R, c a < 0) (h2 : 2 ≤ st.hdr.norecpp)
    (hcap : (P ++ R).length = st.hdr.norecpp)
    (hl1 : (st'.file p).ents = (P ++ x :: R).take (st.hdr.norecpp / 2 + 1))
    (hl2 : (st'.file p).pnos = (List.replicate ((P ++ R).length + 1 + 1) 0).take (st.hdr.norecpp / 2 + 1 + 1))
    (hr1 : (st'.file st.hdr.pagecnt).ents = (P ++ x :: R).drop (st.hdr.norecpp / 2 + 1))
    (hr2 : (st'.file st.hdr.pagecnt).pnos = (List.replicate ((P ++ R).length + 1 + 1) 0).drop (st.hdr.norecpp / 2 + 1)) :
    Grew c st st' x [.leaf p (P ++ R)] [.leaf p ((P ++ x :: R).take (st.hdr.norecpp / 2 + 1)),
      .leaf st.hdr.pagecnt ((P ++ x :: R).drop (st.hdr.norecpp / 2 + 1))] := by
  have hl : (P ++ x :: R).length = st.hdr.norecpp + 1 := by simp at hcap ⊢; omega
  have hpc : 0 < st.hdr.pagecnt := lt_of_le_of_lt (Nat.zero_le p) hlt
  have hnil : ∀ {l : List Ent}, 0 < l.length → l ≠ [] := fun h => List.ne_nil_of_length_pos h
  refine ⟨?_, ?_, ?_, ?_, ?_, ⟨P, R, by simp, by simp, hP, hR⟩, by simpa using hlt.ne, by simp, by simpa using hg⟩ <;>
    simp only [List.mem_cons, List.not_mem_nil, or_false, forall_eq_or_imp, forall_eq]
  · refine ⟨.leaf h0 (hlt.trans_le hg.le) hl1 ?_, .leaf hpc.ne' (by rw [hc]; exact Nat.lt_succ_self _) hr1 ?_⟩
    · rw [hl2, List.take_replicate, List.length_take, hcap, hl]
      congr 1; omega
    · rw [hr2, List.drop_replicate, List.length_drop, hcap, hl]
      congr 1; omega
  · exact ⟨.leaf (hnil (by rw [List.length_take]; omega)), .leaf (hnil (by rw [List.length_drop]; omega))⟩
  · exact ⟨.leaf (by rw [List.length_take]; omega), .leaf (by rw [List.length_drop]; omega)⟩
  · intro d hd
    rw [MTree.atDepth_leaf.1 hd]
    exact ⟨.leaf, .leaf⟩
  · exact fun _ => ⟨.leaf (by rw [List.length_take]; omega), .leaf (by rw [List.length_drop]; omega)⟩

/-- Insertion into a leaf page. -/
theorem btsrin_leaf (hst : Stored st (.leaf p es)) (hkt : st.hdr.keytyp &&& 0x7f = st.hdr.keytyp) (h2 : 2 ≤ st.hdr.norecpp)
    (hcap : es.length ≤ st.hdr.norecpp) (hf : Falling (insCmp cfg st.hdr target) es) (hrec : target.recno ≠ 0)
    (hpno : target.pno = 0) :
    InsPost (insCmp cfg st.hdr target) st target (.leaf p es) (btsrin cfg (fuel + 2) p target st) := by
  cases hst with
  | leaf h0 hlt hes hps =>
    have hcnt : (st.file p).entryCnt = es.length := by rw [← hes, NdxPage.length_ents]
    obtain ⟨P, R, e, rfl, hloop, hP, hstop⟩ := slotLoop_ents (btsrinCmp cfg (fuel + 1) (st.file p) target) st
      (c := insCmp cfg st.hdr target) hes hps (fun P x R h => btsrinCmp_leaf (hes.trans h)) es [] rfl (by simp)
    rw [List.length_nil] at hloop
    rw [btsrin, if_neg h0, NdxM.bind_ok (getpage_ok hlt), NdxM.bind_ok (neGetPageno_ok (i := 0) (n := 0) rfl (Nat.zero_le _)),
      NdxPage.pno_zero hps (Nat.zero_le _), hcnt, NdxM.bind_ok hloop]
    dsimp only
    by_cases he : e = 0
    · -- the entry the loop stopped at is a duplicate
      rw [if_pos he]
      obtain ⟨-, h1⟩ | ⟨x, R', rfl, hx, -⟩ := hstop
      · omega
      · exact .dup ⟨x, by simp, by omega⟩
    · have hR : ∀ a ∈ R, insCmp cfg st.hdr target a < 0 := by
        obtain ⟨rfl, -⟩ | ⟨x, R', rfl, hx, hle⟩ := hstop
        · simp
        · have hx0 : insCmp cfg st.hdr target x < 0 := by omega
          intro a ha
          rcases List.mem_cons.1 ha with rfl | ha
          · exact hx0
          · exact ((Falling.cons_iff.1 hf.right).1 a ha).2 hx0
      have hup : btsrin cfg (fuel + 1) 0 target st = .ok (.zero, target) st := rfl
      rw [if_neg he, NdxM.bind_ok hup]
      dsimp only
      rw [if_neg (by simp), if_pos (Or.inl hrec)]
      have hlen : P.length ≤ (st.file p).entryCnt := by rw [hcnt, List.length_append]; omega
      have hz : ((st.file p).entries 0).pno = 0 := NdxPage.pno_zero hps (Nat.zero_le _)
      have ha : Accepts (st.file p) target := (accepts_leaf hz).2 hrec
      have hins : (P ++ R).insertIdx P.length target.ent = P ++ target.ent :: R := MTree.insertIdx_length_append _ _ _
      have hpns : (st.file p).pnos.insertIdx (P.length + 1) target.pno = List.replicate ((P ++ R).length + 1 + 1) 0 := by
        rw [hps, hpno, insertIdx_replicate (by rw [List.length_append]; omega)]
      by_cases hroom : (st.file p).entryCnt < st.hdr.norecpp
      · obtain ⟨st', hput, hg, he', hn'⟩ := putEntry_room [p] hroom hlen ha List.mem_cons_self
        rw [NdxM.bind_ok hput, NdxM.pure_apply]
        rw [hes, hins] at he'
        rw [hpns] at hn'
        refine .fit (.leaf p (P ++ target.ent :: R)) rfl rfl rfl (grew_leaf h0 hlt hg hP hR (by omega) he' hn') (fun n hn => ?_) not_clash_leaf
        have := ((promotes_leaf_iff hP hR).1 hn).1
        omega
      · have hfull : (st.file p).entryCnt = st.hdr.norecpp := by omega
        have hsa : SplitAccepts (st.file p) (st.hdr.norecpp / 2) P.length target := by
          unfold SplitAccepts
          split
          · exact ha
          · exact hrec
        obtain ⟨target', st', hput, hg, hc, htp, hl1, hl2, hr1, hr2, hmid⟩ :=
          putEntry_split [p] hfull h2 hlen hkt hsa List.mem_cons_self hlt
        have hkeep : keepCnt (st.file p) (st.hdr.norecpp / 2) = st.hdr.norecpp / 2 + 1 := if_pos hz
        rw [hes, hins] at hl1 hr1 hmid
        rw [hpns] at hl2 hr2
        rw [hkeep] at hl1 hl2
        rw [NdxM.bind_ok hput, NdxM.pure_apply]
        refine .split (l := .leaf p ((P ++ target.ent :: R).take (st.hdr.norecpp / 2 + 1)))
          (r := .leaf st.hdr.pagecnt ((P ++ target.ent :: R).drop (st.hdr.norecpp / 2 + 1))) rfl htp ⟨target'.ent, ?_, rfl⟩
          (grew_leaf_split h0 hlt hg hc hP hR h2 (by omega) hl1 hl2 hr1 hr2) (fun n => ?_) not_clash_leaf
        · rw [MTree.last?, MTree.entries_leaf, List.getLast?_take, if_neg (by omega), Nat.add_sub_cancel, hmid]; rfl
        · rw [promotes_leaf_iff hP hR, hmid]
          simp only [← hcnt, hfull, true_and, Option.some.injEq, exists_eq_left']
          exact eq_comm

end Leaf

section Node

variable {st st' st2 : Ndx} {cfg : Cfg} {fuel : Nat} {target : NdxEntry} {p : Pageno} {ss ss' : List Ent} {ks ks' ts A B : List Tree}
  {k b l r : Tree} {pg : NdxPage} {c : Ent → Int} {x s : Ent}

theorem btsrinCmp_kid (hst : Stored st k) (hsh : k.Shape SameKey) (hh : k.height ≤ fuel) (hx : k.last? = some x) {i : Nat}
    (hi : i < pg.entryCnt) (hkey : (pg.entries i).key = x.key) :
    btsrinCmp cfg fuel pg target i k.page st = .ok (insCmp cfg st.hdr target x) st := by
  rw [btsrinCmp, NdxM.bind_ok (neGetRecno_ok (n := i) rfl hi.le), NdxM.bind_ok (neGetKey_ok (n := i) rfl hi.le),
    NdxM.bind_ok (NdxM.get_apply st), hkey]
  simp only [insCmp, entCmp, keyCmp]
  by_cases h1 : keycmp st.hdr cfg.exactOn target.key x.key = 0
  · by_cases h2 : cfg.uniqueOn = true
    · simp [h1, h2, NdxM.pure_apply]
    · simp only [h1, h2, ne_eq, not_true_eq_false, if_false, Bool.false_eq_true, hst.page_ne]
      exact btlr_ok hst hsh hh hx _
  · simp [h1, NdxM.pure_apply]

/-- The last entry of a subtree with an entry above the new one stays the last. -/
theorem Grew.getLast (hg : Grew c st st' x [k] ts) {e : Ent} (he : k.last? = some e) (hneg : c e < 0) :
    (ts.flatMap MTree.entries).getLast? = some e := by
  obtain ⟨L, M, h1, h2, hL, hM⟩ := hg.entries
  rw [List.flatMap_singleton] at h1
  rw [MTree.last?, h1] at he
  have hne : M ≠ [] := by
    rintro rfl
    rw [List.append_nil] at he
    have := hL e (List.mem_of_getLast? he)
    omega
  rw [List.getLast?_append_of_ne_nil _ hne] at he
  rw [h2, List.getLast?_append_of_ne_nil _ (by simp), List.getLast?_cons_of_ne_nil hne, he]

theorem nodup_replace {A K K' B : List Pageno} (h : (A ++ (K ++ B)).Nodup) (hK : K'.Nodup)
    (hs : ∀ q ∈ K', q ∈ K ∨ q ∉ A ∧ q ∉ B) : (A ++ (K' ++ B)).Nodup := by
  simp only [List.nodup_append, List.mem_append] at h ⊢
  obtain ⟨hA, ⟨hK0, hB, hKB⟩, hAKB⟩ := h
  refine ⟨hA, ⟨hK, hB, ?_⟩, ?_⟩
  · rintro a ha b hb rfl
    rcases hs a ha with h1 | h1
    · exact hKB a h1 a hb rfl
    · exact h1.2 hb
  · rintro a ha b (hb | hb) rfl
    · rcases hs a hb with h1 | h1
      · exact hAKB a ha a (Or.inl h1) rfl
      · exact h1.1 ha
    · exact hAKB a ha a (Or.inr hb) rfl

/-- The subtrees beside the one that took the entry are as they were. -/
theorem Grew.kids (hg : Grew c st st' x [k] ts) (hst : ∀ j ∈ A ++ k :: B, Stored st j)
    (hsh : ∀ j ∈ A ++ k :: B, j.Shape SameKey) (hsz : ∀ j ∈ A ++ k :: B, j.Sized (· ≤ st.hdr.norecpp))
    (hnd : ((A ++ k :: B).flatMap MTree.pages).Nodup)
    (hA : ∀ e ∈ A.flatMap MTree.entries, 0 < c e) (hB : ∀ e ∈ B.flatMap MTree.entries, c e < 0) :
    Grew c st st' x (A ++ k :: B) (A ++ ts ++ B) := by
  have hmem : ∀ {Q : Tree → Prop}, (∀ j ∈ ts, Q j) → (∀ j ∈ A ++ k :: B, Q j) → ∀ j ∈ A ++ ts ++ B, Q j := by
    intro Q h1 h2 j hj
    simp only [List.mem_append, List.mem_cons] at hj h2
    rcases hj with (hj | hj) | hj
    · exact h2 j (Or.inl hj)
    · exact h1 j hj
    · exact h2 j (Or.inr (Or.inr hj))
  have hlt : ∀ j ∈ A ++ k :: B, ∀ q ∈ j.pages, q < st.hdr.pagecnt := fun j hj => (hst j hj).pages_lt
  have hkg := hg.grown
  have hgp := hg.pages
  simp only [List.flatMap_singleton] at hkg hgp
  rw [List.flatMap_append, List.flatMap_cons] at hnd
  have hdisj : ∀ j ∈ A ++ B, ∀ q ∈ j.pages, q ∉ k.pages := by
    simp only [List.nodup_append, List.mem_append] at hnd
    intro j hj q hq hqk
    rcases List.mem_append.1 hj with hj | hj
    · exact hnd.2.2 q (List.mem_flatMap.2 ⟨j, hj, hq⟩) q (Or.inl hqk) rfl
    · exact hnd.2.1.2.2 q hqk q (List.mem_flatMap.2 ⟨j, hj, hq⟩) rfl
  have hone : ∀ {Q : Tree → Prop}, (∀ j ∈ A ++ k :: B, Q j) → ∀ j ∈ [k], Q j := by
    intro Q h j hj
    rw [List.mem_singleton.1 hj]
    exact h k (by simp)
  refine ⟨fun j hj => ?_, hmem hg.shape hsh, hmem hg.sized hsz, fun d hd => hmem (hg.depth d (hone hd)) hd,
    fun hd => hmem (hg.populated (hone hd)) hd, ?_, ?_, ?_, ?_⟩
  · simp only [List.mem_append] at hj
    have hother : ∀ j ∈ A ++ B, j ∈ A ++ k :: B := fun j hj => by
      simp only [List.mem_append, List.mem_cons] at hj ⊢
      exact hj.imp id Or.inr
    rcases hj with (hj | hj) | hj
    · exact (hst j (hother j (by simp [hj]))).grown hkg (hdisj j (by simp [hj]))
    · exact hg.stored j hj
    · exact (hst j (hother j (by simp [hj]))).grown hkg (hdisj j (by simp [hj]))
  · obtain ⟨L, M, h1, h2, hL, hM⟩ := hg.entries
    refine ⟨A.flatMap MTree.entries ++ L, M ++ B.flatMap MTree.entries, ?_, ?_, ?_, ?_⟩
    · rw [List.flatMap_append, List.flatMap_cons, ← List.flatMap_singleton MTree.entries k, h1]; simp
    · rw [List.flatMap_append, List.flatMap_append, h2]; simp
    · intro a ha
      exact (List.mem_append.1 ha).elim (hA a) (hL a)
    · intro a ha
      exact (List.mem_append.1 ha).elim (hM a) (hB a)
  · rw [List.flatMap_append, List.flatMap_append, List.append_assoc]
    refine nodup_replace hnd hg.nodup fun q hq => (hgp q hq).imp id fun hge => ⟨fun hm => ?_, fun hm => ?_⟩ <;>
      obtain ⟨j, hj, hqj⟩ := List.mem_flatMap.1 hm
    · exact absurd (hlt j (List.mem_append_left _ hj) q hqj) (not_lt.2 hge)
    · exact absurd (hlt j (List.mem_append_right _ (List.mem_cons_of_mem _ hj)) q hqj) (not_lt.2 hge)
  · intro q hq
    simp only [List.flatMap_append, List.flatMap_cons, List.mem_append] at hq ⊢
    rcases hq with (hq | hq) | hq
    · exact Or.inl (Or.inl hq)
    · exact (hgp q hq).imp (fun h => Or.inr (Or.inl h)) id
    · exact Or.inl (Or.inr (Or.inr hq))
  · refine hkg.mono fun q hq => ?_
    simp only [List.flatMap_append, List.flatMap_cons, List.mem_append]
    exact Or.inr (Or.inl hq)

theorem Grew.not_mem (hg : Grew c st st' x ks ks') (hlt : p < st.hdr.pagecnt) (hp : p ∉ ks.flatMap MTree.pages) :
    p ∉ ks'.flatMap MTree.pages := fun hm =>
  (hg.pages p hm).elim hp fun hge => absurd hlt (not_lt.2 hge)

theorem Grew.grown_node (hg : Grew c st st' x ks ks') (hw : Grown [p] st' st2) :
    Grown ([MTree.node p ss ks].flatMap MTree.pages) st st2 := by
  rw [List.flatMap_singleton, MTree.pages_node]
  refine (hg.grown.mono fun q hq => List.mem_cons_of_mem _ hq).trans hw fun q hq _ => ?_
  rw [List.mem_singleton.1 hq]
  exact List.mem_cons_self

/-- An internal page whose list of subtrees took the entry. -/
theorem Grew.node (hg : Grew c st st' x ks ks') (h0 : p ≠ 0) (hlt : p < st.hdr.pagecnt) (hp : p ∉ ks.flatMap MTree.pages)
    (hw : Grown [p] st' st2) (hes : (st2.file p).ents = ss') (hps : (st2.file p).pnos = ks'.map MTree.page)
    (hsep : MTree.Sepd SameKey ss' ks') (hcap : ss'.length ≤ st.hdr.norecpp) (hpop : 0 < ss.length → 0 < ss'.length) :
    Grew c st st2 x [.node p ss ks] [.node p ss' ks'] := by
  have hp' := hg.not_mem hlt hp
  obtain ⟨L, M, h1, h2, hL, hM⟩ := hg.entries
  refine ⟨?_, ?_, ?_, ?_, ?_, ⟨L, M, by simpa using h1, by simpa using h2, hL, hM⟩, ?_, ?_, hg.grown_node hw⟩ <;>
    simp only [List.mem_singleton, forall_eq, List.flatMap_singleton, MTree.pages_node]
  · refine .node h0 (hlt.trans_le (hg.grown.le.trans hw.le)) hes hps fun k hk => (hg.stored k hk).grown hw fun q hq hqp => ?_
    rw [List.mem_singleton.1 hqp] at hq
    exact hp' (List.mem_flatMap.2 ⟨k, hk, hq⟩)
  · exact .node hsep hg.shape
  · exact .node hcap hg.sized
  · intro d hd
    obtain ⟨e, rfl, hk⟩ := hd.kids
    exact .node (hg.depth e hk)
  · intro hd
    obtain ⟨h1, h2⟩ := MTree.sized_node.1 hd
    exact .node (hpop h1) (hg.populated h2)
  · exact List.nodup_cons.2 ⟨hp', hg.nodup⟩
  · intro q hq
    rcases List.mem_cons.1 hq with rfl | hq
    · exact Or.inl List.mem_cons_self
    · exact (hg.pages q hq).imp (List.mem_cons_of_mem _) id

/-- The two halves of an internal page whose list of subtrees took the entry. -/
theorem Grew.nodeSplit {n : Nat} (hg : Grew c st st' x ks ks') (h0 : p ≠ 0) (hlt : p < st.hdr.pagecnt)
    (hp : p ∉ ks.flatMap MTree.pages) (hw : Grown [p] st' st2) (hc : st2.hdr.pagecnt = st'.hdr.pagecnt + 1)
    (hl1 : (st2.file p).ents = ss'.take n) (hl2 : (st2.file p).pnos = (ks'.map MTree.page).take (n + 1))
    (hr1 : (st2.file st'.hdr.pagecnt).ents = ss'.drop (n + 1))
    (hr2 : (st2.file st'.hdr.pagecnt).pnos = (ks'.map MTree.page).drop (n + 1))
    (hsep : MTree.Sepd SameKey ss' ks') (h1n : 0 < n) (hn : n + 1 < ss'.length) (hcap : ss'.length ≤ st.hdr.norecpp + 1)
    (hn' : n ≤ st.hdr.norecpp) :
    Grew c st st2 x [.node p ss ks] [.node p (ss'.take n) (ks'.take (n + 1)),
      .node st'.hdr.pagecnt (ss'.drop (n + 1)) (ks'.drop (n + 1))] := by
  have hp' := hg.not_mem hlt hp
  have hlt' : p < st'.hdr.pagecnt := hlt.trans_le hg.grown.le
  have hkst : ∀ k ∈ ks', Stored st2 k := fun k hk => (hg.stored k hk).grown hw fun q hq hqp => by
    rw [List.mem_singleton.1 hqp] at hq
    exact hp' (List.mem_flatMap.2 ⟨k, hk, hq⟩)
  have hf : st'.hdr.pagecnt ∉ ks'.flatMap MTree.pages := fun hm => by
    obtain ⟨k, hk, hq⟩ := List.mem_flatMap.1 hm
    exact lt_irrefl _ ((hg.stored k hk).pages_lt _ hq)
  have hks : (ks'.take (n + 1)).flatMap MTree.pages ++ (ks'.drop (n + 1)).flatMap MTree.pages = ks'.flatMap MTree.pages := by
    rw [← List.flatMap_append, List.take_append_drop]
  have hke : (ks'.take (n + 1)).flatMap MTree.entries ++ (ks'.drop (n + 1)).flatMap MTree.entries = ks'.flatMap MTree.entries := by
    rw [← List.flatMap_append, List.take_append_drop]
  have hnd := hg.nodup
  rw [← hks] at hp' hf hnd
  obtain ⟨L, M, h1, h2, hL, hM⟩ := hg.entries
  refine ⟨?_, ?_, ?_, ?_, ?_, ⟨L, M, by simpa using h1, by simp [hke, h2], hL, hM⟩, ?_, ?_, hg.grown_node hw⟩ <;>
    simp only [List.mem_cons, List.not_mem_nil, or_false, forall_eq_or_imp, forall_eq, List.flatMap_cons, List.flatMap_nil,
      List.append_nil, MTree.pages_node]
  · refine ⟨.node h0 (hlt'.trans_le hw.le) hl1 (by rw [hl2, List.map_take]) fun k hk => hkst k (List.mem_of_mem_take hk),
      .node (hlt'.trans_le' (Nat.zero_le _)).ne' (by rw [hc]; exact Nat.lt_succ_self _) hr1 (by rw [hr2, List.map_drop])
        fun k hk => hkst k (List.mem_of_mem_drop hk)⟩
  · exact ⟨.node (hsep.take (by omega)) fun k hk => hg.shape k (List.mem_of_mem_take hk),
      .node (hsep.drop hn.le) fun k hk => hg.shape k (List.mem_of_mem_drop hk)⟩
  · exact ⟨.node (by rw [List.length_take]; omega) fun k hk => hg.sized k (List.mem_of_mem_take hk),
      .node (by rw [List.length_drop]; omega) fun k hk => hg.sized k (List.mem_of_mem_drop hk)⟩
  · intro d hd
    obtain ⟨e, rfl, hk⟩ := hd.kids
    exact ⟨.node fun k hk' => hg.depth e hk k (List.mem_of_mem_take hk'), .node fun k hk' => hg.depth e hk k (List.mem_of_mem_drop hk')⟩
  · intro hd
    obtain ⟨-, h2⟩ := MTree.sized_node.1 hd
    exact ⟨.node (by rw [List.length_take]; omega) fun k hk => hg.populated h2 k (List.mem_of_mem_take hk),
      .node (by rw [List.length_drop]; omega) fun k hk => hg.populated h2 k (List.mem_of_mem_drop hk)⟩
  · simp only [List.mem_append, not_or] at hp' hf
    rw [List.cons_append, List.nodup_cons, List.mem_append, List.mem_cons, not_or, not_or]
    refine ⟨⟨hp'.1, hlt'.ne, hp'.2⟩, ?_⟩
    rw [List.nodup_middle, List.nodup_cons, List.mem_append, not_or]
    exact ⟨hf, hnd⟩
  · intro q hq
    simp only [List.cons_append, List.mem_cons, List.mem_append] at hq ⊢
    rcases hq with rfl | hq | rfl | hq
    · exact Or.inl (Or.inl rfl)
    · exact (hg.pages q (by rw [← hks]; exact List.mem_append_left _ hq)).imp Or.inr id
    · exact Or.inr hg.grown.le
    · exact (hg.pages q (by rw [← hks]; exact List.mem_append_right _ hq)).imp Or.inr id

/-! ## Promotions and clashes of an internal page -/

theorem promotes_node_iff {cap n : Nat} (hr : MTree.Routes c A k B) :
    Promotes cap c x (.node p ss (A ++ k :: B)) n ↔
      ss.length = cap ∧ ∃ m, Promotes cap c x k m ∧ ((ss.map Ent.recno).insertIdx A.length m)[cap / 2]? = some n := by
  constructor
  · intro h
    generalize hks : A ++ k :: B = ks at h
    cases h with
    | @node _ _ A' B' k' m e key hr' hk hfull hmid =>
      obtain ⟨rfl, rfl, rfl⟩ := MTree.Routes.unique hks hr hr'
      refine ⟨hfull, m, hk, ?_⟩
      have := List.map_insertIdx Ent.recno ss A.length ⟨key, m⟩
      rw [← this, List.getElem?_map, hmid]; rfl
  · rintro ⟨hfull, m, hk, hmid⟩
    have := List.map_insertIdx Ent.recno ss A.length ⟨[], m⟩
    rw [← this, List.getElem?_map, Option.map_eq_some_iff] at hmid
    obtain ⟨e, he, rfl⟩ := hmid
    exact .node [] hr hk hfull he

theorem clash_node_iff {cap : Nat} (hr : MTree.Routes c A k B) :
    Clash cap c x (.node p ss (A ++ k :: B)) ↔
      Clash cap c x k ∨ Promotes cap c x k 0 ∧ ss.length = cap ∧ cap / 2 < A.length := by
  constructor
  · intro h
    generalize hks : A ++ k :: B = ks at h
    cases h with
    | here hr' hk hfull hright =>
      obtain ⟨rfl, rfl, rfl⟩ := MTree.Routes.unique hks hr hr'
      exact Or.inr ⟨hk, hfull, hright⟩
    | inside hr' hk =>
      obtain ⟨rfl, rfl, rfl⟩ := MTree.Routes.unique hks hr hr'
      exact Or.inl hk
  · rintro (hk | ⟨hk, hfull, hright⟩)
    · exact .inside hr hk
    · exact .here hr hk hfull hright

/-- Where an entry of the chosen subtree is no duplicate, none is. -/
theorem noDup_of_kid (hr : MTree.Routes c A k B) (hf : Falling c ((A ++ k :: B).flatMap MTree.entries))
    (hk : ∀ e ∈ k.entries, c e ≠ 0) : ∀ e ∈ (A ++ k :: B).flatMap MTree.entries, c e ≠ 0 := by
  have hA := hr.pos_before hf
  have hB : ∀ e ∈ B.flatMap MTree.entries, c e < 0 := by
    rcases B with _ | ⟨b, B⟩
    · simp
    · obtain ⟨y, hy, hle⟩ := hr.after (by simp)
      have hne := hk y (List.mem_of_getLast? hy)
      exact MTree.neg_after hf hy (by omega)
  intro e he
  simp only [List.flatMap_append, List.flatMap_cons, List.mem_append] at he
  rcases he with he | he | he
  · exact (hA e he).ne'
  · exact hk e he
  · exact (hB e he).ne

theorem Promotes.noDup {cap n : Nat} {t : Tree} (h : Promotes cap c x t n) (hf : Falling c t.entries) : ∀ e ∈ t.entries, c e ≠ 0 := by
  induction h with
  | leaf hP hR =>
    intro e he
    rw [MTree.entries_leaf] at he
    rcases List.mem_append.1 he with he | he
    · exact (hP e he).ne'
    · exact (hR e he).ne
  | node _ hr hk hfull hmid ih =>
    rw [MTree.entries_node] at hf ⊢
    exact noDup_of_kid hr hf (ih (MTree.falling_kid hf (by simp)))

theorem Clash.noDup {cap : Nat} {t : Tree} (h : Clash cap c x t) (hf : Falling c t.entries) : ∀ e ∈ t.entries, c e ≠ 0 := by
  induction h with
  | here hr hk =>
    rw [MTree.entries_node] at hf ⊢
    exact noDup_of_kid hr hf (hk.noDup (MTree.falling_kid hf (by simp)))
  | inside hr hk ih =>
    rw [MTree.entries_node] at hf ⊢
    exact noDup_of_kid hr hf (ih (MTree.falling_kid hf (by simp)))

/-! ## An internal page after the insertion into a subtree -/

/-- An internal page of a stored tree, at the subtree `k` that an entry which is no duplicate belongs to. -/
structure NodeAt (c : Ent → Int) (st : Ndx) (p : Pageno) (ss : List Ent) (A : List Tree) (k : Tree) (B : List Tree) :
    Prop where
  page_ne : p ≠ 0
  page_lt : p < st.hdr.pagecnt
  ents : (st.file p).ents = ss
  pnos : (st.file p).pnos = (A ++ k :: B).map MTree.page
  kids : ∀ j ∈ A ++ k :: B, Stored st j
  sepd : MTree.Sepd SameKey ss (A ++ k :: B)
  shape : ∀ j ∈ A ++ k :: B, j.Shape SameKey
  cap : ss.length ≤ st.hdr.norecpp
  sized : ∀ j ∈ A ++ k :: B, j.Sized (· ≤ st.hdr.norecpp)
  fresh : p ∉ (A ++ k :: B).flatMap MTree.pages
  nodup : ((A ++ k :: B).flatMap MTree.pages).Nodup
  routes : MTree.Routes c A k B
  before : ∀ e ∈ A.flatMap MTree.entries, 0 < c e
  after : ∀ e ∈ B.flatMap MTree.entries, c e < 0
  last : B ≠ [] → ∃ y, k.last? = some y ∧ c y < 0

namespace NodeAt

theorem grew (h : NodeAt c st p ss A k B) (hg : Grew c st st' x [k] ts) : Grew c st st' x (A ++ k :: B) (A ++ ts ++ B) :=
  hg.kids h.kids h.shape h.sized h.nodup h.before h.after

theorem file_eq (h : NodeAt c st p ss A k B) (hg : Grew c st st' x [k] ts) : st'.file p = st.file p :=
  hg.grown.file p h.page_lt fun hm => h.fresh (by
    rw [List.flatMap_singleton] at hm
    exact List.mem_flatMap.2 ⟨k, by simp, hm⟩)

theorem last_eq (h : NodeAt c st p ss A k B) (ts : List Tree) (hg : Grew c st st' x [k] (ts ++ [r])) (hB : B ≠ []) : r.last? = k.last? := by
  obtain ⟨y, hy, hneg⟩ := h.last hB
  rw [hy, ← hg.getLast hy hneg, MTree.getLast?_flatMap_entries (hg.shape r (by simp)).entries_ne_nil]

/-- The subtree took the entry. -/
theorem fit (h : NodeAt c st p ss A k B) {k' : Tree} {target' : NdxEntry} (hrec : target'.recno = 0) (hpno : target'.pno = 0)
    (hpage : k'.page = k.page) (hg : Grew c st st' target.ent [k] [k'])
    (hpr : ∀ n, ¬Promotes st.hdr.norecpp c target.ent k n) (hnc : ¬Clash st.hdr.norecpp c target.ent k) :
    InsPost c st target (.node p ss (A ++ k :: B)) (.ok (.zero, target') st') := by
  have hkids := h.grew hg
  rw [List.append_assoc, List.singleton_append] at hkids
  have hfile := h.file_eq hg
  refine .fit (.node p ss (A ++ k' :: B)) hrec hpno rfl
    (hkids.node h.page_ne h.page_lt h.fresh (.of_cursor [p] (CursorOnly.refl st')) (by rw [hfile, h.ents])
      (by rw [hfile, h.pnos]; simp [hpage]) (h.sepd.replace k' fun hB => h.last_eq [] hg hB) h.cap id) (fun n hn => ?_) ?_
  · obtain ⟨-, m, hm, -⟩ := (promotes_node_iff h.routes).1 hn
    exact hpr m hm
  · rw [clash_node_iff h.routes]
    rintro (h1 | ⟨h1, -⟩)
    · exact hnc h1
    · exact hpr 0 h1

/-- The subtree became two. -/
theorem split (h : NodeAt c st p ss A k B) (h2 : 2 ≤ st.hdr.norecpp) (hkt : st.hdr.keytyp &&& 0x7f = st.hdr.keytyp)
    {target' : NdxEntry} (hpage : l.page = k.page) (hnew : target'.pno = r.page)
    (hsep : ∃ e, l.last? = some e ∧ SameKey target'.ent e) (hg : Grew c st st' target.ent [k] [l, r])
    (hpr : ∀ n, Promotes st.hdr.norecpp c target.ent k n ↔ n = target'.recno) (hnc : ¬Clash st.hdr.norecpp c target.ent k) :
    InsPost c st target (.node p ss (A ++ k :: B)) ((putEntry (st.file p) p A.length target' >>= fun t => pure (.zero, t)) st') := by
  have hkids := h.grew hg
  rw [show A ++ [l, r] ++ B = A ++ l :: r :: B by simp] at hkids
  have hcnt : (st.file p).entryCnt = ss.length := by rw [← h.ents, NdxPage.length_ents]
  have hlen := h.sepd.length_kid
  have hcapeq : st'.hdr.norecpp = st.hdr.norecpp := by rw [hg.grown.hdr]
  have hkteq : st'.hdr.keytyp = st.hdr.keytyp := by rw [hg.grown.hdr]
  have hr0 : target'.pno ≠ 0 := by rw [hnew]; exact (hg.stored r (by simp)).page_ne
  have hleaf : ((st.file p).entries 0).pno ≠ 0 := NdxPage.pno_ne_zero h.pnos fun j hj => (h.kids j hj).page_ne
  have ha : Accepts (st.file p) target' := by rw [Accepts, if_neg hleaf]; exact hr0
  have hr' : A.length ≤ (st.file p).entryCnt := by omega
  have hsepd : MTree.Sepd SameKey (ss.insertIdx A.length target'.ent) (A ++ l :: r :: B) :=
    h.sepd.insert hsep fun hB => h.last_eq [l] hg hB
  have hpns : (st.file p).pnos.insertIdx (A.length + 1) target'.pno = (A ++ l :: r :: B).map MTree.page := by
    have := MTree.insertIdx_length_append target'.pno ((A ++ [k]).map MTree.page) (B.map MTree.page)
    rw [h.pnos]
    simp only [List.length_map, List.length_append, List.length_singleton] at this
    simpa [hpage, hnew] using this
  have hinslen : (ss.insertIdx A.length target'.ent).length = ss.length + 1 := by rw [List.length_insertIdx, if_pos (by omega)]
  have hlt' : p < st'.hdr.pagecnt := h.page_lt.trans_le hg.grown.le
  by_cases hroom : (st.file p).entryCnt < st'.hdr.norecpp
  · obtain ⟨st2, hput, hw, he', hn'⟩ := putEntry_room [p] hroom hr' ha List.mem_cons_self
    rw [h.ents] at he'
    rw [hpns] at hn'
    rw [NdxM.bind_ok hput, NdxM.pure_apply]
    refine .fit (.node p (ss.insertIdx A.length target'.ent) (A ++ l :: r :: B)) rfl rfl rfl
      (hkids.node h.page_ne h.page_lt h.fresh hw he' hn' hsepd (by omega) (by omega)) (fun n hn => ?_) ?_
    · have := ((promotes_node_iff h.routes).1 hn).1
      omega
    · rw [clash_node_iff h.routes]
      rintro (h1 | ⟨-, h1, -⟩)
      · exact hnc h1
      · omega
  have hfull : (st.file p).entryCnt = st'.hdr.norecpp := by have := h.cap; omega
  by_cases hcl : st.hdr.norecpp / 2 < A.length ∧ target'.recno = 0
  · rw [NdxM.bind_error (putEntry_refused hfull hr' (by omega) hcl.2)]
    exact .clash ((clash_node_iff h.routes).2 (Or.inr ⟨(hpr 0).2 hcl.2.symm, by omega, hcl.1⟩))
  have hsa : SplitAccepts (st.file p) (st'.hdr.norecpp / 2) A.length target' := by
    unfold SplitAccepts
    split
    · exact ha
    · exact fun h0 => hcl ⟨by omega, h0⟩
  obtain ⟨target2, st2, hput, hw, hc, htp, hl1, hl2, hr1, hr2, hmid⟩ :=
    putEntry_split [p] hfull (by omega) hr' (by rw [hkteq]; exact hkt) hsa List.mem_cons_self hlt'
  have hkeep : keepCnt (st.file p) (st'.hdr.norecpp / 2) = st'.hdr.norecpp / 2 := if_neg hleaf
  rw [h.ents] at hl1 hr1 hmid
  rw [hpns] at hl2 hr2
  rw [hkeep] at hl1 hl2
  rw [NdxM.bind_ok hput, NdxM.pure_apply]
  refine .split (l := .node p ((ss.insertIdx A.length target'.ent).take (st'.hdr.norecpp / 2))
      ((A ++ l :: r :: B).take (st'.hdr.norecpp / 2 + 1)))
    (r := .node st'.hdr.pagecnt ((ss.insertIdx A.length target'.ent).drop (st'.hdr.norecpp / 2 + 1))
      ((A ++ l :: r :: B).drop (st'.hdr.norecpp / 2 + 1))) rfl htp ?_
    (hkids.nodeSplit h.page_ne h.page_lt h.fresh hw hc hl1 hl2 hr1 hr2 hsepd (by omega) (by omega) (by omega) (by omega)) (fun n => ?_) ?_
  · exact hsepd.take_last hmid fun j hj => (hkids.shape j hj).entries_ne_nil
  · rw [promotes_node_iff h.routes, and_iff_right (by omega)]
    have hm := congrArg (Option.map Ent.recno) hmid
    rw [← List.getElem?_map, List.map_insertIdx, hcapeq] at hm
    constructor
    · rintro ⟨m, hm1, hm2⟩
      rw [(hpr m).1 hm1] at hm2
      exact Option.some.inj (hm2.symm.trans hm)
    · rintro rfl
      exact ⟨_, (hpr _).2 rfl, hm⟩
  · rw [clash_node_iff h.routes]
    rintro (h1 | ⟨h1, -, h3⟩)
    · exact hnc h1
    · exact hcl ⟨h3, ((hpr 0).1 h1).symm⟩

end NodeAt

/-! ## The recursion -/

/-- Insertion below a page of a stored tree. -/
theorem btsrin_ok {t : Tree} (hst : Stored st t) (hsh : t.Shape SameKey) (hsz : t.Sized (· ≤ st.hdr.norecpp))
    (hnd : t.pages.Nodup) (hf : Falling (insCmp cfg st.hdr target) t.entries)
    (hkt : st.hdr.keytyp &&& 0x7f = st.hdr.keytyp) (h2 : 2 ≤ st.hdr.norecpp) (hrec : target.recno ≠ 0) (hpno : target.pno = 0)
    (hfuel : t.height < fuel) : InsPost (insCmp cfg st.hdr target) st target t (btsrin cfg fuel t.page target st) := by
  induction t using MTree.ind generalizing fuel with
  | leaf p es =>
    obtain ⟨fuel, rfl⟩ : ∃ n, fuel = n + 2 := ⟨fuel - 2, by rw [MTree.height_leaf] at hfuel; omega⟩
    cases hsz with
    | leaf hcap => exact btsrin_leaf hst hkt h2 hcap (by simpa using hf) hrec hpno
  | node p ss ks ih =>
    cases hst with
    | node h0 hlt hes hps hkst =>
    cases hsh with
    | node hsep hksh =>
    cases hsz with
    | node hcap hksz =>
    obtain ⟨fuel, rfl⟩ : ∃ n, fuel = n + 1 := ⟨fuel - 1, by omega⟩
    have hkh : ∀ k ∈ ks, k.height < fuel := fun k hk => by
      have := MTree.height_kid p ss hk
      omega
    rw [MTree.pages_node] at hnd
    obtain ⟨hp, hnd⟩ := List.nodup_cons.1 hnd
    rw [MTree.entries_node] at hf
    obtain ⟨k0, B0, hks0⟩ := List.exists_cons_of_ne_nil hsep.ne_nil
    have hcnt : (st.file p).entryCnt = ss.length := by rw [← hes, NdxPage.length_ents]
    have hB0 : (st.file p).entryCnt = B0.length := by
      have := hsep.len
      rw [hks0, List.length_cons] at this
      omega
    have hpn0 : ((st.file p).entries 0).pno = k0.page := (NdxPage.pno_kid (A := []) (hks0 ▸ hps)).2
    obtain ⟨A, k, B, e, rfl, hloop, hA, hstop⟩ := slotLoop_kids (btsrinCmp cfg fuel (st.file p) target) st
      (c := insCmp cfg st.hdr target) hps (fun A k b B h => by
        have hkm : k ∈ ks := by rw [h]; simp
        obtain ⟨hi, x, hx, hkey⟩ := sep_key (h ▸ hsep) hes
        exact ⟨x, hx, btsrinCmp_kid (hkst k hkm) (hksh k hkm) (hkh k hkm).le hx hi hkey⟩) B0 [] k0 hks0 (by simp)
    have hkm : k ∈ A ++ k :: B := by simp
    have hr := hstop.routes hA
    rw [List.length_nil] at hloop
    rw [btsrin, MTree.page, if_neg h0, NdxM.bind_ok (getpage_ok hlt),
      NdxM.bind_ok (neGetPageno_ok (i := 0) (n := 0) rfl (Nat.zero_le _)), hpn0, hB0, NdxM.bind_ok hloop]
    dsimp only
    have hkpost := ih k hkm (hkst k hkm) (hksh k hkm) (hksz k hkm)
      (by
        rw [List.flatMap_append, List.flatMap_cons] at hnd
        exact (List.nodup_append.1 (List.nodup_append.1 hnd).2.1).1)
      (MTree.falling_kid hf hkm) (hkh k hkm)
    by_cases he : e = 0
    · rw [if_pos he]
      obtain ⟨-, h1⟩ | ⟨-, x, hx, hex, -⟩ := hstop
      · omega
      · exact .dup ⟨x, by rw [MTree.entries_node]; exact List.mem_flatMap.2 ⟨k, hkm, List.mem_of_getLast? hx⟩, by omega⟩
    rw [if_neg he]
    have hneg : B ≠ [] → ∃ x, k.last? = some x ∧ insCmp cfg st.hdr target x < 0 := fun hB => by
      obtain ⟨h1, -⟩ | ⟨-, x, hx, hex, hle⟩ := hstop
      · exact absurd h1 hB
      · exact ⟨x, hx, by omega⟩
    have hposA := hr.pos_before hf
    have hnegB : ∀ e ∈ B.flatMap MTree.entries, insCmp cfg st.hdr target e < 0 := by
      rcases B with _ | ⟨b, B⟩
      · simp
      · obtain ⟨x, hx, hlt0⟩ := hneg (by simp)
        exact MTree.neg_after hf hx hlt0
    have hat : NodeAt (insCmp cfg st.hdr target) st p ss A k B :=
      ⟨h0, hlt, hes, hps, hkst, hsep, hksh, hcap, hksz, hp, hnd, hr, hposA, hnegB, hneg⟩
    rw [NdxM.bind_apply]
    generalize btsrin cfg fuel k.page target st = res at hkpost
    cases hkpost with
    | dup hdup =>
      obtain ⟨x, hx, hx0⟩ := hdup
      exact .dup ⟨x, by rw [MTree.entries_node]; exact List.mem_flatMap.2 ⟨k, hkm, hx⟩, hx0⟩
    | clash hc => exact .clash ((clash_node_iff hr).2 (Or.inl hc))
    | fit t' hrec' hpno' hpage hg hpr hnc =>
      dsimp only
      rw [if_neg (by simp), if_neg (by simp [hrec', hpno'])]
      exact hat.fit hrec' hpno' hpage hg hpr hnc
    | @split st' l r target' hpage hnew hsep' hg hpr hnc =>
      dsimp only
      have hr0 : target'.pno ≠ 0 := by rw [hnew]; exact (hg.stored r (by simp)).page_ne
      rw [if_neg (by simp), if_pos (Or.inr hr0)]
      exact hat.split h2 hkt hpage hnew hsep' hg hpr hnc

end Node

end Db3w
