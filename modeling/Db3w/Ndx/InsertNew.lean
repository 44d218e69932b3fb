/-
Insertion into a character-key index. A well-formed index holds at most one tree, ordered by key
and record, with all leaves at one depth. Inserting an entry reports a duplicate exactly when there
is one; otherwise it succeeds, and leaves a well-formed index with the old entries and the new one,
exactly when no split on the way is refused.
-/
import Db3w.Ndx.CharKey
import Db3w.Ndx.Insert
import Db3w.Ndx.Layout

namespace Db3w

/-- The entries of the tree an index holds. -/
def entriesOf (ot : Option Tree) : List Ent := ot.elim [] MTree.entries

/-- The height of the tree an index holds. -/
def heightOf (ot : Option Tree) : Nat := ot.elim 0 MTree.height

/-- A well-formed single-part character-key index. -/
structure CharIndex (st : Ndx) (ot : Option Tree) : Prop where
  index : Index st ot
  keytyp : st.hdr.keytyp = 0
  pagecnt : 0 < st.hdr.pagecnt
  sorted : (entriesOf ot).Pairwise fun a b => a.rank < b.rank
  keylen : ∀ e ∈ entriesOf ot, e.key.length = st.hdr.keylen
  shape : ∀ t ∈ ot, t.Shape SameKey ∨ ∃ p, t = .leaf p []
  sized : ∀ t ∈ ot, t.Sized (· ≤ st.hdr.norecpp)
  depth : ∀ t ∈ ot, ∃ d, t.AtDepth d
  nodup : ∀ t ∈ ot, t.pages.Nodup

/-- What an insertion asks of an index and keeps: leaves may be at several depths, as deletions leave them. -/
structure PagedIndex (st : Ndx) (ot : Option Tree) : Prop where
  index : Index st ot
  keytyp : st.hdr.keytyp = 0
  pagecnt : 0 < st.hdr.pagecnt
  sorted : (entriesOf ot).Pairwise fun a b => a.rank < b.rank
  keylen : ∀ e ∈ entriesOf ot, e.key.length = st.hdr.keylen
  shape : ∀ t ∈ ot, t.Shape SameKey ∨ ∃ p, t = .leaf p []
  sized : ∀ t ∈ ot, t.Sized (· ≤ st.hdr.norecpp)
  nodup : ∀ t ∈ ot, t.pages.Nodup

theorem CharIndex.paged {st : Ndx} {ot : Option Tree} (h : CharIndex st ot) : PagedIndex st ot :=
  ⟨h.index, h.keytyp, h.pagecnt, h.sorted, h.keylen, h.shape, h.sized, h.nodup⟩

/-- The entry is in the index already; with UNIQUE, one with its key is. -/
def Dup (cfg : Cfg) (target : NdxEntry) (L : List Ent) : Prop :=
  if cfg.uniqueOn then ∃ e ∈ L, e.key = target.key else target.ent ∈ L

/-- `insert_new` does what it is for: a duplicate is reported and nothing changed; any other entry
is added to a well-formed index. -/
def InsertsRight (cfg : Cfg) (fuel : Nat) (st : Ndx) (ot : Option Tree) (target : NdxEntry) : Prop :=
  (Dup cfg target (entriesOf ot) → insertNew cfg fuel target st = .ok 0 st) ∧
  (¬Dup cfg target (entriesOf ot) → ∃ st' t', insertNew cfg fuel target st = .ok 1 st' ∧ CharIndex st' (some t') ∧
    ∃ L M, entriesOf ot = L ++ M ∧ t'.entries = L ++ target.ent :: M)

section Root

variable {st st1 : Ndx} {cfg : Cfg} {fuel : Nat} {target target' : NdxEntry} {t l r : Tree} {ot : Option Tree} {c : Ent → Int} {x : Ent}
  {L : List Ent}

theorem saveRoot_ok (st : Ndx) (cfg : Cfg) (hkt : st.hdr.keytyp &&& 0x7f = st.hdr.keytyp) :
    ∃ st', saveRoot cfg st = .ok () st' ∧ st'.hdr = st.hdr ∧ st'.file = st.file ∧ st'.fsync = st.fsync ∧ st'.seq = st.seq ∧
      (st'.hdrPage = st'.hdr ∨ st'.wHdr = true) := by
  unfold saveRoot
  split
  · exact ⟨{ st with wHdr := true }, rfl, rfl, rfl, rfl, rfl, Or.inr rfl⟩
  · refine ⟨{ st with hdrPage := st.hdr }, ?_, rfl, rfl, rfl, rfl, Or.inl rfl⟩
    simp only [writeNdxHdr, NdxM.modify_apply, hkt]

/-- A new root is put on a new page. -/
theorem newRoot_ok (cfg : Cfg) (st : Ndx) (hkt : st.hdr.keytyp &&& 0x7f = st.hdr.keytyp)
    (ha : if st.hdr.rootno = 0 then target.recno ≠ 0 else target.pno ≠ 0) :
    ∃ st', newRoot cfg target st = .ok () st' ∧
      st'.hdr = { st.hdr with rootno := st.hdr.pagecnt, pagecnt := st.hdr.pagecnt + 1 } ∧
      (st'.file st.hdr.pagecnt).ents = [target.ent] ∧ (st'.file st.hdr.pagecnt).pnos = [st.hdr.rootno, target.pno] ∧
      (∀ q, q ≠ st.hdr.pagecnt → st'.file q = st.file q) ∧ st'.fsync = st.fsync ∧ st'.seq = st.seq ∧
      (st'.hdrPage = st'.hdr ∨ st'.wHdr = true) := by
  let hdr := { st.hdr with rootno := st.hdr.pagecnt, pagecnt := st.hdr.pagecnt + 1 }
  let pg : NdxPage := NdxPage.set { zeroPage with entryCnt := 1 } 0 ⟨st.hdr.rootno, 0, []⟩
  obtain ⟨pg', st2, hins, ⟨pn, en, rfl⟩, hc, he, hn⟩ := insertEntry_ok { st with hdr := hdr } 0 (p := pg) (j := 0) (r := 0) rfl le_rfl ha
  obtain ⟨st3, hs, h1, h2, h3, h4, h5⟩ := saveRoot_ok
    { st with hdr := hdr, pageNo := pn, entryNo := en, file := Function.update st.file st.hdr.pagecnt pg' } cfg hkt
  dsimp only at h1 h2 h3 h4 hins
  have hput : nePutPageno { zeroPage with entryCnt := 1 } 0 st.hdr.rootno st = .ok pg st := by
    rw [nePutPageno, NdxM.bind_ok (getEntry_ok (i := 0) (n := 0) rfl (Nat.zero_le _))]; rfl
  refine ⟨st3, ?_, h1, ?_, ?_, fun q hq => ?_, h3, h4, h5⟩
  · rw [newRoot, NdxM.bind_ok (NdxM.get_apply st), NdxM.bind_ok (getpage_new le_rfl), NdxM.bind_ok hput, NdxM.bind_ok (NdxM.modify_apply _ _),
      NdxM.bind_ok hins, NdxM.bind_ok (writePage_ok _ _), hs]
  · rw [h2, Function.update_self]
    refine NdxPage.ents_eq hc fun i hi => ?_
    obtain rfl : i = 0 := by rw [hc] at hi; exact Nat.lt_one_iff.1 hi
    rw [he, if_pos rfl]; rfl
  · rw [h2, Function.update_self]
    refine NdxPage.pnos_eq (by rw [hc]; rfl) fun i hi => ?_
    rw [hc] at hi
    rw [hn]
    obtain rfl | rfl : i = 0 ∨ i = 1 := by
      have : i ≤ 1 := hi
      omega
    · rfl
    · rfl
  · rw [h2, Function.update_of_ne hq]

/-- The index after the insertion of an entry that is no duplicate. -/
structure Inserted (c : Ent → Int) (st st' : Ndx) (ot : Option Tree) (x : Ent) (t' : Tree) : Prop where
  hdr : st'.hdr = { st.hdr with rootno := t'.page, pagecnt := st'.hdr.pagecnt }
  stored : Stored st' t'
  shape : t'.Shape SameKey
  sized : t'.Sized (· ≤ st.hdr.norecpp)
  depth : (∀ t ∈ ot, ∃ d, t.AtDepth d) → ∃ d, t'.AtDepth d
  populated : (∀ t ∈ ot, t.Sized (0 < ·)) → t'.Sized (0 < ·)
  nodup : t'.pages.Nodup
  entries : ∃ L M, entriesOf ot = L ++ M ∧ t'.entries = L ++ x :: M ∧ (∀ a ∈ L, 0 < c a) ∧ ∀ b ∈ M, c b < 0
  fsync : st'.fsync = st.fsync
  seq : st'.seq = st.seq
  sync : st.hdrPage = st.hdr ∨ st.wHdr = true → st'.hdrPage = st'.hdr ∨ st'.wHdr = true

theorem Inserted.no_dup {t' : Tree} (h : Inserted c st st1 ot x t') : ∀ e ∈ entriesOf ot, c e ≠ 0 := by
  obtain ⟨L, M, h1, -, hL, hM⟩ := h.entries
  intro e he
  rw [h1] at he
  rcases List.mem_append.1 he with he | he
  · exact (hL e he).ne'
  · exact (hM e he).ne

/-- The first entry of an empty index. -/
theorem insertNew_empty (h0 : st.hdr.rootno = 0) (hkt : st.hdr.keytyp &&& 0x7f = st.hdr.keytyp) (hpc : 0 < st.hdr.pagecnt)
    (h1 : 1 ≤ st.hdr.norecpp) (hrec : target.recno ≠ 0) (hpno : target.pno = 0) :
    ∃ st' t', insertNew cfg (fuel + 1) target st = .ok 1 st' ∧ Inserted c st st' none target.ent t' := by
  obtain ⟨st', hnew, hh, he, hn, hq, hfs, hsq, hs⟩ := newRoot_ok cfg st hkt (by rw [if_pos h0]; exact hrec)
  refine ⟨st', .leaf st.hdr.pagecnt [target.ent], ?_, ⟨?_, ?_, .leaf (by simp), .leaf (by simpa using h1), fun _ => ⟨0, .leaf⟩, fun _ => .leaf (by simp), by simp,
    ⟨[], [], rfl, by simp, by simp, by simp⟩, hfs, hsq, fun _ => hs⟩⟩
  · have hup : btsrin cfg (fuel + 1) 0 target st = .ok (.zero, target) st := rfl
    rw [insertNew, NdxM.bind_ok (NdxM.get_apply st), h0, NdxM.bind_ok hup]
    dsimp only
    rw [if_neg (by simp), if_pos (Or.inl hrec), NdxM.bind_ok hnew]; rfl
  · rw [hh]; rfl
  · exact .leaf hpc.ne' (by rw [hh]; exact Nat.lt_succ_self _) he (by rw [hn, h0, hpno]; rfl)

/-- The root of a tree after an insertion: an error, a duplicate, or a new tree. -/
theorem insertNew_root (hroot : st.hdr.rootno = t.page) (hkt : st.hdr.keytyp &&& 0x7f = st.hdr.keytyp) (h2 : 2 ≤ st.hdr.norecpp)
    (hpost : InsPost c st target t (btsrin cfg fuel t.page target st)) :
    ((∃ e ∈ t.entries, c e = 0) ∧ insertNew cfg fuel target st = .ok 0 st) ∨
    (Clash st.hdr.norecpp c target.ent t ∧ ∃ e st', insertNew cfg fuel target st = .error (.invalidEntry e) st') ∨
    ¬Clash st.hdr.norecpp c target.ent t ∧ ∃ st' t', insertNew cfg fuel target st = .ok 1 st' ∧ Inserted c st st' (some t) target.ent t' := by
  rw [insertNew, NdxM.bind_ok (NdxM.get_apply st), hroot, NdxM.bind_apply]
  generalize btsrin cfg fuel t.page target st = res at hpost
  cases hpost with
  | dup hd => exact Or.inl ⟨hd, rfl⟩
  | clash hc => exact Or.inr (Or.inl ⟨hc, _, _, rfl⟩)
  | @fit st' t' target' hrec hpno hpage hg hpr hnc =>
    dsimp only
    rw [if_neg (by simp), if_neg (by simp [hrec, hpno])]
    refine Or.inr (Or.inr ⟨hnc, st', t', rfl, ?_, hg.stored t' (by simp), hg.shape t' (by simp), hg.sized t' (by simp),
      fun hd => (hd t rfl).imp fun d h => hg.depth d (by simpa using h) t' (by simp),
      fun hp => hg.populated (by simpa using hp) t' (by simp), by simpa using hg.nodup, by simpa [entriesOf] using hg.entries, hg.grown.fsync, hg.grown.seq,
      hg.grown.sync⟩)
    rw [hpage, ← hroot]
    exact hg.grown.hdr
  | @split st' l r target' hpage hnew hsep hg hpr hnc =>
    dsimp only
    have hr := hg.stored r (by simp)
    have hl := hg.stored l (by simp)
    have hroot' : st'.hdr.rootno = l.page := by rw [hg.grown.hdr, hpage, hroot]
    rw [if_neg (by simp), if_pos (Or.inr (by rw [hnew]; exact hr.page_ne))]
    obtain ⟨st2, hrun, hh, he, hn, hq, hfs, hsq, hs⟩ := newRoot_ok cfg st'
      (by rw [hg.grown.hdr]; exact hkt) (by rw [if_neg (by rw [hroot']; exact hl.page_ne), hnew]; exact hr.page_ne)
    rw [NdxM.bind_ok hrun]
    have hst2 : ∀ k ∈ [l, r], Stored st2 k := fun k hk => (hg.stored k hk).congr (by rw [hh]; exact Nat.le_succ _)
      fun q hq' => hq q ((hg.stored k hk).pages_lt q hq').ne
    have hnew' : st'.hdr.pagecnt ∉ [l, r].flatMap MTree.pages := fun hm => by
      obtain ⟨k, hk, hq'⟩ := List.mem_flatMap.1 hm
      exact lt_irrefl _ ((hg.stored k hk).pages_lt _ hq')
    refine Or.inr (Or.inr ⟨hnc, st2, .node st'.hdr.pagecnt [target'.ent] [l, r], rfl, ?_, ?_, ?_, ?_, ?_, ?_, ?_, ?_, ?_, ?_, fun _ => hs⟩)
    · rw [hh, hg.grown.hdr]; rfl
    · exact .node ((hl.page_lt.trans_le' (Nat.zero_le _)).ne') (by rw [hh]; exact Nat.lt_succ_self _) he
        (by rw [hn, hroot', hnew]; rfl) hst2
    · exact .node ⟨rfl, by simpa using hsep⟩ hg.shape
    · exact .node (by simp only [List.length_singleton]; omega) hg.sized
    · exact fun hd => (hd t rfl).elim fun d h => ⟨d + 1, .node (hg.depth d (by simpa using h))⟩
    · exact fun hp => .node (by simp) (hg.populated (by simpa using hp))
    · rw [MTree.pages_node]
      exact List.nodup_cons.2 ⟨hnew', hg.nodup⟩
    · simpa [entriesOf] using hg.entries
    · rw [hfs, hg.grown.fsync]
    · rw [hsq, hg.grown.seq]

end Root

/-! ## Character keys -/

section Char

variable {st st' : Ndx} {cfg : Cfg} {fuel : Nat} {target : NdxEntry} {t' : Tree} {ot : Option Tree} {x : Ent} {L : List Ent}

theorem insCmp_zero (cfg : Cfg) (ht : st.hdr.keytyp = 0) (hl : target.key.length = st.hdr.keylen) (h0 : 0 ∉ target.key.tail)
    (hx : ∀ x ∈ L, x.key.length = st.hdr.keylen) : (∃ e ∈ L, insCmp cfg st.hdr target e = 0) ↔ Dup cfg target L := by
  unfold Dup insCmp
  by_cases hu : cfg.uniqueOn = true
  · simp only [hu, if_true]
    refine exists_congr fun e => and_congr_right fun he => ?_
    rw [keyCmp_char ht hl h0 (hx e he), cmpOrd_zero, bytes_inj, eq_comm]
  · simp only [hu, if_false, Bool.false_eq_true]
    constructor
    · rintro ⟨e, he, hc⟩
      rw [entCmp_char ht hl h0 (hx e he), cmpOrd_zero] at hc
      rwa [Ent.rank_inj hc]
    · intro hm
      exact ⟨_, hm, by rw [entCmp_char ht hl h0 (hx _ hm), cmpOrd_zero]⟩

theorem insCmp_falling (cfg : Cfg) (ht : st.hdr.keytyp = 0) (hl : target.key.length = st.hdr.keylen) (h0 : 0 ∉ target.key.tail)
    (hx : ∀ x ∈ L, x.key.length = st.hdr.keylen) (hs : L.Pairwise fun a b => a.rank < b.rank) :
    Falling (insCmp cfg st.hdr target) L := by
  unfold insCmp
  split
  · exact falling_keyCmp ht hl h0 hx hs
  · exact falling_entCmp ht hl h0 hx hs

theorem rank_of_insCmp (cfg : Cfg) (ht : st.hdr.keytyp = 0) (hl : target.key.length = st.hdr.keylen) (h0 : 0 ∉ target.key.tail)
    (hx : x.key.length = st.hdr.keylen) : (0 < insCmp cfg st.hdr target x → x.rank < target.ent.rank) ∧
      (insCmp cfg st.hdr target x < 0 → target.ent.rank < x.rank) := by
  unfold insCmp
  split
  · rw [keyCmp_char ht hl h0 hx, cmpOrd_pos, cmpOrd_neg]
    exact ⟨fun h => Prod.Lex.toLex_lt_toLex.2 (Or.inl h), fun h => Prod.Lex.toLex_lt_toLex.2 (Or.inl h)⟩
  · rw [entCmp_char ht hl h0 hx, cmpOrd_pos, cmpOrd_neg]
    exact ⟨id, id⟩

theorem PagedIndex.inserted (h : PagedIndex st ot) (hl : target.key.length = st.hdr.keylen) (h0 : 0 ∉ target.key.tail)
    (hi : Inserted (insCmp cfg st.hdr target) st st' ot target.ent t') : PagedIndex st' (some t') := by
  obtain ⟨L, M, h1, h2, hL, hM⟩ := hi.entries
  have hrank : ∀ e ∈ entriesOf ot, _ := fun e he => rank_of_insCmp cfg h.keytyp hl h0 (h.keylen e he)
  have hsort := h.sorted
  have hkey := h.keylen
  rw [h1] at hsort hrank hkey
  have hcap : st'.hdr.norecpp = st.hdr.norecpp := by rw [hi.hdr]
  refine ⟨.some (by rw [hi.hdr]) hi.stored, by rw [hi.hdr]; exact h.keytyp,
    (Nat.zero_le _).trans_lt hi.stored.page_lt, ?_, ?_, ?_, ?_, ?_⟩
  · change t'.entries.Pairwise _
    rw [h2]
    obtain ⟨hsL, hsM, hsLM⟩ := List.pairwise_append.1 hsort
    refine List.pairwise_append.2 ⟨hsL, List.pairwise_cons.2 ⟨fun b hb => ?_, hsM⟩, fun a ha b hb => ?_⟩
    · exact (hrank b (List.mem_append_right _ hb)).2 (hM b hb)
    · rcases List.mem_cons.1 hb with rfl | hb
      · exact (hrank a (List.mem_append_left _ ha)).1 (hL a ha)
      · exact hsLM a ha b hb
  · change ∀ e ∈ t'.entries, _
    rw [h2, hi.hdr]
    intro e he
    rcases List.mem_append.1 he with he | he
    · exact hkey e (List.mem_append_left _ he)
    · rcases List.mem_cons.1 he with rfl | he
      · exact hl
      · exact hkey e (List.mem_append_right _ he)
  · simpa using Or.inl hi.shape
  · simpa [hcap] using hi.sized
  · simpa using hi.nodup

/-- An insertion leaves a well-formed index. -/
theorem CharIndex.inserted (h : CharIndex st ot) (hl : target.key.length = st.hdr.keylen) (h0 : 0 ∉ target.key.tail)
    (hi : Inserted (insCmp cfg st.hdr target) st st' ot target.ent t') : CharIndex st' (some t') := by
  have hp := h.paged.inserted hl h0 hi
  exact ⟨hp.index, hp.keytyp, hp.pagecnt, hp.sorted, hp.keylen, hp.shape, hp.sized, by simpa using hi.depth h.depth, hp.nodup⟩

/-- Somewhere in the index a split on the way of the entry is refused. -/
def ClashIn (cfg : Cfg) (st : Ndx) (ot : Option Tree) (target : NdxEntry) : Prop :=
  ∃ t ∈ ot, Clash st.hdr.norecpp (insCmp cfg st.hdr target) target.ent t

/-- The three ways of an insertion into a well-formed index: a duplicate, an entry more, an error. -/
theorem PagedIndex.insertNew_cases (cfg : Cfg) (h : PagedIndex st ot) (h2 : 2 ≤ st.hdr.norecpp) (hrec : target.recno ≠ 0) (hpno : target.pno = 0)
    (hl : target.key.length = st.hdr.keylen) (h0 : 0 ∉ target.key.tail) (hfuel : heightOf ot < fuel) :
    (Dup cfg target (entriesOf ot) ∧ ¬ClashIn cfg st ot target ∧ insertNew cfg fuel target st = .ok 0 st) ∨
    (¬Dup cfg target (entriesOf ot) ∧ ClashIn cfg st ot target ∧ ∃ e st', insertNew cfg fuel target st = .error (.invalidEntry e) st') ∨
    (¬Dup cfg target (entriesOf ot) ∧ ¬ClashIn cfg st ot target ∧ ∃ st' t', insertNew cfg fuel target st = .ok 1 st' ∧
      Inserted (insCmp cfg st.hdr target) st st' ot target.ent t') := by
  have hkt : st.hdr.keytyp &&& 0x7f = st.hdr.keytyp := by rw [h.keytyp]; rfl
  have hdup := insCmp_zero cfg h.keytyp hl h0 h.keylen
  have hfall := insCmp_falling cfg h.keytyp hl h0 h.keylen h.sorted
  obtain ⟨fuel, rfl⟩ : ∃ n, fuel = n + 1 := ⟨fuel - 1, by omega⟩
  cases hix : h.index with
  | none hroot =>
    refine Or.inr (Or.inr ⟨fun hd => ?_, by simp [ClashIn], insertNew_empty hroot hkt h.pagecnt (by omega) hrec hpno⟩)
    obtain ⟨e, he, -⟩ := hdup.2 hd
    simp [entriesOf] at he
  | @some t hroot hst =>
    have hpost : InsPost (insCmp cfg st.hdr target) st target t (btsrin cfg (fuel + 1) t.page target st) := by
      rcases h.shape t rfl with hsh | ⟨p, rfl⟩
      · exact btsrin_ok hst hsh (h.sized t rfl) (h.nodup t rfl) hfall hkt h2 hrec hpno hfuel
      · obtain ⟨fuel, rfl⟩ : ∃ n, fuel = n + 1 := ⟨fuel - 1, by
          have : (MTree.leaf p [] : Tree).height = 1 := MTree.height_leaf _ _
          simp only [heightOf, Option.elim_some] at hfuel
          omega⟩
        exact btsrin_leaf hst hkt h2 (by simp) (by simpa [entriesOf] using hfall) hrec hpno
    have hclash : ClashIn cfg st (some t) target ↔ Clash st.hdr.norecpp (insCmp cfg st.hdr target) target.ent t := by simp [ClashIn]
    rw [hclash]
    rcases insertNew_root hroot hkt h2 hpost with ⟨hd, hrun⟩ | ⟨hc, hrun⟩ | ⟨hnc, st', t', hrun, hi⟩
    · refine Or.inl ⟨hdup.1 hd, fun hc => ?_, hrun⟩
      obtain ⟨e, he, he0⟩ := hd
      exact hc.noDup hfall e he he0
    · refine Or.inr (Or.inl ⟨fun hd => ?_, hc, hrun⟩)
      obtain ⟨e, he, he0⟩ := hdup.2 hd
      exact hc.noDup hfall e he he0
    · refine Or.inr (Or.inr ⟨fun hd => ?_, hnc, st', t', hrun, hi⟩)
      obtain ⟨e, he, he0⟩ := hdup.2 hd
      exact hi.no_dup e he he0

theorem insertNew_cases (cfg : Cfg) (h : CharIndex st ot) (h2 : 2 ≤ st.hdr.norecpp) (hrec : target.recno ≠ 0) (hpno : target.pno = 0)
    (hl : target.key.length = st.hdr.keylen) (h0 : 0 ∉ target.key.tail) (hfuel : heightOf ot < fuel) :
    (Dup cfg target (entriesOf ot) ∧ ¬ClashIn cfg st ot target ∧ insertNew cfg fuel target st = .ok 0 st) ∨
    (¬Dup cfg target (entriesOf ot) ∧ ClashIn cfg st ot target ∧ ∃ e st', insertNew cfg fuel target st = .error e st') ∨
    (¬Dup cfg target (entriesOf ot) ∧ ¬ClashIn cfg st ot target ∧ ∃ st' t', insertNew cfg fuel target st = .ok 1 st' ∧
      Inserted (insCmp cfg st.hdr target) st st' ot target.ent t') := by
  rcases h.paged.insertNew_cases cfg h2 hrec hpno hl h0 hfuel with h | ⟨hd, hc, e, st', hrun⟩ | h
  · exact Or.inl h
  · exact Or.inr (Or.inl ⟨hd, hc, _, st', hrun⟩)
  · exact Or.inr (Or.inr h)

theorem tail_no_nul {k : Key} (h : 0 ∉ k) : 0 ∉ k.tail := fun hm => h (List.mem_of_mem_tail hm)

end Char

/-- **Insertion into a well-formed index** does what it is for exactly when no split on its way is
refused: when no full internal page is sent, right of its middle, a separator without a record. -/
theorem insertsRight_iff {st : Ndx} {cfg : Cfg} {fuel : Nat} {target : NdxEntry} {ot : Option Tree} (h : CharIndex st ot)
    (h3 : 3 ≤ st.hdr.norecpp) (hrec : 0 < target.recno) (hpno : target.pno = 0) (hl : target.key.length = st.hdr.keylen)
    (h0 : 0 ∉ target.key) (hfuel : heightOf ot < fuel) : InsertsRight cfg fuel st ot target ↔ ¬ClashIn cfg st ot target := by
  rcases insertNew_cases cfg h (by omega) hrec.ne' hpno hl (tail_no_nul h0) hfuel with
    ⟨hd, hnc, hrun⟩ | ⟨hd, hc, e, st', hrun⟩ | ⟨hd, hnc, st', t', hrun, hi⟩
  · exact iff_of_true ⟨fun _ => hrun, fun hnd => absurd hd hnd⟩ hnc
  · refine iff_of_false (fun hr => ?_) (not_not.2 hc)
    obtain ⟨st2, t2, hrun2, -⟩ := hr.2 hd
    rw [hrun] at hrun2
    cases hrun2
  · refine iff_of_true ⟨fun h => absurd h hd, fun _ => ?_⟩ hnc
    obtain ⟨L, M, h1, h2, -⟩ := hi.entries
    exact ⟨st', t', hrun, h.inserted hl (tail_no_nul h0) hi, L, M, h1, h2⟩

/-! ## An index whose root refuses to split -/

/-- A key of one character in a character field of 1024. -/
def oneChar (b : UInt8) : Key := b :: List.replicate 1023 32

theorem oneChar_rank {a b : UInt8} (m n : Recno) (h : a < b) : Ent.rank ⟨oneChar a, m⟩ < Ent.rank ⟨oneChar b, n⟩ :=
  Prod.Lex.toLex_lt_toLex.2 (Or.inl (List.cons_lt_cons_iff.2 (Or.inl (UInt8.lt_iff_toNat_lt.1 h))))

/-- A page of two leaves with one entry each. -/
def twoLeaves (p : Pageno) (b : UInt8) (n : Recno) : Tree :=
  .node p [⟨oneChar b, 0⟩] [.leaf (p + 1) [⟨oneChar b, n⟩], .leaf (p + 2) [⟨oneChar (b + 1), n + 1⟩]]

/-- A full page whose last leaf is full. -/
def fullRight (p : Pageno) (b : UInt8) (n : Recno) : Tree :=
  .node p [⟨oneChar b, 0⟩, ⟨oneChar (b + 1), 0⟩, ⟨oneChar (b + 2), 0⟩]
    [.leaf (p + 1) [⟨oneChar b, n⟩], .leaf (p + 2) [⟨oneChar (b + 1), n + 1⟩], .leaf (p + 3) [⟨oneChar (b + 2), n + 2⟩],
      .leaf (p + 4) [⟨oneChar (b + 3), n + 3⟩, ⟨oneChar (b + 4), n + 4⟩, ⟨oneChar (b + 5), n + 5⟩]]

/-- Three levels of pages with room for three entries, full on the right. -/
def clashTree : Tree :=
  .node 1 [⟨oneChar 66, 0⟩, ⟨oneChar 68, 0⟩, ⟨oneChar 70, 0⟩] [twoLeaves 2 65 1, twoLeaves 5 67 3, twoLeaves 8 69 5, fullRight 11 71 7]

def clashIndex : Ndx where
  hdr := ⟨1, 16, 1024, 3, 0, []⟩
  hdrPage := ⟨1, 16, 1024, 3, 0, []⟩
  file := fileOf clashTree
  wHdr := false
  fsync := false
  pageNo := 0
  entryNo := 0
  seq := 0

/-- SET UNIQUE off, EXACT off, the table open for exclusive use. -/
def exclusiveCfg : Cfg := ⟨false, false, true, false⟩

theorem oneChar_length (b : UInt8) : (oneChar b).length = 1024 := by rw [oneChar, List.length_cons, List.length_replicate]

theorem oneChar_no_nul {b : UInt8} (h : b ≠ 0) : 0 ∉ oneChar b := by
  rw [oneChar, List.mem_cons, List.mem_replicate]
  exact fun hm => hm.elim (fun h' => h h'.symm) fun h' => absurd h'.2 (by decide)

theorem clashTree_shape : clashTree.Shape SameKey := by
  simp [clashTree, twoLeaves, fullRight, MTree.sepd_iff, MTree.last?, SameKey]

theorem clashTree_pages : clashTree.pages = [1, 2, 3, 4, 5, 6, 7, 8, 9, 10, 11, 12, 13, 14, 15] := by
  simp [clashTree, twoLeaves, fullRight]

theorem clashTree_entries : clashTree.entries = (List.range 12).map fun i => ⟨oneChar (UInt8.ofNat (65 + i)), i + 1⟩ := by
  simp [clashTree, twoLeaves, fullRight, List.range_succ]

theorem clashTree_height : clashTree.height = 3 := by
  simp [clashTree, twoLeaves, fullRight, MTree.height, MTree.heightOf]

theorem clashIndex_ok : CharIndex clashIndex (some clashTree) where
  index := .some rfl (stored_fileOf rfl (by rw [clashTree_pages]; decide) (by rw [clashTree_pages]; decide) (Or.inl clashTree_shape))
  keytyp := rfl
  pagecnt := by decide
  sorted := by
    change clashTree.entries.Pairwise _
    rw [clashTree_entries, List.pairwise_map]
    refine List.pairwise_lt_range.imp_of_mem fun ha hb h => oneChar_rank _ _ ?_
    rw [List.mem_range] at ha hb
    rw [UInt8.lt_iff_toNat_lt, UInt8.toNat_ofNat', UInt8.toNat_ofNat']
    omega
  keylen := by
    change ∀ e ∈ clashTree.entries, _
    rw [clashTree_entries]
    intro e he
    obtain ⟨i, -, rfl⟩ := List.mem_map.1 he
    exact oneChar_length _
  shape := by rintro t ⟨⟩; exact Or.inl clashTree_shape
  sized := by rintro t ⟨⟩; simp [clashIndex, clashTree, twoLeaves, fullRight]
  depth := by rintro t ⟨⟩; exact ⟨2, by simp [clashTree, twoLeaves, fullRight]⟩
  nodup := by rintro t ⟨⟩; rw [clashTree_pages]; decide

/-- The entry after all others goes to the full leaf, and the page above sends up a separator that
has no record to the right end of the root. -/
theorem clashTree_clash : Clash 3 (insCmp exclusiveCfg clashIndex.hdr ⟨0, 13, oneChar 77⟩) ⟨oneChar 77, 13⟩ clashTree := by
  have hpos : ∀ b n, b < 77 → 0 < insCmp exclusiveCfg clashIndex.hdr ⟨0, 13, oneChar 77⟩ ⟨oneChar b, n⟩ := fun b n h => by
    rw [insCmp, if_neg (by decide), entCmp_char rfl (oneChar_length 77) (fun hm => oneChar_no_nul (by decide) (List.mem_of_mem_tail hm))
      (oneChar_length b), cmpOrd_pos]
    exact oneChar_rank _ _ h
  have hleaf : Promotes 3 (insCmp exclusiveCfg clashIndex.hdr ⟨0, 13, oneChar 77⟩) ⟨oneChar 77, 13⟩
      (.leaf 15 ([⟨oneChar 74, 10⟩, ⟨oneChar 75, 11⟩, ⟨oneChar 76, 12⟩] ++ [])) 11 := by
    refine .leaf (e := ⟨oneChar 75, 11⟩) ?_ (by simp) rfl rfl
    simp only [List.mem_cons, List.not_mem_nil, or_false, forall_eq_or_imp, forall_eq]
    exact ⟨hpos _ _ (by decide), hpos _ _ (by decide), hpos _ _ (by decide)⟩
  have hpage : Promotes 3 (insCmp exclusiveCfg clashIndex.hdr ⟨0, 13, oneChar 77⟩) ⟨oneChar 77, 13⟩ (fullRight 11 71 7) 0 := by
    refine .node (A := [.leaf 12 [⟨oneChar 71, 7⟩], .leaf 13 [⟨oneChar 72, 8⟩], .leaf 14 [⟨oneChar 73, 9⟩]]) (B := [])
      (e := ⟨oneChar 72, 0⟩) [] ⟨?_, by simp⟩ hleaf rfl rfl
    simp only [List.mem_cons, List.not_mem_nil, or_false, forall_eq_or_imp, forall_eq]
    exact ⟨⟨_, rfl, hpos _ _ (by decide)⟩, ⟨_, rfl, hpos _ _ (by decide)⟩, ⟨_, rfl, hpos _ _ (by decide)⟩⟩
  refine .here (A := [twoLeaves 2 65 1, twoLeaves 5 67 3, twoLeaves 8 69 5]) (B := []) ⟨?_, by simp⟩ hpage rfl (by decide)
  simp only [List.mem_cons, List.not_mem_nil, or_false, forall_eq_or_imp, forall_eq]
  exact ⟨⟨_, rfl, hpos _ _ (by decide)⟩, ⟨_, rfl, hpos _ _ (by decide)⟩, ⟨_, rfl, hpos _ _ (by decide)⟩⟩

theorem clashIndex_clash : ClashIn exclusiveCfg clashIndex (some clashTree) ⟨0, 13, oneChar 77⟩ := ⟨clashTree, rfl, clashTree_clash⟩

/-- The insertion into this well-formed index raises an error. -/
theorem clashIndex_not_insertsRight :
    CharIndex clashIndex (some clashTree) ∧ ¬InsertsRight exclusiveCfg 4 clashIndex (some clashTree) ⟨0, 13, oneChar 77⟩ ∧
      ∃ e st', insertNew exclusiveCfg 4 ⟨0, 13, oneChar 77⟩ clashIndex = .error e st' := by
  have h0 : (0 : UInt8) ∉ (oneChar 77).tail := tail_no_nul (oneChar_no_nul (by decide))
  have hfuel : heightOf (some clashTree) < 4 := by simp [heightOf, clashTree_height]
  have hrec : (⟨0, 13, oneChar 77⟩ : NdxEntry).recno ≠ 0 := by decide
  have hcases := insertNew_cases exclusiveCfg clashIndex_ok (by decide) hrec rfl (oneChar_length 77) h0 hfuel
  rcases hcases with ⟨-, hnc, -⟩ | ⟨hd, -, e, st', hrun⟩ | ⟨-, hnc, -⟩
  · exact absurd clashIndex_clash hnc
  · refine ⟨clashIndex_ok, fun hr => ?_, e, st', hrun⟩
    obtain ⟨st2, t2, hrun2, -⟩ := hr.2 hd
    rw [hrun] at hrun2
    cases hrun2
  · exact absurd clashIndex_clash hnc

theorem insertsRight_iff_clashIndex :
    InsertsRight exclusiveCfg 4 clashIndex (some clashTree) ⟨0, 13, oneChar 77⟩ ↔
      ¬ClashIn exclusiveCfg clashIndex (some clashTree) ⟨0, 13, oneChar 77⟩ :=
  insertsRight_iff clashIndex_ok (by decide) (by decide) rfl (oneChar_length 77) (oneChar_no_nul (by decide))
    (by simp [heightOf, clashTree_height])

end Db3w
