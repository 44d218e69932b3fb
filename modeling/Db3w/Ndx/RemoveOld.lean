/-
Deletion from a character-key index. From a well-formed index without empty pages, an entry that is
stored is removed and every other one kept, and the index stays well formed; the last entry leaves
the empty index. An entry that is not stored raises an error and changes nothing. A NUL byte after
the first byte of a key ends a comparison, so a key that has one may remove another entry.
-/
import Db3w.Ndx.Delete
import Db3w.Ndx.InsertNew

namespace Db3w

/-- A well-formed single-part character-key index without empty pages. -/
structure PopulatedIndex (st : Ndx) (ot : Option Tree) : Prop where
  index : Index st ot
  keytyp : st.hdr.keytyp = 0
  sorted : (entriesOf ot).Pairwise fun a b => a.rank < b.rank
  keylen : ∀ e ∈ entriesOf ot, e.key.length = st.hdr.keylen
  shape : ∀ t ∈ ot, t.Shape SameKey
  populated : ∀ t ∈ ot, t.Sized (0 < ·)
  nodup : ∀ t ∈ ot, t.pages.Nodup

/-- Removing an entry does what it is for: a stored entry is taken out of a well-formed index, for
any other one an error is raised and nothing changed. -/
def RemovesRight (cfg : Cfg) (fuel : Nat) (st : Ndx) (ot : Option Tree) (target : NdxEntry) : Prop :=
  (target.ent ∈ entriesOf ot → ∃ st' ot', removeOld cfg fuel target st = .ok () st' ∧ PopulatedIndex st' ot' ∧
    (ot' = none → st'.hdr.rootno = 0 ∧ st'.hdr.pagecnt = 1) ∧
    ∃ L M, entriesOf ot = L ++ target.ent :: M ∧ entriesOf ot' = L ++ M) ∧
  (target.ent ∉ entriesOf ot → removeOld cfg fuel target st = .error (.ntndx st.seq) st)

section Absent

variable {st : Ndx} {cfg : Cfg} {fuel : Nat} {target : NdxEntry} {t : Tree}

/-- `btsrdel` below a page of a stored tree that does not hold the entry. -/
theorem btsrdel_absent (hst : Stored st t) (hsh : t.Shape SameKey) (hno : ∀ e ∈ t.entries, entCmp st.hdr cfg.exactOn target e ≠ 0)
    (hfuel : t.height < fuel) : btsrdel cfg fuel t.page target st = .error (.ntndx st.seq) st := by
  induction t using MTree.ind generalizing fuel with
  | leaf p es =>
    rw [MTree.height_leaf] at hfuel
    obtain ⟨fuel, rfl⟩ : ∃ n, fuel = n + 2 := ⟨fuel - 2, by omega⟩
    cases hst with
    | leaf h0 hlt hes hps =>
    have hcnt : (st.file p).entryCnt = es.length := by rw [← hes, NdxPage.length_ents]
    obtain ⟨P, R, e, hPR, hloop, -, hstop⟩ := slotLoop_ents (btsrdelCmp cfg (fuel + 1) (st.file p) target) st
      (c := entCmp st.hdr cfg.exactOn target) hes hps (fun P x R h => btsrdelCmp_leaf (hes.trans h)) es [] rfl (by simp)
    rw [List.length_nil] at hloop
    have he : e ≠ 0 := by
      obtain ⟨-, rfl⟩ | ⟨y, R', rfl, rfl, -⟩ := hstop
      · decide
      · exact hno y (by rw [MTree.entries_leaf, hPR]; simp)
    rw [btsrdel, MTree.page, if_neg h0, NdxM.bind_ok (getpage_ok hlt), NdxM.bind_ok (neGetPageno_ok (i := 0) (n := 0) rfl (Nat.zero_le _)),
      NdxPage.pno_zero hps (Nat.zero_le _), hcnt, NdxM.bind_ok hloop]
    dsimp only
    rw [if_neg he]
    exact NdxM.bind_error rfl
  | node p ss ks ih =>
    cases hst with
    | node h0 hlt hes hps hkst =>
    cases hsh with
    | node hsep hksh =>
    obtain ⟨fuel, rfl⟩ : ∃ n, fuel = n + 1 := ⟨fuel - 1, by omega⟩
    have hkh : ∀ k ∈ ks, k.height < fuel := fun k hk => by
      have := MTree.height_kid p ss hk
      omega
    rw [MTree.entries_node] at hno
    obtain ⟨k0, B0, hks0⟩ := List.exists_cons_of_ne_nil hsep.ne_nil
    have hpn0 : ((st.file p).entries 0).pno = k0.page := (NdxPage.pno_kid (A := []) (hks0 ▸ hps)).2
    have hB0 : (st.file p).entryCnt = B0.length := by
      have := hsep.len
      rw [hks0, List.length_cons] at this
      rw [← NdxPage.length_ents, hes]
      omega
    obtain ⟨A, k, B, e, rfl, hloop, -, hstop⟩ := slotLoop_kids (btsrdelCmp cfg fuel (st.file p) target) st
      (c := entCmp st.hdr cfg.exactOn target) hps (fun A k b B h => by
        have hkm : k ∈ ks := by rw [h]; simp
        obtain ⟨hi, x, hx, hkey⟩ := sep_key (h ▸ hsep) hes
        exact ⟨x, hx, btsrdelCmp_kid (hkst k hkm) (hksh k hkm) (hkh k hkm).le hx hi hkey⟩) B0 [] k0 hks0 (by simp)
    rw [List.length_nil] at hloop
    have hkm : k ∈ A ++ k :: B := by simp
    have hkno : ∀ e ∈ k.entries, entCmp st.hdr cfg.exactOn target e ≠ 0 := fun e he => hno e (List.mem_flatMap.2 ⟨k, hkm, he⟩)
    have he : e ≠ 0 := by
      obtain ⟨-, rfl⟩ | ⟨-, y, hy, rfl, -⟩ := hstop
      · decide
      · exact hkno y (List.mem_of_getLast? hy)
    rw [btsrdel, MTree.page, if_neg h0, NdxM.bind_ok (getpage_ok hlt), NdxM.bind_ok (neGetPageno_ok (i := 0) (n := 0) rfl (Nat.zero_le _)),
      hpn0, hB0, NdxM.bind_ok hloop]
    dsimp only
    rw [if_neg he]
    exact NdxM.bind_error (ih k hkm (hkst k hkm) (hksh k hkm) hkno (hkh k hkm))

end Absent

section Root

variable {st st' : Ndx} {cfg : Cfg} {fuel : Nat} {target : NdxEntry} {t : Tree} {ot ot' : Option Tree} {L M : List Ent} {x : Ent}

/-- The index after the entry between `L` and `M` was removed. -/
structure Removed (st st' : Ndx) (ot ot' : Option Tree) (L : List Ent) (x : Ent) (M : List Ent) : Prop where
  hdr : st'.hdr = { st.hdr with rootno := ot'.elim 0 MTree.page, pagecnt := ot'.elim 1 fun _ => st.hdr.pagecnt }
  index : Index st' ot'
  shape : ∀ t ∈ ot', t.Shape SameKey
  populated : ∀ t ∈ ot', t.Sized (0 < ·)
  capped : ∀ cap, (∀ t ∈ ot, t.Sized (· ≤ cap)) → ∀ t ∈ ot', t.Sized (· ≤ cap)
  before : entriesOf ot = L ++ x :: M
  after : entriesOf ot' = L ++ M
  nodup : ∀ t ∈ ot', t.pages.Nodup
  fsync : st'.fsync = st.fsync
  seq : st'.seq = st.seq
  sync : st.hdrPage = st.hdr ∨ st.wHdr = true → st'.hdrPage = st'.hdr ∨ st'.wHdr = true

/-- A tree with one entry less becomes the tree of the index. -/
theorem Removed.tree {ps : List Pageno} {t' : Tree} {s : Ndx} (hs : Shrunk ps st s L x M [t] [t'])
    (hhdr : st'.hdr = { st.hdr with rootno := t'.page }) (hfile : st'.file = s.file) (hfs : st'.fsync = st.fsync) (hsq : st'.seq = st.seq)
    (hsync : st.hdrPage = st.hdr ∨ st.wHdr = true → st'.hdrPage = st'.hdr ∨ st'.wHdr = true) : Removed st st' (some t) (some t') L x M := by
  have hpc : s.hdr.pagecnt ≤ st'.hdr.pagecnt := by rw [hhdr, hs.written.hdr]
  refine ⟨hhdr, .some (by rw [hhdr]) ((hs.stored t' (by simp)).congr hpc fun q _ => by rw [hfile]), ?_, ?_, ?_, ?_, ?_, ?_, hfs, hsq, hsync⟩
  · simpa using hs.shape
  · simpa using hs.populated
  · simpa using hs.capped
  · simpa [entriesOf] using hs.before
  · simpa [entriesOf] using hs.after
  · simpa using hs.nodup

/-- The root of a tree that loses an entry. -/
theorem removeOld_root (hroot : st.hdr.rootno = t.page) (hkt : st.hdr.keytyp &&& 0x7f = st.hdr.keytyp) (h0 : target.pno = 0)
    (hpost : RemPost st target t L x M (btsrdel cfg fuel t.page target st)) :
    ∃ st' ot', removeOld cfg fuel target st = .ok () st' ∧ Removed st st' (some t) ot' L x M := by
  rw [removeOld, NdxM.bind_ok (NdxM.get_apply st), hroot, NdxM.bind_apply]
  generalize btsrdel cfg fuel t.page target st = res at hpost
  cases hpost with
  | @gone st' ht hL hM hw =>
    obtain ⟨st2, hrun, hh, -, hfs, hsq, hsync⟩ := saveRoot_ok { st' with hdr := { st'.hdr with rootno := 0, pagecnt := 1 } } cfg
      (by rw [hw.hdr]; exact hkt)
    have hst2 : st2.hdr = { st.hdr with rootno := 0, pagecnt := 1 } := by rw [hh, hw.hdr]
    refine ⟨st2, none, ?_, ⟨hst2, .none (by rw [hst2]), by simp, by simp, by simp, by simpa [entriesOf, hL, hM] using ht, by simp [entriesOf, hL, hM], by simp,
      hfs.trans (by rw [hw.eq]), hsq.trans (by rw [hw.eq]), fun _ => hsync⟩⟩
    dsimp only
    rw [if_pos rfl, if_neg (by simp [h0]), NdxM.bind_ok (NdxM.modify_apply _ _), hrun]
  | @kept st' t' hpage hs =>
    refine ⟨st', some t', rfl, .tree hs ?_ rfl (by rw [hs.written.eq]) (by rw [hs.written.eq]) fun h => ?_⟩
    · rw [hs.written.hdr, hpage, ← hroot]
    · rw [hs.written.eq]
      exact h
  | @orphan st' t' hs =>
    obtain ⟨st2, hrun, hh, hf, hfs, hsq, hsync⟩ := saveRoot_ok { st' with hdr := { st'.hdr with rootno := t'.page } } cfg
      (by rw [hs.written.hdr]; exact hkt)
    refine ⟨st2, some t', ?_, .tree hs ?_ hf (hfs.trans (by rw [hs.written.eq])) (hsq.trans (by rw [hs.written.eq])) fun _ => hsync⟩
    · dsimp only
      rw [if_pos rfl, if_pos (hs.stored t' (by simp)).page_ne, NdxM.bind_ok (NdxM.modify_apply _ _), hrun]
    · rw [hh, hs.written.hdr]

end Root

/-! ## Character keys -/

section Char

variable {st st' : Ndx} {cfg : Cfg} {fuel : Nat} {target : NdxEntry} {ot ot' : Option Tree} {L M : List Ent} {x : Ent}

/-- Removing an entry leaves a well-formed index. -/
theorem PopulatedIndex.removed (h : PopulatedIndex st ot) (hr : Removed st st' ot ot' L x M) : PopulatedIndex st' ot' := by
  have hsub : (entriesOf ot').Sublist (entriesOf ot) := by
    rw [hr.after, hr.before]
    exact List.Sublist.append_left (List.sublist_cons_self x M) L
  refine ⟨hr.index, by rw [hr.hdr]; exact h.keytyp, h.sorted.sublist hsub, fun e he => ?_, hr.shape, hr.populated, hr.nodup⟩
  rw [hr.hdr]
  exact h.keylen e (hsub.subset he)

variable (cfg) in
/-- A stored entry lies between those the comparison puts before it and those it puts after it. -/
theorem entCmp_split (hkt : st.hdr.keytyp = 0) (hl : target.key.length = st.hdr.keylen) (h0 : 0 ∉ target.key.tail)
    (hx : ∀ x ∈ L ++ target.ent :: M, x.key.length = st.hdr.keylen) (hs : (L ++ target.ent :: M).Pairwise fun a b => a.rank < b.rank) :
    (∀ a ∈ L, 0 < entCmp st.hdr cfg.exactOn target a) ∧ entCmp st.hdr cfg.exactOn target target.ent = 0 ∧
      ∀ b ∈ M, entCmp st.hdr cfg.exactOn target b < 0 := by
  obtain ⟨-, hsM, hsL⟩ := List.pairwise_append.1 hs
  refine ⟨fun a ha => ?_, ?_, fun b hb => ?_⟩
  · rw [entCmp_char hkt hl h0 (hx a (by simp [ha])), cmpOrd_pos]
    exact hsL a ha _ List.mem_cons_self
  · rw [entCmp_char hkt hl h0 (hx _ (by simp)), cmpOrd_self]
  · rw [entCmp_char hkt hl h0 (hx b (by simp [hb])), cmpOrd_neg]
    exact (List.pairwise_cons.1 hsM).1 b hb

/-- The two ways of removing an entry: it was stored and is taken out, or it was not. -/
theorem removeOld_cases (cfg : Cfg) (h : PopulatedIndex st ot) (hpno : target.pno = 0) (hl : target.key.length = st.hdr.keylen)
    (h0 : 0 ∉ target.key.tail) (hfuel : heightOf ot < fuel) :
    (∃ L M st' ot', removeOld cfg fuel target st = .ok () st' ∧ Removed st st' ot ot' L target.ent M) ∨
    target.ent ∉ entriesOf ot ∧ removeOld cfg fuel target st = .error (.ntndx st.seq) st := by
  have hkt : st.hdr.keytyp &&& 0x7f = st.hdr.keytyp := by rw [h.keytyp]; rfl
  cases hix : h.index with
  | none hroot =>
    obtain ⟨fuel, rfl⟩ : ∃ n, fuel = n + 1 := ⟨fuel - 1, by omega⟩
    refine Or.inr ⟨by simp [entriesOf], ?_⟩
    rw [removeOld, NdxM.bind_ok (NdxM.get_apply st), hroot]
    exact NdxM.bind_error rfl
  | @some t hroot hst =>
    by_cases hm : target.ent ∈ t.entries
    · obtain ⟨L, M, hLM⟩ := List.append_of_mem hm
      have hsort : t.entries.Pairwise _ := h.sorted
      have hkeys : ∀ e ∈ t.entries, _ := h.keylen
      have hfall : Falling (entCmp st.hdr cfg.exactOn target) t.entries := falling_entCmp h.keytyp hl h0 hkeys hsort
      rw [hLM] at hsort hkeys
      obtain ⟨hL, hx, hM⟩ := entCmp_split cfg h.keytyp hl h0 hkeys hsort
      have hpost := btsrdel_ok hst (h.shape t rfl) (h.populated t rfl) (h.nodup t rfl) hLM hfall hL hx hM hpno hfuel
      exact Or.inl ⟨L, M, removeOld_root hroot hkt hpno hpost⟩
    · refine Or.inr ⟨hm, ?_⟩
      have hno : ∀ e ∈ t.entries, entCmp st.hdr cfg.exactOn target e ≠ 0 := fun e he hz => hm (by
        rw [entCmp_char h.keytyp hl h0 (h.keylen e he), cmpOrd_zero] at hz
        rwa [Ent.rank_inj hz])
      rw [removeOld, NdxM.bind_ok (NdxM.get_apply st), hroot]
      exact NdxM.bind_error (btsrdel_absent hst (h.shape t rfl) hno hfuel)

end Char

/-- **Removing an entry** from a well-formed index without empty pages takes out that entry and no
other, and raises an error when there is none. -/
theorem removesRight {st : Ndx} {cfg : Cfg} {fuel : Nat} {target : NdxEntry} {ot : Option Tree} (h : PopulatedIndex st ot)
    (hpno : target.pno = 0) (hl : target.key.length = st.hdr.keylen) (h0 : 0 ∉ target.key.tail) (hfuel : heightOf ot < fuel) :
    RemovesRight cfg fuel st ot target := by
  rcases removeOld_cases cfg h hpno hl h0 hfuel with ⟨L, M, st', ot', hrun, hr⟩ | ⟨hm, hrun⟩
  · refine ⟨fun _ => ⟨st', ot', hrun, h.removed hr, ?_, L, M, hr.before, hr.after⟩, fun hn => absurd ?_ hn⟩
    · rintro rfl
      rw [hr.hdr]
      exact ⟨rfl, rfl⟩
    · rw [hr.before]
      simp
  · exact ⟨fun h => absurd h hm, fun _ => hrun⟩

/-- A leaf with one entry. -/
def oneEntry : Tree := .leaf 1 [⟨oneChar 83, 5⟩]

def oneEntryIndex : Ndx where
  hdr := ⟨1, 2, 1024, 3, 0, []⟩
  hdrPage := ⟨1, 2, 1024, 3, 0, []⟩
  file := fileOf oneEntry
  wHdr := false
  fsync := false
  pageNo := 0
  entryNo := 0
  seq := 0

theorem oneEntryIndex_ok : PopulatedIndex oneEntryIndex (some oneEntry) where
  index := .some rfl (stored_fileOf rfl (by decide) (by simp [oneEntry, oneEntryIndex]) (Or.inl (by simp [oneEntry])))
  keytyp := rfl
  sorted := List.pairwise_singleton _ _
  keylen := by
    intro e he
    rw [entriesOf, Option.elim_some, oneEntry, MTree.entries_leaf, List.mem_singleton] at he
    rw [he]
    exact oneChar_length _
  shape := by rintro t ⟨⟩; simp [oneEntry]
  populated := by rintro t ⟨⟩; simp [oneEntry]
  nodup := by rintro t ⟨⟩; simp [oneEntry]

/-- With a key whose second byte is NUL another entry is removed. -/
theorem oneEntryIndex_not_removesRight :
    PopulatedIndex oneEntryIndex (some oneEntry) ∧
      ¬RemovesRight exclusiveCfg 2 oneEntryIndex (some oneEntry) ⟨0, 5, 83 :: List.replicate 1023 0⟩ := by
  refine ⟨oneEntryIndex_ok, fun hr => ?_⟩
  have hx : entCmp oneEntryIndex.hdr exclusiveCfg.exactOn ⟨0, 5, 83 :: List.replicate 1023 0⟩ ⟨oneChar 83, 5⟩ = 0 := by decide
  have hno : NdxEntry.ent ⟨0, 5, 83 :: List.replicate 1023 0⟩ ∉ entriesOf (some oneEntry) := by
    rw [entriesOf, Option.elim_some, oneEntry, MTree.entries_leaf, List.mem_singleton]
    intro he
    have := congrArg (fun e : Ent => e.key.getD 1 1) he
    exact absurd this (by decide)
  have hst : Stored oneEntryIndex oneEntry :=
    stored_fileOf rfl (by decide) (by simp [oneEntry, oneEntryIndex]) (Or.inl (by simp [oneEntry]))
  have hpost : RemPost oneEntryIndex ⟨0, 5, 83 :: List.replicate 1023 0⟩ oneEntry [] _ []
      (btsrdel exclusiveCfg 2 oneEntry.page ⟨0, 5, 83 :: List.replicate 1023 0⟩ oneEntryIndex) :=
    btsrdel_leaf hst (fun _ ha => absurd ha List.not_mem_nil) hx rfl
  obtain ⟨st', ot', hrun, -⟩ := removeOld_root rfl rfl rfl hpost
  rw [hr.2 hno] at hrun
  cases hrun

theorem clashIndex_populated : PopulatedIndex clashIndex (some clashTree) where
  index := clashIndex_ok.index
  keytyp := rfl
  sorted := clashIndex_ok.sorted
  keylen := clashIndex_ok.keylen
  shape := by rintro t ⟨⟩; exact clashTree_shape
  populated := by rintro t ⟨⟩; simp [clashTree, twoLeaves, fullRight]
  nodup := clashIndex_ok.nodup

/-- The entry between two pages of the three levels. -/
theorem removesRight_clashIndex : RemovesRight exclusiveCfg 4 clashIndex (some clashTree) ⟨0, 6, oneChar 70⟩ :=
  removesRight clashIndex_populated rfl (oneChar_length 70) (fun hm => oneChar_no_nul (by decide) (List.mem_of_mem_tail hm))
    (by simp [heightOf, clashTree_height])

end Db3w
