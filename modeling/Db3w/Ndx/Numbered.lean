/-
Indexes that only insertions have written. Each entry they write has a record, the separators of
internal pages too, so no split is refused: an insertion into such an index never ends with an error.
That every entry has a record is a fact about the pages, which each step of an insertion keeps.
-/
import Db3w.Ndx.InsertNew

namespace Db3w

/-! ## Code that only reads -/

/-- Where the code ends without an error, the index is as it was. -/
def NdxM.Reads {α : Type} (x : NdxM α) : Prop := ∀ st a st', x st = .ok a st' → st' = st

namespace NdxM

variable {α β : Type}

/-- The two steps of a computation that ends without an error. -/
theorem bind_eq_ok {x : NdxM α} {f : α → NdxM β} {st st' : Ndx} {b : β} (h : (x >>= f) st = .ok b st') :
    ∃ a st1, x st = .ok a st1 ∧ f a st1 = .ok b st' := by
  rw [bind_apply] at h
  cases hx : x st with
  | ok a st1 =>
    rw [hx] at h
    exact ⟨a, st1, rfl, h⟩
  | error e st1 =>
    rw [hx] at h
    cases h

theorem Reads.bind {x : NdxM α} {f : α → NdxM β} (hx : x.Reads) (hf : ∀ a, (f a).Reads) : (x >>= f).Reads := by
  intro st b st' h
  obtain ⟨a, st1, h1, h2⟩ := bind_eq_ok h
  rw [hf a _ _ _ h2, hx _ _ _ h1]

theorem Reads.pure (a : α) : (Pure.pure a : NdxM α).Reads := by
  intro st b st' h
  cases h
  rfl

theorem Reads.throw (e : HbErr) : (MonadExcept.throw e : NdxM α).Reads := by
  intro st b st' h
  cases h

theorem Reads.get : (MonadState.get : NdxM Ndx).Reads := by
  intro st b st' h
  cases h
  rfl

theorem Reads.ite {c : Prop} [Decidable c] {x y : NdxM α} (hx : x.Reads) (hy : y.Reads) : (if c then x else y).Reads := by
  split
  · exact hx
  · exact hy

end NdxM

open NdxM

theorem reads_getpage (n : Pageno) : (getpage n).Reads := Reads.get.bind fun _ => .pure _

theorem reads_getEntry (p : NdxPage) (i : Int) : (getEntry p i).Reads := by
  unfold getEntry
  split
  · exact Reads.bind Reads.get fun _ => .throw _
  · exact .pure _

theorem reads_neGetKey (p : NdxPage) (i : Int) : (neGetKey p i).Reads := (reads_getEntry p i).bind fun _ => .pure _
theorem reads_neGetPageno (p : NdxPage) (i : Int) : (neGetPageno p i).Reads := (reads_getEntry p i).bind fun _ => .pure _
theorem reads_neGetRecno (p : NdxPage) (i : Int) : (neGetRecno p i).Reads := (reads_getEntry p i).bind fun _ => .pure _
theorem reads_isLeaf (p : NdxPage) : (isLeaf p).Reads := (reads_neGetPageno p 0).bind fun _ => .pure _

theorem reads_btlrDown (fuel : Nat) (p : NdxPage) : (btlrDown fuel p).Reads := by
  induction fuel generalizing p with
  | zero => exact .throw _
  | succ fuel ih =>
    refine (reads_isLeaf p).bind fun leaf => ?_
    split
    · exact .pure _
    · exact (reads_neGetPageno p _).bind fun n => (reads_getpage n).bind fun q => ih q

theorem reads_btlr (fuel : Nat) (pno : Pageno) (recno : Recno) : (btlr fuel pno recno).Reads :=
  (reads_getpage pno).bind fun p => (reads_btlrDown fuel p).bind fun q => (reads_neGetRecno q _).bind fun _ => .pure _

theorem reads_btsrinCmp (cfg : Cfg) (fuel : Nat) (p : NdxPage) (target : NdxEntry) (r : Nat) (pn3 : Pageno) :
    (btsrinCmp cfg fuel p target r pn3).Reads := by
  refine (reads_neGetRecno p r).bind fun n => (reads_neGetKey p r).bind fun key => Reads.get.bind fun st => ?_
  exact .ite (.pure _) (.ite (.pure _) (.ite (.pure _) (reads_btlr fuel pn3 _)))

theorem neGetPageno_mem {p : NdxPage} {i : Int} {n : Pageno} {st st' : Ndx} (h : neGetPageno p i st = .ok n st') : n ∈ p.pnos := by
  by_cases hi : i < 0 ∨ i > p.entryCnt
  · rw [neGetPageno, NdxM.bind_error (getEntry_bad hi)] at h
    cases h
  · rw [neGetPageno_ok (n := i.toNat) (by omega) (by omega)] at h
    obtain ⟨⟩ := h
    exact List.mem_of_getElem? (NdxPage.pnos_get (by omega))

/-- The loop over the entries of a page changes nothing and ends at one of them or behind them. -/
theorem slotLoop_reads {cmp : Nat → Pageno → NdxM Int} (hcmp : ∀ r pn, (cmp r pn).Reads) {p : NdxPage} {k r : Nat} {pn : Pageno}
    {st st' : Ndx} {e : Int} {r' : Nat} {pn' : Pageno} (hpn : pn ∈ p.pnos) (h : slotLoop cmp p k r pn st = .ok (e, r', pn') st') :
    st' = st ∧ r' ≤ r + k ∧ pn' ∈ p.pnos := by
  induction k generalizing r pn with
  | zero =>
    obtain ⟨⟩ := h
    exact ⟨rfl, le_rfl, hpn⟩
  | succ k ih =>
    obtain ⟨n, st1, h1, h⟩ := bind_eq_ok h
    obtain ⟨d, st2, h2, h⟩ := bind_eq_ok h
    rw [reads_neGetPageno p _ _ _ _ h1] at h2
    rw [hcmp _ _ _ _ _ h2] at h
    split at h
    · obtain ⟨h3, h4, h5⟩ := ih (neGetPageno_mem h1) h
      exact ⟨h3, by omega, h5⟩
    · obtain ⟨⟩ := h
      exact ⟨rfl, by omega, hpn⟩

/-! ## Pages whose entries have records -/

/-- Every entry of the page has a record, there are no more than fit, and every subtree is on a page in front of `pagecnt`. -/
structure NdxPage.Numbered (cap pagecnt : Nat) (p : NdxPage) : Prop where
  le : p.entryCnt ≤ cap
  recno : ∀ e ∈ p.ents, e.recno ≠ 0
  link : ∀ n ∈ p.pnos, n < pagecnt

/-- Every page in use has entries with records only. -/
structure Numbered (st : Ndx) : Prop where
  pos : 0 < st.hdr.pagecnt
  page : ∀ q < st.hdr.pagecnt, q ≠ 0 → (st.file q).Numbered st.hdr.norecpp st.hdr.pagecnt

/-- What `btsrin` hands up: nothing, or an entry with a record, and a page in use. -/
structure Sent (st : Ndx) (target : NdxEntry) : Prop where
  none : target.recno = 0 → target.pno = 0
  link : target.pno < st.hdr.pagecnt

section Pages

variable {p : NdxPage} {st st' : Ndx} {pno : Pageno} {r n : Nat} {target target' : NdxEntry} {cap pagecnt : Nat} {x : Ent}

/-- A page with some of the entries and subtrees of the lists `L` and `N`. -/
theorem NdxPage.Numbered.of_sub {L : List Ent} {N : List Pageno} {p' : NdxPage} (hL : ∀ e ∈ L, e.recno ≠ 0) (hN : ∀ n ∈ N, n < pagecnt)
    (hes : ∀ e ∈ p'.ents, e ∈ L) (hns : ∀ n ∈ p'.pnos, n ∈ N) (hle : p'.ents.length ≤ cap) : p'.Numbered cap pagecnt :=
  ⟨by rwa [NdxPage.length_ents] at hle, fun e he => hL e (hes e he), fun n hn => hN n (hns n hn)⟩

theorem NdxPage.Numbered.mono (h : p.Numbered cap pagecnt) (hle : pagecnt ≤ n) : p.Numbered cap n :=
  ⟨h.le, h.recno, fun q hq => (h.link q hq).trans_le hle⟩

/-- The lists of a page with an entry more that has a record. -/
theorem NdxPage.Numbered.insert (h : p.Numbered cap pagecnt) (hx : target.recno ≠ 0) (hl : target.pno < n) (hle : pagecnt ≤ n) (r : Nat) :
    (∀ e ∈ p.ents.insertIdx r target.ent, e.recno ≠ 0) ∧ ∀ q ∈ p.pnos.insertIdx (r + 1) target.pno, q < n := by
  constructor
  · intro e he
    rcases List.eq_or_mem_of_mem_insertIdx he with rfl | he
    · exact hx
    · exact h.recno e he
  · intro q hq
    rcases List.eq_or_mem_of_mem_insertIdx hq with rfl | hq
    · exact hl
    · exact (h.link q hq).trans_le hle

theorem insertPage_refused (ha : ¬Accepts p target) : insertPage p pno r target st = .error (.invalidEntry pno) st := by
  obtain ⟨p1, h1, hc1, he1, hn1⟩ := shiftUp_ok st r (p.entryCnt - r) { p with entryCnt := p.entryCnt + 1 } (by simp only; omega)
  have ha1 : ¬Accepts p1 target := fun h => ha ((accepts_congr (by rw [hn1, if_neg (by omega)])).1 h)
  rw [insertPage, NdxM.bind_ok h1, insertEntry_refused ha1]

/-- An entry that the full page does not take is not put into either half. -/
theorem splitPage_unaccepted (hp : p.entryCnt = st.hdr.norecpp) (hrec : target.recno ≠ 0)
    (ha : ¬SplitAccepts p (st.hdr.norecpp / 2) r target) : splitPage p pno r target st = .error (.invalidEntry pno) st := by
  have hle : r ≤ st.hdr.norecpp / 2 := by
    by_contra hgt
    exact ha (by rw [SplitAccepts, if_neg hgt]; exact hrec)
  rw [SplitAccepts, if_pos hle] at ha
  rw [splitPage, NdxM.bind_ok (NdxM.get_apply st), NdxM.bind_ok (getpage_new le_rfl)]
  refine NdxM.bind_error ?_
  obtain ⟨q1, hq1, -⟩ := copyEntries_ok p st (st.hdr.norecpp - st.hdr.norecpp / 2) (st.hdr.norecpp / 2) 0
    { zeroPage with entryCnt := st.hdr.norecpp - st.hdr.norecpp / 2 } (by omega) (by simp only; omega)
  rw [splitMoves]
  by_cases heq : r = st.hdr.norecpp / 2
  · rw [if_pos heq, NdxM.bind_ok hq1]
    exact NdxM.bind_error (insertEntry_refused ha)
  · obtain ⟨p1, hp1, -, -, hpn1⟩ := shiftUp_ok st r (st.hdr.norecpp / 2 - r) p (by omega)
    have ha1 : ¬Accepts p1 target := fun h => ha ((accepts_congr (by rw [hpn1, if_neg (by omega)])).1 h)
    rw [if_neg heq, if_pos (by omega), NdxM.bind_ok hq1, NdxM.bind_ok hp1]
    exact NdxM.bind_error (insertEntry_refused ha1)

/-- What a step of an insertion leaves. -/
structure Kept (st st' : Ndx) : Prop where
  numbered : Numbered st'
  hdr : st'.hdr = { st.hdr with pagecnt := st'.hdr.pagecnt }
  le : st.hdr.pagecnt ≤ st'.hdr.pagecnt

theorem Kept.trans {st1 : Ndx} (h1 : Kept st st1) (h2 : Kept st1 st') : Kept st st' :=
  ⟨h2.numbered, by rw [h2.hdr, h1.hdr], h1.le.trans h2.le⟩

/-- Writing an entry with a record, and the new page of a split, leaves entries with records only. -/
theorem putEntry_numbered (hst : Numbered st) (hp : p.Numbered st.hdr.norecpp st.hdr.pagecnt) (h2 : 2 ≤ st.hdr.norecpp) (hr : r ≤ p.entryCnt)
    (hkt : st.hdr.keytyp &&& 0x7f = st.hdr.keytyp) (hlt : pno < st.hdr.pagecnt) (hrec : target.recno ≠ 0) (hl : target.pno < st.hdr.pagecnt)
    (h : putEntry p pno r target st = .ok target' st') : Kept st st' ∧ Sent st' target' := by
  by_cases hroom : p.entryCnt < st.hdr.norecpp
  · have ha : Accepts p target := by
      by_contra ha
      rw [putEntry, NdxM.bind_ok (NdxM.get_apply st), if_pos hroom, NdxM.bind_error (insertPage_refused ha)] at h
      cases h
    obtain ⟨p', st1, hput, ⟨pn, en, rfl⟩, he, hn⟩ := insertPage_ok st pno hr ha
    rw [putEntry, NdxM.bind_ok (NdxM.get_apply st), if_pos hroom, NdxM.bind_ok hput, NdxM.bind_ok (writePage_ok pno p')] at h
    obtain ⟨⟩ := h
    obtain ⟨hes, hns⟩ := hp.insert hrec hl le_rfl r
    refine ⟨⟨⟨hst.pos, fun q hq h0 => ?_⟩, rfl, le_rfl⟩, fun _ => rfl, hst.pos⟩
    show (Function.update st.file pno p' q).Numbered _ _
    by_cases hqp : q = pno
    · subst hqp
      rw [Function.update_self]
      refine .of_sub hes hns (by rw [he]; exact fun e he => he) (by rw [hn]; exact fun e he => he) ?_
      rw [he, List.length_insertIdx, NdxPage.length_ents, if_pos hr]
      exact hroom
    · rw [Function.update_of_ne hqp]
      exact hst.page q hq h0
  · have hfull : p.entryCnt = st.hdr.norecpp := le_antisymm hp.le (not_lt.1 hroom)
    have ha : SplitAccepts p (st.hdr.norecpp / 2) r target := by
      by_contra ha
      rw [putEntry, NdxM.bind_ok (NdxM.get_apply st), if_neg hroom, NdxM.bind_error (splitPage_unaccepted hfull hrec ha)] at h
      cases h
    obtain ⟨target2, st2, hrun, hg, hc, ht, hle, hln, hre, hrn, hmid⟩ :=
      putEntry_split [pno] hfull h2 hr hkt ha List.mem_cons_self hlt
    obtain ⟨rfl, rfl⟩ : target2 = target' ∧ st2 = st' := by simpa [hrun] using h
    have hcap : st2.hdr.norecpp = st.hdr.norecpp := by rw [hg.hdr]
    have hlen : (p.ents.insertIdx r target.ent).length = st.hdr.norecpp + 1 := by
      rw [List.length_insertIdx, NdxPage.length_ents, if_pos hr, hfull]
    have hkeep : keepCnt p (st.hdr.norecpp / 2) ≤ st.hdr.norecpp := by
      unfold keepCnt
      split <;> omega
    obtain ⟨hes, hns⟩ := hp.insert (n := st2.hdr.pagecnt) hrec (hl.trans_le hg.le) hg.le r
    refine ⟨⟨⟨hst.pos.trans_le hg.le, fun q hq h0 => ?_⟩, hg.hdr, hg.le⟩, fun h0 => absurd h0 (hes _ (List.mem_of_getElem? hmid)), ?_⟩
    rotate_left
    · rw [ht, hc]
      exact Nat.lt_succ_self _
    rw [hcap]
    by_cases hqp : q = pno
    · subst hqp
      refine .of_sub hes hns (by rw [hle]; exact fun e he => List.mem_of_mem_take he) (by rw [hln]; exact fun e he => List.mem_of_mem_take he) ?_
      rw [hle, List.length_take]
      omega
    by_cases hqn : q = st.hdr.pagecnt
    · subst hqn
      refine .of_sub hes hns (by rw [hre]; exact fun e he => List.mem_of_mem_drop he) (by rw [hrn]; exact fun e he => List.mem_of_mem_drop he) ?_
      rw [hre, List.length_drop]
      omega
    · rw [hg.file q (by omega) (by simpa using hqp)]
      exact (hst.page q (by omega) h0).mono hg.le

/-- An insertion keeps that all entries have a record. -/
theorem btsrin_numbered {cfg : Cfg} {fuel : Nat} {rc : Rc} (hst : Numbered st) (h2 : 2 ≤ st.hdr.norecpp)
    (hkt : st.hdr.keytyp &&& 0x7f = st.hdr.keytyp) (hrec : target.recno ≠ 0) (hpno : target.pno = 0) (hlt : pno < st.hdr.pagecnt)
    (h : btsrin cfg fuel pno target st = .ok (rc, target') st') : Kept st st' ∧ (rc = .zero → Sent st' target') := by
  have hstay : Kept st st ∧ (Rc.zero = .zero → Sent st target) :=
    ⟨⟨hst, rfl, le_rfl⟩, fun _ => ⟨fun h0 => absurd h0 hrec, by rw [hpno]; exact hst.pos⟩⟩
  induction fuel generalizing pno rc target' st' with
  | zero => cases h
  | succ fuel ih =>
    rw [btsrin] at h
    split at h
    · obtain ⟨⟩ := h
      exact hstay
    · rename_i hne
      rw [NdxM.bind_ok (getpage_ok hlt)] at h
      obtain ⟨pn0, st1, h1, h⟩ := bind_eq_ok h
      rw [reads_neGetPageno _ _ _ _ _ h1] at h
      obtain ⟨⟨e, r, pn3⟩, st2, h3, h⟩ := bind_eq_ok h
      obtain ⟨rfl, hr, hmem⟩ := slotLoop_reads (fun r pn => reads_btsrinCmp cfg fuel _ target r pn) (neGetPageno_mem h1) h3
      have hp := hst.page pno hlt hne
      dsimp only at h
      split at h
      · obtain ⟨⟩ := h
        exact ⟨hstay.1, fun h => by cases h⟩
      · obtain ⟨⟨rc1, target1⟩, st3, h4, h⟩ := bind_eq_ok h
        obtain ⟨hk, hs⟩ := ih (hp.link pn3 hmem) h4
        dsimp only at h
        split at h
        · obtain ⟨⟩ := h
          exact ⟨hk, hs⟩
        · rename_i hz
          have hs := hs (not_not.1 hz)
          have hcap : st3.hdr.norecpp = st2.hdr.norecpp := by rw [hk.hdr]
          split at h
          · rename_i hsome
            obtain ⟨target2, st4, h5, h⟩ := bind_eq_ok h
            obtain ⟨⟩ := h
            have hrec1 : target1.recno ≠ 0 := fun h0 => hsome.elim (fun h => h h0) fun h => h (hs.none h0)
            obtain ⟨hk2, hs2⟩ := putEntry_numbered hk.numbered (by rw [hcap]; exact hp.mono hk.le) (by omega) (by omega)
              (by rw [hk.hdr]; exact hkt) (hlt.trans_le hk.le) hrec1 hs.link h5
            exact ⟨hk.trans hk2, fun _ => hs2⟩
          · obtain ⟨⟩ := h
            exact ⟨hk, fun _ => hs⟩

/-! ## No split is refused -/

/-- A tree on such pages sends up separators with records. -/
theorem promotes_ne_zero {c : Ent → Int} {t : Tree} {cap : Nat} (hst : Stored st t) (hn : Numbered st) (hx : x.recno ≠ 0) {n : Recno}
    (h : Promotes cap c x t n) : n ≠ 0 := by
  have hents : ∀ {p}, p ≠ 0 → p < st.hdr.pagecnt → ∀ e ∈ (st.file p).ents, e.recno ≠ 0 := fun h0 hlt => (hn.page _ hlt h0).recno
  induction h with
  | leaf hP hR hfull hmid =>
    cases hst with
    | leaf h0 hlt hes hps =>
      have hall := hents h0 hlt
      rw [hes] at hall
      rcases List.mem_append.1 (List.mem_of_getElem? hmid) with he | he
      · exact hall _ (List.mem_append_left _ he)
      · rcases List.mem_cons.1 he with rfl | he
        · exact hx
        · exact hall _ (List.mem_append_right _ he)
  | node key hr hk hfull hmid ih =>
    cases hst with
    | node h0 hlt hes hps hkst =>
      have hall := hents h0 hlt
      rw [hes] at hall
      rcases List.eq_or_mem_of_mem_insertIdx (List.mem_of_getElem? hmid) with rfl | he
      · exact ih (hkst _ (by simp))
      · exact hall _ he

theorem Numbered.no_clash {c : Ent → Int} {t : Tree} {cap : Nat} (hn : Numbered st) (hst : Stored st t) (hx : x.recno ≠ 0) : ¬Clash cap c x t := by
  intro h
  induction h with
  | here hr hk hfull hright =>
    cases hst with
    | node h0 hlt hes hps hkst => exact promotes_ne_zero (hkst _ (by simp)) hn hx hk rfl
  | inside hr hk ih =>
    cases hst with
    | node h0 hlt hes hps hkst => exact ih (hkst _ (by simp))

/-- The index holds no entry and no separator without a record, so an insertion ends without an error. -/
theorem Numbered.not_clashIn {cfg : Cfg} {ot : Option Tree} (hn : Numbered st) (h : Index st ot) (hrec : target.recno ≠ 0) : ¬ClashIn cfg st ot target := by
  rintro ⟨t, ht, hc⟩
  cases h with
  | none hroot => cases ht
  | some hroot hst =>
    obtain ⟨⟩ := ht
    exact hn.no_clash hst hrec hc

end Pages

/-! ## The height of a tree -/

theorem MTree.heightOf_le_of {ι α : Type} {ks : List (MTree ι α)} {n : Nat} (h : ∀ k ∈ ks, k.height ≤ n) : MTree.heightOf ks ≤ n := by
  induction ks with
  | nil => exact Nat.zero_le _
  | cons k ks ih => exact max_le (h k (by simp)) (ih fun j hj => h j (by simp [hj]))

/-- Without empty pages, a tree has at least as many entries as levels. -/
theorem height_le_entries {t : Tree} (hsh : t.Shape SameKey) (hpop : t.Sized (0 < ·)) : t.height ≤ t.entries.length := by
  induction t using MTree.ind with
  | leaf p es =>
    rw [MTree.sized_leaf] at hpop
    rw [MTree.height_leaf, MTree.entries_leaf]
    exact hpop
  | node p ss ks ih =>
    rw [MTree.sized_node] at hpop
    rw [MTree.shape_node] at hsh
    have hlen := hsh.1.len
    rw [MTree.height, MTree.entries_node]
    refine Nat.succ_le_of_lt (lt_of_le_of_lt (MTree.heightOf_le_of (n := (ks.flatMap MTree.entries).length - 1) fun k hk => ?_) ?_)
    · -- beside `k` there is another subtree, with an entry
      obtain ⟨A, B, rfl⟩ := List.append_of_mem hk
      have hkh := ih k (by simp) (hsh.2 k (by simp)) (hpop.2 k (by simp))
      have hpos : ∀ j ∈ A ++ k :: B, 0 < j.entries.length := fun j hj => List.length_pos_iff.2 (hsh.2 j hj).entries_ne_nil
      rw [List.flatMap_append, List.flatMap_cons, List.length_append, List.length_append]
      rcases A with _ | ⟨a, A⟩
      · rcases B with _ | ⟨b, B⟩
        · simp only [List.nil_append, List.length_singleton] at hlen
          omega
        · have := hpos b (by simp)
          rw [List.flatMap_cons, List.length_append]
          omega
      · have := hpos a (by simp)
        rw [List.flatMap_cons, List.length_append]
        omega
    · obtain ⟨k, hk⟩ := List.exists_mem_of_ne_nil ks hsh.1.ne_nil
      have := List.length_pos_iff.2 (MTree.flatMap_entries_ne_nil hk (hsh.2 k hk).entries_ne_nil)
      omega

end Db3w
