/-
What an index file stores. `Stored` relates the pages of a file to a tree of pages, and `Index`
an open index to the tree at its root, if it has one. On a stored tree the accesses to entries
raise no error, `btlr` compares with the last entry of the tree, and the loop over the entries of a
page chooses the subtree, or the position in a leaf, that the comparison says.
-/
import Db3w.Lib.MTree
import Db3w.Ndx.Update

namespace Db3w

/-- A stored entry: its key and its record. -/
structure Ent where
  key : Key
  recno : Recno
  deriving DecidableEq, Repr

abbrev Tree := MTree Pageno Ent

/-- A separator carries the key of an entry; its record does not matter. -/
def SameKey (s e : Ent) : Prop := s.key = e.key

def NdxEntry.ent (e : NdxEntry) : Ent := ⟨e.key, e.recno⟩

/-- The keys and records of a page. -/
def NdxPage.ents (p : NdxPage) : List Ent := (List.range p.entryCnt).map fun i => (p.entries i).ent

/-- The subtree pages of a page, one more than its entries. -/
def NdxPage.pnos (p : NdxPage) : List Pageno := (List.range (p.entryCnt + 1)).map fun i => (p.entries i).pno

/-- The file holds the tree: each page is as in the tree, and its number is in use. -/
inductive Stored (st : Ndx) : Tree → Prop
  | leaf {p : Pageno} {es : List Ent} (h0 : p ≠ 0) (hlt : p < st.hdr.pagecnt) (hes : (st.file p).ents = es)
      (hps : (st.file p).pnos = List.replicate (es.length + 1) 0) : Stored st (.leaf p es)
  | node {p : Pageno} {ss : List Ent} {ks : List Tree} (h0 : p ≠ 0) (hlt : p < st.hdr.pagecnt)
      (hes : (st.file p).ents = ss) (hps : (st.file p).pnos = ks.map MTree.page) (hk : ∀ k ∈ ks, Stored st k) :
      Stored st (.node p ss ks)

/-- The open index holds the tree, or none when it is empty. -/
inductive Index (st : Ndx) : Option Tree → Prop
  | none : st.hdr.rootno = 0 → Index st none
  | some {t : Tree} : st.hdr.rootno = t.page → Stored st t → Index st (some t)

/-! ## Entries of a page -/

section Page

variable {p : NdxPage} {st : Ndx} {i : Int} {n : Nat}

@[simp] theorem NdxPage.length_ents : p.ents.length = p.entryCnt := by simp [NdxPage.ents]

@[simp] theorem NdxPage.length_pnos : p.pnos.length = p.entryCnt + 1 := by simp [NdxPage.pnos]

theorem NdxPage.ents_get (h : n < p.entryCnt) : p.ents[n]? = some (p.entries n).ent := by
  simp [NdxPage.ents, h]

theorem NdxPage.pnos_get (h : n ≤ p.entryCnt) : p.pnos[n]? = some (p.entries n).pno := by
  simp [NdxPage.pnos, Nat.lt_succ_of_le h]

theorem NdxPage.ents_eq {xs : List Ent} (hl : p.entryCnt = xs.length)
    (h : ∀ i, i < p.entryCnt → xs[i]? = some (p.entries i).ent) : p.ents = xs := by
  refine List.ext_getElem? fun i => ?_
  by_cases hi : i < p.entryCnt
  · rw [NdxPage.ents_get hi, h i hi]
  · rw [List.getElem?_eq_none (by simpa using hi), List.getElem?_eq_none (by omega)]

theorem NdxPage.pnos_eq {xs : List Pageno} (hl : p.entryCnt + 1 = xs.length)
    (h : ∀ i, i ≤ p.entryCnt → xs[i]? = some (p.entries i).pno) : p.pnos = xs := by
  refine List.ext_getElem? fun i => ?_
  by_cases hi : i ≤ p.entryCnt
  · rw [NdxPage.pnos_get hi, h i hi]
  · rw [List.getElem?_eq_none (by rw [NdxPage.length_pnos]; omega), List.getElem?_eq_none (by omega)]

theorem getpage_ok (h : n < st.hdr.pagecnt) : getpage n st = .ok (st.file n) st := by
  simp only [getpage, NdxM.bind_apply, NdxM.get_apply, NdxM.pure_apply, ge_iff_le, Nat.not_le.2 h, if_false]

theorem getpage_new (h : st.hdr.pagecnt ≤ n) : getpage n st = .ok zeroPage st := by
  simp only [getpage, NdxM.bind_apply, NdxM.get_apply, NdxM.pure_apply, ge_iff_le, h, if_true]

theorem getEntry_ok (hi : i = n) (h : n ≤ p.entryCnt) : getEntry p i st = .ok (p.entries n) st := by
  subst hi
  have h1 : ¬((n : Int) < 0 ∨ (n : Int) > p.entryCnt) := by omega
  simp only [getEntry, h1, if_false, Int.toNat_natCast, NdxM.pure_apply]

theorem getEntry_bad (h : i < 0 ∨ i > p.entryCnt) : getEntry p i st = .error (.invalidEntry st.seq) st := by
  simp only [getEntry, h, if_true, NdxM.bind_apply, NdxM.get_apply, NdxM.throw_apply]

theorem neGetKey_ok (hi : i = n) (h : n ≤ p.entryCnt) : neGetKey p i st = .ok (p.entries n).key st := by
  rw [neGetKey, NdxM.bind_ok (getEntry_ok hi h), NdxM.pure_apply]

theorem neGetPageno_ok (hi : i = n) (h : n ≤ p.entryCnt) : neGetPageno p i st = .ok (p.entries n).pno st := by
  rw [neGetPageno, NdxM.bind_ok (getEntry_ok hi h), NdxM.pure_apply]

theorem neGetRecno_ok (hi : i = n) (h : n ≤ p.entryCnt) : neGetRecno p i st = .ok (p.entries n).recno st := by
  rw [neGetRecno, NdxM.bind_ok (getEntry_ok hi h), NdxM.pure_apply]

theorem isLeaf_ok : isLeaf p st = .ok ((p.entries 0).pno == 0) st := by
  rw [isLeaf, NdxM.bind_ok (neGetPageno_ok (i := 0) (n := 0) rfl (Nat.zero_le _)), NdxM.pure_apply]

end Page

/-! ## Reading a stored tree -/

section Read

variable {st st' : Ndx} {t k : Tree} {p : Pageno} {pg : NdxPage} {ss es : List Ent} {ks A B : List Tree} {x : Ent} {fuel : Nat}

theorem Stored.page_ne (h : Stored st t) : t.page ≠ 0 := by
  cases h <;> assumption

theorem Stored.page_lt (h : Stored st t) : t.page < st.hdr.pagecnt := by
  cases h <;> assumption

/-- The subtree `k` among `A ++ k :: B` is at entry `A.length` of the page. -/
theorem NdxPage.pno_kid (h : pg.pnos = (A ++ k :: B).map MTree.page) :
    A.length ≤ pg.entryCnt ∧ (pg.entries A.length).pno = k.page := by
  have hl := congrArg List.length h
  simp only [NdxPage.length_pnos, List.length_map, List.length_append, List.length_cons] at hl
  have h1 := NdxPage.pnos_get (p := pg) (n := A.length) (by omega)
  rw [h] at h1
  simp only [List.map_append, List.map_cons, List.getElem?_append_right (List.length_map _).le, List.length_map,
    Nat.sub_self, List.getElem?_cons_zero, Option.some.injEq] at h1
  exact ⟨by omega, h1.symm⟩

theorem NdxPage.pno_zero (h : pg.pnos = List.replicate (es.length + 1) 0) {i : Nat} (hi : i ≤ pg.entryCnt) :
    (pg.entries i).pno = 0 := by
  have h1 := NdxPage.pnos_get (p := pg) hi
  rw [h] at h1
  exact (List.mem_replicate.1 (List.mem_of_getElem? h1)).2

theorem NdxPage.isLeaf_zero (h : pg.pnos = List.replicate (es.length + 1) 0) (st : Ndx) : isLeaf pg st = .ok true st := by
  rw [isLeaf_ok, NdxPage.pno_zero h (Nat.zero_le _)]; rfl

theorem NdxPage.pno_ne_zero (h : pg.pnos = ks.map MTree.page) (hk : ∀ k ∈ ks, k.page ≠ 0) : (pg.entries 0).pno ≠ 0 := by
  rcases ks with _ | ⟨k, ks⟩
  · have := congrArg List.length h
    simp at this
  · have h1 := (NdxPage.pno_kid (A := []) h).2
    rw [List.length_nil] at h1
    rw [h1]
    exact hk k List.mem_cons_self

theorem NdxPage.isLeaf_kids (h : pg.pnos = ks.map MTree.page) (hk : ∀ k ∈ ks, k.page ≠ 0) (st : Ndx) :
    isLeaf pg st = .ok false st := by
  rw [isLeaf_ok]
  simp [NdxPage.pno_ne_zero h hk]

theorem NdxPage.getLast_ents (h : pg.ents.getLast? = some x) :
    0 < pg.entryCnt ∧ (pg.entries (pg.entryCnt - 1)).ent = x := by
  rw [List.getLast?_eq_getElem?, NdxPage.length_ents] at h
  have hpos : 0 < pg.entryCnt := by
    by_contra h0
    rw [List.getElem?_eq_none (by rw [NdxPage.length_ents]; omega)] at h
    cases h
  rw [NdxPage.ents_get (by omega)] at h
  exact ⟨hpos, Option.some.inj h⟩

/-- The descent of `btlr` ends at the leaf that holds the last entry. -/
theorem btlrDown_ok (h : Stored st t) (hs : t.Shape SameKey) (hf : t.height ≤ fuel) :
    ∃ pg, btlrDown fuel (st.file t.page) st = .ok pg st ∧ pg.ents.getLast? = t.last? := by
  induction t using MTree.ind generalizing fuel with
  | leaf p es =>
    cases h with
    | leaf h0 hlt hes hps =>
      obtain ⟨fuel, rfl⟩ : ∃ n, fuel = n + 1 := ⟨fuel - 1, by rw [MTree.height_leaf] at hf; omega⟩
      refine ⟨st.file p, ?_, by rw [hes, MTree.last?, MTree.entries_leaf]⟩
      rw [btlrDown, MTree.page, NdxM.bind_ok (NdxPage.isLeaf_zero hps st)]; rfl
  | node p ss ks ih =>
    cases h with
    | node h0 hlt hes hps hk =>
      cases hs with
      | node hsep hsk =>
        obtain ⟨A, k, rfl⟩ : ∃ A k, ks = A ++ [k] :=
          ⟨ks.dropLast, ks.getLast hsep.ne_nil, (List.dropLast_append_getLast hsep.ne_nil).symm⟩
        have hkm : k ∈ A ++ [k] := by simp
        have hh := MTree.height_kid p ss hkm
        obtain ⟨fuel, rfl⟩ : ∃ n, fuel = n + 1 := ⟨fuel - 1, by omega⟩
        have hst := hk k hkm
        obtain ⟨pg, hd, hl⟩ := @ih k hkm fuel hst (hsk k hkm) (by omega)
        have hcnt : A.length = (st.file p).entryCnt := by
          have := congrArg List.length hps
          simp at this
          omega
        have hpno := (NdxPage.pno_kid hps).2
        refine ⟨pg, ?_, by rw [hl, MTree.last?_node_concat (hsk k hkm).entries_ne_nil]⟩
        rw [btlrDown, MTree.page, NdxM.bind_ok (NdxPage.isLeaf_kids hps (fun k hk' => (hk k hk').page_ne) st)]
        rw [if_neg Bool.false_ne_true]
        rw [NdxM.bind_ok (neGetPageno_ok (n := (st.file p).entryCnt) rfl le_rfl), ← hcnt, hpno,
          NdxM.bind_ok (getpage_ok hst.page_lt), hd]

/-- `btlr` compares with the record of the last entry of a tree. -/
theorem btlr_ok (h : Stored st t) (hs : t.Shape SameKey) (hf : t.height ≤ fuel) (hx : t.last? = some x) (n : Recno) :
    btlr fuel t.page n st = .ok (cmpRecno n x.recno) st := by
  obtain ⟨pg, hd, hl⟩ := btlrDown_ok h hs hf
  obtain ⟨hpos, hx'⟩ := NdxPage.getLast_ents (hl.trans hx)
  rw [btlr, NdxM.bind_ok (getpage_ok h.page_lt), NdxM.bind_ok hd,
    NdxM.bind_ok (neGetRecno_ok (n := pg.entryCnt - 1) (by omega) (by omega)), ← hx']
  rfl

end Read

/-! ## The loop over the entries -/

/-- The comparison of a target with an entry by key alone. -/
def keyCmp (hdr : NdxHdr) (exactOn : Bool) (target : NdxEntry) (x : Ent) : Int := keycmp hdr exactOn target.key x.key

/-- The comparison of a target with an entry by key and then by record. -/
def entCmp (hdr : NdxHdr) (exactOn : Bool) (target : NdxEntry) (x : Ent) : Int :=
  if keyCmp hdr exactOn target x ≠ 0 then keyCmp hdr exactOn target x else cmpRecno target.recno x.recno

/-- The comparison an insertion goes by. -/
def insCmp (cfg : Cfg) (hdr : NdxHdr) (target : NdxEntry) (x : Ent) : Int :=
  if cfg.uniqueOn then keyCmp hdr cfg.exactOn target x else entCmp hdr cfg.exactOn target x

/-- The last comparison of a loop over a page that stopped before the subtrees `B`. -/
def StopKid (c : Ent → Int) (k : Tree) (B : List Tree) (e : Int) : Prop :=
  (B = [] ∧ e = 1) ∨ (B ≠ [] ∧ ∃ x, k.last? = some x ∧ e = c x ∧ c x ≤ 0)

/-- The last comparison of a loop over a leaf that stopped before the entries `R`. -/
def StopEnt (c : Ent → Int) (R : List Ent) (e : Int) : Prop :=
  (R = [] ∧ e = 1) ∨ ∃ x R', R = x :: R' ∧ e = c x ∧ c x ≤ 0

section Loop

variable {pg : NdxPage} {ss es : List Ent} {ks A B : List Tree} {k b : Tree} {c : Ent → Int}

theorem StopKid.routes {e : Int} (h : StopKid c k B e) (hA : ∀ a ∈ A, ∃ x, a.last? = some x ∧ 0 < c x) :
    MTree.Routes c A k B := by
  refine ⟨hA, fun hB => ?_⟩
  rcases h with ⟨hn, -⟩ | ⟨-, x, hx, -, hc⟩
  · exact absurd hn hB
  · exact ⟨x, hx, hc⟩

theorem slotLoop_kids (cmp : Nat → Pageno → NdxM Int) (st : Ndx) (hps : pg.pnos = ks.map MTree.page)
    (hcmp : ∀ A k b B, ks = A ++ k :: b :: B → ∃ x, k.last? = some x ∧ cmp A.length k.page st = .ok (c x) st) :
    ∀ (B A : List Tree) (k : Tree), ks = A ++ k :: B → (∀ a ∈ A, ∃ x, a.last? = some x ∧ 0 < c x) →
      ∃ A' k' B' e, ks = A' ++ k' :: B' ∧ slotLoop cmp pg B.length A.length k.page st = .ok (e, A'.length, k'.page) st ∧
        (∀ a ∈ A', ∃ x, a.last? = some x ∧ 0 < c x) ∧ StopKid c k' B' e
  | [], A, k, hks, hA => ⟨A, k, [], 1, hks, rfl, hA, Or.inl ⟨rfl, rfl⟩⟩
  | b :: B, A, k, hks, hA => by
    obtain ⟨x, hx, hc⟩ := hcmp A k b B hks
    have hks' : ks = (A ++ [k]) ++ b :: B := by rw [hks]; simp
    obtain ⟨hle, hb⟩ := NdxPage.pno_kid (hks' ▸ hps)
    rw [List.length_append, List.length_singleton] at hle hb
    rw [List.length_cons, slotLoop, NdxM.bind_ok (neGetPageno_ok (n := A.length + 1) (by omega) hle), hb, NdxM.bind_ok hc]
    by_cases hpos : c x > 0
    · rw [if_pos hpos]
      obtain ⟨A', k', B', e, h1, h2, h3⟩ := slotLoop_kids cmp st hps hcmp B (A ++ [k]) b hks' (by
        intro a ha
        rcases List.mem_append.1 ha with ha | ha
        · exact hA a ha
        · rw [List.mem_singleton.1 ha]; exact ⟨x, hx, hpos⟩)
      rw [List.length_append, List.length_singleton] at h2
      exact ⟨A', k', B', e, h1, h2, h3⟩
    · rw [if_neg hpos]
      exact ⟨A, k, b :: B, c x, hks, rfl, hA, Or.inr ⟨by simp, x, hx, rfl, by omega⟩⟩

theorem slotLoop_ents (cmp : Nat → Pageno → NdxM Int) (st : Ndx) (hes : pg.ents = es) (hps : pg.pnos = List.replicate (es.length + 1) 0)
    (hcmp : ∀ P x R, es = P ++ x :: R → cmp P.length 0 st = .ok (c x) st) :
    ∀ (R P : List Ent), es = P ++ R → (∀ a ∈ P, 0 < c a) →
      ∃ P' R' e, es = P' ++ R' ∧ slotLoop cmp pg R.length P.length 0 st = .ok (e, P'.length, 0) st ∧
        (∀ a ∈ P', 0 < c a) ∧ StopEnt c R' e
  | [], P, hes', hP => ⟨P, [], 1, hes', rfl, hP, Or.inl ⟨rfl, rfl⟩⟩
  | x :: R, P, hes', hP => by
    have hlen : pg.entryCnt = es.length := by rw [← hes]; simp
    have hlt : P.length + 1 ≤ pg.entryCnt := by rw [hlen, hes']; simp
    rw [List.length_cons, slotLoop, NdxM.bind_ok (neGetPageno_ok (n := P.length + 1) (by omega) hlt),
      NdxPage.pno_zero hps hlt, NdxM.bind_ok (hcmp P x R hes')]
    by_cases hpos : c x > 0
    · rw [if_pos hpos]
      obtain ⟨P', R', e, h1, h2, h3⟩ := slotLoop_ents cmp st hes hps hcmp R (P ++ [x]) (by rw [hes']; simp) (by
        intro a ha
        rcases List.mem_append.1 ha with ha | ha
        · exact hP a ha
        · rw [List.mem_singleton.1 ha]; exact hpos)
      rw [List.length_append, List.length_singleton] at h2
      exact ⟨P', R', e, h1, h2, h3⟩
    · rw [if_neg hpos]
      exact ⟨P, x :: R, c x, hes', rfl, hP, Or.inr ⟨x, R, rfl, rfl, by omega⟩⟩

/-- The separator between `k` and the subtree after it. -/
theorem sep_key (hsep : MTree.Sepd SameKey ss (A ++ k :: b :: B)) (hes : pg.ents = ss) :
    A.length < pg.entryCnt ∧ ∃ x, k.last? = some x ∧ (pg.entries A.length).key = x.key := by
  have hl := hsep.len
  have hcnt : pg.entryCnt = ss.length := by rw [← hes]; simp
  simp only [List.length_append, List.length_cons] at hl
  have hlt : A.length < pg.entryCnt := by omega
  have hg := NdxPage.ents_get hlt
  rw [hes] at hg
  obtain ⟨x, hx, hs⟩ := hsep.sep ((pg.entries A.length).ent, k) (by
    refine List.mem_of_getElem? (i := A.length) ?_
    rw [List.getElem?_zip_eq_some]
    exact ⟨hg, by simp⟩)
  exact ⟨hlt, x, hx, hs⟩

theorem ent_at {P R : List Ent} {x : Ent} (hes : pg.ents = P ++ x :: R) :
    P.length < pg.entryCnt ∧ (pg.entries P.length).ent = x := by
  have hl := congrArg List.length hes
  simp only [NdxPage.length_ents, List.length_append, List.length_cons] at hl
  have hlt : P.length < pg.entryCnt := by omega
  have hg := NdxPage.ents_get hlt
  rw [hes] at hg
  simp only [List.getElem?_append_right le_rfl, Nat.sub_self, List.getElem?_cons_zero, Option.some.injEq] at hg
  exact ⟨hlt, hg.symm⟩

end Loop

end Db3w
