/-
Pages after the moves of entries within and between them. Each loop is described entry by entry;
from that, putting an entry into a page with room inserts it and its subtree page into the two
lists of the page, and splitting a full page cuts the lists that the insertion would have given,
unless `insert_entry` refuses the entry: the new page still looks like a leaf there, since its
first subtree page is filled in last.
-/
import Db3w.Ndx.Tree

namespace Db3w

/-- The two states differ in the position of the traversal at most. -/
def CursorOnly (st st' : Ndx) : Prop := ∃ pn en, st' = { st with pageNo := pn, entryNo := en }

theorem CursorOnly.refl (st : Ndx) : CursorOnly st st := ⟨st.pageNo, st.entryNo, rfl⟩

section Moves

variable {p q : NdxPage} {st : Ndx} {a b k r : Nat}

/-- Page `q` after entry `a` of `p` was moved to its entry `b`. -/
def NdxPage.move (q p : NdxPage) (a b : Nat) : NdxPage :=
  (q.set (b + 1) { q.entries (b + 1) with pno := (p.entries (a + 1)).pno }).set b
    { q.entries b with recno := (p.entries a).recno, key := (p.entries a).key }

theorem moveEntry_ok {i j : Int} (hi : i = a) (hj : j = b) (ha : a + 1 ≤ p.entryCnt) (hb : b + 1 ≤ q.entryCnt) :
    moveEntry p i q j st = .ok (q.move p a b) st := by
  subst hi hj
  rw [moveEntry, NdxM.bind_ok (getEntry_ok (n := a) rfl (by omega)), NdxM.bind_ok (getEntry_ok (n := b) rfl (by omega)),
    NdxM.bind_ok (getEntry_ok (n := a + 1) (by omega) ha), NdxM.bind_ok (getEntry_ok (n := b + 1) (by omega) hb)]
  rfl

theorem NdxPage.set_entries (n i : Nat) (e : NdxEntry) : (p.set n e).entries i = if i = n then e else p.entries i := by
  simp only [NdxPage.set, Function.update_apply]

@[simp] theorem NdxPage.set_entryCnt (n : Nat) (e : NdxEntry) : (p.set n e).entryCnt = p.entryCnt := rfl

@[simp] theorem NdxPage.move_entryCnt : (q.move p a b).entryCnt = q.entryCnt := rfl

theorem NdxPage.move_ent (i : Nat) :
    ((q.move p a b).entries i).ent = if i = b then (p.entries a).ent else (q.entries i).ent := by
  simp only [NdxPage.move, NdxPage.set_entries, NdxEntry.ent]
  split
  · rfl
  · split <;> simp_all

theorem NdxPage.move_pno (i : Nat) :
    ((q.move p a b).entries i).pno = if i = b + 1 then (p.entries (a + 1)).pno else (q.entries i).pno := by
  simp only [NdxPage.move, NdxPage.set_entries]
  by_cases h1 : i = b
  · subst h1; simp
  · rw [if_neg h1]
    split <;> rfl

/-- What a loop of moves makes of a page, entry by entry. -/
structure Entrywise (p' : NdxPage) (cnt : Nat) (e : Nat → Ent) (n : Nat → Pageno) : Prop where
  cnt : p'.entryCnt = cnt
  ent : ∀ i, (p'.entries i).ent = e i
  pno : ∀ i, (p'.entries i).pno = n i

theorem shiftUp_ok (st : Ndx) (r : Nat) : ∀ (k : Nat) (p : NdxPage), (0 < k → r + k + 1 ≤ p.entryCnt) →
    ∃ p', shiftUp r k p st = .ok p' st ∧ Entrywise p' p.entryCnt
      (fun i => if r < i ∧ i ≤ r + k then (p.entries (i - 1)).ent else (p.entries i).ent)
      (fun i => if r + 1 < i ∧ i ≤ r + k + 1 then (p.entries (i - 1)).pno else (p.entries i).pno)
  | 0, p, _ => ⟨p, rfl, rfl, fun i => by rw [if_neg (by omega)], fun i => by rw [if_neg (by omega)]⟩
  | k + 1, p, h => by
    have hle := h (by omega)
    obtain ⟨p', h1, h2, h3, h4⟩ := shiftUp_ok st r k (p.move p (r + k) (r + k + 1)) (by simp; omega)
    refine ⟨p', ?_, h2, fun i => ?_, fun i => ?_⟩
    · rw [shiftUp, NdxM.bind_ok (moveEntry_ok (a := r + k) (b := r + k + 1) (by omega) (by omega) (by omega) (by omega)), h1]
    · rw [h3, NdxPage.move_ent, NdxPage.move_ent]
      split_ifs <;> first | rfl | omega | (congr 2; omega)
    · rw [h4, NdxPage.move_pno, NdxPage.move_pno]
      split_ifs <;> first | rfl | omega | (congr 2; omega)

theorem shiftDown_ok (st : Ndx) : ∀ (k r : Nat) (p : NdxPage), (0 < k → r + k + 1 ≤ p.entryCnt) →
    ∃ p', shiftDown k r p st = .ok p' st ∧ Entrywise p' p.entryCnt
      (fun i => if r ≤ i ∧ i < r + k then (p.entries (i + 1)).ent else (p.entries i).ent)
      (fun i => if r < i ∧ i ≤ r + k then (p.entries (i + 1)).pno else (p.entries i).pno)
  | 0, r, p, _ => ⟨p, rfl, rfl, fun i => by rw [if_neg (by omega)], fun i => by rw [if_neg (by omega)]⟩
  | k + 1, r, p, h => by
    have hle := h (by omega)
    obtain ⟨p', h1, h2, h3, h4⟩ := shiftDown_ok st k (r + 1) (p.move p (r + 1) r) (by simp; omega)
    refine ⟨p', ?_, h2, fun i => ?_, fun i => ?_⟩
    · rw [shiftDown, NdxM.bind_ok (moveEntry_ok (a := r + 1) (b := r) (by omega) (by omega) (by omega) (by omega)), h1]
    · rw [h3, NdxPage.move_ent, NdxPage.move_ent]
      split_ifs <;> first | rfl | omega | (congr 2; omega)
    · rw [h4, NdxPage.move_pno, NdxPage.move_pno]
      split_ifs <;> first | rfl | omega | (congr 2; omega)

theorem copyEntries_ok (p : NdxPage) (st : Ndx) : ∀ (k a b : Nat) (q : NdxPage), a + k ≤ p.entryCnt → b + k ≤ q.entryCnt →
    ∃ q', copyEntries p k a b q st = .ok q' st ∧ Entrywise q' q.entryCnt
      (fun i => if b ≤ i ∧ i < b + k then (p.entries (a + (i - b))).ent else (q.entries i).ent)
      (fun i => if b < i ∧ i ≤ b + k then (p.entries (a + (i - b))).pno else (q.entries i).pno)
  | 0, a, b, q, _, _ => ⟨q, rfl, rfl, fun i => by rw [if_neg (by omega)], fun i => by rw [if_neg (by omega)]⟩
  | k + 1, a, b, q, ha, hb => by
    obtain ⟨q', h1, h2, h3, h4⟩ := copyEntries_ok p st k (a + 1) (b + 1) (q.move p a b) (by omega) (by simp; omega)
    refine ⟨q', ?_, h2, fun i => ?_, fun i => ?_⟩
    · rw [copyEntries, NdxM.bind_ok (moveEntry_ok (a := a) (b := b) rfl rfl (by omega) (by omega)), h1]
    · rw [h3, NdxPage.move_ent]
      split_ifs <;> first | rfl | omega | (congr 2; omega)
    · rw [h4, NdxPage.move_pno]
      split_ifs <;> first | rfl | omega | (congr 2; omega)

end Moves

/-! ## Putting an entry into a page -/

section Insert

variable {p : NdxPage} {st : Ndx} {r n : Nat} {pno : Pageno} {target : NdxEntry}

/-- What `insert_entry` asks of an entry: a record for a page that looks like a leaf, a subtree for
the others. -/
def Accepts (p : NdxPage) (target : NdxEntry) : Prop :=
  if (p.entries 0).pno = 0 then target.recno ≠ 0 else target.pno ≠ 0

theorem accepts_congr {p' : NdxPage} (h : (p'.entries 0).pno = (p.entries 0).pno) :
    Accepts p' target ↔ Accepts p target := by rw [Accepts, Accepts, h]

theorem accepts_leaf (h : (p.entries 0).pno = 0) : Accepts p target ↔ target.recno ≠ 0 := by rw [Accepts, if_pos h]

theorem insertEntry_ok (st : Ndx) (pno : Pageno) {j : Int} (hj : j = r) (hr : r + 1 ≤ p.entryCnt) (ha : Accepts p target) :
    ∃ p' st', insertEntry p pno j target st = .ok p' st' ∧ CursorOnly st st' ∧ Entrywise p' p.entryCnt
      (fun i => if i = r then target.ent else (p.entries i).ent)
      (fun i => if i = r + 1 then target.pno else (p.entries i).pno) := by
  subst hj
  have hg : ¬(((p.entries 0).pno == 0) = true ∧ target.recno = 0 ∨ ¬((p.entries 0).pno == 0) = true ∧ target.pno = 0) := by
    unfold Accepts at ha
    by_cases h0 : (p.entries 0).pno = 0 <;> simp_all
  let p' := (p.set r { p.entries r with recno := target.recno, key := target.key }).set (r + 1)
    { p.entries (r + 1) with pno := target.pno }
  have hput : ∀ (f : NdxPage → NdxM NdxPage), (do
      let p ← nePutRecno p r target.recno
      let p ← nePutKey p r target.key
      let p ← nePutPageno p ((r : Int) + 1) target.pno
      f p) st = f p' st := by
    intro f
    simp only [nePutRecno, nePutKey, nePutPageno, NdxM.bind_apply, NdxM.pure_apply]
    rw [getEntry_ok (n := r) rfl (by omega)]
    simp only []
    rw [getEntry_ok (n := r) rfl (by simp; omega)]
    simp only []
    rw [getEntry_ok (n := r + 1) (by omega) (by simp; omega)]
    have h1 : ((r : Int) + 1).toNat = r + 1 := by omega
    simp only [Int.toNat_natCast, h1, NdxPage.set_entries, if_true, Nat.succ_ne_self, if_false]
    refine congrFun (congrArg f ?_) st
    simp only [NdxPage.set, p', Function.update_idem]
  have hE : Entrywise p' p.entryCnt (fun i => if i = r then target.ent else (p.entries i).ent)
      (fun i => if i = r + 1 then target.pno else (p.entries i).pno) := by
    refine ⟨rfl, fun i => ?_, fun i => ?_⟩
    · simp only [p', NdxPage.set_entries, NdxEntry.ent]
      by_cases h1 : i = r + 1
      · subst h1; simp
      · rw [if_neg h1]; split <;> simp_all
    · simp only [p', NdxPage.set_entries]
      split
      · rfl
      · split <;> simp_all
  rw [insertEntry, NdxM.bind_ok isLeaf_ok]
  simp only [hg, if_false]
  rw [hput, NdxM.bind_ok isLeaf_ok]
  by_cases hl : (p'.entries 0).pno = 0
  · exact ⟨p', { st with pageNo := pno, entryNo := r }, by simp [hl, NdxM.bind_apply, NdxM.modify_apply, NdxM.pure_apply],
      ⟨_, _, rfl⟩, hE⟩
  · exact ⟨p', st, by simp [hl, NdxM.pure_apply], CursorOnly.refl st, hE⟩

theorem insertEntry_refused {j : Int} (ha : ¬Accepts p target) :
    insertEntry p pno j target st = .error (.invalidEntry pno) st := by
  have hg : ((p.entries 0).pno == 0) = true ∧ target.recno = 0 ∨ ¬((p.entries 0).pno == 0) = true ∧ target.pno = 0 := by
    unfold Accepts at ha
    by_cases h0 : (p.entries 0).pno = 0 <;> simp_all
  rw [insertEntry, NdxM.bind_ok isLeaf_ok]
  simp only [hg, if_true]
  rfl

theorem ents_insertIdx_get {x : Ent} {i : Nat} (hr : r ≤ p.entryCnt) (hi : i ≤ p.entryCnt) :
    (p.ents.insertIdx r x)[i]? =
      some (if i < r then (p.entries i).ent else if i = r then x else (p.entries (i - 1)).ent) := by
  rw [List.getElem?_insertIdx]
  split_ifs with h1 h2
  · exact NdxPage.ents_get (by omega)
  · simp_all
  · simp_all
  · exact NdxPage.ents_get (by omega)

theorem pnos_insertIdx_get {x : Pageno} {i : Nat} (hr : r ≤ p.entryCnt + 1) (hi : i ≤ p.entryCnt + 1) :
    (p.pnos.insertIdx r x)[i]? =
      some (if i < r then (p.entries i).pno else if i = r then x else (p.entries (i - 1)).pno) := by
  rw [List.getElem?_insertIdx]
  split_ifs with h1 h2
  · exact NdxPage.pnos_get (by omega)
  · simp_all
  · simp_all
  · exact NdxPage.pnos_get (by omega)

/-- A page with room takes the entry at `r` and its subtree after it. -/
theorem insertPage_ok (st : Ndx) (pno : Pageno) (hr : r ≤ p.entryCnt) (ha : Accepts p target) :
    ∃ p' st', insertPage p pno r target st = .ok p' st' ∧ CursorOnly st st' ∧
      p'.ents = p.ents.insertIdx r target.ent ∧ p'.pnos = p.pnos.insertIdx (r + 1) target.pno := by
  obtain ⟨p1, h1, hc1, he1, hn1⟩ := shiftUp_ok st r (p.entryCnt - r) { p with entryCnt := p.entryCnt + 1 }
    (by simp only; omega)
  simp only at hc1 he1 hn1
  have ha1 : Accepts p1 target := (accepts_congr (by rw [hn1, if_neg (by omega)])).2 ha
  obtain ⟨p2, st', h2, hcur, hc2, he2, hn2⟩ := insertEntry_ok st pno (j := r) rfl (by omega) ha1
  refine ⟨p2, st', by rw [insertPage, NdxM.bind_ok h1, h2], hcur, NdxPage.ents_eq ?_ fun i hi => ?_,
    NdxPage.pnos_eq ?_ fun i hi => ?_⟩
  · rw [List.length_insertIdx, NdxPage.length_ents, if_pos hr]; omega
  · rw [ents_insertIdx_get hr (by omega), he2, he1]
    congr 1
    split_ifs <;> first | rfl | omega
  · rw [List.length_insertIdx, NdxPage.length_pnos, if_pos (by omega)]; omega
  · rw [pnos_insertIdx_get (by omega) (by omega), hn2, hn1]
    congr 1
    split_ifs <;> first | rfl | omega

end Insert

/-! ## Splitting a page -/

section Split

/-- The sequence `f` with `x` inserted at `r`. -/
def insAt {α : Type} (r : Nat) (x : α) (f : Nat → α) (i : Nat) : α := if i < r then f i else if i = r then x else f (i - 1)

variable {p q : NdxPage} {st : Ndx} {e n r : Nat} {pno pn3 : Pageno} {target : NdxEntry}

/-- The pages after the moves of a split: page `p'` is right up to the middle, and `q'` after it
but for its first subtree page. -/
structure SplitOK (p : NdxPage) (e n r : Nat) (target : NdxEntry) (p' q' : NdxPage) (target' : NdxEntry) : Prop where
  pcnt : p'.entryCnt = e
  qcnt : q'.entryCnt = e - n
  pent : ∀ i, i ≤ n → (p'.entries i).ent = insAt r target.ent (fun i => (p.entries i).ent) i
  ppno : ∀ i, i ≤ n + 1 → (p'.entries i).pno = insAt (r + 1) target.pno (fun i => (p.entries i).pno) i
  qent : ∀ i, i < e - n → (q'.entries i).ent = insAt r target.ent (fun i => (p.entries i).ent) (n + 1 + i)
  qpno : ∀ i, 0 < i → i ≤ e - n → (q'.entries i).pno = insAt (r + 1) target.pno (fun i => (p.entries i).pno) (n + 1 + i)
  mid : target'.ent = insAt r target.ent (fun i => (p.entries i).ent) n

/-- Where a split inserts: into the page or, right of the middle, into the new page, which looks
like a leaf. -/
def SplitAccepts (p : NdxPage) (n r : Nat) (target : NdxEntry) : Prop :=
  if r ≤ n then Accepts p target else target.recno ≠ 0

theorem splitMoves_ok (st : Ndx) (pno pn3 : Pageno) (hp : p.entryCnt = e) (hq : q.entryCnt = e - n) (hq0 : (q.entries 0).pno = 0) (hn : n + 1 ≤ e)
    (hr : r ≤ e) (ha : SplitAccepts p n r target) :
    ∃ p' q' target' st', splitMoves e n pn3 p q pno r target st = .ok (p', q', target') st' ∧ CursorOnly st st' ∧
      SplitOK p e n r target p' q' target' := by
  unfold SplitAccepts at ha
  rw [splitMoves]
  rcases Nat.lt_trichotomy r n with hlt | rfl | hgt
  · rw [if_pos (by omega)] at ha
    obtain ⟨q1, hq1, hqc, hqe, hqn⟩ := copyEntries_ok p st (e - n) n 0 q (by omega) (by omega)
    obtain ⟨p1, hp1, hpc1, hpe1, hpn1⟩ := shiftUp_ok st r (n - r) p (by omega)
    have ha1 : Accepts p1 target := (accepts_congr (by rw [hpn1, if_neg (by omega)])).2 ha
    obtain ⟨p2, st', hp2, hcur, hpc2, hpe2, hpn2⟩ := insertEntry_ok st pno (j := r) rfl (by omega) ha1
    rw [if_neg (by omega), if_pos hlt, NdxM.bind_ok hq1, NdxM.bind_ok hp1, NdxM.bind_ok hp2,
      NdxM.bind_ok (neGetRecno_ok (n := n) rfl (by omega)), NdxM.bind_ok (neGetKey_ok (n := n) rfl (by omega))]
    refine ⟨p2, q1, _, st', rfl, hcur, by omega, by omega, fun i hi => ?_, fun i hi => ?_, fun i hi => ?_, fun i hi hi' => ?_, ?_⟩
    · rw [hpe2, hpe1, insAt]
      split_ifs <;> first | rfl | omega
    · rw [hpn2, hpn1, insAt]
      split_ifs <;> first | rfl | omega
    · rw [hqe, insAt, if_pos (by omega), if_neg (by omega), if_neg (by omega)]
      congr 2; omega
    · rw [hqn, insAt, if_pos (by omega), if_neg (by omega), if_neg (by omega)]
      congr 2; omega
    · rw [insAt, if_neg (by omega), if_neg (by omega)]
      have := hpe2 n
      rw [hpe1, if_neg (by omega), if_pos (by omega)] at this
      exact this
  · rw [if_pos (by omega)] at ha
    obtain ⟨q1, hq1, hqc, hqe, hqn⟩ := copyEntries_ok p st (e - r) r 0 q (by omega) (by omega)
    obtain ⟨p2, st', hp2, hcur, hpc2, hpe2, hpn2⟩ := insertEntry_ok st pno (j := r) rfl (by omega) ha
    rw [if_pos rfl, NdxM.bind_ok hq1, NdxM.bind_ok hp2]
    refine ⟨p2, q1, _, st', rfl, hcur, by omega, by omega, fun i hi => ?_, fun i hi => ?_, fun i hi => ?_, fun i hi hi' => ?_, ?_⟩
    · rw [hpe2, insAt]
      split_ifs <;> first | rfl | omega
    · rw [hpn2, insAt]
      split_ifs <;> first | rfl | omega
    · rw [hqe, insAt, if_pos (by omega), if_neg (by omega), if_neg (by omega)]
      congr 2; omega
    · rw [hqn, insAt, if_pos (by omega), if_neg (by omega), if_neg (by omega)]
      congr 2; omega
    · rw [insAt, if_neg (by omega), if_pos rfl]
  · rw [if_neg (by omega)] at ha
    obtain ⟨q1, hq1, hqc1, hqe1, hqn1⟩ :=
      copyEntries_ok p st (r - n - 1) (n + 1) 0 q (by omega) (by omega)
    have ha1 : Accepts q1 target := (accepts_leaf (by rw [hqn1, if_neg (by omega), hq0])).2 ha
    obtain ⟨q2, st', hq2, hcur, hqc2, hqe2, hqn2⟩ := insertEntry_ok st pn3 (j := (r : Int) - n - 1)
      (r := r - n - 1) (by omega) (by omega) ha1
    obtain ⟨q3, hq3, hqc3, hqe3, hqn3⟩ := copyEntries_ok p st' (e - r) r (r - n) q2 (by omega) (by omega)
    rw [if_neg (by omega), if_neg (by omega), NdxM.bind_ok hq1, NdxM.bind_ok hq2, NdxM.bind_ok hq3,
      NdxM.bind_ok (neGetRecno_ok (n := n) rfl (by omega)), NdxM.bind_ok (neGetKey_ok (n := n) rfl (by omega))]
    refine ⟨p, q3, _, st', rfl, hcur, hp, by omega, fun i hi => ?_, fun i hi => ?_, fun i hi => ?_, fun i hi hi' => ?_, ?_⟩
    · rw [insAt, if_pos (by omega)]
    · rw [insAt, if_pos (by omega)]
    · rw [hqe3, hqe2, hqe1, insAt]
      split_ifs <;> first | rfl | omega | (congr 2; omega)
    · rw [hqn3, hqn2, hqn1, insAt]
      split_ifs <;> first | rfl | omega | (congr 2; omega)
    · rw [insAt, if_pos (by omega)]; rfl

theorem splitMoves_refused (hq0 : (q.entries 0).pno = 0) (hp : p.entryCnt = e) (hq : q.entryCnt = e - n)
    (hr : r ≤ e) (hgt : n < r) (h0 : target.recno = 0) :
    splitMoves e n pn3 p q pno r target st = .error (.invalidEntry pn3) st := by
  obtain ⟨q1, hq1, hqc1, hqe1, hqn1⟩ :=
    copyEntries_ok p st (r - n - 1) (n + 1) 0 q (by omega) (by omega)
  have ha1 : ¬Accepts q1 target := by
    rw [accepts_leaf (by rw [hqn1, if_neg (by omega), hq0])]
    simpa using h0
  rw [splitMoves, if_neg (by omega), if_neg (by omega), NdxM.bind_ok hq1, NdxM.bind_error (insertEntry_refused ha1)]

/-- The number of entries a page keeps when it is split: a leaf keeps the promoted one too. -/
def keepCnt (p : NdxPage) (n : Nat) : Nat := if (p.entries 0).pno = 0 then n + 1 else n

theorem insertIdx_ents_eq_insAt {x : Ent} {i : Nat} (hr : r ≤ p.entryCnt) (hi : i ≤ p.entryCnt) :
    (p.ents.insertIdx r x)[i]? = some (insAt r x (fun i => (p.entries i).ent) i) := ents_insertIdx_get hr hi

theorem insertIdx_pnos_eq_insAt {x : Pageno} {i : Nat} (hr : r ≤ p.entryCnt + 1) (hi : i ≤ p.entryCnt + 1) :
    (p.pnos.insertIdx r x)[i]? = some (insAt r x (fun i => (p.entries i).pno) i) := pnos_insertIdx_get hr hi

/-- A split cuts the lists that the insertion would have given a larger page. -/
theorem splitPage_ok (pno : Pageno) (hp : p.entryCnt = st.hdr.norecpp) (hn : n = st.hdr.norecpp / 2) (he : 2 ≤ st.hdr.norecpp)
    (hr : r ≤ p.entryCnt) (ha : SplitAccepts p n r target) :
    ∃ p' q' target' st', splitPage p pno r target st = .ok (p', q', target') st' ∧ CursorOnly st st' ∧
      p'.ents = (p.ents.insertIdx r target.ent).take (keepCnt p n) ∧
      p'.pnos = (p.pnos.insertIdx (r + 1) target.pno).take (keepCnt p n + 1) ∧
      q'.ents = (p.ents.insertIdx r target.ent).drop (n + 1) ∧
      q'.pnos = (p.pnos.insertIdx (r + 1) target.pno).drop (n + 1) ∧
      (p.ents.insertIdx r target.ent)[n]? = some target'.ent := by
  obtain ⟨p', q', target', st', hm, hcur, hok⟩ := splitMoves_ok st pno st.hdr.pagecnt (p := p) (e := st.hdr.norecpp) (n := n) (r := r)
    (q := { zeroPage with entryCnt := st.hdr.norecpp - n }) hp rfl rfl (by omega) (by omega) ha
  obtain ⟨hpc, hqc, hpe, hpn, hqe, hqn, hmid⟩ := hok
  have hkeep : keepCnt p n ≤ n + 1 := by unfold keepCnt; split <;> omega
  have hent : (p.ents.insertIdx r target.ent).length = st.hdr.norecpp + 1 := by
    rw [List.length_insertIdx, NdxPage.length_ents, if_pos hr, hp]
  have hpno : (p.pnos.insertIdx (r + 1) target.pno).length = st.hdr.norecpp + 2 := by
    rw [List.length_insertIdx, NdxPage.length_pnos, if_pos (by omega), hp]
  have hleaf : (p'.entries 0).pno = (p.entries 0).pno := by rw [hpn 0 (by omega), insAt, if_pos (by omega)]
  subst hn
  let q2 := q'.set 0 { q'.entries 0 with pno := (p'.entries (st.hdr.norecpp / 2 + 1)).pno }
  have hput : nePutPageno q' 0 (p'.entries (st.hdr.norecpp / 2 + 1)).pno st' = .ok q2 st' := by
    rw [nePutPageno, NdxM.bind_ok (getEntry_ok (i := 0) (n := 0) rfl (Nat.zero_le _))]; rfl
  refine ⟨{ p' with entryCnt := keepCnt p (st.hdr.norecpp / 2) }, q2, target', st', ?_, hcur, ?_, ?_, ?_, ?_, ?_⟩
  · rw [splitPage, NdxM.bind_ok (NdxM.get_apply st), NdxM.bind_ok (getpage_new le_rfl), NdxM.bind_ok hm]
    dsimp only
    rw [NdxM.bind_ok (neGetPageno_ok (n := st.hdr.norecpp / 2 + 1) (by omega) (by omega)), NdxM.bind_ok hput,
      NdxM.bind_ok isLeaf_ok, NdxM.pure_apply]
    simp only [hleaf, keepCnt, beq_iff_eq]
  · refine NdxPage.ents_eq (by rw [List.length_take, hent]; simp only; omega) fun i hi => ?_
    simp only at hi
    rw [List.getElem?_take_of_lt hi, insertIdx_ents_eq_insAt hr (by omega), ← hpe i (by omega)]
  · refine NdxPage.pnos_eq (by rw [List.length_take, hpno]; simp only; omega) fun i hi => ?_
    simp only at hi
    rw [List.getElem?_take_of_lt (by omega), insertIdx_pnos_eq_insAt (by omega) (by omega), ← hpn i (by omega)]
  · refine NdxPage.ents_eq (by rw [List.length_drop, hent, NdxPage.set_entryCnt, hqc]; omega) fun i hi => ?_
    rw [NdxPage.set_entryCnt, hqc] at hi
    rw [List.getElem?_drop, insertIdx_ents_eq_insAt hr (by omega), ← hqe i (by omega), NdxPage.set_entries]
    split
    · subst i; rfl
    · rfl
  · refine NdxPage.pnos_eq (by rw [List.length_drop, hpno, NdxPage.set_entryCnt, hqc]; omega) fun i hi => ?_
    rw [NdxPage.set_entryCnt, hqc] at hi
    rw [List.getElem?_drop, insertIdx_pnos_eq_insAt (by omega) (by omega), NdxPage.set_entries]
    split
    · subst i; rw [Nat.add_zero, ← hpn _ le_rfl]
    · rw [← hqn i (by omega) hi]
  · rw [insertIdx_ents_eq_insAt hr (by omega), hmid]

/-- A new page right of the middle refuses an entry without a record. -/
theorem splitPage_refused (hp : p.entryCnt = st.hdr.norecpp) (hr : r ≤ p.entryCnt) (hgt : st.hdr.norecpp / 2 < r)
    (h0 : target.recno = 0) : splitPage p pno r target st = .error (.invalidEntry st.hdr.pagecnt) st := by
  rw [splitPage, NdxM.bind_ok (NdxM.get_apply st), NdxM.bind_ok (getpage_new le_rfl), NdxM.bind_error (splitMoves_refused rfl hp rfl
    (by omega) hgt h0)]

end Split

/-! ## Taking a subtree out of a page -/

section Drop

variable {p : NdxPage} {r : Nat}

theorem nePutPageno_ok (st : Ndx) (p : NdxPage) {i : Int} {n : Nat} (hi : i = n) (h : n ≤ p.entryCnt) (pno : Pageno) :
    nePutPageno p i pno st = .ok (p.set n { p.entries n with pno }) st := by
  subst hi
  rw [nePutPageno, NdxM.bind_ok (getEntry_ok (n := n) rfl h), NdxM.pure_apply, Int.toNat_natCast]

theorem NdxPage.put_pno (hr : r ≤ p.entryCnt) (pno : Pageno) :
    (p.set r { p.entries r with pno }).ents = p.ents ∧ (p.set r { p.entries r with pno }).pnos = p.pnos.set r pno := by
  constructor
  · refine NdxPage.ents_eq (by simp) fun i hi => ?_
    rw [NdxPage.ents_get (p := p) hi, NdxPage.set_entries]
    split
    · subst i; rfl
    · rfl
  · refine NdxPage.pnos_eq (by simp) fun i hi => ?_
    rw [List.getElem?_set, NdxPage.set_entries, NdxPage.length_pnos]
    split_ifs <;> first | rfl | omega | exact NdxPage.pnos_get hi

/-- The subtree at `r` goes, and with it the entry after it or else the last one. -/
theorem dropSlot_ok (st : Ndx) (hr : r ≤ p.entryCnt) (hpos : 0 < p.entryCnt) :
    ∃ p', dropSlot p r st = .ok p' st ∧ p'.ents = p.ents.eraseIdx (min r (p.entryCnt - 1)) ∧ p'.pnos = p.pnos.eraseIdx r := by
  rw [dropSlot]
  by_cases hlt : r < p.entryCnt
  · obtain ⟨p1, h1, hc1, he1, hn1⟩ := shiftDown_ok st (p.entryCnt - 1 - r) r p (by omega)
    rw [if_pos hlt]
    refine ⟨{ p1.set r { p1.entries r with pno := (p.entries (r + 1)).pno } with entryCnt := p1.entryCnt - 1 }, ?_, ?_, ?_⟩
    · simp only [NdxM.bind_apply]
      have hget : neGetPageno p ((r : Int) + 1) st = .ok (p.entries (r + 1)).pno st := neGetPageno_ok (by omega) hlt
      simp only [hget, h1, nePutPageno_ok st p1 (i := r) rfl (by omega : r ≤ p1.entryCnt), NdxM.pure_apply, NdxPage.set_entryCnt]
    · refine NdxPage.ents_eq ?_ fun i hi => ?_
      · rw [List.length_eraseIdx_of_lt (by rw [NdxPage.length_ents]; omega), NdxPage.length_ents, hc1]
      · have hi' : i < p1.entryCnt - 1 := hi
        rw [List.getElem?_eraseIdx, Nat.min_eq_left (by omega)]
        have hent : ((p1.set r { p1.entries r with pno := (p.entries (r + 1)).pno }).entries i).ent = (p1.entries i).ent := by
          rw [NdxPage.set_entries]
          split
          · subst i; rfl
          · rfl
        refine Eq.trans ?_ (congrArg some (hent.trans (he1 i)).symm)
        split_ifs <;> first | exact NdxPage.ents_get (by omega) | omega
    · refine NdxPage.pnos_eq ?_ fun i hi => ?_
      · rw [List.length_eraseIdx_of_lt (by rw [NdxPage.length_pnos]; omega), NdxPage.length_pnos]
        show p1.entryCnt - 1 + 1 = _
        omega
      · have hi' : i ≤ p1.entryCnt - 1 := hi
        rw [List.getElem?_eraseIdx]
        show _ = some ((p1.set r _).entries i).pno
        rw [NdxPage.set_entries]
        by_cases hir : i = r
        · subst i
          rw [if_pos rfl, if_neg (by omega)]
          exact NdxPage.pnos_get hlt
        · rw [if_neg hir, hn1]
          split_ifs <;> first | exact NdxPage.pnos_get (by omega) | omega
  · obtain rfl : r = p.entryCnt := by omega
    rw [if_neg hlt]
    refine ⟨{ p with entryCnt := p.entryCnt - 1 }, rfl, ?_, ?_⟩
    · refine NdxPage.ents_eq ?_ fun i hi => ?_
      · rw [List.length_eraseIdx_of_lt (by rw [NdxPage.length_ents]; omega), NdxPage.length_ents]
      · have hi' : i < p.entryCnt - 1 := hi
        rw [List.getElem?_eraseIdx, if_pos (by omega)]
        exact NdxPage.ents_get (by omega)
    · refine NdxPage.pnos_eq ?_ fun i hi => ?_
      · rw [List.length_eraseIdx_of_lt (by rw [NdxPage.length_pnos]; omega), NdxPage.length_pnos]
        show p.entryCnt - 1 + 1 = _
        omega
      · have hi' : i ≤ p.entryCnt - 1 := hi
        rw [List.getElem?_eraseIdx, if_pos (by omega)]
        exact NdxPage.pnos_get (by omega)

end Drop

end Db3w
