/-
PACK of a table without memo fields. Live records are moved down over deleted ones, in place: `to`
is the record that is filled next, `from` the last one a record was taken from. The record that is
taken is marked deleted, which is what keeps it from being taken again; with the cursor off the
table it is not marked. Records whose size is a multiple of that of the pieces in which a table is
read are not read at all.
-/
import Db3w.Dbf.Record

namespace Db3w

variable {σ : Type}

/-- The inner loop of `dbpack`: the next live record after `from` is moved to `to`. The result is
where the search stopped. -/
def packMove (upd : UpdNdx σ) (treccnt dst : Nat) : Nat → Nat → Tbl σ → Except DbErr (Nat × Tbl σ)
  | 0, src, t => .ok (src, t)
  | n + 1, src, t =>
    if src ≤ treccnt then do
      let t ← gorec src t
      if t.isdelete then packMove upd treccnt dst n (src + 1) t
      else
        let recbuf := t.buf
        let t ← delRecall DEL_MKR t
        let t ← gorec dst t
        let t ← saveRec .pack { t with buf := recbuf }
        let t ← storeRec upd t
        return (src, t)
    else .ok (src, t)

/-- The outer loop; the result is the record that would be filled next. -/
def packLoop (upd : UpdNdx σ) (treccnt : Nat) : Nat → Nat → Nat → Tbl σ → Except DbErr (Nat × Tbl σ)
  | 0, dst, _, t => .ok (dst, t)
  | n + 1, dst, src, t =>
    if dst ≤ treccnt then do
      let t ← gorec dst t
      if t.isdelete then
        let (src, t) ← packMove upd treccnt dst (treccnt + 1) (if src = 0 then dst + 1 else src) t
        if src > treccnt then return (dst, t)
        packLoop upd treccnt n (dst + 1) src t
      else packLoop upd treccnt n (dst + 1) src t
    else .ok (dst, t)

/-- `dbpack` up to the new header; the indexes are then built anew. -/
def dbpack (upd : UpdNdx σ) (t : Tbl σ) : Except DbErr (Tbl σ) := do
  validChk t
  let (dst, t) ← packLoop upd t.reccnt (t.reccnt + 1) 1 0 t
  let t := { t with reccnt := dst - 1 }
  return if t.reccnt = 0 then { t with eof := true, tof := true } else t

/-- The live records of a list. -/
def live (l : List Rec) : List Rec := l.filter fun r => decide (r.mark ≠ DEL_MKR)

/-- The first `m` records of a file. -/
def firstRecs (disk : Nat → Rec) (m : Nat) : List Rec := (List.range m).map fun i => disk (i + 1)

/-- What PACK has to do: the live records, in their order and unchanged, are all the records; where
every record was valid or deleted, all of them are valid. -/
structure Packed (t t' : Tbl σ) : Prop where
  recs : t'.recs = live t.recs
  valid : (∀ r ∈ t.recs, r.mark = VAL_MKR ∨ r.mark = DEL_MKR) → ∀ r ∈ t'.recs, r.mark = VAL_MKR

/-- No deleted record stands before a live one. -/
def DeletedLast (t : Tbl σ) : Prop :=
  ∀ i j, 1 ≤ i → i < j → j ≤ t.reccnt → (t.disk i).mark = DEL_MKR → (t.disk j).mark = DEL_MKR

/-- When PACK keeps the live records: there are none, or they can be read, and the cursor is on a record, or off the table with no
deleted record before a live one. -/
def PackKeeps (t : Tbl σ) : Prop := t.reccnt = 0 ∨ t.readable ∧ if t.etof then DeletedLast t else t.crntrec ≠ 0

/-! ## One move -/

/-- Nothing but the records, the buffers and the cursor has changed. -/
structure SameTbl (t t' : Tbl σ) : Prop where
  byprec : t'.byprec = t.byprec
  reccnt : t'.reccnt = t.reccnt
  eof : t'.eof = t.eof
  tof : t'.tof = t.tof

theorem SameTbl.rfl {t : Tbl σ} : SameTbl t t := ⟨Eq.refl _, Eq.refl _, Eq.refl _, Eq.refl _⟩

theorem SameTbl.etof {t t' : Tbl σ} (h : SameTbl t t') : t'.etof = t.etof := by
  unfold Tbl.etof
  rw [h.eof, h.tof]

theorem SameTbl.readable {t t' : Tbl σ} (h : SameTbl t t') (hr : t.readable) : t'.readable := by
  unfold Tbl.readable
  rw [h.byprec]
  exact hr

theorem SameTbl.trans {t t' t'' : Tbl σ} (h : SameTbl t t') (h' : SameTbl t' t'') : SameTbl t t'' :=
  ⟨h'.byprec.trans h.byprec, h'.reccnt.trans h.reccnt, h'.eof.trans h.eof, h'.tof.trans h.tof⟩

section Move

variable {upd : UpdNdx σ} {t : Tbl σ} {n dst src : Nat}

theorem gorec_le {recno : Nat} (hr : t.readable) (h0 : recno ≠ 0) (h : recno ≤ t.reccnt) :
    gorec recno t = .ok { t with buf := t.disk recno, crntrec := recno } := by
  rw [gorec_of_le h0 h, if_pos hr]

theorem isdelete_buf (t : Tbl σ) : t.isdelete = true ↔ t.buf.mark = DEL_MKR := by
  unfold Tbl.isdelete
  exact decide_eq_true_iff

/-- The file after record `f` has been moved to `dst`. -/
def movedTo (etof : Bool) (disk : Nat → Rec) (f dst : Nat) : Nat → Rec :=
  Function.update (if etof then disk else Function.update disk f { disk f with mark := DEL_MKR }) dst (disk f)

/-- Deleted records are passed over. -/
theorem packMove_deleted {cnt : Nat} (hr : t.readable) (hcnt : t.reccnt = cnt) (hs : src ≠ 0) (hle : src ≤ cnt)
    (hd : (t.disk src).mark = DEL_MKR) :
    packMove upd cnt dst (n + 1) src t =
      packMove upd cnt dst n (src + 1) { t with buf := t.disk src, crntrec := src } := by
  rw [packMove, if_pos hle, gorec_le hr hs (by omega)]
  dsimp only [bind, Except.bind]
  rw [if_pos]
  rw [isdelete_buf]
  exact hd

/-- The record that has been taken is marked, with the cursor on the table. -/
theorem delRecall_taken (hs : src ≠ 0) (hd : (t.disk src).mark ≠ DEL_MKR) :
    ∃ s, delRecall DEL_MKR { t with buf := t.disk src, crntrec := src } = .ok s ∧ SameTbl t s ∧
      s.disk = if t.etof then t.disk else Function.update t.disk src { t.disk src with mark := DEL_MKR } := by
  have hchk : validChk { t with buf := t.disk src, crntrec := src } = .ok () := if_neg fun h => hs h.2.2
  have he : Tbl.etof { t with buf := t.disk src, crntrec := src } = t.etof := rfl
  unfold delRecall
  rw [hchk, he]
  dsimp only [bind, Except.bind]
  cases t.etof with
  | true =>
    rw [if_neg (by simp)]
    exact ⟨_, rfl, ⟨rfl, rfl, rfl, rfl⟩, rfl⟩
  | false =>
    rw [if_pos ⟨rfl, hd⟩]
    exact ⟨_, rfl, ⟨rfl, rfl, rfl, rfl⟩, rfl⟩

/-- A live record is moved. -/
theorem packMove_live {cnt : Nat} (hr : t.readable) (hcnt : t.reccnt = cnt) (hs : src ≠ 0) (hle : src ≤ cnt)
    (hd : (t.disk src).mark ≠ DEL_MKR) (h0 : dst ≠ 0) (hdst : dst ≤ cnt) :
    ∃ t', packMove upd cnt dst (n + 1) src t = .ok (src, t') ∧ SameTbl t t' ∧
      t'.disk = movedTo t.etof t.disk src dst := by
  subst hcnt
  obtain ⟨s, hdel, hsame, hdisk⟩ := delRecall_taken hs hd
  rw [packMove, if_pos hle, gorec_le hr hs hle]
  dsimp only [bind, Except.bind]
  rw [if_neg (by rw [isdelete_buf]; exact hd), hdel]
  dsimp only
  rw [gorec_le (hsame.readable hr) h0 (by rw [hsame.reccnt]; exact hdst)]
  refine ⟨_, rfl, ⟨hsame.byprec, hsame.reccnt, hsame.eof, hsame.tof⟩, ?_⟩
  unfold movedTo
  rw [← hdisk]
  rfl

/-- What the search for a live record finds. -/
inductive Moved (cnt : Nat) (t : Tbl σ) (dst src : Nat) : Nat → Tbl σ → Prop where
  | none {s : Nat} {t' : Tbl σ} (deleted : ∀ i, src ≤ i → i ≤ cnt → (t.disk i).mark = DEL_MKR)
      (past : cnt < s) (same : SameTbl t t') (disk : t'.disk = t.disk) : Moved cnt t dst src s t'
  | one {f : Nat} {t' : Tbl σ} (lo : src ≤ f) (hi : f ≤ cnt)
      (deleted : ∀ i, src ≤ i → i < f → (t.disk i).mark = DEL_MKR) (live : (t.disk f).mark ≠ DEL_MKR)
      (same : SameTbl t t') (disk : t'.disk = movedTo t.etof t.disk f dst) : Moved cnt t dst src f t'

theorem packMove_moved {cnt : Nat} (hr : t.readable) (hcnt : t.reccnt = cnt) (h0 : dst ≠ 0) (hdst : dst ≤ cnt) :
    ∀ n src (s : Tbl σ), SameTbl t s → s.disk = t.disk → src ≠ 0 → cnt < src + n →
      ∃ f t', packMove upd cnt dst n src s = .ok (f, t') ∧ Moved cnt t dst src f t' := by
  intro n
  induction n with
  | zero =>
    intro src s hs hd _ hn
    refine ⟨src, s, rfl, .none ?_ (by omega) hs hd⟩
    intro i hi hi'
    omega
  | succ n ih =>
    intro src s hs hd hsrc hn
    rcases lt_or_ge cnt src with hgt | hle
    · refine ⟨src, s, ?_, .none ?_ hgt hs hd⟩
      · rw [packMove, if_neg (by omega)]
      · intro i hi hi'
        omega
    by_cases hdel : (t.disk src).mark = DEL_MKR
    · rw [packMove_deleted (hs.readable hr) (hs.reccnt.trans hcnt) hsrc hle (by rw [hd]; exact hdel)]
      obtain ⟨f, t', ht', hm⟩ := ih (src + 1) { s with buf := s.disk src, crntrec := src }
        ⟨hs.byprec, hs.reccnt, hs.eof, hs.tof⟩ hd (by omega) (by omega)
      refine ⟨f, t', ht', ?_⟩
      cases hm with
      | none hall hpast hsame hdisk =>
        refine .none ?_ hpast hsame hdisk
        intro i hi hi'
        rcases Nat.eq_or_lt_of_le hi with rfl | hlt
        · exact hdel
        · exact hall i hlt hi'
      | one hlo hhi hall hlive hsame hdisk =>
        refine .one (by omega) hhi ?_ hlive hsame hdisk
        intro i hi hi'
        rcases Nat.eq_or_lt_of_le hi with rfl | hlt
        · exact hdel
        · exact hall i hlt hi'
    · obtain ⟨t', ht', hsame, hdisk⟩ := packMove_live (n := n) (hs.readable hr) (hs.reccnt.trans hcnt) hsrc hle
        (by rw [hd]; exact hdel) h0 hdst
      refine ⟨src, t', ht', .one le_rfl hle ?_ hdel (hs.trans hsame) ?_⟩
      · intro i hi hi'
        omega
      · rw [hdisk, hs.etof, hd]

end Move

/-! ## Live records of a file -/

section Live

variable {disk disk' : Nat → Rec} {m k : Nat}

theorem firstRecs_succ : firstRecs disk (m + 1) = firstRecs disk m ++ [disk (m + 1)] := by
  unfold firstRecs
  rw [List.range_succ, List.map_append]
  rfl

theorem firstRecs_congr (h : ∀ i, 1 ≤ i → i ≤ m → disk' i = disk i) : firstRecs disk' m = firstRecs disk m := by
  unfold firstRecs
  apply List.map_congr_left
  intro i hi
  rw [List.mem_range] at hi
  exact h (i + 1) (by omega) (by omega)

theorem live_append (l l' : List Rec) : live (l ++ l') = live l ++ live l' := List.filter_append ..

theorem live_firstRecs_live (h : (disk (m + 1)).mark ≠ DEL_MKR) :
    live (firstRecs disk (m + 1)) = live (firstRecs disk m) ++ [disk (m + 1)] := by
  rw [firstRecs_succ, live_append]
  simp [live, h]

/-- Deleted records at the end do not count. -/
theorem live_firstRecs_deleted (hmk : m ≤ k) (h : ∀ i, m < i → i ≤ k → (disk i).mark = DEL_MKR) :
    live (firstRecs disk k) = live (firstRecs disk m) := by
  induction k, hmk using Nat.le_induction with
  | base => rfl
  | succ k hmk ih =>
    rw [firstRecs_succ, live_append, ih fun i hi hi' => h i hi (by omega)]
    simp [live, h (k + 1) (by omega) le_rfl]

theorem live_length_lt {i : Nat} (h1 : 1 ≤ i) (hi : i ≤ m) (h : (disk i).mark = DEL_MKR) :
    (live (firstRecs disk m)).length < m := by
  have hlen : (firstRecs disk m).length = m := by simp [firstRecs]
  conv_rhs => rw [← hlen]
  unfold live
  rw [List.length_filter_lt_length_iff_exists]
  refine ⟨disk i, ?_, by simp [h]⟩
  unfold firstRecs
  rw [List.mem_map]
  exact ⟨i - 1, List.mem_range.mpr (by omega), by rw [Nat.sub_add_cancel h1]⟩

theorem recs_eq (t : Tbl σ) : t.recs = firstRecs t.disk t.reccnt := rfl

end Live

/-! ## The loop -/

/-- Before a record is filled: the first `dst - 1` records are the live ones among the first `k` of
the table, what comes up to `k` is deleted and what comes after is as it was. -/
structure PackInv (t₀ t : Tbl σ) (dst src k : Nat) : Prop where
  same : SameTbl t₀ t
  pos : 0 < dst
  kept : firstRecs t.disk (dst - 1) = live (firstRecs t₀.disk k)
  gap : ∀ i, dst ≤ i → i ≤ k → (t.disk i).mark = DEL_MKR
  rest : ∀ i, k < i → t.disk i = t₀.disk i
  front : (src = 0 ∧ k = dst - 1) ∨ (src = k ∧ dst ≤ src ∧ src ≤ t₀.reccnt)

section Loop

variable {upd : UpdNdx σ} {t₀ t : Tbl σ} {dst src k : Nat}

/-- A live record stays where it is. -/
theorem PackInv.keep (h : PackInv t₀ t dst src k) (hl : (t.disk dst).mark ≠ DEL_MKR) :
    src = 0 ∧ PackInv t₀ { t with buf := t.disk dst, crntrec := dst } (dst + 1) 0 dst := by
  have hpos := h.pos
  rcases h.front with ⟨hsrc, hk⟩ | ⟨hsrc, hd, -⟩
  · refine ⟨hsrc, ⟨h.same.byprec, h.same.reccnt, h.same.eof, h.same.tof⟩, by omega, ?_, ?_, ?_, .inl ⟨rfl, by omega⟩⟩
    · have hdst : dst - 1 + 1 = dst := by omega
      have hrest : t.disk dst = t₀.disk dst := h.rest dst (by omega)
      have hkept := h.kept
      rw [hk] at hkept
      have hl' : (t₀.disk (dst - 1 + 1)).mark ≠ DEL_MKR := by rw [hdst, ← hrest]; exact hl
      show firstRecs t.disk dst = live (firstRecs t₀.disk dst)
      rw [← hdst, live_firstRecs_live hl', firstRecs_succ, hkept, hdst, hrest]
    · intro i hi hi'
      omega
    · intro i hi
      exact h.rest i (by omega)
  · exact absurd (h.gap dst le_rfl (by omega)) hl

/-- A live record found is moved. -/
theorem PackInv.move {f : Nat} {t' : Tbl σ} (h : PackInv t₀ t dst src k) (hd : (t.disk dst).mark = DEL_MKR)
    (hlo : (if src = 0 then dst + 1 else src) ≤ f) (hi : f ≤ t₀.reccnt)
    (hgap : ∀ i, (if src = 0 then dst + 1 else src) ≤ i → i < f → (t.disk i).mark = DEL_MKR)
    (hl : (t.disk f).mark ≠ DEL_MKR) (hsame : SameTbl t t') (hdisk : t'.disk = movedTo false t.disk f dst) :
    PackInv t₀ t' (dst + 1) f f := by
  have hpos := h.pos
  -- record `dst` and what lies between it and `f` is deleted
  have hdel : ∀ i, dst ≤ i → i < f → (t.disk i).mark = DEL_MKR := by
    intro i hdi hif
    rcases h.front with ⟨hsrc, hk⟩ | ⟨hsrc, hds, -⟩
    · rw [if_pos hsrc] at hgap
      rcases Nat.eq_or_lt_of_le hdi with rfl | hlt
      · exact hd
      · exact hgap i hlt hif
    · rw [if_neg (by omega)] at hgap
      rcases lt_or_ge i src with hlt | hge
      · exact h.gap i hdi (by omega)
      · exact hgap i hge hif
  have hkf : k < f := by
    by_contra hle
    rw [not_lt] at hle
    rcases h.front with ⟨hsrc, hk⟩ | ⟨hsrc, hds, -⟩
    · rw [if_pos hsrc] at hlo
      omega
    · rw [if_neg (by omega)] at hlo
      exact hl (h.gap f (by omega) hle)
  have hdf : dst < f := by
    rcases h.front with ⟨hsrc, hk⟩ | ⟨hsrc, hds, -⟩
    · rw [if_pos hsrc] at hlo
      omega
    · omega
  have hf : t.disk f = t₀.disk f := h.rest f hkf
  refine ⟨h.same.trans hsame, by omega, ?_, ?_, ?_, .inr ⟨rfl, by omega, hi⟩⟩
  · have hlive : live (firstRecs t₀.disk f) = live (firstRecs t₀.disk k) ++ [t₀.disk f] := by
      have hf1 : f - 1 + 1 = f := by omega
      rw [← hf1, live_firstRecs_live (by rw [hf1, ← hf]; exact hl), hf1,
        live_firstRecs_deleted (by omega : k ≤ f - 1)]
      intro i hki hif
      rw [← h.rest i hki]
      exact hdel i (by rcases h.front with hfr | hfr <;> omega) (by omega)
    have hdst : dst - 1 + 1 = dst := by omega
    show firstRecs t'.disk dst = live (firstRecs t₀.disk f)
    rw [hlive, ← h.kept, ← hdst, firstRecs_succ, hdst]
    congr 1
    · apply firstRecs_congr
      intro i _ hi'
      rw [hdisk]
      unfold movedTo
      rw [Function.update_of_ne (by omega), if_neg (by simp), Function.update_of_ne (by omega)]
    · rw [hdisk, ← hf]
      unfold movedTo
      rw [Function.update_self]
  · intro i hdi hif
    rw [hdisk]
    unfold movedTo
    rw [Function.update_of_ne (by omega), if_neg (by simp)]
    rcases Nat.eq_or_lt_of_le hif with rfl | hlt
    · rw [Function.update_self]
    · rw [Function.update_of_ne (by omega)]
      exact hdel i (by omega) hlt
  · intro i hfi
    rw [hdisk]
    unfold movedTo
    rw [Function.update_of_ne (by omega), if_neg (by simp), Function.update_of_ne (by omega)]
    exact h.rest i (by omega)

/-- No live record is left: what has been filled is the result. -/
theorem PackInv.stop {t' : Tbl σ} (h : PackInv t₀ t dst src k) (hle : dst ≤ t₀.reccnt) (hd : (t.disk dst).mark = DEL_MKR)
    (hall : ∀ i, (if src = 0 then dst + 1 else src) ≤ i → i ≤ t₀.reccnt → (t.disk i).mark = DEL_MKR)
    (hdisk : t'.disk = t.disk) : firstRecs t'.disk (dst - 1) = live (firstRecs t₀.disk t₀.reccnt) := by
  have hpos := h.pos
  rw [hdisk, h.kept]
  symm
  apply live_firstRecs_deleted
  · rcases h.front with hfr | hfr <;> omega
  intro i hki hi
  rw [← h.rest i hki]
  rcases h.front with ⟨hsrc, hk⟩ | ⟨hsrc, hds, -⟩
  · rw [if_pos hsrc] at hall
    rcases Nat.eq_or_lt_of_le (show dst ≤ i by omega) with rfl | hlt
    · exact hd
    · exact hall i hlt hi
  · rw [if_neg (by omega)] at hall
    exact hall i (by omega) hi

/-- With the cursor on the table, or no deleted record before a live one, the loop keeps the live
records. -/
theorem packLoop_live (upd : UpdNdx σ) (hr : t₀.readable) (hok : t₀.etof = false ∨ DeletedLast t₀) :
    ∀ n dst src k (t : Tbl σ), PackInv t₀ t dst src k → (src = 0 ∨ t₀.etof = false) →
      dst ≤ t₀.reccnt + 1 → t₀.reccnt + 2 ≤ dst + n →
      ∃ d t', packLoop upd t₀.reccnt n dst src t = .ok (d, t') ∧ SameTbl t₀ t' ∧
        firstRecs t'.disk (d - 1) = live (firstRecs t₀.disk t₀.reccnt) := by
  intro n
  induction n with
  | zero =>
    intro dst src k t _ _ hd hn
    omega
  | succ n ih =>
    intro dst src k t hinv hsrc hdst hn
    have hpos := hinv.pos
    have hcnt := hinv.same.reccnt
    have hread := hinv.same.readable hr
    rw [packLoop]
    rcases lt_or_ge t₀.reccnt dst with hgt | hle
    · rw [if_neg (by omega)]
      refine ⟨dst, t, rfl, hinv.same, ?_⟩
      rw [hinv.kept]
      rcases hinv.front with ⟨_, hk⟩ | ⟨_, hds, hs⟩
      · rw [show k = t₀.reccnt by omega]
      · omega
    rw [if_pos hle, gorec_le hread (by omega) (by omega)]
    dsimp only [bind, Except.bind]
    by_cases hdel : (t.disk dst).mark = DEL_MKR
    · rw [if_pos (by rw [isdelete_buf]; exact hdel)]
      obtain ⟨f, t', hrun, hm⟩ := packMove_moved hread hcnt (show dst ≠ 0 by omega) hle (t₀.reccnt + 1)
        (if src = 0 then dst + 1 else src) { t with buf := t.disk dst, crntrec := dst } ⟨rfl, rfl, rfl, rfl⟩ rfl
        (by split <;> omega) (by split <;> omega)
      rw [hrun]
      cases hm with
      | none hall hpast hsame hdisk =>
        refine ⟨dst, t', ?_, hinv.same.trans hsame, hinv.stop hle hdel hall hdisk⟩
        simp [hpast, pure, Except.pure]
      | one hlo hhi hgap hlive hsame hdisk =>
        have he : t₀.etof = false := by
          rcases hsrc with hsrc | he
          · rcases hok with he | hlast
            · exact he
            · exfalso
              rw [if_pos hsrc] at hlo
              rcases hinv.front with ⟨_, hk⟩ | ⟨hs, hds, _⟩
              · have hrest : ∀ i, dst ≤ i → t.disk i = t₀.disk i := fun i hi => hinv.rest i (by omega)
                rw [hrest f (by omega)] at hlive
                rw [hrest dst le_rfl] at hdel
                exact hlive (hlast dst f (by omega) (by omega) hhi hdel)
              · omega
          · exact he
        rw [hinv.same.etof, he] at hdisk
        have hnext := hinv.move hdel hlo hhi hgap hlive hsame hdisk
        obtain ⟨d, t'', hloop, hres⟩ := ih (dst + 1) f f t' hnext (.inr he) (by omega) (by omega)
        refine ⟨d, t'', ?_, hres⟩
        dsimp only
        rw [if_neg (by omega)]
        exact hloop
    · rw [if_neg (by rw [isdelete_buf]; exact hdel)]
      obtain ⟨hs, hnext⟩ := hinv.keep hdel
      rw [hs]
      exact ih (dst + 1) 0 dst _ hnext (.inl rfl) (by omega) (by omega)

/-- Off the table, once a record has been moved it is moved again over every record after it. -/
theorem packLoop_stuck (upd : UpdNdx σ) (hr : t₀.readable) (he : t₀.etof = true) :
    ∀ n dst src (t : Tbl σ), SameTbl t₀ t → 0 < dst →
      ((src = 0 ∧ ∃ i j, dst ≤ i ∧ i < j ∧ j ≤ t₀.reccnt ∧ (t.disk i).mark = DEL_MKR ∧ (t.disk j).mark ≠ DEL_MKR) ∨
        (src ≠ 0 ∧ src ≤ t₀.reccnt ∧ (t.disk src).mark ≠ DEL_MKR)) →
      dst ≤ t₀.reccnt + 1 → t₀.reccnt + 2 ≤ dst + n →
      ∃ t', packLoop upd t₀.reccnt n dst src t = .ok (t₀.reccnt + 1, t') ∧ SameTbl t₀ t' := by
  intro n
  induction n with
  | zero =>
    intro dst src t _ _ _ hd hn
    omega
  | succ n ih =>
    intro dst src t hsame hpos hmode hdst hn
    have hcnt := hsame.reccnt
    have hread := hsame.readable hr
    rw [packLoop]
    rcases lt_or_ge t₀.reccnt dst with hgt | hle
    · rw [if_neg (by omega)]
      refine ⟨t, ?_, hsame⟩
      rw [show dst = t₀.reccnt + 1 by omega]
    rw [if_pos hle, gorec_le hread (by omega) (by omega)]
    dsimp only [bind, Except.bind]
    by_cases hdel : (t.disk dst).mark = DEL_MKR
    · rw [if_pos (by rw [isdelete_buf]; exact hdel)]
      obtain ⟨f, t', hrun, hm⟩ := packMove_moved hread hcnt (show dst ≠ 0 by omega) hle (t₀.reccnt + 1)
        (if src = 0 then dst + 1 else src) { t with buf := t.disk dst, crntrec := dst } ⟨rfl, rfl, rfl, rfl⟩ rfl
        (by split <;> omega) (by split <;> omega)
      rw [hrun]
      cases hm with
      | none hall hpast _ _ =>
        exfalso
        rcases hmode with ⟨hsrc, i, j, hdi, hij, hj, hi', hj'⟩ | ⟨hsrc, hs, hl⟩
        · rw [if_pos hsrc] at hall
          exact hj' (hall j (by omega) hj)
        · rw [if_neg hsrc] at hall
          exact hl (hall src le_rfl hs)
      | one hlo hhi hgap hlive hsame' hdisk =>
        have hf : f ≠ 0 := by
          split at hlo <;> omega
        rw [hsame.etof, he] at hdisk
        obtain ⟨t'', hloop, hres⟩ := ih (dst + 1) f t' (hsame.trans hsame') (by omega)
          (.inr ⟨hf, hhi, by
            rw [hdisk]
            unfold movedTo
            rw [if_pos rfl]
            rcases eq_or_ne f dst with rfl | hne
            · rw [Function.update_self]
              exact hlive
            · rw [Function.update_of_ne hne]
              exact hlive⟩) (by omega) (by omega)
        refine ⟨t'', ?_, hres⟩
        dsimp only
        rw [if_neg (by omega)]
        exact hloop
    · rw [if_neg (by rw [isdelete_buf]; exact hdel)]
      refine ih (dst + 1) src { t with buf := t.disk dst, crntrec := dst } ⟨hsame.byprec, hsame.reccnt, hsame.eof, hsame.tof⟩
        (by omega) ?_ (by omega) (by omega)
      rcases hmode with ⟨hsrc, i, j, hdi, hij, hj, hi', hj'⟩ | hlive
      · left
        refine ⟨hsrc, i, j, ?_, hij, hj, hi', hj'⟩
        rcases Nat.eq_or_lt_of_le hdi with rfl | hlt
        · exact absurd hi' hdel
        · exact hlt
      · exact .inr hlive

end Loop

/-! ## PACK -/

section Dbpack

variable (upd : UpdNdx σ)

theorem packInv_start (t : Tbl σ) : PackInv t t 1 0 0 :=
  ⟨.rfl, by omega, rfl, fun i hi hi' => by omega, fun _ _ => rfl, .inl ⟨rfl, rfl⟩⟩

theorem dbpack_of_loop {t t' : Tbl σ} {d : Nat} (hchk : validChk t = .ok ()) (h : packLoop upd t.reccnt (t.reccnt + 1) 1 0 t = .ok (d, t')) :
    ∃ t'', dbpack upd t = .ok t'' ∧ t''.byprec = t'.byprec ∧ t''.recs = firstRecs t'.disk (d - 1) := by
  unfold dbpack
  rw [hchk, h]
  simp only [bind, Except.bind, pure, Except.pure]
  split
  · exact ⟨_, rfl, rfl, rfl⟩
  · exact ⟨_, rfl, rfl, rfl⟩

theorem packed_of_recs {t t' : Tbl σ} (h : t'.recs = live t.recs) : Packed t t' := by
  refine ⟨h, ?_⟩
  intro hv r hr
  rw [h] at hr
  obtain ⟨hmem, hlive⟩ := List.mem_filter.mp hr
  rw [decide_eq_true_eq] at hlive
  exact (hv r hmem).resolve_right hlive

/-- Where PACK keeps them, the live records remain. -/
theorem dbpack_live {t : Tbl σ} (hok : PackKeeps t) :
    ∃ t', dbpack upd t = .ok t' ∧ (t.reccnt = 0 ∨ t'.readable) ∧ t'.recs = live t.recs := by
  rcases hok with hnone | ⟨hr, hcur⟩
  · have hchk : validChk t = .ok () := if_neg fun h => h.2.1 hnone
    have hrun : packLoop upd t.reccnt (t.reccnt + 1) 1 0 t = .ok (1, t) := by
      rw [packLoop, if_neg (by omega)]
    obtain ⟨t', ht', -, hrecs⟩ := dbpack_of_loop upd hchk hrun
    refine ⟨t', ht', .inl hnone, ?_⟩
    rw [hrecs, recs_eq, hnone]
    rfl
  · have hchk : validChk t = .ok () := by
      refine if_neg fun h => ?_
      rw [if_neg (by simpa using h.1)] at hcur
      exact hcur h.2.2
    have hlast : t.etof = false ∨ DeletedLast t := by
      cases he : t.etof with
      | false => exact .inl rfl
      | true =>
        rw [he, if_pos rfl] at hcur
        exact .inr hcur
    obtain ⟨d, t', hrun, hsame, hres⟩ := packLoop_live upd hr hlast (t.reccnt + 1) 1 0 0 t (packInv_start t)
      (.inl rfl) (by omega) (by omega)
    obtain ⟨t'', ht'', hsize, hrecs⟩ := dbpack_of_loop upd hchk hrun
    refine ⟨t'', ht'', .inr ?_, ?_⟩
    · unfold Tbl.readable
      rw [hsize]
      exact hsame.readable hr
    · rw [hrecs, hres, recs_eq]

/-- The first record cannot be read. -/
theorem packLoop_unreadable {t : Tbl σ} (hcnt : t.reccnt ≠ 0) (hr : ¬t.readable) : packLoop upd t.reccnt (t.reccnt + 1) 1 0 t = .error .dbread := by
  rw [packLoop, if_pos (by omega), gorec_of_le one_ne_zero (by omega), if_neg hr]
  rfl

/-- Otherwise it ends in an error, or there are more records than live ones. -/
theorem dbpack_stuck {t : Tbl σ} (hno : ¬PackKeeps t) :
    (∃ e, dbpack upd t = .error e) ∨ ∃ t', dbpack upd t = .ok t' ∧ (live t.recs).length < t'.recs.length := by
  rw [PackKeeps, not_or] at hno
  obtain ⟨hcnt, hno⟩ := hno
  by_cases hoff : t.etof = false ∧ t.crntrec = 0
  · have hchk : validChk t = .error .outOfRange := if_pos ⟨by rw [hoff.1]; rfl, hcnt, hoff.2⟩
    refine .inl ⟨.outOfRange, ?_⟩
    unfold dbpack
    rw [hchk]
    rfl
  have hchk : validChk t = .ok () := if_neg fun h => hoff ⟨by simpa using h.1, h.2.2⟩
  by_cases hr : t.readable
  · -- the cursor is off the table
    have he : t.etof = true := by
      by_contra he
      rw [if_neg he] at hno
      exact hno ⟨hr, fun h0 => hoff ⟨by simpa using he, h0⟩⟩
    have hlast : ¬DeletedLast t := fun h => hno ⟨hr, by rw [if_pos he]; exact h⟩
    unfold DeletedLast at hlast
    push Not at hlast
    obtain ⟨i, j, h1, hij, hj, hi, hlive⟩ := hlast
    obtain ⟨s, hrun, -⟩ := packLoop_stuck upd hr he (t.reccnt + 1) 1 0 t SameTbl.rfl (by omega)
      (.inl ⟨rfl, i, j, h1, hij, hj, hi, hlive⟩) (by omega) (by omega)
    obtain ⟨t', ht', -, hrecs⟩ := dbpack_of_loop upd hchk hrun
    refine .inr ⟨t', ht', ?_⟩
    rw [hrecs, recs_eq]
    have hlen : (firstRecs s.disk (t.reccnt + 1 - 1)).length = t.reccnt := by simp [firstRecs]
    rw [hlen]
    exact live_length_lt h1 (by omega) hi
  · refine .inl ⟨.dbread, ?_⟩
    unfold dbpack
    rw [hchk, packLoop_unreadable upd hcnt hr]
    rfl

/-- PACK keeps exactly the live records of a table if and only if there are none, or they can be read and the cursor is on a record
or no deleted record stands before a live one. -/
theorem dbpack_packed_iff (t : Tbl σ) : (∃ t', dbpack upd t = .ok t' ∧ Packed t t') ↔ PackKeeps t := by
  constructor
  · rintro ⟨t', ht', hp⟩
    by_contra hno
    rcases dbpack_stuck upd hno with ⟨e, he⟩ | ⟨t'', ht'', hlt⟩
    · cases he.symm.trans ht'
    · obtain rfl : t' = t'' := Except.ok.inj (ht'.symm.trans ht'')
      rw [hp.recs] at hlt
      omega
  · intro hok
    obtain ⟨t', ht', -, hrecs⟩ := dbpack_live upd hok
    exact ⟨t', ht', packed_of_recs hrecs⟩

/-- A deleted record and a live one. -/
def deletedFirst (eof : Bool) : Tbl Unit :=
  { byprec := 2, reccnt := 2, disk := fun i => if i = 1 then ⟨DEL_MKR, [65]⟩ else ⟨VAL_MKR, [66]⟩
    buf := ⟨VAL_MKR, [66]⟩, crntrec := 2, eof, tof := false, mode := .none, rbkRecno := 0, rbkBuf := ⟨VAL_MKR, []⟩
    log := none, indexActive := false, ndx := () }

/-- A table of one live record of 16384 bytes. -/
def largeRec : Tbl Unit := { deletedFirst false with byprec := 16384, reccnt := 1, disk := fun _ => ⟨VAL_MKR, List.replicate 16383 65⟩ }

example : (dbpack noUpd (deletedFirst false)).map Tbl.recs = .ok [⟨VAL_MKR, [66]⟩] := by decide

/-- Packed from the end of file, the live record is there twice; a record of 16384 bytes is not read. -/
theorem deletedFirst_duplicated :
    ((dbpack noUpd (deletedFirst true)).map Tbl.recs = .ok [⟨VAL_MKR, [66]⟩, ⟨VAL_MKR, [66]⟩] ∧
      ¬ ∃ t', dbpack noUpd (deletedFirst true) = .ok t' ∧ Packed (deletedFirst true) t') ∧
    dbpack noUpd largeRec = .error .dbread := by
  have hrun : (dbpack noUpd (deletedFirst true)).map Tbl.recs = .ok [⟨VAL_MKR, [66]⟩, ⟨VAL_MKR, [66]⟩] := by decide
  refine ⟨⟨hrun, ?_⟩, ?_⟩
  · rintro ⟨t', ht', hp⟩
    rw [ht'] at hrun
    have hrecs : t'.recs = [⟨VAL_MKR, [66]⟩, ⟨VAL_MKR, [66]⟩] := Except.ok.inj hrun
    have hlive := hp.recs
    rw [hrecs] at hlive
    revert hlive
    decide
  · unfold dbpack
    rw [show validChk largeRec = .ok () from rfl, packLoop_unreadable noUpd (by decide) (by decide)]
    rfl

end Dbpack
end Db3w
