/-
Indexing record by record (`__index` of index.c), and how it compares with the quick way. An index
file starts with its header page only, so every entry in it has a record and no insertion is refused:
the index has an entry for each record with a key that is not passed over, and with UNIQUE the first
record of each key.
-/
import Db3w.Ndx.BuildIndex
import Db3w.Ndx.Numbered

namespace Db3w

open NdxM

/-- The root page that `__index` puts over what the lower level sent up. -/
def indexRoot (target : NdxEntry) : NdxM Unit := do
  let hdr := (← get).hdr
  let cpg ← getpage hdr.pagecnt
  let cpg ← nePutPageno { cpg with entryCnt := 1 } 0 hdr.rootno
  modify fun st => { st with hdr := { hdr with rootno := hdr.pagecnt, pagecnt := hdr.pagecnt + 1 } }
  writePage hdr.pagecnt (← insertEntry cpg 0 0 target)

/-- How the loop of `__index` goes on after a record: its entry was put in, or passed over, or is there already. -/
inductive IndexStep where
  | counted | passed | dupkey
  deriving DecidableEq, Repr

/-- The loop of `__index` for one record. -/
def indexRec (cfg : Cfg) (fuel : Nat) (target : NdxEntry) : NdxM IndexStep := do
  let (rc, target) ← btsrin cfg fuel (← get).hdr.rootno target
  if rc = .dupkey then return if cfg.uniqueOn then .passed else .dupkey
  if target.recno ≠ 0 ∨ target.pno ≠ 0 then indexRoot target
  return .counted

/-- The loop of `__index` over the `k` records after `n`, with the number of those counted; a record that
`skip` names is passed over as deleted. `keyOf` is what `ndx_get_key` gives: off the table, which `etof` says
until a key was found, the key of blank fields. The left component is the record of the error DUPKEY. -/
def indexLoop (cfg : Cfg) (fuel : Nat) (skip : Recno → Bool) (keyOf : Bool → Recno → Option Key) : Nat → Bool → Nat → Nat → NdxM (Recno ⊕ Nat)
  | 0, _, _, cnt => return .inr cnt
  | k + 1, etof, n, cnt =>
    if skip (n + 1) then indexLoop cfg fuel skip keyOf k etof (n + 1) cnt
    else match keyOf etof (n + 1) with
      | none => indexLoop cfg fuel skip keyOf k etof (n + 1) cnt
      | some key => do
        match ← indexRec cfg fuel ⟨0, n + 1, key⟩ with
        | .dupkey => return .inl (n + 1)
        | .passed => indexLoop cfg fuel skip keyOf k false (n + 1) cnt
        | .counted => indexLoop cfg fuel skip keyOf k false (n + 1) (cnt + 1)

/-- `__index`, for a table of `reccnt` records with the keys `keyOf`; with DELETED those that `deleted` names are passed over.
INDEX clears the flags of the ends of the table before, REINDEX leaves them as they are. -/
def index_ (cfg : Cfg) (fuel : Nat) (deleteOn : Bool) (deleted : Recno → Bool) (keyOf : Bool → Recno → Option Key) (etof : Bool) (reccnt : Nat) :
    NdxM (Recno ⊕ Unit) := do
  match ← indexLoop cfg fuel (fun n => deleteOn && deleted n) keyOf reccnt etof 0 0 with
  | .inl n => return .inl n
  | .inr cnt =>
    if cnt = 0 then
      let pagecnt := (← get).hdr.pagecnt
      let cpg ← getpage pagecnt
      modify fun st => { st with hdr := { st.hdr with rootno := pagecnt, pagecnt := pagecnt + 1 } }
      writePage pagecnt (← nePutPageno { cpg with entryCnt := 0 } 0 0)
    modify fun st => { st with wHdr := true }
    return .inr ()

/-! ## One record -/

section Rec

variable {st st' s : Ndx} {cfg : Cfg} {fuel : Nat} {target : NdxEntry} {ot : Option Tree}

/-- The new root of `insert_new`, but for the header. -/
theorem newRoot_eq (cfg : Cfg) (target : NdxEntry) : newRoot cfg target = (indexRoot target >>= fun _ => saveRoot cfg) := by
  simp only [newRoot, indexRoot, bind_assoc]

/-- A new root has one entry with a record. -/
theorem indexRoot_numbered (hst : Numbered st) (hroot : st.hdr.rootno < st.hdr.pagecnt) (h1 : 1 ≤ st.hdr.norecpp) (hrec : target.recno ≠ 0)
    (hl : target.pno < st.hdr.pagecnt) (h : indexRoot target st = .ok () s) :
    Numbered s ∧ s.hdr = { st.hdr with rootno := st.hdr.pagecnt, pagecnt := st.hdr.pagecnt + 1 } := by
  let hdr := { st.hdr with rootno := st.hdr.pagecnt, pagecnt := st.hdr.pagecnt + 1 }
  let pg : NdxPage := NdxPage.set { zeroPage with entryCnt := 1 } 0 ⟨st.hdr.rootno, 0, []⟩
  have hput : nePutPageno { zeroPage with entryCnt := 1 } 0 st.hdr.rootno st = .ok pg st := by
    rw [nePutPageno, NdxM.bind_ok (getEntry_ok (i := 0) (n := 0) rfl (Nat.zero_le _))]; rfl
  rw [indexRoot, NdxM.bind_ok (NdxM.get_apply st), NdxM.bind_ok (getpage_new le_rfl), NdxM.bind_ok hput, NdxM.bind_ok (NdxM.modify_apply _ _)] at h
  by_cases ha : Accepts pg target
  · obtain ⟨pg', st2, hins, ⟨pn, en, rfl⟩, hc, he, hn⟩ :=
      insertEntry_ok { st with hdr := hdr } 0 (p := pg) (j := 0) (r := 0) rfl le_rfl ha
    rw [NdxM.bind_ok hins] at h
    obtain ⟨⟩ := h
    refine ⟨⟨Nat.succ_pos _, fun q hq h0 => ?_⟩, rfl⟩
    show (Function.update st.file st.hdr.pagecnt pg' q).Numbered _ (st.hdr.pagecnt + 1)
    by_cases hqn : q = st.hdr.pagecnt
    · subst hqn
      rw [Function.update_self]
      have hents : pg'.ents = [target.ent] := NdxPage.ents_eq hc fun i hi => by
        obtain rfl : i = 0 := by rw [hc] at hi; exact Nat.lt_one_iff.1 hi
        rw [he, if_pos rfl]
        rfl
      have hpnos : pg'.pnos = [st.hdr.rootno, target.pno] := NdxPage.pnos_eq (by rw [hc]; rfl) fun i hi => by
        rw [hc] at hi
        rw [hn]
        obtain rfl | rfl : i = 0 ∨ i = 1 := by
          have : i ≤ 1 := hi
          omega
        · rfl
        · rfl
      refine ⟨by rw [hc]; exact h1, ?_, ?_⟩
      · rw [hents]
        exact fun e he => by rw [List.mem_singleton.1 he]; exact hrec
      · rw [hpnos]
        simp only [List.mem_cons, List.not_mem_nil, or_false, forall_eq_or_imp, forall_eq]
        exact ⟨hroot.trans (Nat.lt_succ_self _), hl.trans (Nat.lt_succ_self _)⟩
    · rw [Function.update_of_ne hqn]
      have hq' : q < st.hdr.pagecnt := lt_of_le_of_ne (Nat.le_of_lt_succ hq) hqn
      exact (hst.page q hq' h0).mono (Nat.le_succ _)
  · rw [NdxM.bind_error (insertEntry_refused ha)] at h
    cases h

/-- Whether an index is well formed depends on its header and its pages alone. -/
theorem PagedIndex.congr (h : PagedIndex st ot) (hh : s.hdr = st.hdr) (hf : s.file = st.file) : PagedIndex s ot := by
  have hix : Index s ot := by
    cases h.index with
    | none h0 => exact .none (by rw [hh, h0])
    | some h0 hst => exact .some (by rw [hh, h0]) (hst.congr (by rw [hh]) fun q _ => by rw [hf])
  exact ⟨hix, by rw [hh]; exact h.keytyp, by rw [hh]; exact h.pagecnt, h.sorted, by rw [hh]; exact h.keylen, h.shape, by rw [hh]; exact h.sized, h.nodup⟩

theorem CharIndex.congr (h : CharIndex st ot) (hh : s.hdr = st.hdr) (hf : s.file = st.file) : CharIndex s ot := by
  have hp := h.paged.congr hh hf
  exact ⟨hp.index, hp.keytyp, hp.pagecnt, hp.sorted, hp.keylen, hp.shape, hp.sized, h.depth, hp.nodup⟩

theorem Index.root_lt (h : Index st ot) (hpc : 0 < st.hdr.pagecnt) : st.hdr.rootno < st.hdr.pagecnt := by
  cases h with
  | none h0 => rwa [h0]
  | some h0 hst =>
    rw [h0]
    exact hst.page_lt

/-- A record is put into the index, or is there already; there is no error. -/
theorem indexRec_cases (cfg : Cfg) (h : CharIndex st ot) (hn : Numbered st) (hpop : ∀ t ∈ ot, t.Sized (0 < ·)) (h2 : 2 ≤ st.hdr.norecpp)
    (hrec : target.recno ≠ 0) (hpno : target.pno = 0) (hl : target.key.length = st.hdr.keylen) (h0 : 0 ∉ target.key) (hfuel : heightOf ot < fuel) :
    (Dup cfg target (entriesOf ot) ∧ indexRec cfg fuel target st = .ok (if cfg.uniqueOn then .passed else .dupkey) st) ∨
    (¬Dup cfg target (entriesOf ot) ∧ ∃ s t', indexRec cfg fuel target st = .ok .counted s ∧ CharIndex s (some t') ∧ Numbered s ∧
      t'.Shape SameKey ∧ t'.Sized (0 < ·) ∧ s.hdr = { st.hdr with rootno := t'.page, pagecnt := s.hdr.pagecnt } ∧
      ∃ L M, entriesOf ot = L ++ M ∧ t'.entries = L ++ target.ent :: M) := by
  have hkt : st.hdr.keytyp &&& 0x7f = st.hdr.keytyp := by rw [h.keytyp]; rfl
  have hcases := insertNew_cases cfg h h2 hrec hpno hl (tail_no_nul h0) hfuel
  have hnc := @Numbered.not_clashIn _ _ cfg _ hn h.index hrec
  have hroot := h.index.root_lt h.pagecnt
  rw [insertNew, NdxM.bind_ok (NdxM.get_apply st), NdxM.bind_apply] at hcases
  rw [indexRec, NdxM.bind_ok (NdxM.get_apply st), NdxM.bind_apply]
  cases hb : btsrin cfg fuel st.hdr.rootno target st with
  | error e s1 =>
    rw [hb] at hcases
    rcases hcases with ⟨-, -, hrun⟩ | ⟨-, hc, -⟩ | ⟨-, -, st', t', hrun, -⟩
    · cases hrun
    · exact absurd hc hnc
    · cases hrun
  | ok a s1 =>
    obtain ⟨rc, target1⟩ := a
    rw [hb] at hcases
    dsimp only at hcases ⊢
    cases rc with
    | dupkey =>
      rw [if_pos rfl] at hcases ⊢
      rcases hcases with ⟨hd, -, hrun⟩ | ⟨-, hc, -⟩ | ⟨-, -, st', t', hrun, -⟩
      · obtain ⟨⟩ := hrun
        exact Or.inl ⟨hd, rfl⟩
      · exact absurd hc hnc
      · cases hrun
    | zero =>
      have hzero : Rc.zero ≠ Rc.dupkey := by simp
      have hbt := btsrin_numbered hn h2 hkt hrec hpno hroot hb
      obtain ⟨hk, hs⟩ := hbt
      have hs := hs rfl
      simp only [if_neg hzero] at hcases ⊢
      by_cases hmore : target1.recno ≠ 0 ∨ target1.pno ≠ 0
      · -- what was sent up goes to a new root
        simp only [if_pos hmore] at hcases ⊢
        have hrec1 : target1.recno ≠ 0 := fun h0 => hmore.elim (fun h => h h0) fun h => h (hs.none h0)
        rcases hcases with ⟨-, -, hrun⟩ | ⟨-, hc, -⟩ | ⟨hd, -, st', t', hrun, hi⟩
        · obtain ⟨u, s2, -, hrun⟩ := bind_eq_ok hrun
          cases hrun
        · exact absurd hc hnc
        obtain ⟨u, s2, h1, hrun⟩ := bind_eq_ok hrun
        obtain ⟨⟩ := hrun
        rw [newRoot_eq] at h1
        obtain ⟨u, s, hput, hsave⟩ := bind_eq_ok h1
        obtain ⟨hns, hhdr⟩ := indexRoot_numbered hk.numbered (by rw [hk.hdr]; exact hroot.trans_le hk.le) (by rw [hk.hdr]; exact one_le_two.trans h2) hrec1 hs.link hput
        obtain ⟨s3, hsave', hh, hf, -⟩ := saveRoot_ok s cfg (by rw [hhdr, hk.hdr]; exact hkt)
        obtain rfl : s3 = st' := by simpa [hsave'] using hsave
        have hix := (h.inserted hl (tail_no_nul h0) hi).congr hh.symm hf.symm
        obtain ⟨L, M, hL, hM, -⟩ := hi.entries
        exact Or.inr ⟨hd, s, t', NdxM.bind_ok hput, hix, hns, hi.shape, hi.populated hpop, by rw [← hh]; exact hi.hdr, L, M, hL, hM⟩
      · simp only [if_neg hmore] at hcases ⊢
        rcases hcases with ⟨-, -, hrun⟩ | ⟨-, hc, -⟩ | ⟨hd, -, st', t', hrun, hi⟩
        · cases hrun
        · exact absurd hc hnc
        obtain ⟨⟩ := hrun
        obtain ⟨L, M, hL, hM, -⟩ := hi.entries
        exact Or.inr ⟨hd, s1, t', rfl, h.inserted hl (tail_no_nul h0) hi, hk.numbered, hi.shape, hi.populated hpop, hi.hdr, L, M, hL, hM⟩

end Rec

/-! ## The records of a table -/

/-- The keys of the records that are not passed over. -/
def keptKeyOf (skip : Recno → Bool) (keyOf : Recno → Option Key) (r : Recno) : Option Key := if skip r then none else keyOf r

theorem keptKeyOf_some {skip : Recno → Bool} {keyOf : Recno → Option Key} {r : Recno} {key : Key} :
    keptKeyOf skip keyOf r = some key ↔ skip r = false ∧ keyOf r = some key := by
  unfold keptKeyOf
  cases skip r <;> simp

theorem KeyTable.kept {keylen reccnt : Nat} {keyOf : Recno → Option Key} (h : KeyTable keylen reccnt keyOf) (skip : Recno → Bool) :
    KeyTable keylen reccnt (keptKeyOf skip keyOf) := by
  have hsub : ∀ {r key}, keptKeyOf skip keyOf r = some key → keyOf r = some key := fun hk => (keptKeyOf_some.1 hk).2
  exact ⟨fun hk => h.recno (hsub hk), fun hk => h.length (hsub hk), fun hk => h.text (hsub hk)⟩

/-- The index after the records up to `n`. -/
structure Indexed (uniqueOn : Bool) (hdr : NdxHdr) (keys : Recno → Option Key) (n : Nat) (st : Ndx) (ot : Option Tree) : Prop where
  index : CharIndex st ot
  numbered : Numbered st
  populated : ∀ t ∈ ot, t.Shape SameKey ∧ t.Sized (0 < ·)
  keylen : st.hdr.keylen = hdr.keylen
  norecpp : st.hdr.norecpp = hdr.norecpp
  length : (entriesOf ot).length ≤ n
  entry : ∀ e ∈ entriesOf ot, e.recno ≤ n ∧ keys e.recno = some e.key ∧ (uniqueOn = true → ∀ r < e.recno, keys r ≠ some e.key)
  key : ∀ r ≤ n, ∀ key, keys r = some key → ∃ e ∈ entriesOf ot, e.key = key ∧ (uniqueOn = false → e.recno = r)

section Loop

variable {st : Ndx} {cfg : Cfg} {fuel : Nat} {ot : Option Tree} {hdr : NdxHdr} {skip : Recno → Bool} {keys : Recno → Option Key} {n reccnt : Nat}

/-- The tree has no more levels than entries. -/
theorem Indexed.height {b : Bool} (h : Indexed b hdr keys n st ot) : heightOf ot ≤ n := by
  cases ot with
  | none => exact Nat.zero_le _
  | some t =>
    obtain ⟨hsh, hpop⟩ := h.populated t rfl
    exact (height_le_entries hsh hpop).trans h.length

/-- A record without a key is passed over. -/
theorem Indexed.pass {b : Bool} (h : Indexed b hdr keys n st ot) (hk : ∀ key, keys (n + 1) = some key → ∃ e ∈ entriesOf ot, e.key = key ∧ (b = false → e.recno = n + 1)) :
    Indexed b hdr keys (n + 1) st ot := by
  refine ⟨h.index, h.numbered, h.populated, h.keylen, h.norecpp, h.length.trans (Nat.le_succ n), fun e he => ?_, fun r hr key hkey => ?_⟩
  · obtain ⟨h1, h2⟩ := h.entry e he
    exact ⟨h1.trans (Nat.le_succ n), h2⟩
  · rcases Nat.lt_or_ge n r with hlt | hle
    · obtain rfl : r = n + 1 := le_antisymm hr hlt
      exact hk key hkey
    · exact h.key r hle key hkey

theorem indexLoop_ok {keyOf : Bool → Recno → Option Key} (hK : KeyTable hdr.keylen reccnt (keyOf false)) (h2 : 2 ≤ hdr.norecpp) (hfuel : reccnt < fuel) {k cnt : Nat} (hk : n + k = reccnt)
    (h : Indexed cfg.uniqueOn hdr (keptKeyOf skip (keyOf false)) n st ot) (hcnt : cnt = (entriesOf ot).length) :
    ∃ cnt' st' ot', indexLoop cfg fuel skip keyOf k false n cnt st = .ok (.inr cnt') st' ∧ Indexed cfg.uniqueOn hdr (keptKeyOf skip (keyOf false)) reccnt st' ot' ∧
      cnt' = (entriesOf ot').length := by
  induction k generalizing n st ot cnt with
  | zero => exact ⟨cnt, st, ot, rfl, by rwa [← hk], hcnt⟩
  | succ k ih =>
    rw [indexLoop]
    by_cases hskip : skip (n + 1)
    · -- a deleted record
      rw [if_pos hskip]
      exact ih (by omega) (h.pass fun key hkey => by rw [keptKeyOf, if_pos hskip] at hkey; cases hkey) hcnt
    rw [if_neg hskip]
    have hkept : keptKeyOf skip (keyOf false) (n + 1) = keyOf false (n + 1) := if_neg hskip
    cases hkey : keyOf false (n + 1) with
    | none => exact ih (by omega) (h.pass fun key hkey' => by rw [hkept, hkey] at hkey'; cases hkey') hcnt
    | some key =>
      have hheight := h.height
      rcases @indexRec_cases _ fuel ⟨0, n + 1, key⟩ _ cfg h.index h.numbered (fun t ht => (h.populated t ht).2) (by rw [h.norecpp]; exact h2) (Nat.succ_ne_zero n) rfl ((hK.length hkey).trans h.keylen.symm) (hK.text hkey) (by omega) with
        ⟨hd, hrun⟩ | ⟨hd, s, t', hrun, hix, hn, hsh, hpop, hhdr, L, M, hL, hM⟩
      · -- the key is there already; without UNIQUE that would be this very record
        unfold Dup at hd
        split at hd
        · rename_i hu
          obtain ⟨e, he, hek⟩ := hd
          rw [if_pos hu] at hrun
          dsimp only
          rw [NdxM.bind_ok hrun]
          refine ih (by omega) (h.pass fun key' hkey' => ?_) hcnt
          rw [hkept, hkey] at hkey'
          obtain ⟨⟩ := hkey'
          exact ⟨e, he, hek, fun h => by rw [hu] at h; cases h⟩
        · exact absurd (h.entry _ hd).1 (Nat.not_succ_le_self n)
      · dsimp only
        rw [NdxM.bind_ok hrun]
        have hmem : ∀ e, e ∈ t'.entries ↔ e = ⟨key, n + 1⟩ ∨ e ∈ entriesOf ot := by
          intro e
          rw [hM, hL]
          show e ∈ L ++ ⟨key, n + 1⟩ :: M ↔ _
          simp only [List.mem_append, List.mem_cons]
          tauto
        have hlen : t'.entries.length = (entriesOf ot).length + 1 := by
          rw [hM, hL]
          simp only [List.length_append, List.length_cons]
          omega
        refine ih (by omega) ⟨hix, hn, ?_, by rw [hhdr]; exact h.keylen, by rw [hhdr]; exact h.norecpp, ?_, ?_, ?_⟩ (hcnt ▸ hlen.symm)
        · rintro t ⟨⟩
          exact ⟨hsh, hpop⟩
        · show t'.entries.length ≤ n + 1
          rw [hlen]
          exact Nat.succ_le_succ h.length
        · intro e he
          rcases (hmem e).1 he with rfl | he
          · refine ⟨le_rfl, hkept.trans hkey, fun hu r hr hkr => hd ?_⟩
            obtain ⟨e, he, hek, -⟩ := h.key r (Nat.le_of_lt_succ hr) key hkr
            rw [Dup, if_pos hu]
            exact ⟨e, he, hek⟩
          · obtain ⟨h1, h2⟩ := h.entry e he
            exact ⟨h1.trans (Nat.le_succ n), h2⟩
        · intro r hr key' hkr
          rcases Nat.lt_or_ge n r with hlt | hle
          · obtain rfl : r = n + 1 := le_antisymm hr hlt
            rw [hkept, hkey] at hkr
            obtain ⟨⟩ := hkr
            exact ⟨⟨key, n + 1⟩, (hmem _).2 (Or.inl rfl), rfl, fun _ => rfl⟩
          · obtain ⟨e, he, h3⟩ := h.key r hle key' hkr
            exact ⟨e, (hmem e).2 (Or.inr he), h3⟩

end Loop

/-! ## The index -/

/-- A new index file: it has its header page only. -/
structure NewFile (st : Ndx) : Prop where
  rootno : st.hdr.rootno = 0
  pagecnt : st.hdr.pagecnt = 1

section Whole

variable {st : Ndx} {cfg : Cfg} {keyOf k1 k2 : Recno → Option Key} {uniqueOn : Bool} {L M : List Ent} {ot : Option Tree}

theorem NewFile.indexed {keylen reccnt : Nat} (h : NewFile st) (ht : st.hdr.keytyp = 0) (hK : KeyTable keylen reccnt k1) :
    Indexed uniqueOn st.hdr k1 0 st none := by
  refine ⟨⟨.none h.rootno, ht, by rw [h.pagecnt]; decide, by simp [entriesOf], by simp [entriesOf], by simp, by simp, by simp, by simp⟩, ?_, by simp, rfl, rfl,
    le_rfl, by simp [entriesOf], fun r hr key hk => ?_⟩
  · exact ⟨by rw [h.pagecnt]; decide, fun q hq h0 => absurd (by rw [h.pagecnt] at hq; exact Nat.lt_one_iff.1 hq) h0⟩
  · have h1 := (hK.recno hk).1
    exact absurd (Nat.lt_of_lt_of_le h1 hr) (Nat.lt_irrefl 0)

/-- The entries after the last record make an index, with the first record of each key under UNIQUE. -/
theorem Indexed.indexOf {hdr : NdxHdr} {reccnt : Nat} (h : Indexed uniqueOn hdr k1 reccnt st ot) (hK : KeyTable hdr.keylen reccnt k1) :
    IndexOf uniqueOn k1 (entriesOf ot) := by
  refine ⟨fun e he => (h.entry e he).2.1, fun r key hk => h.key r (hK.recno hk).2 key hk, fun hu => ?_⟩
  refine h.index.sorted.imp_of_mem fun {a b} ha hb hab heq => ?_
  obtain ⟨-, hka, hfa⟩ := h.entry a ha
  obtain ⟨-, hkb, hfb⟩ := h.entry b hb
  -- of two entries with one key, each has the first record of that key
  rcases lt_trichotomy a.recno b.recno with hlt | hrec | hlt
  · exact hfb hu _ hlt (by rw [hka, heq])
  · have : a = b := by
      cases a
      cases b
      exact congrArg₂ Ent.mk heq hrec
    rw [this] at hab
    exact lt_irrefl _ hab
  · exact hfa hu _ hlt (by rw [hkb, heq])

/-- The empty leaf that `__index` leaves for a table without keys. -/
theorem emptyLeaf_ok (h : CharIndex st ot) : CharIndex { st with
    hdr := { st.hdr with rootno := st.hdr.pagecnt, pagecnt := st.hdr.pagecnt + 1 }
    file := Function.update st.file st.hdr.pagecnt (NdxPage.set { zeroPage with entryCnt := 0 } 0 ⟨0, 0, []⟩)
    wHdr := true } (some (.leaf st.hdr.pagecnt [])) := by
  refine ⟨.some rfl (.leaf h.pagecnt.ne' (Nat.lt_succ_self _) ?_ ?_), h.keytyp, Nat.succ_pos _, List.Pairwise.nil, by simp [entriesOf], ?_, ?_, ?_, ?_⟩
  · show (Function.update st.file st.hdr.pagecnt _ st.hdr.pagecnt).ents = []
    rw [Function.update_self]
    rfl
  · show (Function.update st.file st.hdr.pagecnt _ st.hdr.pagecnt).pnos = _
    rw [Function.update_self]
    rfl
  · rintro t ⟨⟩
    exact Or.inr ⟨_, rfl⟩
  · rintro t ⟨⟩
    exact .leaf (Nat.zero_le _)
  · rintro t ⟨⟩
    exact ⟨0, .leaf⟩
  · rintro t ⟨⟩
    simp

/-- Indexing record by record ends without an error; with UNIQUE the index holds the first record of each key. -/
theorem index_cases {st : Ndx} {cfg : Cfg} {fuel : Nat} {deleteOn : Bool} {deleted : Recno → Bool} {keyOf : Bool → Recno → Option Key} {reccnt : Nat}
    (h : NewFile st) (ht : st.hdr.keytyp = 0) (h2 : 2 ≤ st.hdr.norecpp) (hK : KeyTable st.hdr.keylen reccnt (keyOf false)) (hfuel : reccnt < fuel) :
    ∃ st' t, index_ cfg fuel deleteOn deleted keyOf false reccnt st = .ok (.inr ()) st' ∧ CharIndex st' (some t) ∧
      IndexOf cfg.uniqueOn (keptKeyOf (fun r => deleteOn && deleted r) (keyOf false)) t.entries ∧
      (cfg.uniqueOn = true → ∀ e ∈ t.entries, ∀ r < e.recno, keptKeyOf (fun r => deleteOn && deleted r) (keyOf false) r ≠ some e.key) := by
  have hK' := hK.kept fun r => deleteOn && deleted r
  obtain ⟨cnt, st1, ot, hrun, hix, hcnt⟩ := @indexLoop_ok st cfg fuel none st.hdr (fun r => deleteOn && deleted r) 0 reccnt keyOf hK h2 hfuel reccnt 0 (Nat.zero_add _) (h.indexed ht hK') rfl
  have hof := hix.indexOf hK'
  rw [index_, NdxM.bind_ok hrun]
  dsimp only
  by_cases h0 : cnt = 0
  · -- no record was counted, and the root is an empty leaf
    have hnil : entriesOf ot = [] := List.eq_nil_of_length_eq_zero (hcnt.symm.trans h0)
    have hput : ∀ s, nePutPageno { zeroPage with entryCnt := 0 } 0 0 s = .ok (NdxPage.set { zeroPage with entryCnt := 0 } 0 ⟨0, 0, []⟩) s := fun s =>
      nePutPageno_ok s _ (n := 0) rfl (Nat.zero_le _) 0
    rw [if_pos h0, NdxM.bind_ok (NdxM.get_apply st1), NdxM.bind_ok (getpage_new le_rfl), NdxM.bind_ok (NdxM.modify_apply _ _), NdxM.bind_ok (hput _),
      NdxM.bind_ok (writePage_ok _ _)]
    exact ⟨_, _, rfl, emptyLeaf_ok hix.index, by rw [← hnil]; simpa [hnil] using hof, by simp⟩
  · cases ot with
    | none => exact absurd hcnt h0
    | some t =>
      rw [if_neg h0]
      exact ⟨{ st1 with wHdr := true }, t, rfl, hix.index.congr rfl rfl, hof, fun hu e he => (hix.entry e he).2.2 hu⟩

/-- **Indexing record by record** ends without an error in a well-formed index of the records that are not passed over, which answers as the table
does, with the first record of a key. -/
theorem index_right {st : Ndx} {cfg : Cfg} {fuel : Nat} {deleteOn : Bool} {deleted : Recno → Bool} {keyOf : Bool → Recno → Option Key} {reccnt : Nat}
    (h : NewFile st) (ht : st.hdr.keytyp = 0) (h2 : 2 ≤ st.hdr.norecpp) (hK : KeyTable st.hdr.keylen reccnt (keyOf false)) (hfuel : reccnt < fuel) :
    ∃ st' t, index_ cfg fuel deleteOn deleted keyOf false reccnt st = .ok (.inr ()) st' ∧ CharIndex st' (some t) ∧
      IndexOf cfg.uniqueOn (keptKeyOf (fun r => deleteOn && deleted r) (keyOf false)) t.entries ∧
      ∀ cfg', Answers cfg' True (keptKeyOf (fun r => deleteOn && deleted r) (keyOf false)) st' := by
  obtain ⟨st', t, hrun, hix, hof, hfirst⟩ := index_cases h ht h2 hK hfuel
  refine ⟨st', t, hrun, hix, hof, fun cfg' => hof.answers cfg' hix.paged (fun hk => ?_) fun _ => ?_⟩
  · exact Nat.one_le_iff_ne_zero.1 ((hK.kept _).recno hk).1
  · cases hu : cfg.uniqueOn with
    | false => exact Or.inl rfl
    | true => exact Or.inr (hfirst hu)

/-- The keys of a table, and none of a blank record. -/
def abKeyAt (etof : Bool) (r : Recno) : Option Key := if etof then none else abKey r

theorem index_right_abKey : ∃ st' t, index_ ⟨false, false, true, false⟩ 4 true (fun r => r == 1) abKeyAt false 3 newIndex = .ok (.inr ()) st' ∧ CharIndex st' (some t) ∧
    IndexOf false (keptKeyOf (fun r => true && r == 1) (abKeyAt false)) t.entries ∧
    ∀ cfg', Answers cfg' True (keptKeyOf (fun r => true && r == 1) (abKeyAt false)) st' :=
  @index_right newIndex ⟨false, false, true, false⟩ 4 true (fun r => r == 1) abKeyAt 3 ⟨rfl, rfl⟩ rfl (by decide) abKey_table (by decide)

/-! ## The two ways compared -/

/-- What two indexes of one table have in common: the entries, and with UNIQUE the keys, whose records may differ. -/
def Alike (uniqueOn : Bool) (L M : List Ent) : Prop := if uniqueOn then L.map Ent.key = M.map Ent.key else L = M

theorem IndexOf.mem (h : IndexOf false k1 L) (e : Ent) : e ∈ L ↔ k1 e.recno = some e.key := by
  refine ⟨h.entry e, fun hk => ?_⟩
  obtain ⟨e', he', hkey, hrec⟩ := h.key e.recno e.key hk
  have : e' = e := by
    cases e
    cases e'
    exact congrArg₂ Ent.mk hkey (hrec rfl)
  rwa [← this]

theorem IndexOf.mem_keys (h : IndexOf uniqueOn k1 L) (key : Key) : key ∈ L.map Ent.key ↔ ∃ r, k1 r = some key := by
  rw [List.mem_map]
  constructor
  · rintro ⟨e, he, rfl⟩
    exact ⟨e.recno, h.entry e he⟩
  · rintro ⟨r, hr⟩
    obtain ⟨e, he, hkey, -⟩ := h.key r key hr
    exact ⟨e, he, hkey⟩

/-- Indexes in the order of the tree are alike when they are of the same keys. -/
theorem alike_iff (h1 : IndexOf uniqueOn k1 L) (h2 : IndexOf uniqueOn k2 M) (hL : L.Pairwise fun a b => a.rank < b.rank)
    (hM : M.Pairwise fun a b => a.rank < b.rank) :
    Alike uniqueOn L M ↔ if uniqueOn then ∀ key, (∃ r, k1 r = some key) ↔ ∃ r, k2 r = some key else k1 = k2 := by
  cases uniqueOn with
  | false =>
    simp only [Alike, Bool.false_eq_true, if_false]
    constructor
    · rintro rfl
      funext r
      refine Option.ext fun key => ?_
      rw [← h1.mem ⟨key, r⟩, ← h2.mem ⟨key, r⟩]
    · rintro rfl
      refine List.map_injective_iff.2 (fun a b => Ent.rank_inj) ((List.pairwise_map.2 hL).eq_of_mem_iff (List.pairwise_map.2 hM) fun x => ?_)
      simp only [List.mem_map, h1.mem, h2.mem]
  | true =>
    simp only [Alike, if_true]
    constructor
    · intro heq key
      rw [← h1.mem_keys, ← h2.mem_keys, heq]
    · intro heq
      have hkeys : ∀ {K : List Ent} {k : Recno → Option Key}, IndexOf true k K → K.Pairwise (fun a b => a.rank < b.rank) →
          ((K.map Ent.key).map bytes).Pairwise (· < ·) := by
        intro K k hK hs
        rw [List.map_map, List.pairwise_map]
        refine (hs.and (hK.distinct rfl)).imp fun {a b} hab => ?_
        rcases Prod.Lex.toLex_lt_toLex.1 hab.1 with hlt | ⟨hlt, -⟩
        · exact hlt
        · exact absurd (bytes_inj.1 hlt) hab.2
      refine List.map_injective_iff.2 (fun a b => bytes_inj.1) ((hkeys h1 hL).eq_of_mem_iff (hkeys h2 hM) fun x => ?_)
      rw [List.mem_map, List.mem_map]
      simp only [h1.mem_keys, h2.mem_keys, heq]

end Whole

/-- When the records that are not passed over have all keys of the table. -/
theorem kept_alike_iff {deleteOn : Bool} {deleted : Recno → Bool} {keyOf : Recno → Option Key} {uniqueOn : Bool} :
    (if uniqueOn then ∀ key, (∃ r, keyOf r = some key) ↔ ∃ r, keptKeyOf (fun r => deleteOn && deleted r) keyOf r = some key
      else keyOf = keptKeyOf (fun r => deleteOn && deleted r) keyOf) ↔
    ∀ r key, keyOf r = some key → deleteOn = true → deleted r = true → uniqueOn = true ∧ ∃ r', keyOf r' = some key ∧ deleted r' = false := by
  cases uniqueOn with
  | false =>
    simp only [Bool.false_eq_true, if_false, false_and, imp_false]
    constructor
    · intro heq r key hk hd hr
      rw [heq] at hk
      have := (keptKeyOf_some.1 hk).1
      rw [hd, hr] at this
      cases this
    · intro hno
      funext r
      refine Option.ext fun key => ?_
      rw [keptKeyOf_some]
      refine ⟨fun hk => ⟨?_, hk⟩, And.right⟩
      cases deleteOn with
      | false => rfl
      | true => exact Bool.eq_false_iff.2 (hno r key hk rfl)
  | true =>
    simp only [if_true, true_and]
    constructor
    · intro hall r key hk hd hr
      obtain ⟨r', hr'⟩ := (hall key).1 ⟨r, hk⟩
      obtain ⟨h1, h2⟩ := keptKeyOf_some.1 hr'
      exact ⟨r', h2, by rwa [hd] at h1⟩
    · intro hall key
      refine ⟨?_, fun ⟨r, hr⟩ => ⟨r, (keptKeyOf_some.1 hr).2⟩⟩
      rintro ⟨r, hk⟩
      by_cases hskip : (deleteOn && deleted r) = true
      · obtain ⟨hd, hr⟩ := Bool.and_eq_true_iff.1 hskip
        obtain ⟨r', hk', hr'⟩ := hall r key hk hd hr
        exact ⟨r', keptKeyOf_some.2 ⟨by rw [hr', Bool.and_false], hk'⟩⟩
      · exact ⟨r, keptKeyOf_some.2 ⟨Bool.eq_false_iff.2 hskip, hk⟩⟩

/-- **The quick and the slow way** give the same index of a table with keys, exactly when with DELETED no record that is passed over as deleted
has a key, or with UNIQUE has a key that no other record has. -/
theorem quick_slow_alike {st : Ndx} {v : VsortCtl} {cfg : Cfg} {fuel : Nat} {deleteOn : Bool} {deleted : Recno → Bool} {keyOf : Bool → Recno → Option Key}
    {reccnt : Nat} (h : NewFile st) (hfresh : Fresh st) (hv : SortsFor v st.hdr cfg.uniqueOn) (ht : st.hdr.keytyp = 0) (h2 : 2 ≤ st.hdr.norecpp)
    (hK : KeyTable st.hdr.keylen reccnt (keyOf false)) (hn : reccnt < 2 ^ 31) (hfuel : 2 * reccnt + 3 ≤ fuel) (hex : ∃ r key, keyOf false r = some key) :
    ∃ st1 t1 st2 t2, qindex cfg.uniqueOn fuel v (keyOf false) reccnt st = .ok () st1 ∧ CharIndex st1 (some t1) ∧
      index_ cfg fuel deleteOn deleted keyOf false reccnt st = .ok (.inr ()) st2 ∧ CharIndex st2 (some t2) ∧
      (Alike cfg.uniqueOn t1.entries t2.entries ↔ ∀ r key, keyOf false r = some key → deleteOn = true → deleted r = true →
        cfg.uniqueOn = true ∧ ∃ r', keyOf false r' = some key ∧ deleted r' = false) := by
  obtain ⟨st1, t1, hq, hc1, ho1⟩ :=
    (@qindex_cases _ _ _ _ _ fuel hv hK hn ht (one_le_two.trans h2) (by rw [h.pagecnt]; decide) hfresh hfuel).2 hex
  obtain ⟨st2, t2, hi, hc2, ho2, -⟩ := @index_cases _ cfg fuel deleteOn deleted _ _ h ht h2 hK (by omega)
  exact ⟨st1, t1, st2, t2, hq, hc1, hi, hc2, (alike_iff ho1 ho2 hc1.sorted hc2.sorted).trans kept_alike_iff⟩

theorem quick_slow_alike_abKey : ∃ st1 t1 st2 t2, qindex false 9 (newIndexSort false) (abKeyAt false) 3 newIndex = .ok () st1 ∧ CharIndex st1 (some t1) ∧
    index_ ⟨false, false, true, false⟩ 9 true (fun r => r == 2) abKeyAt false 3 newIndex = .ok (.inr ()) st2 ∧ CharIndex st2 (some t2) ∧
    (Alike false t1.entries t2.entries ↔ ∀ r key, abKeyAt false r = some key → true = true → (r == 2) = true →
      false = true ∧ ∃ r', abKeyAt false r' = some key ∧ (r' == 2) = false) :=
  @quick_slow_alike newIndex (newIndexSort false) ⟨false, false, true, false⟩ 9 true (fun r => r == 2) abKeyAt 3 ⟨rfl, rfl⟩ (fun _ _ => rfl) ⟨rfl, rfl, by decide⟩ rfl (by decide) abKey_table (by decide) (by decide) ⟨1, [0x42], rfl⟩

end Db3w
