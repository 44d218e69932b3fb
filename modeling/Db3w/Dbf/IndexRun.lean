/-
Bringing the index files of a table up to date over whole runs (`updndx` of ndx.c). Each update of an
index file either does what the same update does to a list of entries, or ends with the error
INVALID_ENTRY when a split is refused; then the table goes to the record again, and its entry is looked
for in the controlling index. The entries of the files are then those of the table after every run: one
for each record with a key. When records are only added to files that were indexed record by record, no
split is refused.
-/
import Db3w.Dbf.Indexes
import Db3w.Ndx.SlowIndex

namespace Db3w

open NdxM

/-! ## The files -/

/-- An open index of a table: its file and the key of a record's fields. -/
structure OpenNdx where
  st : Ndx
  keyOf : List UInt8 → Option Key

/-- What `ndx_get_key` gives: off the table all fields are blank. -/
def OpenNdx.keyAt (f : OpenNdx) (etof : Bool) (data : List UInt8) : Option Key :=
  f.keyOf (if etof then List.replicate data.length 32 else data)

/-- `updndx` for one index, and `go`, start with the header as others may have left it. -/
def rereadHdr (cfg : Cfg) : NdxM Unit := if cfg.exclusive then return () else readNdxHdr

/-- The end of `updndx` for one index: a header that has changed is written. -/
def flushHdr : NdxM Unit := do
  if (← get).wHdr then
    writeNdxHdr
    modify fun st => { st with wHdr := false }

/-- `updndx` for one index, with the keys of the old and the new record: whether the index was changed. -/
def updndxFile (cfg : Cfg) (fuel : Nat) (del : Bool) (r : Recno) (old new : Option Key) : NdxM Bool := do
  rereadHdr cfg
  if del then
    let upd ← removeOldInsertNew cfg fuel (old.map (Idx.target · r)) (new.map (Idx.target · r))
    flushHdr
    return upd ≠ 0
  else
    match new with
    | none => return false
    | some k =>
      let _ ← insertNew cfg fuel (Idx.target k r)
      flushHdr
      return true

/-- The loop of `updndx` over the open indexes; `insert_new` clears the flag of the end of the table. -/
def updndxFiles (cfg : Cfg) (fuel : Nat) (tof del : Bool) (r : Recno) (old new : List UInt8) :
    Bool → List OpenNdx → EStateM.Result HbErr (List OpenNdx) (List Bool)
  | _, [] => .ok [] []
  | eof, ix :: ixs =>
    let a := ix.keyAt (eof || tof) old
    let b := ix.keyAt (eof || tof) new
    match updndxFile cfg fuel del r a b ix.st with
    | .error e st => .error e ({ ix with st } :: ixs)
    | .ok upd st =>
      match updndxFiles cfg fuel tof del r old new (eof && !(upd && b.isSome)) ixs with
      | .error e ixs => .error e ({ ix with st } :: ixs)
      | .ok upds ixs => .ok (upd :: upds) ({ ix with st } :: ixs)

/-- What `updndx` does after its loop: if the controlling index has changed, its position is given up. -/
def updndxDone (order : Nat) (upds : List Bool) (ixs : List OpenNdx) : List OpenNdx :=
  if upds.getD order false then ixs.modify order fun ix => { ix with st := { ix.st with pageNo := 0 } } else ixs

/-- The search of `go` in an index, for a record and its key. -/
def searchNdx (cfg : Cfg) (fuel : Nat) (r : Recno) : Option Key → NdxM Unit
  | none => return ()
  | some k => do
    let st ← get
    if (← btsrch cfg fuel st.hdr.rootno .tequal (Idx.target k r)) = 0 then throw (.ntndx st.seq)

/-- What `go` does in the controlling index, unless its position is at the record. -/
def goNdx (cfg : Cfg) (fuel : Nat) (r : Recno) (key : Option Key) : NdxM Unit := do
  rereadHdr cfg
  let st ← get
  if st.pageNo ≠ 0 then
    if (← neGetRecno (← getpage st.pageNo) st.entryNo) = r then return ()
  searchNdx cfg fuel r key

/-- The search of `go` among the open indexes. -/
def goFiles (cfg : Cfg) (fuel : Nat) (order : Nat) (r : Recno) (data : List UInt8) (ixs : List OpenNdx) : EStateM.Result HbErr (List OpenNdx) Unit :=
  match ixs[order]? with
  | none => .ok () ixs
  | some ix =>
    match goNdx cfg fuel r (ix.keyOf data) ix.st with
    | .ok _ st => .ok () (ixs.set order { ix with st })
    | .error e st => .error e (ixs.set order { ix with st })

/-- A call of `updndx` for a record of the table: the flags of the ends of the table, whether there is an old record, its number and the
fields before and after. -/
structure UpdOp where
  eof : Bool
  tof : Bool
  del : Bool
  r : Recno
  old : List UInt8
  new : List UInt8

/-- `updndx`, which goes to the record again. -/
def updndxCall (cfg : Cfg) (fuel : Nat) (order : Nat) (hidden : Nat → List UInt8 → Bool) (op : UpdOp) (ixs : List OpenNdx) :
    EStateM.Result HbErr (List OpenNdx) Unit :=
  match updndxFiles cfg fuel op.tof op.del op.r op.old op.new op.eof ixs with
  | .error e ixs => .error e ixs
  | .ok upds ixs =>
    if hidden op.r op.new then .ok () (updndxDone order upds ixs) else goFiles cfg fuel order op.r op.new (updndxDone order upds ixs)

/-- Calls of `updndx` one after another. -/
def runFiles (cfg : Cfg) (fuel : Nat) (order : Nat) (hidden : Nat → List UInt8 → Bool) : List UpdOp → List OpenNdx → EStateM.Result HbErr (List OpenNdx) Unit
  | [], ixs => .ok () ixs
  | op :: ops, ixs =>
    match updndxCall cfg fuel order hidden op ixs with
    | .error e ixs => .error e ixs
    | .ok _ ixs => runFiles cfg fuel order hidden ops ixs

/-- The same calls on entries. -/
def runIdx (cfg : Cfg) (hidden : Nat → List UInt8 → Bool) : List UpdOp → Indexes → Except DbErr Indexes
  | [], s => .ok s
  | op :: ops, s => (reindex (updndx cfg hidden) op.eof op.tof op.del op.r op.old op.new s).bind (runIdx cfg hidden ops)

/-! ## An index between updates -/

/-- A well-formed index without empty pages, but for an empty root, whose header is on its page or marked as changed. -/
structure LiveIndex (st : Ndx) (ot : Option Tree) : Prop where
  paged : PagedIndex st ot
  live : ∀ t ∈ ot, (t.Shape SameKey ∧ t.Sized (0 < ·)) ∨ ∃ p, t = .leaf p []
  sync : st.hdrPage = st.hdr ∨ st.wHdr = true

section Live

variable {st st' : Ndx} {cfg : Cfg} {fuel : Nat} {target : NdxEntry} {ot : Option Tree} {p : Pageno}

theorem LiveIndex.height (h : LiveIndex st ot) : heightOf ot ≤ (entriesOf ot).length + 1 := by
  cases ot with
  | none => exact Nat.zero_le _
  | some t =>
    rcases h.live t rfl with ⟨hsh, hpop⟩ | ⟨p, rfl⟩
    · exact (height_le_entries hsh hpop).trans (Nat.le_succ _)
    · exact (MTree.height_leaf p ([] : List Ent)).le.trans (Nat.le_add_left _ _)

/-- The empty root takes an entry. -/
theorem insertNew_emptyLeaf (hst : Stored st (.leaf p [])) (hroot : st.hdr.rootno = p) (h2 : 2 ≤ st.hdr.norecpp) (hrec : target.recno ≠ 0)
    (hpno : target.pno = 0) (hfuel : 2 ≤ fuel) :
    ∃ st', insertNew cfg fuel target st = .ok 1 st' ∧ Stored st' (.leaf p [target.ent]) ∧ st'.hdr = st.hdr ∧ st'.seq = st.seq ∧
      (st.hdrPage = st.hdr ∨ st.wHdr = true → st'.hdrPage = st'.hdr ∨ st'.wHdr = true) := by
  obtain ⟨fuel, rfl⟩ : ∃ n, fuel = n + 2 := ⟨fuel - 2, by omega⟩
  cases hst with
  | leaf h0 hlt hes hps =>
    have hcnt : (st.file p).entryCnt = 0 := by rw [← NdxPage.length_ents, hes]; rfl
    have hz : ((st.file p).entries 0).pno = 0 := NdxPage.pno_zero hps (Nat.zero_le _)
    obtain ⟨p', st1, hput, ⟨pn, en, rfl⟩, he, hn⟩ := insertPage_ok (r := 0) st p (Nat.zero_le _) ((accepts_leaf hz).2 hrec)
    have hb : btsrin cfg (fuel + 2) p target st =
        .ok (.zero, { target with recno := 0, pno := 0 }) { st with pageNo := pn, entryNo := en, file := Function.update st.file p p' } := by
      have hup : btsrin cfg (fuel + 1) 0 target st = .ok (.zero, target) st := rfl
      rw [btsrin, if_neg h0, NdxM.bind_ok (getpage_ok hlt), NdxM.bind_ok (neGetPageno_ok (i := 0) (n := 0) rfl (Nat.zero_le _)), hz, hcnt,
        NdxM.bind_ok (show slotLoop _ _ 0 0 0 st = .ok (1, 0, 0) st from rfl)]
      dsimp only
      rw [if_neg (by decide), NdxM.bind_ok hup]
      dsimp only
      rw [if_neg (by simp), if_pos (Or.inl hrec), putEntry, bind_assoc, NdxM.bind_ok (NdxM.get_apply st), if_pos (by omega), bind_assoc, NdxM.bind_ok hput]
      rfl
    refine ⟨{ st with pageNo := pn, entryNo := en, file := Function.update st.file p p' }, ?_, ?_, rfl, rfl, id⟩
    · rw [insertNew, NdxM.bind_ok (NdxM.get_apply st), hroot, NdxM.bind_ok hb]
      dsimp only
      rw [if_neg (by simp), if_neg (by simp)]
      rfl
    · refine .leaf h0 hlt ?_ ?_
      · show (Function.update st.file p p' p).ents = _
        rw [Function.update_self, he, hes]
        rfl
      · show (Function.update st.file p p' p).pnos = _
        rw [Function.update_self, hn, hps, hpno]
        rfl

/-- An entry goes into the index: it is there already, or a split is refused, or it is put at its place. -/
theorem LiveIndex.insert (cfg : Cfg) (h : LiveIndex st ot) (h2 : 2 ≤ st.hdr.norecpp) (hrec : target.recno ≠ 0) (hpno : target.pno = 0)
    (hl : target.key.length = st.hdr.keylen) (h0 : 0 ∉ target.key) (hfuel : (entriesOf ot).length + 2 ≤ fuel) :
    (Dup cfg target (entriesOf ot) ∧ insertNew cfg fuel target st = .ok 0 st) ∨
    (ClashIn cfg st ot target ∧ ∃ e st', insertNew cfg fuel target st = .error (.invalidEntry e) st') ∨
    (¬Dup cfg target (entriesOf ot) ∧ ∃ st' t', insertNew cfg fuel target st = .ok 1 st' ∧ LiveIndex st' (some t') ∧
      st'.hdr = { st.hdr with rootno := t'.page, pagecnt := st'.hdr.pagecnt } ∧ st'.seq = st.seq ∧
      ∃ L M, entriesOf ot = L ++ M ∧ t'.entries = L ++ target.ent :: M ∧ (∀ a ∈ L, 0 < insCmp cfg st.hdr target a) ∧
        ∀ b ∈ M, insCmp cfg st.hdr target b < 0) := by
  have hheight := h.height
  rcases @PagedIndex.insertNew_cases _ fuel _ _ cfg h.paged h2 hrec hpno hl (tail_no_nul h0) (by omega) with ⟨hd, -, hrun⟩ | ⟨-, hc, hrun⟩ | ⟨hd, -, st', t', hrun, hi⟩
  · exact Or.inl ⟨hd, hrun⟩
  · exact Or.inr (Or.inl ⟨hc, hrun⟩)
  · refine Or.inr (Or.inr ⟨hd, ?_⟩)
    have hpaged := h.paged.inserted hl (tail_no_nul h0) hi
    by_cases hempty : ∃ p, ot = some (.leaf p [])
    · -- the root was empty: it now has this entry
      obtain ⟨p, rfl⟩ := hempty
      cases h.paged.index with
      | some hroot hst =>
        obtain ⟨st2, hrun2, hst2, hh, hsq, hsync⟩ := insertNew_emptyLeaf hst hroot h2 hrec hpno (show 2 ≤ fuel by omega)
        rw [hrun] at hrun2
        obtain ⟨⟩ := hrun2
        refine ⟨st', .leaf p [target.ent], hrun, ⟨⟨.some (by rw [hh, hroot]; rfl) hst2, by rw [hh]; exact h.paged.keytyp, by rw [hh]; exact h.paged.pagecnt,
          List.pairwise_singleton _ _, ?_, ?_, ?_, ?_⟩, ?_, hsync h.sync⟩, by rw [hh]; exact congrArg (fun p => { st.hdr with rootno := p }) (show st.hdr.rootno = p from hroot), hsq, [], [], rfl, rfl, by simp, by simp⟩
        · intro e he
          rw [entriesOf, Option.elim_some, MTree.entries_leaf, List.mem_singleton] at he
          rw [he, hh]
          exact hl
        · rintro t ⟨⟩
          exact Or.inl (.leaf (List.cons_ne_nil _ _))
        · rintro t ⟨⟩
          refine .leaf ?_
          rw [hh, List.length_singleton]
          exact one_le_two.trans h2
        · rintro t ⟨⟩
          simp
        · rintro t ⟨⟩
          exact Or.inl ⟨.leaf (List.cons_ne_nil _ _), .leaf (by simp)⟩
    · have hpop : ∀ t ∈ ot, t.Sized (0 < ·) := by
        rintro t ⟨⟩
        rcases h.live t rfl with ⟨-, hpop⟩ | ⟨p, rfl⟩
        · exact hpop
        · exact absurd ⟨p, rfl⟩ hempty
      refine ⟨st', t', hrun, ⟨hpaged, ?_, hi.sync h.sync⟩, hi.hdr, hi.seq, hi.entries⟩
      rintro t ⟨⟩
      exact Or.inl ⟨hi.shape, hi.populated hpop⟩

/-- Nothing is removed from the empty root. -/
theorem removeOld_emptyLeaf (hst : Stored st (.leaf p [])) (hroot : st.hdr.rootno = p) (hfuel : 2 ≤ fuel) :
    removeOld cfg fuel target st = .error (.ntndx st.seq) st := by
  obtain ⟨fuel, rfl⟩ : ∃ n, fuel = n + 2 := ⟨fuel - 2, by omega⟩
  cases hst with
  | leaf h0 hlt hes hps =>
    have hcnt : (st.file p).entryCnt = 0 := by rw [← NdxPage.length_ents, hes]; rfl
    rw [removeOld, NdxM.bind_ok (NdxM.get_apply st), hroot]
    refine NdxM.bind_error ?_
    rw [btsrdel, if_neg h0, NdxM.bind_ok (getpage_ok hlt), NdxM.bind_ok (neGetPageno_ok (i := 0) (n := 0) rfl (Nat.zero_le _)),
      NdxPage.pno_zero hps (Nat.zero_le _), hcnt, NdxM.bind_ok (show slotLoop _ _ 0 0 0 st = .ok (1, 0, 0) st from rfl)]
    dsimp only
    rw [if_neg (by decide)]
    exact NdxM.bind_error rfl

/-- An entry is taken out of the index, or is not there. -/
theorem LiveIndex.remove (cfg : Cfg) (h : LiveIndex st ot) (hpno : target.pno = 0) (hl : target.key.length = st.hdr.keylen) (h0 : 0 ∉ target.key)
    (hfuel : (entriesOf ot).length + 2 ≤ fuel) :
    (∃ L M st' ot', removeOld cfg fuel target st = .ok () st' ∧ LiveIndex st' ot' ∧ entriesOf ot = L ++ target.ent :: M ∧ entriesOf ot' = L ++ M ∧
      st'.hdr = { st.hdr with rootno := st'.hdr.rootno, pagecnt := st'.hdr.pagecnt } ∧ st'.seq = st.seq) ∨
    (target.ent ∉ entriesOf ot ∧ removeOld cfg fuel target st = .error (.ntndx st.seq) st) := by
  have hheight := h.height
  by_cases hempty : ∃ p, ot = some (.leaf p [])
  · obtain ⟨p, rfl⟩ := hempty
    cases h.paged.index with
    | some hroot hst => exact Or.inr ⟨by simp [entriesOf], removeOld_emptyLeaf hst hroot (by omega)⟩
  · have hlive : ∀ t ∈ ot, t.Shape SameKey ∧ t.Sized (0 < ·) := by
      rintro t ⟨⟩
      rcases h.live t rfl with hl | ⟨p, rfl⟩
      · exact hl
      · exact absurd ⟨p, rfl⟩ hempty
    have hp := h.paged
    have hpi : PopulatedIndex st ot :=
      ⟨hp.index, hp.keytyp, hp.sorted, hp.keylen, fun t ht => (hlive t ht).1, fun t ht => (hlive t ht).2, hp.nodup⟩
    rcases @removeOld_cases _ fuel _ _ cfg hpi hpno hl (tail_no_nul h0) (by omega) with ⟨L, M, st', ot', hrun, hr⟩ | hno
    · have hpi' := hpi.removed hr
      have hcap : st'.hdr.norecpp = st.hdr.norecpp := by rw [hr.hdr]
      refine Or.inl ⟨L, M, st', ot', hrun, ⟨⟨hpi'.index, hpi'.keytyp, ?_, hpi'.sorted, hpi'.keylen, fun t ht => Or.inl (hpi'.shape t ht), ?_, hpi'.nodup⟩,
        fun t ht => Or.inl ⟨hpi'.shape t ht, hpi'.populated t ht⟩, hr.sync h.sync⟩, hr.before, hr.after, by rw [hr.hdr], hr.seq⟩
      · rw [hr.hdr]
        cases ot' with
        | none => exact Nat.one_pos
        | some t => exact hp.pagecnt
      · rw [hcap]
        exact hr.capped _ hp.sized
    · exact Or.inr hno

end Live

/-! ## An index and its entries -/

/-- The file holds the entries `L` of a character-key index. -/
structure Shows (hdr : NdxHdr) (st : Ndx) (L : List Ent) : Prop where
  live : ∃ ot, LiveIndex st ot ∧ entriesOf ot = L
  keytyp : hdr.keytyp = 0
  keylen : st.hdr.keylen = hdr.keylen
  norecpp : 2 ≤ st.hdr.norecpp
  recno : ∀ e ∈ L, e.recno ≠ 0

/-- The record at the position kept in an index, 0 when there is none. -/
def PosIs (st : Ndx) (r : Recno) : Prop :=
  if st.pageNo = 0 then r = 0
  else st.pageNo < st.hdr.pagecnt ∧ ∃ i : Nat, st.entryNo = i ∧ i ≤ (st.file st.pageNo).entryCnt ∧ ((st.file st.pageNo).entries i).recno = r

section Shows

variable {hdr : NdxHdr} {st st' : Ndx} {L : List Ent} {cfg : Cfg} {fuel : Nat} {r cur : Recno} {k : Key} {idx idx' : Idx}

theorem keycmp_char (ht : hdr.keytyp = 0) (b : Bool) (p q : Key) : keycmp hdr b p q = skcmp p q hdr.keylen := by
  rw [keycmp, ht, if_pos (by decide), if_neg (by decide)]

/-- Of the head of a character-key index, comparisons use the length of the keys only. -/
theorem insCmp_hdr {hdr' : NdxHdr} (ht : hdr.keytyp = 0) (ht' : hdr'.keytyp = 0) (hl : hdr'.keylen = hdr.keylen) (target : NdxEntry) :
    insCmp cfg hdr' target = insCmp cfg hdr target ∧ entCmp hdr' cfg.exactOn target = entCmp hdr cfg.exactOn target := by
  have hk : ∀ b, keyCmp hdr' b target = keyCmp hdr b target := fun b => by
    funext x
    rw [keyCmp, keyCmp, keycmp_char ht, keycmp_char ht', hl]
  have he : entCmp hdr' cfg.exactOn target = entCmp hdr cfg.exactOn target := by
    funext x
    rw [entCmp, entCmp, hk]
  refine ⟨?_, he⟩
  funext x
  rw [insCmp, insCmp, hk, he]

theorem while_append {α : Type} {p : α → Bool} {A B : List α} (hA : ∀ a ∈ A, p a = true) (hB : ∀ b ∈ B, p b = false) :
    (A ++ B).takeWhile p = A ∧ (A ++ B).dropWhile p = B := by
  rw [List.takeWhile_append_of_pos hA, List.dropWhile_append_of_pos hA]
  cases B with
  | nil => simp
  | cons b B => simp [hB b (by simp)]

/-- Where no split is refused an insertion leaves out duplicates only. -/
theorem Idx.insert_granted (hg : idx.refused = []) : idx.insert cfg k r =
    .ok (if ∃ e ∈ idx.entries, insCmp cfg idx.hdr (Idx.target k r) e = 0 then idx else { idx with entries := idx.inserted cfg k r }) := by
  unfold Idx.insert
  rw [hg]
  split
  · rfl
  · obtain ⟨hdr, keyOf, entries, refused⟩ := idx
    obtain rfl : refused = [] := hg
    rfl

theorem posIs_zero (st : Ndx) : PosIs { st with pageNo := 0 } 0 := by
  unfold PosIs
  rw [if_pos rfl]

/-- What `insert_new` does to the file it does to the entries, unless a split is refused. -/
theorem Shows.insert (cfg : Cfg) (h : Shows idx.hdr st idx.entries) (hg : idx.refused = []) (hr : r ≠ 0) (hl : k.length = idx.hdr.keylen) (h0 : 0 ∉ k)
    (hfuel : idx.entries.length + 2 ≤ fuel) :
    (∃ idx' n st', idx.insert cfg k r = .ok idx' ∧ insertNew cfg fuel (Idx.target k r) st = .ok n st' ∧ Shows idx.hdr st' idx'.entries ∧
      idx'.refused = [] ∧ idx'.entries.length ≤ idx.entries.length + 1) ∨
    (¬Numbered st ∧ ∃ e st', insertNew cfg fuel (Idx.target k r) st = .error (.invalidEntry e) st') := by
  obtain ⟨ot, hlive, hL⟩ := h.live
  have hkt := hlive.paged.keytyp
  have hcmp := (@insCmp_hdr _ cfg _ h.keytyp hkt h.keylen (Idx.target k r)).1
  have hdup := @insCmp_zero _ (Idx.target k r) _ cfg hkt (hl.trans h.keylen.symm) (tail_no_nul h0) hlive.paged.keylen
  rw [hcmp] at hdup
  rw [Idx.insert_granted hg]
  rcases @LiveIndex.insert _ fuel (Idx.target k r) _ cfg hlive h.norecpp hr rfl (hl.trans h.keylen.symm) h0 (by rw [hL]; exact hfuel) with
    ⟨hd, hrun⟩ | ⟨hc, hrun⟩ | ⟨hd, st', t', hrun, hlive', hhdr, -, A, B, hAB, ht', hA, hB⟩
  · have hex := hdup.2 hd
    rw [hL] at hex
    rw [if_pos hex]
    exact Or.inl ⟨idx, 0, st, rfl, hrun, h, hg, Nat.le_succ _⟩
  · exact Or.inr ⟨fun hn => hn.not_clashIn hlive.paged.index hr hc, hrun⟩
  · have hno : ¬∃ e ∈ idx.entries, insCmp cfg idx.hdr (Idx.target k r) e = 0 := by
      rw [← hL]
      exact fun h => hd (hdup.1 h)
    rw [hcmp] at hA hB
    obtain ⟨h1, h2⟩ := while_append (p := fun e => decide (0 < insCmp cfg idx.hdr (Idx.target k r) e)) (A := A) (B := B)
      (fun a ha => decide_eq_true (hA a ha)) fun b hb => decide_eq_false (not_lt.2 (hB b hb).le)
    have hent : t'.entries = idx.inserted cfg k r := by
      rw [Idx.inserted, ← hL, hAB, h1, h2]
      exact ht'
    have hp := Idx.inserted_perm cfg k r idx
    rw [if_neg hno]
    refine Or.inl ⟨_, 1, st', rfl, hrun, ⟨⟨some t', hlive', hent⟩, h.keytyp, by rw [hhdr]; exact h.keylen, by rw [hhdr]; exact h.norecpp, ?_⟩, hg, hp.length_eq.le⟩
    intro e he
    rcases List.mem_cons.1 (hp.subset he) with rfl | he
    · exact hr
    · exact h.recno e he

/-- In an index with keys of full length, the entry that is meant is that of the key and the record. -/
theorem Shows.entCmp_zero (cfg : Cfg) (h : Shows idx.hdr st idx.entries) (hl : k.length = idx.hdr.keylen) (h0 : 0 ∉ k) {e : Ent} (he : e ∈ idx.entries) :
    entCmp idx.hdr cfg.exactOn (Idx.target k r) e = 0 ↔ e = ⟨k, r⟩ := by
  obtain ⟨ot, hlive, hL⟩ := h.live
  have hkt := hlive.paged.keytyp
  rw [← hL] at he
  rw [← (@insCmp_hdr _ cfg _ h.keytyp hkt h.keylen (Idx.target k r)).2,
    entCmp_char hkt (show (Idx.target k r).key.length = st.hdr.keylen from hl.trans h.keylen.symm) (tail_no_nul h0) (hlive.paged.keylen e he), cmpOrd_zero]
  exact ⟨fun h => (Ent.rank_inj h).symm, fun h => h ▸ rfl⟩

/-- What the removal of an entry does to the file it does to the entries. -/
theorem Shows.remove (cfg : Cfg) (h : Shows idx.hdr st idx.entries) (hl : k.length = idx.hdr.keylen) (h0 : 0 ∉ k) (hfuel : idx.entries.length + 2 ≤ fuel) :
    (∃ idx' st', idx.remove cfg k r = .ok idx' ∧ removeOld cfg fuel (Idx.target k r) st = .ok () st' ∧ Shows idx.hdr st' idx'.entries ∧
      idx'.refused = idx.refused ∧ idx'.entries.length ≤ idx.entries.length) ∨
    (idx.remove cfg k r = .error .index ∧ ∃ e, removeOld cfg fuel (Idx.target k r) st = .error (.ntndx e) st) := by
  have hzero := @Shows.entCmp_zero _ r _ _ cfg h hl h0
  obtain ⟨ot, hlive, hL⟩ := h.live
  have hl' : (Idx.target k r).key.length = st.hdr.keylen := hl.trans h.keylen.symm
  rcases @LiveIndex.remove _ fuel (Idx.target k r) _ cfg hlive rfl hl' h0 (by rw [hL]; exact hfuel) with
    ⟨A, B, st', ot', hrun, hlive', hbefore, hafter, hhdr, -⟩ | ⟨hno, hrun⟩
  · rw [hL] at hbefore
    have hm : (Idx.target k r).ent ∈ idx.entries := by rw [hbefore]; simp
    have hex : ∃ e ∈ idx.entries, entCmp idx.hdr cfg.exactOn (Idx.target k r) e = 0 := ⟨_, hm, (hzero hm).2 rfl⟩
    have hA : ∀ a ∈ A, ¬entCmp idx.hdr cfg.exactOn (Idx.target k r) a = 0 := by
      intro a ha hz
      have heq := (hzero (e := a) (by rw [hbefore]; simp [ha])).1 hz
      have hs := hlive.paged.sorted
      rw [hL, hbefore] at hs
      have := (List.pairwise_append.1 hs).2.2 a ha _ List.mem_cons_self
      rw [heq] at this
      exact lt_irrefl _ this
    have herase : idx.entries.eraseP (fun e => decide (entCmp idx.hdr cfg.exactOn (Idx.target k r) e = 0)) = A ++ B := by
      rw [hbefore, List.eraseP_append_right _ (fun a ha => by simpa using hA a ha), List.eraseP_cons_of_pos (by simpa using (hzero hm).2 rfl)]
    refine Or.inl ⟨{ idx with entries := A ++ B }, st', ?_, hrun, ⟨⟨ot', hlive', hafter⟩, h.keytyp, by rw [hhdr]; exact h.keylen,
      by rw [hhdr]; exact h.norecpp, fun e he => h.recno e ?_⟩, rfl, ?_⟩
    · rw [Idx.remove, if_pos hex, herase]
    · rw [hbefore]
      rcases List.mem_append.1 he with he | he
      · exact List.mem_append_left _ he
      · exact List.mem_append_right _ (List.mem_cons_of_mem _ he)
    · rw [hbefore]
      simp
  · refine Or.inr ⟨?_, st.seq, hrun⟩
    rw [hL] at hno
    rw [Idx.remove, if_neg]
    rintro ⟨e, he, hz⟩
    have heq := (hzero he).1 hz
    rw [heq] at he
    exact hno he

/-- The header is on its page. -/
structure Settled (st : Ndx) : Prop where
  hdrPage : st.hdrPage = st.hdr
  wHdr : st.wHdr = false

/-- Reading a header that is on its page changes nothing. -/
theorem Settled.read (h : Settled st) : rereadHdr cfg st = .ok () st := by
  unfold rereadHdr
  split
  · rfl
  · have hp := h.hdrPage
    cases st
    dsimp only at hp
    subst hp
    rfl

theorem Settled.flush_eq (h : Settled st) : flushHdr st = .ok () st := by
  rw [flushHdr, NdxM.bind_ok (NdxM.get_apply st), if_neg (Bool.eq_false_iff.1 h.wHdr)]
  rfl

/-- At the end of an update the header is on its page. -/
theorem Shows.flush (h : Shows hdr st L) : ∃ st', flushHdr st = .ok () st' ∧ Shows hdr st' L ∧ Settled st' := by
  obtain ⟨ot, hlive, hL⟩ := h.live
  rw [flushHdr, NdxM.bind_ok (NdxM.get_apply st)]
  by_cases hw : st.wHdr = true
  · rw [if_pos hw]
    have hkt : st.hdr.keytyp &&& 0x7f = st.hdr.keytyp := by rw [hlive.paged.keytyp]; rfl
    refine ⟨{ st with hdrPage := st.hdr, wHdr := false }, ?_,
      ⟨⟨ot, ⟨hlive.paged.congr rfl rfl, hlive.live, Or.inl rfl⟩, hL⟩, h.keytyp, h.keylen, h.norecpp, h.recno⟩, rfl, rfl⟩
    simp only [writeNdxHdr, NdxM.bind_apply, NdxM.modify_apply, hkt]
  · rw [if_neg hw]
    exact ⟨st, rfl, h, hlive.sync.resolve_right hw, Bool.eq_false_iff.2 hw⟩

/-- Keys that `ndx_get_key` gives: of full length, without a NUL byte. -/
def KeyFits (hdr : NdxHdr) (o : Option Key) : Prop := ∀ k, o = some k → k.length = hdr.keylen ∧ 0 ∉ k

/-- How an update of the file ends, beside the update of its entries: as that does, or with a refused split. -/
inductive UpdEnds (st : Ndx) (idx : Idx) (chg : Bool) (res : Except DbErr Idx) : EStateM.Result HbErr Ndx Bool → Prop
  | ok {idx' : Idx} {st' : Ndx} (hres : res = .ok idx') (hs : Shows idx.hdr st' idx'.entries) (hset : Settled st') (hg : idx'.refused = [])
      (hsame : chg = false → st' = st) (hlen : idx'.entries.length ≤ idx.entries.length + 1) : UpdEnds st idx chg res (.ok chg st')
  | ntndx {st' : Ndx} {e : Int} (hres : res = .error .index) : UpdEnds st idx chg res (.error (.ntndx e) st')
  | refused {st' : Ndx} {e : Int} : UpdEnds st idx chg res (.error (.invalidEntry e) st')

/-- `remove_old_insert_new` for the old and the new key of a record. -/
theorem removeOldInsertNew_cases (cfg : Cfg) (h : Shows idx.hdr st idx.entries) (hg : idx.refused = []) (hr : r ≠ 0) {old new : Option Key}
    (hold : KeyFits idx.hdr old) (hnew : KeyFits idx.hdr new) (hfuel : idx.entries.length + 2 ≤ fuel) :
    (∃ idx' st', idx.replace cfg r old new = .ok idx' ∧
      removeOldInsertNew cfg fuel (old.map (Idx.target · r)) (new.map (Idx.target · r)) st = .ok (if idx.changes cfg true old new then 1 else 0) st' ∧
      Shows idx.hdr st' idx'.entries ∧ idx'.refused = [] ∧ (idx.changes cfg true old new = false → st' = st) ∧
      idx'.entries.length ≤ idx.entries.length + 1) ∨
    (idx.replace cfg r old new = .error .index ∧
      ∃ e st', removeOldInsertNew cfg fuel (old.map (Idx.target · r)) (new.map (Idx.target · r)) st = .error (.ntndx e) st') ∨
    ∃ e st', removeOldInsertNew cfg fuel (old.map (Idx.target · r)) (new.map (Idx.target · r)) st = .error (.invalidEntry e) st' := by
  obtain ⟨ot, hlive, hL⟩ := h.live
  cases old with
  | none =>
    cases new with
    | none => exact Or.inl ⟨idx, st, rfl, rfl, h, hg, fun _ => rfl, Nat.le_succ _⟩
    | some b =>
      obtain ⟨hl, h0⟩ := hnew b rfl
      rcases h.insert cfg hg hr hl h0 hfuel with ⟨idx', n, st', habs, hrun, hs, hg', hlen⟩ | ⟨-, e, st', hrun⟩
      · refine Or.inl ⟨idx', st', habs, ?_, hs, hg', fun h => (nomatch h), hlen⟩
        rw [Option.map_none, Option.map_some, removeOldInsertNew, NdxM.bind_ok hrun]
        rfl
      · refine Or.inr (Or.inr ⟨e, st', ?_⟩)
        rw [Option.map_none, Option.map_some, removeOldInsertNew, NdxM.bind_error hrun]
  | some a =>
    obtain ⟨hla, h0a⟩ := hold a rfl
    cases new with
    | none =>
      rcases h.remove (r := r) cfg hla h0a hfuel with ⟨idx', st', habs, hrun, hs, hg', hlen⟩ | ⟨habs, e, hrun⟩
      · refine Or.inl ⟨idx', st', habs, ?_, hs, hg'.trans hg, fun h => (nomatch h), by omega⟩
        rw [Option.map_none, Option.map_some, removeOldInsertNew, NdxM.bind_ok hrun]
        rfl
      · refine Or.inr (Or.inl ⟨habs, e, st, ?_⟩)
        rw [Option.map_none, Option.map_some, removeOldInsertNew, NdxM.bind_error hrun]
    | some b =>
      obtain ⟨hlb, h0b⟩ := hnew b rfl
      have hkey : keycmp st.hdr cfg.exactOn (Idx.target a r).key (Idx.target b r).key = keycmp idx.hdr cfg.exactOn a b := by
        rw [keycmp_char hlive.paged.keytyp, keycmp_char h.keytyp, h.keylen]
        rfl
      have hchg : idx.changes cfg true (some a) (some b) = decide (keycmp idx.hdr cfg.exactOn a b ≠ 0) := rfl
      rw [hchg, Option.map_some, Option.map_some, removeOldInsertNew, NdxM.bind_ok (NdxM.get_apply st), Idx.replace]
      by_cases hz : keycmp idx.hdr cfg.exactOn a b = 0
      · rw [if_pos hz, if_pos (hkey.trans hz), if_neg (by simpa using hz)]
        exact Or.inl ⟨idx, st, rfl, rfl, h, hg, fun _ => rfl, Nat.le_succ _⟩
      rw [if_neg hz, if_neg fun h0 => hz (hkey.symm.trans h0), if_pos (by simpa using hz)]
      rcases h.remove (r := r) cfg hla h0a hfuel with ⟨i₁, st', habs, hrun, hs, hg', hlen⟩ | ⟨habs, e, hrun⟩
      · obtain ⟨hh, -, -⟩ := Idx.remove_cases habs
        rw [habs, NdxM.bind_ok hrun]
        rw [← hh] at hs
        rcases @Shows.insert _ fuel r b _ cfg hs (hg'.trans hg) hr (by rw [hh]; exact hlb) h0b (by omega) with
          ⟨idx', n, st2, habs2, hrun2, hs2, hg2, hlen2⟩ | ⟨-, e, st2, hrun2⟩
        · refine Or.inl ⟨idx', st2, habs2, ?_, by rw [← hh]; exact hs2, hg2, fun h => absurd h (by simpa using hz), by omega⟩
          rw [NdxM.bind_ok hrun2]
          rfl
        · exact Or.inr (Or.inr ⟨e, st2, NdxM.bind_error hrun2⟩)
      · rw [habs]
        exact Or.inr (Or.inl ⟨rfl, e, st, NdxM.bind_error hrun⟩)

/-- **One update of one index file** goes with the update of its entries. -/
theorem updndxFile_ends (cfg : Cfg) (del : Bool) (h : Shows idx.hdr st idx.entries) (hset : Settled st) (hg : idx.refused = []) (hr : r ≠ 0)
    {old new : Option Key} (hold : KeyFits idx.hdr old) (hnew : KeyFits idx.hdr new) (hfuel : idx.entries.length + 2 ≤ fuel) :
    UpdEnds st idx (idx.changes cfg del old new) (idx.update cfg del r old new) (updndxFile cfg fuel del r old new st) := by
  unfold updndxFile Idx.update
  rw [NdxM.bind_ok hset.read]
  cases del with
  | true =>
    rw [if_pos rfl, if_pos rfl]
    rcases removeOldInsertNew_cases cfg h hg hr hold hnew hfuel with ⟨idx', st', habs, hrun, hs, hg', hsame, hlen⟩ | ⟨habs, e, st', hrun⟩ | ⟨e, st', hrun⟩
    · obtain ⟨st2, hflush, hs2, hset2⟩ := hs.flush
      rw [NdxM.bind_ok hrun, NdxM.bind_ok hflush]
      have hupd : decide ((if idx.changes cfg true old new then (1 : Int) else 0) ≠ 0) = idx.changes cfg true old new := by
        cases idx.changes cfg true old new <;> rfl
      rw [hupd]
      refine .ok habs hs2 hset2 hg' (fun hc => ?_) hlen
      obtain rfl := hsame hc
      rw [hset.flush_eq] at hflush
      cases hflush
      rfl
    · rw [NdxM.bind_error hrun]
      exact .ntndx habs
    · rw [NdxM.bind_error hrun]
      exact .refused
  | false =>
    rw [if_neg Bool.false_ne_true, if_neg Bool.false_ne_true]
    cases new with
    | none => exact .ok rfl h hset hg (fun _ => rfl) (Nat.le_succ _)
    | some k =>
      obtain ⟨hl, h0⟩ := hnew k rfl
      dsimp only
      rcases h.insert cfg hg hr hl h0 hfuel with ⟨idx', n, st', habs, hrun, hs, hg', hlen⟩ | ⟨-, e, st', hrun⟩
      · obtain ⟨st2, hflush, hs2, hset2⟩ := hs.flush
        rw [NdxM.bind_ok hrun, NdxM.bind_ok hflush]
        exact .ok habs hs2 hset2 hg' (fun h => (nomatch h)) hlen
      · rw [NdxM.bind_error hrun]
        exact .refused

theorem Shows.search (h : Shows hdr st L) : ∃ ot, SearchIndex st ot ∧ entriesOf ot = L ∧ heightOf ot ≤ L.length + 1 := by
  obtain ⟨ot, hlive, hL⟩ := h.live
  have hp := hlive.paged
  refine ⟨ot, ⟨hp.index, hp.keytyp, hp.sorted, hp.keylen, fun e he => h.recno e (hL ▸ he), hp.shape⟩, hL, ?_⟩
  rw [← hL]
  exact hlive.height

/-- Where the position is does not matter. -/
theorem Shows.moved (h : Shows hdr st L) (pn : Pageno) (en : Int) : Shows hdr { st with pageNo := pn, entryNo := en } L := by
  obtain ⟨ot, hlive, hL⟩ := h.live
  exact ⟨⟨ot, ⟨hlive.paged.congr rfl rfl, hlive.live, hlive.sync⟩, hL⟩, h.keytyp, h.keylen, h.norecpp, h.recno⟩

theorem goNdx_here (hset : Settled st) (hr : r ≠ 0) (hpos : PosIs st r) (key : Option Key) : goNdx cfg fuel r key st = .ok () st := by
  unfold goNdx
  rw [NdxM.bind_ok hset.read, NdxM.bind_ok (NdxM.get_apply st)]
  unfold PosIs at hpos
  split at hpos
  · exact absurd hpos hr
  · rename_i hpn
    obtain ⟨hlt, i, hi, hle, hrec⟩ := hpos
    dsimp only
    rw [if_pos hpn, NdxM.bind_ok (getpage_ok hlt), NdxM.bind_ok (neGetRecno_ok hi hle), if_pos hrec]
    rfl

theorem goNdx_away (hset : Settled st) (hpos : PosIs st cur) (hne : cur ≠ r) (key : Option Key) :
    goNdx cfg fuel r key st = searchNdx cfg fuel r key st := by
  unfold goNdx
  rw [NdxM.bind_ok hset.read, NdxM.bind_ok (NdxM.get_apply st)]
  unfold PosIs at hpos
  dsimp only
  split at hpos
  · rename_i hpn
    rw [if_neg (not_not.mpr hpn)]
  · rename_i hpn
    obtain ⟨hlt, i, hi, hle, hrec⟩ := hpos
    rw [if_pos hpn, NdxM.bind_ok (getpage_ok hlt), NdxM.bind_ok (neGetRecno_ok hi hle), if_neg (by rw [hrec]; exact hne)]

/-- A slot of a stored tree is on one of its pages. -/
theorem Stored.slot_page {t : Tree} {s : Slot Pageno Ent} (h : Stored st t) (hs : s ∈ t.slots) : s.page ≠ 0 ∧ s.page < st.hdr.pagecnt := by
  induction t using MTree.ind with
  | leaf p es =>
    cases h with
    | leaf h0 hlt hes hps =>
      rw [MTree.slots_leaf] at hs
      obtain ⟨i, hi, rfl⟩ := List.mem_mapIdx.1 hs
      exact ⟨h0, hlt⟩
  | node p ss ks ih =>
    cases h with
    | node h0 hlt hes hps hk =>
      rw [MTree.slots_node] at hs
      obtain ⟨k, hk', hs⟩ := List.mem_flatMap.1 hs
      exact ih k hk' (hk k hk') hs

/-- The search for a record in a file does what the search among the entries does. -/
theorem searchNdx_cases (cfg : Cfg) (h : Shows idx.hdr st idx.entries) (hr : r ≠ 0) (hl : k.length = idx.hdr.keylen) (h0 : 0 ∉ k)
    (hfuel : idx.entries.length + 2 ≤ fuel) :
    ((∃ e ∈ idx.entries, entCmp idx.hdr cfg.exactOn (Idx.target k r) e = 0) ∧
      ∃ pn en, searchNdx cfg fuel r (some k) st = .ok () { st with pageNo := pn, entryNo := en } ∧ PosIs { st with pageNo := pn, entryNo := en } r) ∨
    ((¬∃ e ∈ idx.entries, entCmp idx.hdr cfg.exactOn (Idx.target k r) e = 0) ∧ ∃ e st', searchNdx cfg fuel r (some k) st = .error (.ntndx e) st') := by
  obtain ⟨ot, hsearch, hL, hheight⟩ := h.search
  have hl' : (Idx.target k r).key.length = st.hdr.keylen := hl.trans h.keylen.symm
  have hc : srchCmp st.hdr cfg.exactOn (Idx.target k r) = entCmp idx.hdr cfg.exactOn (Idx.target k r) := by
    rw [← (@insCmp_hdr _ cfg _ h.keytyp hsearch.keytyp h.keylen (Idx.target k r)).2]
    funext x
    exact if_neg hr
  have hf : Falling (srchCmp st.hdr cfg.exactOn (Idx.target k r)) (entriesOf ot) := by
    rw [hc, ← (@insCmp_hdr _ cfg _ h.keytyp hsearch.keytyp h.keylen (Idx.target k r)).2]
    exact falling_entCmp hsearch.keytyp hl' (tail_no_nul h0) hsearch.keylen hsearch.sorted
  have hrun := @btsrch_index _ cfg fuel .tequal (Idx.target k r) _ hsearch hf (by simp) (by simp) (by omega)
  have hslot : srchSlot .tequal (srchCmp st.hdr cfg.exactOn (Idx.target k r)) (slotsOf ot) =
      (slotsOf ot).find? fun s => decide (entCmp idx.hdr cfg.exactOn (Idx.target k r) s.ent = 0) := by
    rw [← List.head?_filter, ← hc]
    rfl
  rw [hslot] at hrun
  cases hfind : (slotsOf ot).find? fun s => decide (entCmp idx.hdr cfg.exactOn (Idx.target k r) s.ent = 0) with
  | none =>
    rw [hfind] at hrun
    refine Or.inr ⟨?_, st.seq, st, ?_⟩
    · rintro ⟨e, he, hz⟩
      rw [← hL, ← map_ent_slotsOf] at he
      obtain ⟨s, hs, rfl⟩ := List.mem_map.1 he
      exact List.find?_eq_none.1 hfind s hs (decide_eq_true hz)
    · rw [searchNdx, NdxM.bind_ok (NdxM.get_apply st), NdxM.bind_ok (show _ = EStateM.Result.ok 0 st from hrun)]
      rfl
  | some s =>
    rw [hfind] at hrun
    have hs := List.mem_of_find?_eq_some hfind
    have hz : entCmp idx.hdr cfg.exactOn (Idx.target k r) s.ent = 0 := by simpa using List.find?_some hfind
    have hent : s.ent ∈ idx.entries := by
      rw [← hL, ← map_ent_slotsOf]
      exact List.mem_map_of_mem hs
    have hrec : s.ent.recno = r := Idx.recno_of_entCmp hz
    refine Or.inl ⟨⟨s.ent, hent, hz⟩, s.page, s.idx, ?_, ?_⟩
    · rw [searchNdx, NdxM.bind_ok (NdxM.get_apply st), NdxM.bind_ok (show _ = EStateM.Result.ok s.ent.recno { st with pageNo := s.page, entryNo := s.idx } from hrun), hrec, if_neg hr]
      rfl
    · cases hix : hsearch.index with
      | none => simp [slotsOf] at hs
      | @some t hroot hst =>
        obtain ⟨hp0, hplt⟩ := hst.slot_page hs
        obtain ⟨hilt, hie⟩ := hst.slot hs
        unfold PosIs
        rw [if_neg hp0]
        refine ⟨hplt, s.idx, rfl, hilt.le, ?_⟩
        rw [← hrec, ← hie]
        rfl

end Shows

/-! ## The indexes of a table -/

/-- A file and the entries it holds, with nothing left to write; a split that is refused is seen on the pages only. -/
structure Beside (f : OpenNdx) (idx : Idx) : Prop where
  keyOf : f.keyOf = idx.keyOf
  shows : Shows idx.hdr f.st idx.entries
  settled : Settled f.st
  fits : ∀ rec, KeyFits idx.hdr (idx.keyOf rec)
  granted : idx.refused = []

/-- The open files and their entries, and the position in the controlling index. -/
structure AllBeside (fs : List OpenNdx) (s : Indexes) : Prop where
  ixs : List.Forall₂ Beside fs s.ixs
  pos : ∀ f, fs[s.order]? = some f → PosIs f.st s.cur

section Run

variable {cfg : Cfg} {fuel : Nat} {hidden : Nat → List UInt8 → Bool} {fs fs' : List OpenNdx} {idxs idxs' : List Idx} {s : Indexes} {r : Recno}
  {old new : List UInt8} {tof del eof : Bool} {n : Nat} {op : UpdOp} {ops : List UpdOp}

/-- An update of an index that succeeds keeps its head and the keys of records. -/
theorem Idx.update_frame {a b : Option Key} {idx idx' : Idx} (h : idx.update cfg del r a b = .ok idx') : idx'.hdr = idx.hdr ∧ idx'.keyOf = idx.keyOf := by
  unfold Idx.update at h
  split at h
  · obtain ⟨h1, h2, -⟩ := Idx.replace_frame h
    exact ⟨h1, h2⟩
  · split at h
    · obtain rfl := Except.ok.inj h
      exact ⟨rfl, rfl⟩
    · exact Idx.insert_frame h

theorem updndxLoop_cons (ix : Idx) (ixs : List Idx) : updndxLoop cfg tof del r old new eof (ix :: ixs) =
    (ix.update cfg del r (ix.keyAt (eof || tof) old) (ix.keyAt (eof || tof) new)).bind fun ix' =>
      (updndxLoop cfg tof del r old new (eof && !(ix.changes cfg del (ix.keyAt (eof || tof) old) (ix.keyAt (eof || tof) new) &&
        (ix.keyAt (eof || tof) new).isSome)) ixs).map
          fun rest => (ix.changes cfg del (ix.keyAt (eof || tof) old) (ix.keyAt (eof || tof) new), ix') :: rest := by
  rfl

/-- How the loop over the indexes ends. -/
theorem updndxFiles_cases (cfg : Cfg) (tof del : Bool) (old new : List UInt8) (h : List.Forall₂ Beside fs idxs) (hr : r ≠ 0)
    (hlen : ∀ idx ∈ idxs, idx.entries.length ≤ n) (hfuel : n + 2 ≤ fuel) :
    (∃ res fs', updndxFiles cfg fuel tof del r old new eof fs = .ok (res.map Prod.fst) fs' ∧ updndxLoop cfg tof del r old new eof idxs = .ok res ∧
      List.Forall₂ Beside fs' (res.map Prod.snd) ∧ (∀ idx ∈ res.map Prod.snd, idx.entries.length ≤ n + 1) ∧
      ∀ i, (res.map Prod.fst).getD i false = false → fs'[i]? = fs[i]?) ∨
    (∃ e fs', updndxFiles cfg fuel tof del r old new eof fs = .error (.ntndx e) fs' ∧ updndxLoop cfg tof del r old new eof idxs = .error .index) ∨
    ∃ e fs', updndxFiles cfg fuel tof del r old new eof fs = .error (.invalidEntry e) fs' := by
  induction h generalizing eof with
  | nil => exact Or.inl ⟨[], [], rfl, rfl, .nil, by simp, fun _ _ => rfl⟩
  | @cons f idx fs idxs hb hrest ih =>
    have hl := hlen idx (by simp)
    have hkeyAt : ∀ e data, f.keyAt e data = idx.keyAt e data := fun e data => by rw [OpenNdx.keyAt, Idx.keyAt, hb.keyOf]
    have hend := @updndxFile_ends _ fuel _ _ cfg del hb.shows hb.settled hb.granted hr (idx.keyAt (eof || tof) old) (idx.keyAt (eof || tof) new)
      (hb.fits _) (hb.fits _) (by omega)
    rw [updndxFiles, updndxLoop_cons, hkeyAt, hkeyAt]
    generalize hchg : idx.changes cfg del (idx.keyAt (eof || tof) old) (idx.keyAt (eof || tof) new) = chg at hend ⊢
    generalize updndxFile cfg fuel del r (idx.keyAt (eof || tof) old) (idx.keyAt (eof || tof) new) f.st = ends at hend
    cases hend with
    | ntndx hres => exact Or.inr (Or.inl ⟨_, _, rfl, by rw [hres]; rfl⟩)
    | refused => exact Or.inr (Or.inr ⟨_, _, rfl⟩)
    | @ok idx' st' hres hs hset hg hsame hle =>
      obtain ⟨hhdr, hkey⟩ := Idx.update_frame hres
      have hb' : Beside { f with st := st' } idx' := ⟨hb.keyOf.trans hkey.symm, by rw [hhdr]; exact hs, hset, by rw [hhdr, hkey]; exact hb.fits, hg⟩
      rw [hres]
      dsimp only
      rcases @ih (eof && !(chg && (idx.keyAt (eof || tof) new).isSome)) fun i hi => hlen i (by simp [hi]) with
        ⟨res, fs', hrun, habs, hrel, hlen', hkeep⟩ | ⟨e, fs', hrun, habs⟩ | ⟨e, fs', hrun⟩
      · refine Or.inl ⟨(chg, idx') :: res, { f with st := st' } :: fs', by rw [hrun]; rfl, by rw [Except.bind, habs]; rfl, .cons hb' hrel, fun i hi => ?_, fun i hi => ?_⟩
        · rcases List.mem_cons.1 hi with rfl | hi
          · omega
          · exact hlen' i hi
        · cases i with
          | zero =>
            obtain rfl := hsame hi
            rfl
          | succ i => exact hkeep i hi
      · exact Or.inr (Or.inl ⟨e, _, by rw [hrun], by rw [Except.bind, habs]; rfl⟩)
      · exact Or.inr (Or.inr ⟨e, _, by rw [hrun]⟩)

/-- The position of an index does not matter. -/
theorem Beside.moved {f : OpenNdx} {idx : Idx} (h : Beside f idx) (pn : Pageno) (en : Int) : Beside { f with st := { f.st with pageNo := pn, entryNo := en } } idx :=
  ⟨h.keyOf, h.shows.moved pn en, ⟨h.settled.hdrPage, h.settled.wHdr⟩, h.fits, h.granted⟩

theorem forall₂_modify {α β : Type} {R : α → β → Prop} {g : α → α} (hg : ∀ a b, R a b → R (g a) b) {l : List α} {m : List β} (h : List.Forall₂ R l m)
    (i : Nat) : List.Forall₂ R (l.modify i g) m := by
  induction h generalizing i with
  | nil => rw [List.modify_nil]; exact .nil
  | cons hab hrest ih =>
    cases i with
    | zero => exact .cons (hg _ _ hab) hrest
    | succ i => exact .cons hab (ih i)

theorem forall₂_set {α β : Type} {R : α → β → Prop} {l : List α} {m : List β} (h : List.Forall₂ R l m) {i : Nat} {a : α} {b : β} (hb : m[i]? = some b)
    (hab : R a b) : List.Forall₂ R (l.set i a) m := by
  induction h generalizing i with
  | nil => cases hb
  | cons hxy hrest ih =>
    cases i with
    | zero =>
      obtain rfl := Option.some.inj hb
      exact .cons hab hrest
    | succ i => exact .cons hxy (ih hb)

/-- After the loop the position in the controlling index is given up, if that has changed. -/
theorem updndxDone_beside {res : List (Bool × Idx)} (hpos : ∀ f, fs[s.order]? = some f → PosIs f.st s.cur) (h : List.Forall₂ Beside fs' (res.map Prod.snd))
    (hkeep : ∀ i, (res.map Prod.fst).getD i false = false → fs'[i]? = fs[i]?) : AllBeside (updndxDone s.order (res.map Prod.fst) fs') (s.after res) := by
  unfold updndxDone Indexes.after
  by_cases hupd : (res.map Prod.fst).getD s.order false = true
  · rw [if_pos hupd, if_pos hupd]
    refine ⟨forall₂_modify (fun f _ hb => hb.moved 0 f.st.entryNo) h _, fun f hf => ?_⟩
    rw [List.getElem?_modify_eq, Option.map_eq_map, Option.map_eq_some_iff] at hf
    obtain ⟨f', -, rfl⟩ := hf
    exact posIs_zero _
  · rw [if_neg hupd, if_neg hupd]
    refine ⟨h, fun f hf => hpos f ?_⟩
    rw [← hkeep _ (Bool.eq_false_iff.2 hupd)]
    exact hf

/-- The search of `go` in the files does what the search among the entries does. -/
theorem goFiles_cases (cfg : Cfg) (data : List UInt8) (h : AllBeside fs s) (hr : r ≠ 0) (hlen : ∀ idx ∈ s.ixs, idx.entries.length ≤ n) (hfuel : n + 2 ≤ fuel) :
    (∃ fs' s', goFiles cfg fuel s.order r data fs = .ok () fs' ∧ s.locate cfg r data = .ok s' ∧ AllBeside fs' s') ∨
    (∃ e fs', goFiles cfg fuel s.order r data fs = .error (.ntndx e) fs' ∧ s.locate cfg r data = .error .index) := by
  unfold goFiles Indexes.locate
  cases hf : fs[s.order]? with
  | none =>
    have hix : s.ixs[s.order]? = none := by
      rw [List.getElem?_eq_none_iff] at hf ⊢
      rw [← h.ixs.length_eq]
      exact hf
    rw [hix]
    dsimp only
    rw [ite_self]
    exact Or.inl ⟨fs, s, rfl, rfl, h⟩
  | some f =>
    obtain ⟨idx, hix, hb⟩ := forall₂_getElem? h.ixs.flip hf
    have hl := hlen idx (List.mem_of_getElem? hix)
    have hpos := h.pos f hf
    have hsame : fs.set s.order f = fs := by
      obtain ⟨hlt, rfl⟩ := List.getElem?_eq_some_iff.1 hf
      exact List.set_getElem_self hlt
    rw [hix]
    dsimp only
    by_cases hcur : s.cur = r
    · rw [if_pos hcur, goNdx_here hb.settled hr (hcur ▸ hpos)]
      exact Or.inl ⟨fs, s, congrArg (EStateM.Result.ok ()) hsame, rfl, h⟩
    have hkey : f.keyOf data = idx.keyOf data := by rw [hb.keyOf]
    rw [if_neg hcur, goNdx_away hb.settled hpos hcur, hkey]
    cases hk : idx.keyOf data with
    | none => exact Or.inl ⟨fs, s, congrArg (EStateM.Result.ok ()) hsame, rfl, h⟩
    | some k =>
      obtain ⟨hkl, hk0⟩ := hb.fits data k hk
      dsimp only
      rcases @searchNdx_cases _ fuel r k idx cfg hb.shows hr hkl hk0 (by omega) with ⟨hex, pn, en, hrun, hpos'⟩ | ⟨hno, e, st', hrun⟩
      · rw [if_pos hex, hrun]
        refine Or.inl ⟨_, _, rfl, rfl, ?_, fun g hg => ?_⟩
        · exact forall₂_set h.ixs hix (hb.moved pn en)
        · obtain ⟨hlt, -⟩ := List.getElem?_eq_some_iff.1 hf
          rw [List.getElem?_set_self hlt] at hg
          obtain rfl := Option.some.inj hg
          exact hpos'
      · rw [if_neg hno, hrun]
        exact Or.inr ⟨e, _, rfl, rfl⟩

end Run

/-- A new index file whose records `B` have the key `B`, and its entries: none. -/
def bFile : OpenNdx := ⟨{ newIndex with wHdr := false }, fun rec => if rec = [0x42] then some [0x42] else none⟩

def bIdx : Idx := ⟨newIndex.hdr, bFile.keyOf, [], []⟩

theorem bFile_beside : Beside bFile bIdx := by
  refine ⟨rfl, ⟨⟨none, ⟨?_, by simp, Or.inl rfl⟩, rfl⟩, rfl, rfl, by decide, by simp [bIdx]⟩, ⟨rfl, rfl⟩, fun rec k hk => ?_, rfl⟩
  · exact ⟨.none rfl, rfl, by decide, by simp [entriesOf], by simp [entriesOf], by simp, by simp, by simp⟩
  · unfold bIdx bFile at hk
    dsimp only at hk
    split at hk
    · obtain ⟨⟩ := hk
      exact ⟨rfl, by decide⟩
    · cases hk

theorem bFiles_beside : AllBeside [bFile] ⟨[bIdx], 0, 0⟩ := by
  refine ⟨.cons bFile_beside .nil, ?_⟩
  rintro _ ⟨⟩
  exact posIs_zero newIndex

/-- Nothing is hidden. -/
def shownAll : Nat → List UInt8 → Bool := fun _ _ => false

/-- The records of a table, and the key an index has for one. -/
abbrev Rows := Recno → Option (List UInt8)

/-- The index has one entry for each record of the table that has a key. -/
structure HoldsTable (rows : Rows) (idx : Idx) : Prop where
  mem : ∀ e, e ∈ idx.entries ↔ (rows e.recno).bind idx.keyOf = some e.key
  nodup : idx.entries.Nodup

/-- The table after an update. -/
def UpdOp.apply (op : UpdOp) (rows : Rows) : Rows := Function.update rows op.r (some op.new)

/-- A new record is not there yet, and the old fields of the others are those of the table; the cursor is on the record. -/
structure UpdOp.Fits (op : UpdOp) (rows : Rows) : Prop where
  eof : op.eof = false
  tof : op.tof = false
  old : if op.del then rows op.r = some op.old else rows op.r = none

section Table

variable {cfg : Cfg} {rows : Rows} {idx : Idx} {r : Recno} {k a b : Key} {op : UpdOp}

theorem HoldsTable.own (h : HoldsTable rows idx) {e : Ent} (he : e ∈ idx.entries) : (rows e.recno).bind idx.keyOf = some e.key := (h.mem e).1 he

/-- Without UNIQUE an entry of a record that has none goes in. -/
theorem insert_holds (hu : cfg.uniqueOn = false) (hg : idx.refused = []) (hnd : idx.entries.Nodup) (hno : ∀ e ∈ idx.entries, e.recno ≠ r) :
    ∃ idx', idx.insert cfg k r = .ok idx' ∧ (∀ e, e ∈ idx'.entries ↔ e = ⟨k, r⟩ ∨ e ∈ idx.entries) ∧ idx'.entries.Nodup := by
  obtain ⟨idx', hrun⟩ : ∃ idx', idx.insert cfg k r = .ok idx' := ⟨_, Idx.insert_granted hg⟩
  have hp := Idx.insert_perm (l := idx.entries) (.refl _) (fun e he hz => by
    rw [insCmp, hu, if_neg Bool.false_ne_true] at hz
    exact hno e he (Idx.recno_of_entCmp hz)) hrun
  refine ⟨idx', hrun, fun e => by rw [hp.mem_iff, List.mem_cons], hp.nodup_iff.2 (List.nodup_cons.2 ⟨fun hm => hno _ hm rfl, hnd⟩)⟩

/-- The entry of a record is taken out. -/
theorem HoldsTable.remove (h : HoldsTable rows idx) (hrefl : keycmp idx.hdr cfg.exactOn a a = 0) (ha : (rows r).bind idx.keyOf = some a) :
    ∃ idx', idx.remove cfg a r = .ok idx' ∧ idx'.keyOf = idx.keyOf ∧ idx'.refused = idx.refused ∧ (∀ e, e ∈ idx'.entries ↔ e ∈ idx.entries ∧ e.recno ≠ r) ∧
      idx'.entries.Nodup := by
  have hm : ⟨a, r⟩ ∈ idx.entries := (h.mem _).2 ha
  have hex : ∃ e ∈ idx.entries, entCmp idx.hdr cfg.exactOn (Idx.target a r) e = 0 := ⟨_, hm, Idx.entCmp_self hrefl⟩
  obtain ⟨idx', hrun, hg⟩ : ∃ idx', idx.remove cfg a r = .ok idx' ∧ idx'.refused = idx.refused := by
    rw [Idx.remove, if_pos hex]
    exact ⟨_, rfl, rfl⟩
  obtain ⟨-, hk, e, L, M, her, hL, hL'⟩ := Idx.remove_cases hrun
  have hnd := h.nodup
  rw [hL] at hnd
  -- it is the only entry of the record
  have huniq : ∀ e' ∈ idx.entries, e'.recno = r → e' = e := by
    intro e' he' hr'
    have h1 := h.own he'
    have h2 := h.own (e := e) (by rw [hL]; simp)
    rw [hr'] at h1
    rw [her, h1] at h2
    cases e
    cases e'
    exact congrArg₂ Ent.mk (Option.some.inj h2) (hr'.trans her.symm)
  refine ⟨idx', hrun, hk, hg, fun e' => ?_, ?_⟩
  · rw [hL', hL]
    constructor
    · intro he'
      have hin : e' ∈ L ++ e :: M := by
        rcases List.mem_append.1 he' with h1 | h1
        · simp [h1]
        · simp [h1]
      refine ⟨hin, fun hr' => ?_⟩
      have := huniq e' (by rw [hL]; exact hin) hr'
      subst this
      rcases List.mem_append.1 he' with h1 | h1
      · exact (List.nodup_append.1 hnd).2.2 _ h1 _ List.mem_cons_self rfl
      · exact (List.nodup_cons.1 (List.nodup_append.1 hnd).2.1).1 h1
    · rintro ⟨he', hr'⟩
      rcases List.mem_append.1 he' with h1 | h1
      · exact List.mem_append_left _ h1
      · rcases List.mem_cons.1 h1 with rfl | h1
        · exact absurd her hr'
        · exact List.mem_append_right _ h1
  · rw [hL']
    exact hnd.sublist (List.Sublist.append_left (List.sublist_cons_self e M) L)

/-- The keys of the other records stay. -/
theorem apply_other {r' : Recno} (h : r' ≠ op.r) : op.apply rows r' = rows r' := Function.update_of_ne h _ _

theorem apply_own : op.apply rows op.r = some op.new := Function.update_self _ _ _

theorem keycmp_fits {hdr : NdxHdr} (ht : hdr.keytyp = 0) (exactOn : Bool) {a b : Key} (ha : KeyFits hdr (some a)) (hb : KeyFits hdr (some b)) :
    keycmp hdr exactOn a b = 0 ↔ a = b := by
  rw [keycmp_char ht, skcmp_eq (ha a rfl).1 (hb b rfl).1 (tail_no_nul (ha a rfl).2), cmpOrd_zero, bytes_inj]

/-- The entries after an update: those of the other records, and that of the new key. -/
theorem HoldsTable.of_update (h : HoldsTable rows idx) {idx' : Idx} (hk : idx'.keyOf = idx.keyOf) (hnd : idx'.entries.Nodup)
    (hmem : ∀ e, e ∈ idx'.entries ↔ (e ∈ idx.entries ∧ e.recno ≠ op.r) ∨ (idx.keyOf op.new = some e.key ∧ e.recno = op.r)) : HoldsTable (op.apply rows) idx' := by
  refine ⟨fun e => ?_, hnd⟩
  rw [hmem, hk, h.mem]
  by_cases hr : e.recno = op.r
  · rw [hr, apply_own]
    simp
  · rw [apply_other hr]
    simp [hr]

/-- Without UNIQUE, an update that fits brings the entries up to date. -/
theorem HoldsTable.update (h : HoldsTable rows idx) (hu : cfg.uniqueOn = false) (ht : idx.hdr.keytyp = 0) (hfits : ∀ rec, KeyFits idx.hdr (idx.keyOf rec))
    (hg : idx.refused = []) (hop : op.Fits rows) :
    ∃ idx', idx.update cfg op.del op.r (idx.keyOf op.old) (idx.keyOf op.new) = .ok idx' ∧ HoldsTable (op.apply rows) idx' := by
  have hop := hop.old
  have hnoown : (rows op.r).bind idx.keyOf = none → ∀ e ∈ idx.entries, e.recno ≠ op.r := by
    intro hnone e he hr
    have := h.own he
    rw [hr, hnone] at this
    cases this
  have hsame : (∀ e ∈ idx.entries, e.recno ≠ op.r) → idx.keyOf op.new = none → HoldsTable (op.apply rows) idx := by
    intro hno hnew
    refine h.of_update rfl h.nodup fun e => ?_
    rw [hnew]
    simp only [reduceCtorEq, false_and, or_false]
    exact ⟨fun he => ⟨he, hno e he⟩, And.left⟩
  have hins : ∀ (k : Key) (j : Idx), j.keyOf = idx.keyOf → j.refused = [] → j.entries.Nodup → (∀ e, e ∈ j.entries ↔ e ∈ idx.entries ∧ e.recno ≠ op.r) →
      idx.keyOf op.new = some k → ∃ idx', j.insert cfg k op.r = .ok idx' ∧ HoldsTable (op.apply rows) idx' := by
    intro k j hjk hjg hjnd hj hnew
    obtain ⟨idx', hrun, hm, hnd⟩ := insert_holds (k := k) hu hjg hjnd fun e he => ((hj e).1 he).2
    refine ⟨idx', hrun, h.of_update ((Idx.insert_frame hrun).2.trans hjk) hnd fun e => ?_⟩
    rw [hm, hj, hnew]
    constructor
    · rintro (rfl | he)
      · exact Or.inr ⟨rfl, rfl⟩
      · exact Or.inl he
    · rintro (he | ⟨hk, hr⟩)
      · exact Or.inr he
      · cases e
        obtain rfl := Option.some.inj hk
        exact Or.inl (congrArg _ hr)
  have hself : (∀ e ∈ idx.entries, e.recno ≠ op.r) → ∀ e, e ∈ idx.entries ↔ e ∈ idx.entries ∧ e.recno ≠ op.r :=
    fun hno e => ⟨fun he => ⟨he, hno e he⟩, And.left⟩
  unfold Idx.update
  cases hdel : op.del with
  | false =>
    rw [hdel, if_neg Bool.false_ne_true] at hop
    have hno := hnoown (by rw [hop]; rfl)
    rw [if_neg Bool.false_ne_true]
    cases hnew : idx.keyOf op.new with
    | none => exact ⟨idx, rfl, hsame hno hnew⟩
    | some k => exact hins k idx rfl hg h.nodup (hself hno) hnew
  | true =>
    rw [hdel, if_pos rfl] at hop
    have hkey : (rows op.r).bind idx.keyOf = idx.keyOf op.old := by rw [hop]; rfl
    rw [if_pos rfl]
    cases hold : idx.keyOf op.old with
    | none =>
      have hno := hnoown (hkey.trans hold)
      cases hnew : idx.keyOf op.new with
      | none => exact ⟨idx, rfl, hsame hno hnew⟩
      | some k => exact hins k idx rfl hg h.nodup (hself hno) hnew
    | some a =>
      have ha : KeyFits idx.hdr (some a) := hold ▸ hfits op.old
      obtain ⟨j, hrun, hjk, hjg, hj, hjnd⟩ := h.remove ((keycmp_fits ht cfg.exactOn ha ha).2 rfl) (hkey.trans hold)
      cases hnew : idx.keyOf op.new with
      | none =>
        refine ⟨j, hrun, h.of_update hjk hjnd fun e => ?_⟩
        rw [hj, hnew]
        simp
      | some b =>
        have hb : KeyFits idx.hdr (some b) := hnew ▸ hfits op.new
        rw [Idx.replace]
        by_cases hz : keycmp idx.hdr cfg.exactOn a b = 0
        · -- the key stays as it is
          obtain rfl := (keycmp_fits ht cfg.exactOn ha hb).1 hz
          rw [if_pos hz]
          refine ⟨idx, rfl, h.of_update rfl h.nodup fun e => ?_⟩
          by_cases hr : e.recno = op.r
          · rw [h.mem, hr, hkey, hold, hnew]
            simp
          · simp [hr]
        · rw [if_neg hz, hrun]
          exact hins b j hjk (hjg.trans hg) hjnd hj hnew

end Table

section Consistent

variable {cfg : Cfg} {fuel : Nat} {hidden : Nat → List UInt8 → Bool} {fs : List OpenNdx} {idxs : List Idx} {s : Indexes} {rows : Rows} {ops : List UpdOp}
  {op : UpdOp} {n : Nat}

/-- An index of characters that no split is refused in. -/
structure CharIdx (idx : Idx) : Prop where
  keytyp : idx.hdr.keytyp = 0
  fits : ∀ rec, KeyFits idx.hdr (idx.keyOf rec)
  granted : idx.refused = []

theorem Beside.charIdx {f : OpenNdx} {idx : Idx} (h : Beside f idx) : CharIdx idx := ⟨h.shows.keytyp, h.fits, h.granted⟩

theorem forall₂_mem {α β : Type} {R : α → β → Prop} {l : List α} {m : List β} (h : List.Forall₂ R l m) {b : β} (hb : b ∈ m) : ∃ a ∈ l, R a b :=
  forall₂_mem_left h.flip hb

/-- A file that holds the entries of a table answers as it does. -/
theorem Beside.answers (cfg : Cfg) {f : OpenNdx} {idx : Idx} (h : Beside f idx) (ht : HoldsTable rows idx) (h0 : rows 0 = none) :
    Answers cfg True (fun r => (rows r).bind f.keyOf) f.st := by
  obtain ⟨ot, hlive, hL⟩ := h.shows.live
  have hof : IndexOf false (fun r => (rows r).bind f.keyOf) (entriesOf ot) := by
    rw [hL, h.keyOf]
    exact ⟨fun e he => ht.own he, fun r key hk => ⟨⟨key, r⟩, (ht.mem _).2 hk, rfl, fun _ => rfl⟩, fun h => by cases h⟩
  refine hof.answers cfg hlive.paged (fun {r key} hk => ?_) fun _ => Or.inl rfl
  rintro rfl
  rw [h0] at hk
  cases hk

end Consistent

section Appends

variable {cfg : Cfg} {fuel : Nat} {hidden : Nat → List UInt8 → Bool} {st st' s : Ndx} {target : NdxEntry} {ot : Option Tree} {idx : Idx}
  {fs fs' : List OpenNdx} {idxs : List Idx} {ops : List UpdOp} {op : UpdOp} {r : Recno} {n : Nat}

theorem Numbered.congr (h : Numbered st) (hh : s.hdr = st.hdr) (hf : s.file = st.file) : Numbered s :=
  ⟨by rw [hh]; exact h.pos, by rw [hh, hf]; exact h.page⟩

/-- `insert_new` keeps that every entry has a record. -/
theorem insertNew_numbered (hn : Numbered st) (hroot : st.hdr.rootno < st.hdr.pagecnt) (h2 : 2 ≤ st.hdr.norecpp)
    (hkt : st.hdr.keytyp &&& 0x7f = st.hdr.keytyp) (hrec : target.recno ≠ 0) (hpno : target.pno = 0) {m : Int} (h : insertNew cfg fuel target st = .ok m st') :
    Numbered st' := by
  rw [insertNew, NdxM.bind_ok (NdxM.get_apply st)] at h
  obtain ⟨⟨rc, target1⟩, s1, hb, h⟩ := bind_eq_ok h
  obtain ⟨hk, hs⟩ := btsrin_numbered hn h2 hkt hrec hpno hroot hb
  dsimp only at h
  split at h
  · obtain ⟨⟩ := h
    exact hk.numbered
  rename_i hne
  have hs := hs (by cases rc <;> simp at hne ⊢)
  split at h
  · -- what was sent up goes to a new root
    rename_i hmore
    have hrec1 : target1.recno ≠ 0 := fun h0 => hmore.elim (fun h => h h0) fun h => h (hs.none h0)
    obtain ⟨u, s2, hr, h⟩ := bind_eq_ok h
    obtain ⟨⟩ := h
    rw [newRoot_eq] at hr
    obtain ⟨u, s3, hput, hsave⟩ := bind_eq_ok hr
    obtain ⟨hns, hhdr⟩ := indexRoot_numbered hk.numbered (by rw [hk.hdr]; exact hroot.trans_le hk.le) (by rw [hk.hdr]; exact one_le_two.trans h2) hrec1 hs.link hput
    obtain ⟨s4, hsave', hh, hf, -⟩ := saveRoot_ok s3 cfg (by rw [hhdr, hk.hdr]; exact hkt)
    obtain rfl : s4 = st' := by simpa [hsave'] using hsave
    exact hns.congr hh hf
  · obtain ⟨⟩ := h
    exact hk.numbered

theorem flushHdr_numbered (hn : Numbered st) (h : flushHdr st = .ok () st') : Numbered st' := by
  rw [flushHdr, NdxM.bind_ok (NdxM.get_apply st)] at h
  split at h
  · obtain ⟨⟩ := h
    exact ⟨hn.pos, hn.page⟩
  · obtain ⟨⟩ := h
    exact hn

theorem goNdx_numbered {key : Option Key} (cfg : Cfg) (h : Shows idx.hdr st idx.entries) (hset : Settled st) (hr : r ≠ 0) {cur : Recno} (hpos : PosIs st cur)
    (hkey : KeyFits idx.hdr key) (hfuel : idx.entries.length + 2 ≤ fuel) (hn : Numbered st) (hrun : goNdx cfg fuel r key st = .ok () st') : Numbered st' := by
  by_cases hcur : cur = r
  · subst hcur
    rw [goNdx_here hset hr hpos] at hrun
    cases hrun
    exact hn
  · rw [goNdx_away hset hpos hcur] at hrun
    cases key with
    | none =>
      cases hrun
      exact hn
    | some k =>
      obtain ⟨hkl, hk0⟩ := hkey k rfl
      rcases @searchNdx_cases _ fuel r k idx cfg h hr hkl hk0 hfuel with ⟨-, pn, en, hgo, -⟩ | ⟨-, e, s', hgo⟩
      · rw [hgo] at hrun
        cases hrun
        exact hn.congr rfl rfl
      · rw [hgo] at hrun
        cases hrun

/-- A new record goes into a file in which every entry has a record. -/
theorem updndxFile_append (cfg : Cfg) (h : Shows idx.hdr st idx.entries) (hset : Settled st) (hg : idx.refused = []) (hn : Numbered st) (hr : r ≠ 0)
    {old new : Option Key} (hnew : KeyFits idx.hdr new) (hfuel : idx.entries.length + 2 ≤ fuel) :
    ∃ upd st', updndxFile cfg fuel false r old new st = .ok upd st' ∧ Numbered st' := by
  obtain ⟨ot, hlive, -⟩ := h.live
  unfold updndxFile
  rw [NdxM.bind_ok hset.read, if_neg Bool.false_ne_true]
  cases new with
  | none => exact ⟨false, st, rfl, hn⟩
  | some k =>
    obtain ⟨hl, h0⟩ := hnew k rfl
    rcases h.insert cfg hg hr hl h0 hfuel with ⟨idx', m, s1, -, hrun, hs, -⟩ | ⟨hno, -⟩
    · obtain ⟨s2, hflush, -⟩ := hs.flush
      dsimp only
      rw [NdxM.bind_ok hrun, NdxM.bind_ok hflush]
      have hkt : st.hdr.keytyp &&& 0x7f = st.hdr.keytyp := by rw [hlive.paged.keytyp]; rfl
      exact ⟨true, s2, rfl, flushHdr_numbered (insertNew_numbered hn (hlive.paged.index.root_lt hlive.paged.pagecnt) h.norecpp hkt hr rfl hrun) hflush⟩
    · exact absurd hn hno

theorem updndxFiles_append (cfg : Cfg) (tof : Bool) (old new : List UInt8) {eof : Bool} (h : List.Forall₂ Beside fs idxs) (hn : ∀ f ∈ fs, Numbered f.st)
    (hr : r ≠ 0) (hlen : ∀ idx ∈ idxs, idx.entries.length ≤ n) (hfuel : n + 2 ≤ fuel) :
    ∃ upds fs', updndxFiles cfg fuel tof false r old new eof fs = .ok upds fs' ∧ ∀ f ∈ fs', Numbered f.st := by
  induction h generalizing eof with
  | nil => exact ⟨[], [], rfl, by simp⟩
  | @cons f idx fs idxs hb hrest ih =>
    have hl := hlen idx (by simp)
    have hfits : KeyFits idx.hdr (f.keyAt (eof || tof) new) := by
      rw [OpenNdx.keyAt, hb.keyOf]
      exact hb.fits _
    obtain ⟨upd, st', hone, hst'⟩ := @updndxFile_append fuel _ _ _ cfg hb.shows hb.settled hb.granted (hn f (by simp)) hr (f.keyAt (eof || tof) old) _ hfits (by omega)
    obtain ⟨upds, fs', hrun, hn'⟩ := @ih (eof && !(upd && (f.keyAt (eof || tof) new).isSome)) (fun f hf => hn f (by simp [hf])) fun i hi => hlen i (by simp [hi])
    refine ⟨upd :: upds, { f with st := st' } :: fs', by simp only [updndxFiles, hone, hrun], ?_⟩
    rintro g hg
    rcases List.mem_cons.1 hg with rfl | hg
    · exact hst'
    · exact hn' g hg

theorem updndxDone_numbered (order : Nat) (upds : List Bool) (hn : ∀ f ∈ fs, Numbered f.st) : ∀ f ∈ updndxDone order upds fs, Numbered f.st := by
  unfold updndxDone
  split
  · intro f hf
    obtain ⟨j, hj, rfl⟩ := List.mem_iff_getElem.1 hf
    rw [List.getElem_modify]
    split
    · exact (hn _ (List.getElem_mem _)).congr rfl rfl
    · exact hn _ (List.getElem_mem _)
  · exact hn

theorem goFiles_numbered {s : Indexes} (cfg : Cfg) (data : List UInt8) (h : AllBeside fs s) (hr : r ≠ 0) (hlen : ∀ idx ∈ s.ixs, idx.entries.length ≤ n)
    (hfuel : n + 2 ≤ fuel) (hn : ∀ f ∈ fs, Numbered f.st) (hrun : goFiles cfg fuel s.order r data fs = .ok () fs') : ∀ f ∈ fs', Numbered f.st := by
  unfold goFiles at hrun
  cases hf : fs[s.order]? with
  | none =>
    rw [hf] at hrun
    cases hrun
    exact hn
  | some f =>
    rw [hf] at hrun
    obtain ⟨idx, hix, hb⟩ := forall₂_getElem? h.ixs.flip hf
    have hl := hlen idx (List.mem_of_getElem? hix)
    have hfits : KeyFits idx.hdr (f.keyOf data) := by
      rw [hb.keyOf]
      exact hb.fits _
    dsimp only at hrun
    cases hgo : goNdx cfg fuel r (f.keyOf data) f.st with
    | error e st' =>
      rw [hgo] at hrun
      cases hrun
    | ok u st' =>
      rw [hgo] at hrun
      cases hrun
      intro g hg
      rcases List.mem_or_eq_of_mem_set hg with hg | rfl
      · exact hn g hg
      · exact goNdx_numbered cfg hb.shows hb.settled hr (h.pos f hf) hfits (by omega) (hn f (List.mem_of_getElem? hf)) hgo

/-- Without UNIQUE the entry of a record that is put in is there. -/
theorem insert_mem (hu : cfg.uniqueOn = false) (hc : CharIdx idx) {k : Key} {idx' : Idx} (hk : KeyFits idx.hdr (some k))
    (h : idx.insert cfg k r = .ok idx') : ∃ e ∈ idx'.entries, entCmp idx.hdr cfg.exactOn (Idx.target k r) e = 0 := by
  rcases Idx.insert_cases h with ⟨⟨e, he, hz⟩, rfl⟩ | ⟨-, rfl⟩
  · refine ⟨e, he, ?_⟩
    rw [insCmp, hu, if_neg Bool.false_ne_true] at hz
    exact hz
  · exact ⟨⟨k, r⟩, (Idx.inserted_perm cfg k r idx).symm.subset List.mem_cons_self, Idx.entCmp_self ((keycmp_fits hc.keytyp cfg.exactOn hk hk).2 rfl)⟩

/-- Without UNIQUE every index has the entry of a record that was added. -/
theorem updndxLoop_added (hu : cfg.uniqueOn = false) {old new : List UInt8} {res : List (Bool × Idx)} (hc : ∀ idx ∈ idxs, CharIdx idx)
    (h : updndxLoop cfg false false r old new false idxs = .ok res) :
    ∀ idx ∈ res.map Prod.snd, ∀ k, idx.keyOf new = some k → ∃ e ∈ idx.entries, entCmp idx.hdr cfg.exactOn (Idx.target k r) e = 0 := by
  induction idxs generalizing res with
  | nil =>
    obtain rfl := Except.ok.inj h
    simp
  | cons ix ixs ih =>
    have hat : ∀ data, ix.keyAt (false || false) data = ix.keyOf data := fun _ => rfl
    rw [updndxLoop_cons, hat, hat, Bool.false_and] at h
    have hcx := hc ix (by simp)
    cases hone : ix.update cfg false r (ix.keyOf old) (ix.keyOf new) with
    | error e =>
      rw [hone] at h
      cases h
    | ok ix' =>
      rw [hone, Except.bind] at h
      cases hrest : updndxLoop cfg false false r old new false ixs with
      | error e =>
        rw [hrest] at h
        cases h
      | ok rest =>
        rw [hrest] at h
        obtain rfl := Except.ok.inj h
        intro idx hidx k hk
        rcases List.mem_cons.1 hidx with rfl | hidx
        · obtain ⟨hhdr, hkey⟩ := Idx.update_frame hone
          have hk' : ix.keyOf new = some k := by rw [← hkey]; exact hk
          rw [hk'] at hone
          rw [hhdr]
          exact insert_mem hu hcx (hk' ▸ hcx.fits new) hone
        · exact ih (fun i hi => hc i (by simp [hi])) hrest idx hidx k hk

/-- A call of `updndx` for a new record. -/
theorem updndxCall_append {s : Indexes} (cfg : Cfg) (hidden : Nat → List UInt8 → Bool) (h : AllBeside fs s) (hn : ∀ f ∈ fs, Numbered f.st)
    (heof : op.eof = false) (htof : op.tof = false) (hdel : op.del = false) (hr : op.r ≠ 0) (hlen : ∀ idx ∈ s.ixs, idx.entries.length ≤ n)
    (hfuel : n + 3 ≤ fuel) :
    (∃ fs' s', updndxCall cfg fuel s.order hidden op fs = .ok () fs' ∧
      reindex (updndx cfg hidden) op.eof op.tof op.del op.r op.old op.new s = .ok s' ∧ AllBeside fs' s' ∧ s'.order = s.order ∧
      (∀ idx ∈ s'.ixs, idx.entries.length ≤ n + 1) ∧ ∀ f ∈ fs', Numbered f.st) ∨
    (cfg.uniqueOn = true ∧ ∃ e fs', updndxCall cfg fuel s.order hidden op fs = .error (.ntndx e) fs' ∧
      reindex (updndx cfg hidden) op.eof op.tof op.del op.r op.old op.new s = .error .index) := by
  obtain ⟨upds, fs₁, hrun, hn₁⟩ := @updndxFiles_append fuel _ _ _ n cfg op.tof op.old op.new op.eof h.ixs hn hr hlen (by omega)
  rw [← hdel] at hrun
  rcases @updndxFiles_cases fuel _ _ _ op.eof n cfg op.tof op.del op.old op.new h.ixs hr hlen (by omega) with
    ⟨res, fs₂, hrun₂, habs, hrel, hlen', hkeep⟩ | ⟨e, fs₂, hrun₂, -⟩ | ⟨e, fs₂, hrun₂⟩
  · obtain ⟨rfl, rfl⟩ : upds = res.map Prod.fst ∧ fs₁ = fs₂ := by
      rw [hrun] at hrun₂
      cases hrun₂
      exact ⟨rfl, rfl⟩
    have hupd : (updndx cfg hidden).update op.eof op.tof op.del op.r op.old op.new s = .ok (s.after res) := by
      show (updndxLoop cfg op.tof op.del op.r op.old op.new op.eof s.ixs).map s.after = _
      rw [habs]
      rfl
    have hall := updndxDone_beside h.pos hrel hkeep
    have hdone := updndxDone_numbered s.order (res.map Prod.fst) hn₁
    unfold updndxCall reindex
    rw [hrun, hupd]
    dsimp only [bind, Except.bind]
    rw [show (updndx cfg hidden).hidden op.r op.new = hidden op.r op.new from rfl]
    cases hhid : hidden op.r op.new with
    | true => exact Or.inl ⟨_, _, rfl, rfl, hall, rfl, hlen', hdone⟩
    | false =>
      rw [if_neg Bool.false_ne_true, if_neg Bool.false_ne_true]
      rcases @goFiles_cases fuel _ (s.after res) op.r (n + 1) cfg op.new hall hr hlen' (by omega) with ⟨fs₃, s', hgo, hloc, hall'⟩ | ⟨e, fs₃, hgo, hloc⟩
      · obtain ⟨hixs, horder⟩ := locate_ixs hloc
        exact Or.inl ⟨fs₃, s', hgo, hloc, hall', horder, by rw [hixs]; exact hlen', @goFiles_numbered fuel _ fs₃ op.r (n + 1) (s.after res) cfg op.new hall hr hlen' (by omega) hdone hgo⟩
      · refine Or.inr ⟨?_, e, fs₃, hgo, hloc⟩
        by_contra hu
        rw [Bool.not_eq_true] at hu
        rw [heof, htof, hdel] at habs
        have hentry := updndxLoop_added hu (fun ix hix => by
          obtain ⟨f, -, hb⟩ := forall₂_mem h.ixs hix
          exact hb.charIdx) habs
        -- so the search among the entries would succeed
        have hfound : ∃ s', (s.after res).locate cfg op.r op.new = .ok s' := by
          unfold Indexes.locate
          split
          · exact ⟨_, rfl⟩
          split
          · exact ⟨_, rfl⟩
          rename_i ix hix
          split
          · exact ⟨_, rfl⟩
          rename_i k hk
          exact ⟨_, if_pos (hentry ix (List.mem_of_getElem? hix) k hk)⟩
        obtain ⟨s', hs'⟩ := hfound
        exact nomatch hs'.symm.trans hloc
  · rw [hrun] at hrun₂
    cases hrun₂
  · rw [hrun] at hrun₂
    cases hrun₂

end Appends

/-- **Records that are added** to files written record by record never meet a refused split, and NTNDX only with UNIQUE. -/
theorem appends_accepted {cfg : Cfg} {fuel : Nat} {hidden : Nat → List UInt8 → Bool} {fs : List OpenNdx} {s : Indexes} {ops : List UpdOp} {n : Nat}
    (h : AllBeside fs s) (hn : ∀ f ∈ fs, Numbered f.st) (hops : ∀ op ∈ ops, op.eof = false ∧ op.tof = false ∧ op.del = false ∧ op.r ≠ 0)
    (hlen : ∀ idx ∈ s.ixs, idx.entries.length ≤ n) (hfuel : n + ops.length + 2 ≤ fuel) :
    (∃ fs' s', runFiles cfg fuel s.order hidden ops fs = .ok () fs' ∧ runIdx cfg hidden ops s = .ok s' ∧ AllBeside fs' s' ∧ ∀ f ∈ fs', Numbered f.st) ∨
    (cfg.uniqueOn = true ∧ ∃ e fs', runFiles cfg fuel s.order hidden ops fs = .error (.ntndx e) fs' ∧ runIdx cfg hidden ops s = .error .index) := by
  induction ops generalizing fs s n with
  | nil => exact Or.inl ⟨fs, s, rfl, rfl, h, hn⟩
  | cons op ops ih =>
    obtain ⟨heof, htof, hdel, hr⟩ := hops op (by simp)
    rw [List.length_cons] at hfuel
    rw [runFiles, runIdx]
    rcases @updndxCall_append fuel _ op n s cfg hidden h hn heof htof hdel hr hlen (by omega) with
      ⟨fs', s', hrun, habs, hall, horder, hlen', hn'⟩ | ⟨hu, e, fs', hrun, habs⟩
    · rw [hrun, habs, ← horder]
      exact ih hall hn' (fun o ho => hops o (by simp [ho])) hlen' (by omega)
    · exact Or.inr ⟨hu, e, fs', by rw [hrun], by rw [habs]; rfl⟩

/-- Two records with the key `B` are added. -/
def bAppends : List UpdOp := [⟨false, false, false, 1, [], [0x42]⟩, ⟨false, false, false, 2, [], [0x42]⟩]

theorem appends_accepted_bFile : let cfg : Cfg := ⟨true, false, true, false⟩
    (∃ fs' s', runFiles cfg 5 0 shownAll bAppends [bFile] = .ok () fs' ∧ runIdx cfg shownAll bAppends ⟨[bIdx], 0, 0⟩ = .ok s' ∧
      AllBeside fs' s' ∧ ∀ f ∈ fs', Numbered f.st) ∨
    (cfg.uniqueOn = true ∧ ∃ e fs', runFiles cfg 5 0 shownAll bAppends [bFile] = .error (.ntndx e) fs' ∧
      runIdx cfg shownAll bAppends ⟨[bIdx], 0, 0⟩ = .error .index) := by
  refine @appends_accepted ⟨true, false, true, false⟩ 5 shownAll [bFile] ⟨[bIdx], 0, 0⟩ bAppends 0 bFiles_beside ?_ (by decide) (by simp [bIdx]) (by decide)
  intro f hf
  obtain rfl : f = bFile := by simpa using hf
  exact ⟨by decide, fun q hq h0 => absurd (Nat.lt_one_iff.1 hq) h0⟩

end Db3w
