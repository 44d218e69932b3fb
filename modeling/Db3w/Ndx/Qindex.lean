/-
Building an index in one go (`nextkeyent`, `build_bt` and `qindex` of qindex.c). The sort leaves the
keys in a file, in order; `build_bt` takes them from there and fills the pages of the tree from left to
right, a page before its subtrees. A level of the tree is deep enough when `tpage` full leaves, one for each page that it can
have, take all keys.

The new tree is put behind the pages that are in use, on pages of zeros.
-/
import Db3w.Ndx.RemoveOld
import Db3w.Ndx.VsortMerge

namespace Db3w

/-! ## The keys of the sorted file -/

/-- Where `nextkeyent` stands: the records in the buffer that have not been given out, those of the file that have not been
read, and the last one given out, `kbuf1`. -/
structure Feed where
  buf : List VsortRec
  rest : List VsortRec
  last : VsortRec

/-- The next `nkeys` records of the file. -/
def Feed.load (nkeys : Nat) (s : Feed) : Feed := { s with buf := s.rest.take nkeys, rest := s.rest.drop nkeys }

/-- A record that UNIQUE passes over. -/
def sameKeyent (hdr : NdxHdr) (last r : VsortRec) : Bool := qcomp hdr true last r hdr.keylen hdr.keytyp = 0

/-- `nextkeyent`, at its label `load_keys` when the buffer is empty. -/
def nextkeyentLoop (hdr : NdxHdr) (uniqueOn : Bool) (nkeys : Nat) : Nat → Feed → Option (VsortRec × Feed)
  | 0, _ => none
  | fuel + 1, s =>
    let s := if s.buf = [] then s.load nkeys else s
    if s.buf = [] then none
    else
      match if uniqueOn then s.buf.dropWhile (sameKeyent hdr s.last) else s.buf with
      | [] => nextkeyentLoop hdr uniqueOn nkeys fuel { s with buf := [] }
      | r :: buf => some (r, { s with buf, last := r })

/-- `nextkeyent`; each time the label is reached, the file has less records left. -/
def nextkeyent (hdr : NdxHdr) (uniqueOn : Bool) (nkeys : Nat) (s : Feed) : Option (VsortRec × Feed) :=
  nextkeyentLoop hdr uniqueOn nkeys (s.rest.length + 2) s

/-! ## The tree -/

/-- What `build_bt` changes of its `VSORT_CTL`; `kbuf2` is the entry that is passed up. -/
structure BldSt where
  feed : Feed
  recPrcd : Nat
  kbuf2 : NdxEntry

section

variable (uniqueOn : Bool) (nkeys recCount : Nat)

/-- The loop of `build_bt` that fills a leaf. -/
def fillLeaf : Nat → NdxPage → BldSt → NdxM (NdxPage × BldSt)
  | 0, cpg, s => return (cpg, s)
  | n + 1, cpg, s => do
    let cpg ← nePutPageno cpg cpg.entryCnt 0
    let hdr := (← get).hdr
    match nextkeyent hdr uniqueOn nkeys s.feed with
    | none => return (cpg, s)
    | some (k, feed) =>
      let cpg ← nePutKey cpg cpg.entryCnt k.key
      let cpg ← nePutRecno cpg cpg.entryCnt k.recNo.toNat
      fillLeaf n { cpg with entryCnt := cpg.entryCnt + 1 } { s with feed, recPrcd := s.recPrcd + 1 }

/-- The loop of `build_bt` over the subtrees of page `pno`; `call` is the recursive call. -/
def buildKids (call : Pageno → BldSt → NdxM (Bool × BldSt)) (recpp : Nat) (pno : Pageno) : Nat → BldSt → NdxM (Bool × BldSt)
  | 0, _ => throw .outOfFuel
  | k + 1, s => do
    let (lastpg, s) ← call (← get).hdr.pagecnt s
    let cpg ← getpage pno
    if lastpg ∨ cpg.entryCnt = recpp then
      writePage pno (← nePutPageno cpg cpg.entryCnt s.kbuf2.pno)
      return (lastpg, { s with kbuf2 := { s.kbuf2 with pno } })
    else
      let _ ← getEntry cpg cpg.entryCnt
      writePage pno { cpg.set cpg.entryCnt s.kbuf2 with entryCnt := cpg.entryCnt + 1 }
      buildKids call recpp pno k s

/-- `build_bt`: whether the keys are at their end. The keys that are left are counted in a `DWORD`. -/
def buildBt (recpp : Nat) : Nat → Nat → Pageno → BldSt → NdxM (Bool × BldSt)
  | 0, _, _, _ => throw .outOfFuel
  | fuel + 1, tpage, pno, s => do
    let cpg ← getpage pno
    modify fun st => if pno = st.hdr.pagecnt then { st with hdr := { st.hdr with pagecnt := st.hdr.pagecnt + 1 } } else st
    if recCount ≤ tpage * recpp then
      let nrec := (recCount - s.recPrcd) % 2 ^ 32
      let (cpg, s) ← fillLeaf uniqueOn nkeys (min nrec recpp) cpg s
      let cpg ← nePutPageno cpg cpg.entryCnt 0
      let key ← neGetKey cpg ((cpg.entryCnt : Int) - 1)
      writePage pno cpg
      return (nrec ≤ recpp, { s with kbuf2 := ⟨pno, 0, key⟩ })
    else buildKids (buildBt recpp fuel (tpage * (recpp + 1))) recpp pno (recpp + 1) s

/-- The loop of `qindex` that counts the keys with UNIQUE. -/
def countKeys (hdr : NdxHdr) : Nat → Feed → Nat
  | 0, _ => 0
  | fuel + 1, s =>
    match nextkeyent hdr uniqueOn nkeys s with
    | none => 0
    | some (_, s) => countKeys hdr fuel s + 1

end

/-- `qindex_get_key` for record `n + 1`; its key is NULL if `keyOf` gives none. The flag of the top of the table, which would make every key
that of blank fields, is clear; `qindex` clears the other one. -/
def qindexGetKey (keyOf : Recno → Option Key) (n : Nat) : Option VsortRec := (keyOf (n + 1)).map fun key => ⟨UInt64.ofNat (n + 1), key⟩

/-- `qindex`, without the messages, for a table of `reccnt` records with the keys `keyOf`. -/
def qindex (uniqueOn : Bool) (fuel : Nat) (v : VsortCtl) (keyOf : Recno → Option Key) (reccnt : Nat) : NdxM Unit := do
  match v.vsort_ fuel (fun _ => 0) (qindexGetKey keyOf) reccnt false with
  | none => throw .outOfFuel
  | some (rc, f) =>
    if rc < 0 then return ()
    else
      let hdr := (← get).hdr
      let feed : Feed := ⟨[], f, ⟨0, List.replicate (v.vrecSize - 8) 0⟩⟩
      let recCount := if uniqueOn then countKeys uniqueOn v.nkeys hdr (f.length + 1) feed else f.length
      modify fun st => { st with hdr := { st.hdr with rootno := st.hdr.pagecnt } }
      let _ ← buildBt uniqueOn v.nkeys recCount hdr.norecpp fuel 1 hdr.pagecnt ⟨feed, 0, ⟨0, 0, []⟩⟩
      modify fun st => { st with wHdr := true }

/-! ## The keys in order -/

section Keys

variable {hdr : NdxHdr} {uniqueOn : Bool} {nkeys : Nat} {s : Feed} {r : VsortRec} {L : List VsortRec}

/-- What `nextkeyent` gives out of a list of records, after the record `last`. -/
def keptKeys (same : VsortRec → VsortRec → Bool) (uniqueOn : Bool) : VsortRec → List VsortRec → List VsortRec
  | _, [] => []
  | last, r :: rs => if uniqueOn && same last r then keptKeys same uniqueOn last rs else r :: keptKeys same uniqueOn r rs

/-- The keys that are still to be given out. -/
def Feed.keys (hdr : NdxHdr) (uniqueOn : Bool) (s : Feed) : List VsortRec := keptKeys (sameKeyent hdr) uniqueOn s.last (s.buf ++ s.rest)

theorem keptKeys_off (same : VsortRec → VsortRec → Bool) (last : VsortRec) (L : List VsortRec) : keptKeys same false last L = L := by
  induction L generalizing last with
  | nil => rfl
  | cons r L ih => simp [keptKeys, ih]

theorem keptKeys_dropWhile (last : VsortRec) (L M : List VsortRec) :
    keptKeys (sameKeyent hdr) true last (L.dropWhile (sameKeyent hdr last) ++ M) = keptKeys (sameKeyent hdr) true last (L ++ M) := by
  induction L with
  | nil => rfl
  | cons r L ih =>
    cases h : sameKeyent hdr last r with
    | true => simp [keptKeys, h, ih]
    | false => simp [h]

/-- Loading a buffer changes no key. -/
theorem Feed.load_keys (h : s.buf = []) : (s.load nkeys).keys hdr uniqueOn = s.keys hdr uniqueOn := by
  simp [Feed.keys, Feed.load, h]

/-- The records passed over with UNIQUE are none that are given out. -/
theorem Feed.skip_keys (s : Feed) :
    keptKeys (sameKeyent hdr) uniqueOn s.last ((if uniqueOn then s.buf.dropWhile (sameKeyent hdr s.last) else s.buf) ++ s.rest) = s.keys hdr uniqueOn := by
  cases uniqueOn with
  | false => rfl
  | true => exact keptKeys_dropWhile s.last s.buf s.rest

/-- A record that is not passed over is given out. -/
theorem Feed.skip_head {buf : List VsortRec} (h : (if uniqueOn then s.buf.dropWhile (sameKeyent hdr s.last) else s.buf) = r :: buf) :
    s.keys hdr uniqueOn = r :: keptKeys (sameKeyent hdr) uniqueOn r (buf ++ s.rest) := by
  have hne : (uniqueOn && sameKeyent hdr s.last r) = false := by
    cases uniqueOn with
    | false => rfl
    | true =>
      have hd := List.head?_dropWhile_not (sameKeyent hdr s.last) s.buf
      rw [if_pos rfl] at h
      rw [h] at hd
      simpa using hd
  rw [← Feed.skip_keys, h, List.cons_append, keptKeys, hne, if_neg Bool.false_ne_true]

theorem nextkeyentLoop_spec (hn : 1 ≤ nkeys) {fuel : Nat} (hf : s.rest.length + (if s.buf = [] then 1 else 2) ≤ fuel) :
    (s.keys hdr uniqueOn = [] → nextkeyentLoop hdr uniqueOn nkeys fuel s = none) ∧
      ∀ r L, s.keys hdr uniqueOn = r :: L → ∃ s', nextkeyentLoop hdr uniqueOn nkeys fuel s = some (r, s') ∧ s'.keys hdr uniqueOn = L := by
  induction fuel generalizing s with
  | zero => split at hf <;> omega
  | succ fuel ih =>
    -- after a load the buffer is empty at the end of the file only
    obtain ⟨s1, hs1, hkeys, hend, hlen⟩ : ∃ s1, (if s.buf = [] then s.load nkeys else s) = s1 ∧ s1.keys hdr uniqueOn = s.keys hdr uniqueOn ∧
        (s1.buf = [] → s1.rest = []) ∧ (s1.buf ≠ [] → s1.rest.length + 1 ≤ fuel) := by
      refine ⟨_, rfl, ?_⟩
      split
      · rename_i hb
        rw [if_pos hb] at hf
        refine ⟨Feed.load_keys hb, fun h => ?_, fun h => ?_⟩
        · simp only [Feed.load, List.take_eq_nil_iff] at h ⊢
          simp [h.resolve_left (by omega)]
        · have hne : s.rest ≠ [] := fun h0 => h (by simp [Feed.load, h0])
          have hpos := List.length_pos_iff.2 hne
          simp only [Feed.load, List.length_drop]
          omega
      · rename_i hb
        rw [if_neg hb] at hf
        exact ⟨rfl, fun h => absurd h hb, fun _ => by omega⟩
    rw [nextkeyentLoop, hs1, ← hkeys]
    by_cases hb : s1.buf = []
    · rw [if_pos hb]
      have hnil : s1.keys hdr uniqueOn = [] := by rw [Feed.keys, hb, hend hb]; rfl
      exact ⟨fun _ => rfl, fun r L h => by rw [hnil] at h; cases h⟩
    · rw [if_neg hb]
      cases hskip : (if uniqueOn then s1.buf.dropWhile (sameKeyent hdr s1.last) else s1.buf) with
      | nil =>
        have hsame : ({ s1 with buf := [] } : Feed).keys hdr uniqueOn = s1.keys hdr uniqueOn := by
          rw [← Feed.skip_keys s1, hskip]; rfl
        rw [← hsame]
        refine ih ?_
        rw [if_pos rfl]
        exact hlen hb
      | cons r buf =>
        have hhead := Feed.skip_head hskip
        refine ⟨fun h => absurd (hhead.symm.trans h) (List.cons_ne_nil _ _), fun r' L h => ?_⟩
        rw [hhead] at h
        obtain ⟨rfl, rfl⟩ := List.cons.inj h
        exact ⟨_, rfl, rfl⟩

theorem nextkeyent_none (hn : 1 ≤ nkeys) (h : s.keys hdr uniqueOn = []) : nextkeyent hdr uniqueOn nkeys s = none :=
  (nextkeyentLoop_spec hn (by split <;> omega)).1 h

theorem nextkeyent_some (hn : 1 ≤ nkeys) (h : s.keys hdr uniqueOn = r :: L) :
    ∃ s', nextkeyent hdr uniqueOn nkeys s = some (r, s') ∧ s'.keys hdr uniqueOn = L :=
  (nextkeyentLoop_spec hn (by split <;> omega)).2 r L h

theorem countKeys_eq (hn : 1 ≤ nkeys) {fuel : Nat} (hf : (s.keys hdr uniqueOn).length < fuel) :
    countKeys uniqueOn nkeys hdr fuel s = (s.keys hdr uniqueOn).length := by
  induction fuel generalizing s with
  | zero => omega
  | succ fuel ih =>
    rw [countKeys]
    cases hk : s.keys hdr uniqueOn with
    | nil => rw [nextkeyent_none hn hk]; rfl
    | cons r L =>
      obtain ⟨s', hs', hL⟩ := nextkeyent_some hn hk
      rw [hk, List.length_cons] at hf
      rw [hs']
      dsimp only
      rw [ih (by rw [hL]; omega), hL, List.length_cons]

theorem keptKeys_sublist (same : VsortRec → VsortRec → Bool) (last : VsortRec) (L : List VsortRec) : (keptKeys same uniqueOn last L).Sublist L := by
  induction L generalizing last with
  | nil => exact List.Sublist.slnil
  | cons r L ih =>
    rw [keptKeys]
    split
    · exact (ih last).cons r
    · exact (ih r).cons_cons r

end Keys

/-! ## Filling a leaf -/

/-- A sort record as an entry. -/
def VsortRec.ent (r : VsortRec) : Ent := ⟨r.key, r.recNo.toNat⟩

/-- The keys that `build_bt` has not taken yet. -/
def BldSt.keys (hdr : NdxHdr) (uniqueOn : Bool) (s : BldSt) : List VsortRec := s.feed.keys hdr uniqueOn

section Leaf

variable {uniqueOn : Bool} {nkeys : Nat} {st : Ndx} {cpg : NdxPage} {s : BldSt}

theorem nePutKey_ok (st : Ndx) (p : NdxPage) {i : Int} {n : Nat} (hi : i = n) (h : n ≤ p.entryCnt) (key : Key) :
    nePutKey p i key st = .ok (p.set n { p.entries n with key }) st := by
  subst hi
  rw [nePutKey, NdxM.bind_ok (getEntry_ok (n := n) rfl h), NdxM.pure_apply, Int.toNat_natCast]

/-- The entries of a page after one is put behind the last. -/
theorem NdxPage.ents_put (p : NdxPage) (e : NdxEntry) : ({ p.set p.entryCnt e with entryCnt := p.entryCnt + 1 } : NdxPage).ents = p.ents ++ [e.ent] := by
  refine NdxPage.ents_eq (by simp) fun i hi => ?_
  have hi' : i < p.entryCnt + 1 := hi
  show (p.ents ++ [e.ent])[i]? = some ((p.set p.entryCnt e).entries i).ent
  rw [NdxPage.set_entries]
  by_cases h : i = p.entryCnt
  · subst h
    simp
  · rw [if_neg h, List.getElem?_append_left (by simp; omega), NdxPage.ents_get (by omega)]

/-- As many keys go into a leaf as it is to take. -/
theorem fillLeaf_ok (hn : 1 ≤ nkeys) {n : Nat} (hle : n ≤ (s.keys st.hdr uniqueOn).length) (h0 : ∀ i, (cpg.entries i).pno = 0) :
    ∃ cpg' s', fillLeaf uniqueOn nkeys n cpg s st = .ok (cpg', s') st ∧
      cpg'.ents = cpg.ents ++ ((s.keys st.hdr uniqueOn).take n).map VsortRec.ent ∧ (∀ i, (cpg'.entries i).pno = 0) ∧
      s'.keys st.hdr uniqueOn = (s.keys st.hdr uniqueOn).drop n ∧ s'.recPrcd = s.recPrcd + n := by
  induction n generalizing cpg s with
  | zero => exact ⟨cpg, s, rfl, by simp, h0, rfl, rfl⟩
  | succ n ih =>
    obtain ⟨r, L, hk⟩ : ∃ r L, s.keys st.hdr uniqueOn = r :: L := by
      cases hk : s.keys st.hdr uniqueOn with
      | nil => rw [hk] at hle; simp at hle
      | cons r L => exact ⟨r, L, rfl⟩
    obtain ⟨feed, hnext, hL⟩ := nextkeyent_some (s := s.feed) hn hk
    let e : NdxEntry := ⟨0, r.recNo.toNat, r.key⟩
    let cpg1 : NdxPage := { cpg.set cpg.entryCnt e with entryCnt := cpg.entryCnt + 1 }
    have h1 : ∀ i, (cpg1.entries i).pno = 0 := by
      intro i
      show ((cpg.set cpg.entryCnt e).entries i).pno = 0
      rw [NdxPage.set_entries]
      split
      · rfl
      · exact h0 i
    obtain ⟨cpg', s', hrun, hents, hz, hkeys, hprcd⟩ :=
      @ih cpg1 { s with feed, recPrcd := s.recPrcd + 1 } (by rw [hk, List.length_cons] at hle; rw [BldSt.keys, hL]; omega) h1
    refine ⟨cpg', s', ?_, ?_, hz, ?_, by rw [hprcd]; dsimp only; omega⟩
    · rw [fillLeaf, NdxM.bind_ok (nePutPageno_ok st cpg rfl le_rfl 0), NdxM.bind_ok (NdxM.get_apply st), hnext]
      dsimp only
      rw [NdxM.bind_ok (nePutKey_ok st _ rfl le_rfl _), NdxM.bind_ok (nePutRecno_ok st _ rfl le_rfl _)]
      have hpage : ∀ q : NdxPage, q = cpg.set cpg.entryCnt e → { q with entryCnt := q.entryCnt + 1 } = cpg1 := by
        rintro q rfl
        rfl
      rw [← hrun]
      congr 1
      refine hpage _ ?_
      simp only [NdxPage.set, Function.update_self, Function.update_idem]
      rfl
    · rw [hents, NdxPage.ents_put, hk, BldSt.keys, hL]
      simp [e, NdxEntry.ent, VsortRec.ent]
    · rw [hkeys, hk, BldSt.keys, hL, List.drop_succ_cons]

end Leaf

/-! ## The pages of the tree -/

/-- How many keys a tree takes whose leaves are `d` levels below its root. -/
def capOf (recpp d : Nat) : Nat := recpp * (recpp + 1) ^ d

/-- Of the pages in use at most the pages `ps` were written, and only the number of pages has changed in the header. -/
structure Laid (ps : List Pageno) (st st' : Ndx) : Prop where
  hdr : st'.hdr = { st.hdr with pagecnt := st'.hdr.pagecnt }
  le : st.hdr.pagecnt ≤ st'.hdr.pagecnt
  fsync : st'.fsync = st.fsync
  seq : st'.seq = st.seq
  file : ∀ q, q < st.hdr.pagecnt → q ∉ ps → st'.file q = st.file q

section Laid

variable {st st1 st2 : Ndx} {t : Tree} {ps qs : List Pageno} {p : Pageno}

theorem Laid.trans (h1 : Laid ps st st1) (h2 : Laid qs st1 st2) (hq : ∀ q ∈ qs, q < st.hdr.pagecnt → q ∈ ps) : Laid ps st st2 where
  hdr := by rw [h2.hdr, h1.hdr]
  le := h1.le.trans h2.le
  fsync := h2.fsync.trans h1.fsync
  seq := h2.seq.trans h1.seq
  file q hlt hn := by
    rw [h2.file q (hlt.trans_le h1.le) fun hm => hn (hq q hm hlt), h1.file q hlt hn]

theorem Laid.mono (h : Laid ps st st1) (hs : ∀ q ∈ ps, q ∈ qs) : Laid qs st st1 :=
  ⟨h.hdr, h.le, h.fsync, h.seq, fun q hlt hn => h.file q hlt fun hm => hn (hs q hm)⟩

theorem Laid.write (pg : NdxPage) (hp : p ∈ ps) : Laid ps st { st with file := Function.update st.file p pg } := by
  refine ⟨rfl, le_rfl, rfl, rfl, fun q _ hn => Function.update_of_ne ?_ _ _⟩
  rintro rfl
  exact hn hp

theorem Laid.stored (hl : Laid [] st st1) (h : Stored st t) : Stored st1 t :=
  h.congr hl.le fun q hq => hl.file q (h.pages_lt q hq) List.not_mem_nil

/-- The state once a page behind those in use is taken. -/
def takePage (st : Ndx) : Ndx := { st with hdr := { st.hdr with pagecnt := st.hdr.pagecnt + 1 } }

theorem laid_takePage (st : Ndx) : Laid [] st (takePage st) := ⟨rfl, Nat.le_succ _, rfl, rfl, fun _ _ _ => rfl⟩

end Laid

/-- The pages behind those in use have nothing on them. -/
def Fresh (st : Ndx) : Prop := ∀ q, st.hdr.pagecnt ≤ q → st.file q = zeroPage

/-- A tree with the entries `L` was put behind the pages in use. -/
structure Loaded (recpp d : Nat) (st st' : Ndx) (L : List Ent) (t : Tree) : Prop where
  page : t.page = st.hdr.pagecnt
  stored : Stored st' t
  shape : t.Shape SameKey
  sized : t.Sized (· ≤ recpp)
  depth : t.AtDepth d
  entries : t.entries = L
  above : ∀ q ∈ t.pages, st.hdr.pagecnt ≤ q
  nodup : t.pages.Nodup
  laid : Laid [] st st'
  fresh : Fresh st'

/-- The page `pno` holds the subtrees `A`, each but the last with its separator, and waits for the next one. -/
structure Filling (recpp d : Nat) (pno : Pageno) (st : Ndx) (A : List Tree) : Prop where
  ne : pno ≠ 0
  lt : pno < st.hdr.pagecnt
  cnt : (st.file pno).entryCnt = A.length
  slot : ∀ i k, A[i]? = some k → ((st.file pno).entries i).pno = k.page ∧
    ∃ e, k.last? = some e ∧ SameKey ((st.file pno).entries i).ent e
  stored : ∀ k ∈ A, Stored st k
  shape : ∀ k ∈ A, k.Shape SameKey
  sized : ∀ k ∈ A, k.Sized (· ≤ recpp)
  depth : ∀ k ∈ A, k.AtDepth d
  above : ∀ q ∈ A.flatMap MTree.pages, pno < q
  nodup : (A.flatMap MTree.pages).Nodup
  fresh : Fresh st

/-- What a call of `build_bt` for a subtree of depth `d` does, when the keys `L` are left. -/
structure Built (uniqueOn : Bool) (recpp d : Nat) (st : Ndx) (s : BldSt) (st' : Ndx) (s' : BldSt) (t : Tree) : Prop where
  loaded : Loaded recpp d st st' (((s.keys st.hdr uniqueOn).take (capOf recpp d)).map VsortRec.ent) t
  keys : s'.keys st.hdr uniqueOn = (s.keys st.hdr uniqueOn).drop (capOf recpp d)
  prcd : s'.recPrcd = s.recPrcd + min (s.keys st.hdr uniqueOn).length (capOf recpp d)
  pno : s'.kbuf2.pno = t.page
  recno : s'.kbuf2.recno = 0
  key : ∃ e, t.last? = some e ∧ s'.kbuf2.key = e.key

section Build

variable {uniqueOn : Bool} {nkeys recCount recpp d : Nat} {pno : Pageno} {st st1 st2 : Ndx} {s s' : BldSt} {A : List Tree} {k : Tree}
  {L : List Ent}

/-- The page holds one subtree more, while the pages of no other change. -/
theorem Filling.subtree (h : Filling recpp d pno st1 A) (hl : Loaded recpp d st1 st2 L k) :
    (st2.file pno = st1.file pno) ∧ (∀ j ∈ A ++ [k], Stored st2 j ∧ j.Shape SameKey ∧ j.Sized (· ≤ recpp) ∧ j.AtDepth d) ∧
      (∀ q ∈ (A ++ [k]).flatMap MTree.pages, pno < q) ∧ ((A ++ [k]).flatMap MTree.pages).Nodup := by
  have hlt : ∀ q ∈ A.flatMap MTree.pages, q < st1.hdr.pagecnt := by
    intro q hq
    obtain ⟨j, hj, hq⟩ := List.mem_flatMap.1 hq
    exact (h.stored j hj).pages_lt q hq
  refine ⟨hl.laid.file pno h.lt (List.not_mem_nil), fun j hj => ?_, fun q hq => ?_, ?_⟩
  · rcases List.mem_append.1 hj with hj | hj
    · exact ⟨hl.laid.stored (h.stored j hj), h.shape j hj, h.sized j hj, h.depth j hj⟩
    · obtain rfl := List.mem_singleton.1 hj
      exact ⟨hl.stored, hl.shape, hl.sized, hl.depth⟩
  · rw [List.flatMap_append, List.flatMap_singleton] at hq
    rcases List.mem_append.1 hq with hq | hq
    · exact h.above q hq
    · exact h.lt.trans_le (hl.above q hq)
  · rw [List.flatMap_append, List.flatMap_singleton, List.nodup_append]
    refine ⟨h.nodup, hl.nodup, fun q hq q' hq' => ?_⟩
    exact ((hlt q hq).trans_le (hl.above q' hq')).ne

/-- The page of a node is written once more, with the page and the separator of a subtree. -/
theorem Filling.put (h : Filling recpp d pno st1 A) (hl : Loaded recpp d st1 st2 L k) {p : NdxEntry} (hp : p.pno = k.page)
    (hk : ∃ e, k.last? = some e ∧ p.key = e.key) :
    Filling recpp d pno { st2 with file := Function.update st2.file pno { (st1.file pno).set A.length p with entryCnt := A.length + 1 } } (A ++ [k]) := by
  obtain ⟨hfile, hall, habove, hnd⟩ := h.subtree hl
  have hstored : ∀ j ∈ A ++ [k], Stored { st2 with file := Function.update st2.file pno { (st1.file pno).set A.length p with entryCnt := A.length + 1 } } j := by
    intro j hj
    refine (hall j hj).1.congr le_rfl fun q hq => Function.update_of_ne ?_ _ _
    exact (habove q (List.mem_flatMap.2 ⟨j, hj, hq⟩)).ne'
  refine ⟨h.ne, h.lt.trans_le hl.laid.le, ?_, fun i j hj => ?_, hstored, fun j hj => (hall j hj).2.1, fun j hj => (hall j hj).2.2.1,
    fun j hj => (hall j hj).2.2.2, habove, hnd, fun q hq => ?_⟩
  · simp
  · dsimp only
    rw [Function.update_self]
    show ((st1.file pno).set A.length p |>.entries i).pno = j.page ∧ ∃ e, j.last? = some e ∧ SameKey ((st1.file pno).set A.length p |>.entries i).ent e
    rw [NdxPage.set_entries]
    by_cases hi : i = A.length
    · subst hi
      rw [List.getElem?_append_right le_rfl, Nat.sub_self, List.getElem?_cons_zero, Option.some.injEq] at hj
      subst hj
      rw [if_pos rfl]
      obtain ⟨e, he, hke⟩ := hk
      exact ⟨hp, e, he, hke⟩
    · have hlt : i < A.length := by
        have := (List.getElem?_eq_some_iff.1 hj).1
        simp at this
        omega
      rw [List.getElem?_append_left hlt] at hj
      rw [if_neg hi]
      exact h.slot i j hj
  · have hne : q ≠ pno := by
      rintro rfl
      exact absurd (h.lt.trans_le hl.laid.le) (not_lt.2 hq)
    show Function.update st2.file pno _ q = zeroPage
    rw [Function.update_of_ne hne]
    exact hl.fresh q hq

/-- The keys do not depend on how many pages there are. -/
theorem BldSt.keys_congr (h : st1.hdr = { st.hdr with pagecnt := st1.hdr.pagecnt }) (s : BldSt) : s.keys st1.hdr uniqueOn = s.keys st.hdr uniqueOn := by
  rw [h]
  rfl

/-- The last subtree of a page is put behind the others. -/
theorem Filling.close (h : Filling recpp d pno st1 A) (hA : A.length ≤ recpp) (hl : Loaded recpp d st1 st2 L k) :
    let pg := (st1.file pno).set A.length { (st1.file pno).entries A.length with pno := k.page }
    let st3 := { st2 with file := Function.update st2.file pno pg }
    let t : Tree := .node pno (st1.file pno).ents (A ++ [k])
    Stored st3 t ∧ t.Shape SameKey ∧ t.Sized (· ≤ recpp) ∧ t.AtDepth (d + 1) ∧ (∀ q ∈ t.pages, pno ≤ q) ∧ t.pages.Nodup ∧ Fresh st3 := by
  intro pg st3 t
  obtain ⟨hfile, hall, habove, hnd⟩ := h.subtree hl
  have hput := NdxPage.put_pno (p := st1.file pno) (r := A.length) h.cnt.ge k.page
  have hpage : st3.file pno = pg := Function.update_self ..
  have hpnos : (st3.file pno).pnos = (A ++ [k]).map MTree.page := by
    refine NdxPage.pnos_eq (by rw [hpage]; simp [pg, h.cnt]) fun i hi => ?_
    rw [hpage] at hi ⊢
    rw [show (pg.entries i) = _ from NdxPage.set_entries ..]
    have hi' : i ≤ A.length := by rw [← h.cnt]; exact hi
    by_cases he : i = A.length
    · subst he
      simp
    · obtain ⟨j, hj⟩ : ∃ j, A[i]? = some j := ⟨A[i], List.getElem?_eq_getElem (by omega)⟩
      rw [if_neg he, (h.slot i j hj).1, List.map_append, List.getElem?_append_left (by rw [List.length_map]; omega), List.getElem?_map, hj]
      rfl
  have hsep : MTree.Sepd SameKey (st1.file pno).ents (A ++ [k]) := by
    refine MTree.sepd_iff_get.2 ⟨by simp [h.cnt], fun i s j hs hj => ?_⟩
    have hi : i < A.length := by
      have := (List.getElem?_eq_some_iff.1 hs).1
      rwa [NdxPage.length_ents, h.cnt] at this
    rw [List.getElem?_append_left hi] at hj
    rw [NdxPage.ents_get (by rw [h.cnt]; exact hi), Option.some.injEq] at hs
    rw [← hs]
    exact (h.slot i j hj).2
  refine ⟨.node h.ne (h.lt.trans_le hl.laid.le) (by rw [hpage]; exact hput.1) hpnos fun j hj => ?_, .node hsep fun j hj => (hall j hj).2.1,
    .node (by rw [NdxPage.length_ents, h.cnt]; exact hA) fun j hj => (hall j hj).2.2.1, .node fun j hj => (hall j hj).2.2.2, ?_, ?_, fun q hq => ?_⟩
  · refine (hall j hj).1.congr le_rfl fun q hq => Function.update_of_ne ?_ _ _
    exact (habove q (List.mem_flatMap.2 ⟨j, hj, hq⟩)).ne'
  · intro q hq
    rw [MTree.pages_node] at hq
    rcases List.mem_cons.1 hq with rfl | hq
    · exact le_rfl
    · exact (habove q hq).le
  · rw [MTree.pages_node]
    exact List.nodup_cons.2 ⟨fun hm => lt_irrefl _ (habove pno hm), hnd⟩
  · have hne : q ≠ pno := by
      rintro rfl
      exact absurd (h.lt.trans_le hl.laid.le) (not_lt.2 hq)
    exact (Function.update_of_ne hne _ _).trans (hl.fresh q hq)

/-- What is given to a call of `build_bt`: a fresh file, and keys of which some are left. -/
structure Ready (uniqueOn : Bool) (recCount : Nat) (st : Ndx) (s : BldSt) : Prop where
  fresh : Fresh st
  pagecnt : 0 < st.hdr.pagecnt
  keys : s.keys st.hdr uniqueOn ≠ []
  count : s.recPrcd + (s.keys st.hdr uniqueOn).length = recCount

/-- The call of `build_bt` for a subtree of depth `d` does what it should. -/
def Builds (uniqueOn : Bool) (recCount recpp d : Nat) (call : Pageno → BldSt → NdxM (Bool × BldSt)) : Prop :=
  ∀ st s, Ready uniqueOn recCount st s → ∃ st' s' t,
    call st.hdr.pagecnt s st = .ok (decide ((s.keys st.hdr uniqueOn).length ≤ capOf recpp d), s') st' ∧ Built uniqueOn recpp d st s st' s' t

/-- The page of a node once all its subtrees are there, `R` the keys that were left for them. -/
structure Closed (uniqueOn : Bool) (recpp d n : Nat) (pno : Pageno) (R : List VsortRec) (prcd : Nat) (st : Ndx) (A : List Tree) (st' : Ndx) (s' : BldSt)
    (ss : List Ent) (ks : List Tree) : Prop where
  stored : Stored st' (.node pno ss (A ++ ks))
  shape : (MTree.node pno ss (A ++ ks)).Shape SameKey
  sized : (MTree.node pno ss (A ++ ks)).Sized (· ≤ recpp)
  depth : (MTree.node pno ss (A ++ ks)).AtDepth (d + 1)
  entries : ks.flatMap MTree.entries = (R.take (n * capOf recpp d)).map VsortRec.ent
  above : ∀ q ∈ (MTree.node pno ss (A ++ ks)).pages, pno ≤ q
  nodup : (MTree.node pno ss (A ++ ks)).pages.Nodup
  laid : Laid [pno] st st'
  fresh : Fresh st'
  keys : s'.keys st.hdr uniqueOn = R.drop (n * capOf recpp d)
  prcd : s'.recPrcd = prcd + min R.length (n * capOf recpp d)
  pno_eq : s'.kbuf2.pno = pno
  recno : s'.kbuf2.recno = 0
  key : ∃ e, (MTree.node pno ss (A ++ ks)).last? = some e ∧ s'.kbuf2.key = e.key

theorem buildKids_ok {call : Pageno → BldSt → NdxM (Bool × BldSt)} (hcall : Builds uniqueOn recCount recpp d call) {n : Nat} (hn : 0 < n)
    (hA : A.length + n = recpp + 1) (h : Filling recpp d pno st A) (hr : Ready uniqueOn recCount st s) :
    ∃ st' s' ss ks, buildKids call recpp pno n s st = .ok (decide ((s.keys st.hdr uniqueOn).length ≤ n * capOf recpp d), s') st' ∧
      Closed uniqueOn recpp d n pno (s.keys st.hdr uniqueOn) s.recPrcd st A st' s' ss ks := by
  induction n generalizing A st s with
  | zero => omega
  | succ n ih =>
    obtain ⟨st2, s2, k, hrun, hb⟩ := hcall st s hr
    have hl := hb.loaded
    have hpos : 0 < st2.hdr.pagecnt := hr.pagecnt.trans_le hl.laid.le
    have hget : getpage pno st2 = .ok (st.file pno) st2 := by
      rw [getpage_ok (h.lt.trans_le hl.laid.le), hl.laid.file pno h.lt List.not_mem_nil]
    have hkeys2 := hb.keys
    rw [buildKids, NdxM.bind_ok (NdxM.get_apply st), NdxM.bind_ok hrun]
    dsimp only
    rw [NdxM.bind_ok hget]
    by_cases hend : (s.keys st.hdr uniqueOn).length ≤ capOf recpp d ∨ n = 0
    · -- the last subtree: no key is left, or no room
      have hcond : decide ((s.keys st.hdr uniqueOn).length ≤ capOf recpp d) = true ∨ (st.file pno).entryCnt = recpp := by
        rw [h.cnt, decide_eq_true_eq]
        exact hend.imp_right fun hn0 => by omega
      have hlast : (s.keys st.hdr uniqueOn).length ≤ (n + 1) * capOf recpp d ↔ (s.keys st.hdr uniqueOn).length ≤ capOf recpp d := by
        rcases hend with hle | rfl
        · exact iff_of_true (hle.trans (Nat.le_mul_of_pos_left _ (Nat.succ_pos n))) hle
        · rw [Nat.zero_add, Nat.one_mul]
      have htake : (s.keys st.hdr uniqueOn).take (capOf recpp d) = (s.keys st.hdr uniqueOn).take ((n + 1) * capOf recpp d) := by
        rcases hend with hle | rfl
        · rw [List.take_of_length_le hle, List.take_of_length_le (hlast.2 hle)]
        · rw [Nat.zero_add, Nat.one_mul]
      have hdrop : (s.keys st.hdr uniqueOn).drop (capOf recpp d) = (s.keys st.hdr uniqueOn).drop ((n + 1) * capOf recpp d) := by
        rcases hend with hle | rfl
        · rw [List.drop_of_length_le hle, List.drop_of_length_le (hlast.2 hle)]
        · rw [Nat.zero_add, Nat.one_mul]
      have hmin : min (s.keys st.hdr uniqueOn).length (capOf recpp d) = min (s.keys st.hdr uniqueOn).length ((n + 1) * capOf recpp d) := by
        rcases hend with hle | rfl
        · rw [Nat.min_eq_left hle, Nat.min_eq_left (hlast.2 hle)]
        · rw [Nat.zero_add, Nat.one_mul]
      obtain ⟨h1, h2, h3, h4, h5, h6, h7⟩ := h.close (by omega) hl
      rw [if_pos hcond, NdxM.bind_ok (nePutPageno_ok st2 _ rfl le_rfl _), NdxM.bind_ok (writePage_ok _ _), NdxM.pure_apply, hb.pno, h.cnt,
        ← decide_eq_decide.2 hlast]
      refine ⟨_, _, _, [k], rfl, h1, h2, h3, h4, ?_, h5, h6, ?_, h7, ?_, ?_, rfl, hb.recno, ?_⟩
      · rw [List.flatMap_singleton, hl.entries, htake]
      · exact (hl.laid.mono fun _ hq => absurd hq List.not_mem_nil).trans (Laid.write _ (List.mem_singleton_self pno)) fun _ hq _ => hq
      · rw [← hdrop, ← hkeys2]
        exact rfl
      · rw [← hmin]
        exact hb.prcd
      · obtain ⟨e, he, hke⟩ := hb.key
        exact ⟨e, by rw [MTree.last?_node_concat hl.shape.entries_ne_nil, he], hke⟩
    · -- the subtree is full and others follow
      obtain ⟨hlen, hn0⟩ := not_or.1 hend
      have hcond : ¬(decide ((s.keys st.hdr uniqueOn).length ≤ capOf recpp d) = true ∨ (st.file pno).entryCnt = recpp) := by
        rw [h.cnt, decide_eq_true_eq]
        omega
      have hput := h.put hl hb.pno hb.key
      have hg : Laid [pno] st { st2 with file := Function.update st2.file pno { (st.file pno).set A.length s2.kbuf2 with entryCnt := A.length + 1 } } :=
        (hl.laid.mono fun _ hq => absurd hq List.not_mem_nil).trans (Laid.write _ (List.mem_singleton_self pno)) fun _ hq _ => hq
      have hkeys3 : s2.keys { st2 with file := Function.update st2.file pno { (st.file pno).set A.length s2.kbuf2 with entryCnt := A.length + 1 } }.hdr uniqueOn
          = (s.keys st.hdr uniqueOn).drop (capOf recpp d) := by
        rw [s2.keys_congr hg.hdr, hkeys2]
      have hr2 : Ready uniqueOn recCount { st2 with file := Function.update st2.file pno { (st.file pno).set A.length s2.kbuf2 with entryCnt := A.length + 1 } } s2 := by
        refine ⟨hput.fresh, hpos, ?_, ?_⟩
        · rw [hkeys3]
          intro hnil
          exact hlen (List.drop_eq_nil_iff.1 hnil)
        · rw [hkeys3, hb.prcd, List.length_drop, ← hr.count]
          omega
      obtain ⟨st', s', ss, ks, hrun2, hc⟩ := ih (by omega) (by simp; omega) hput hr2
      rw [hkeys3] at hrun2 hc
      have hmul : (n + 1) * capOf recpp d = capOf recpp d + n * capOf recpp d := by rw [Nat.succ_mul, Nat.add_comm]
      rw [if_neg hcond, NdxM.bind_ok (getEntry_ok (n := (st.file pno).entryCnt) rfl le_rfl), NdxM.bind_ok (writePage_ok _ _), h.cnt]
      rw [hrun2, hmul]
      have hassoc : A ++ [k] ++ ks = A ++ k :: ks := by simp
      have hc1 := hc.stored
      have hc2 := hc.shape
      have hc3 := hc.sized
      have hc4 := hc.depth
      have hc5 := hc.above
      have hc6 := hc.nodup
      have hc7 := hc.key
      rw [hassoc] at hc1 hc2 hc3 hc4 hc5 hc6 hc7
      refine ⟨st', s', ss, k :: ks, ?_, hc1, hc2, hc3, hc4, ?_, hc5, hc6, hg.trans hc.laid fun _ hq _ => hq, hc.fresh, ?_, ?_, hc.pno_eq, hc.recno, hc7⟩
      · rw [List.length_drop]
        congr 3
        exact propext (by omega)
      · rw [List.flatMap_cons, hl.entries, hc.entries, ← List.map_append, hmul, List.take_add]
      · rw [← s'.keys_congr hg.hdr, hc.keys, List.drop_drop, hmul]
      · rw [hc.prcd, hb.prcd, List.length_drop, hmul]
        omega

theorem takePage_apply (st : Ndx) : (modify fun st' => if st.hdr.pagecnt = st'.hdr.pagecnt then { st' with hdr := { st'.hdr with pagecnt := st'.hdr.pagecnt + 1 } } else st' : NdxM Unit) st = .ok () (takePage st) := by
  rw [NdxM.modify_apply, if_pos rfl]
  rfl

theorem fresh_takePage (h : Fresh st) : Fresh (takePage st) := fun q hq => h q (Nat.le_of_succ_le hq)

/-- The last level: a leaf. -/
theorem buildLeaf_ok (hn : 1 ≤ nkeys) (hpp : 1 ≤ recpp) (hsmall : recCount < 2 ^ 32) {fuel tpage : Nat} (ht : recCount ≤ tpage * recpp)
    (hr : Ready uniqueOn recCount st s) :
    ∃ st' s' t, buildBt uniqueOn nkeys recCount recpp (fuel + 1) tpage st.hdr.pagecnt s st =
      .ok (decide ((s.keys st.hdr uniqueOn).length ≤ capOf recpp 0), s') st' ∧ Built uniqueOn recpp 0 st s st' s' t := by
  have hcap : capOf recpp 0 = recpp := by simp [capOf]
  have hcount := hr.count
  have hnrec : (recCount - s.recPrcd) % 2 ^ 32 = (s.keys st.hdr uniqueOn).length := by
    rw [Nat.mod_eq_of_lt (by omega)]
    omega
  have hpos := List.length_pos_iff.2 hr.keys
  have hkeys1 : s.keys (takePage st).hdr uniqueOn = s.keys st.hdr uniqueOn := s.keys_congr rfl
  obtain ⟨cpg, s1, hfill, hents, hz, hkeys, hprcd⟩ := @fillLeaf_ok uniqueOn _ (takePage st) zeroPage s hn (min (s.keys st.hdr uniqueOn).length recpp) (by rw [hkeys1]; exact Nat.min_le_left _ _) fun _ => rfl
  rw [hkeys1] at hents hkeys
  rw [List.take_eq_take_iff.2 (show min (min (s.keys st.hdr uniqueOn).length recpp) _ = min recpp _ by omega)] at hents
  rw [List.drop_eq_drop_iff.2 (show min (min (s.keys st.hdr uniqueOn).length recpp) _ = min recpp _ by omega)] at hkeys
  have hes : cpg.ents = ((s.keys st.hdr uniqueOn).take recpp).map VsortRec.ent := by
    rw [hents]
    rfl
  have hcnt : cpg.entryCnt = min recpp (s.keys st.hdr uniqueOn).length := by
    rw [← NdxPage.length_ents, hes, List.length_map, List.length_take]
  have hput := NdxPage.put_pno (p := cpg) (r := cpg.entryCnt) le_rfl 0
  let pg := cpg.set cpg.entryCnt { cpg.entries cpg.entryCnt with pno := 0 }
  have hpnos : pg.pnos = List.replicate (cpg.ents.length + 1) 0 := by
    refine NdxPage.pnos_eq (by simp [pg]) fun i hi => ?_
    have hi' : i ≤ cpg.entryCnt := hi
    rw [show pg.entries i = _ from NdxPage.set_entries .., List.getElem?_replicate, if_pos (by rw [NdxPage.length_ents]; omega)]
    split
    · rfl
    · rw [hz i]
  obtain ⟨x, hx⟩ : ∃ x, pg.ents.getLast? = some x := by
    rw [show pg.ents = _ from hput.1, hes]
    exact ⟨_, List.getLast?_eq_some_getLast fun h0 => by
      have := congrArg List.length h0
      rw [List.length_map, List.length_take] at this
      simp only [List.length_nil] at this
      omega⟩
  obtain ⟨hpos', hlast⟩ := NdxPage.getLast_ents hx
  have hlaid := (laid_takePage st).trans (Laid.write pg (List.mem_singleton_self st.hdr.pagecnt)) fun q hq hlt => by
    rw [List.mem_singleton.1 hq] at hlt
    exact absurd hlt (lt_irrefl _)
  refine ⟨_, { s1 with kbuf2 := ⟨st.hdr.pagecnt, 0, (pg.entries (pg.entryCnt - 1)).key⟩ }, .leaf st.hdr.pagecnt (((s.keys st.hdr uniqueOn).take recpp).map VsortRec.ent), ?_, ⟨⟨rfl, .leaf hr.pagecnt.ne' (Nat.lt_succ_self _) ?_ ?_, ?_, ?_, .leaf, ?_, ?_, ?_,
    hlaid, ?_⟩, ?_, ?_, rfl, rfl, x, ?_, ?_⟩⟩
  · have hkey : neGetKey pg ((pg.entryCnt : Int) - 1) (takePage st) = .ok (pg.entries (pg.entryCnt - 1)).key (takePage st) :=
      neGetKey_ok (by omega) (Nat.sub_le _ _)
    rw [buildBt, NdxM.bind_ok (getpage_new le_rfl), NdxM.bind_ok (takePage_apply st), if_pos ht, hnrec]
    dsimp only
    rw [NdxM.bind_ok hfill]
    dsimp only
    rw [NdxM.bind_ok (nePutPageno_ok _ cpg rfl le_rfl 0), NdxM.bind_ok hkey, NdxM.bind_ok (writePage_ok _ _), hcap]
    rfl
  · exact (congrArg NdxPage.ents (Function.update_self ..)).trans (hput.1.trans hes)
  · refine (congrArg NdxPage.pnos (Function.update_self ..)).trans (hpnos.trans ?_)
    rw [hes]
  · refine .leaf fun h0 => ?_
    rw [← hes, ← hput.1] at h0
    rw [show pg.ents = [] from h0] at hx
    cases hx
  · exact .leaf (by rw [List.length_map, List.length_take]; exact Nat.min_le_left _ _)
  · rw [MTree.entries_leaf, hcap]
  · simp
  · simp
  · intro q hq
    have hne : q ≠ st.hdr.pagecnt := by
      rintro rfl
      exact absurd hq (Nat.not_succ_le_self _)
    exact (Function.update_of_ne hne _ _).trans (fresh_takePage hr.fresh q hq)
  · rw [hcap]
    exact hkeys
  · rw [hcap]
    exact hprcd
  · rw [MTree.last?, MTree.entries_leaf, ← hes, ← hput.1]
    exact hx
  · rw [← hlast]
    rfl

/-- **`build_bt`** puts the keys on the pages of a tree, all leaves `d` levels deep, and takes as many as go into one. -/
theorem buildBt_ok (hn : 1 ≤ nkeys) (hpp : 1 ≤ recpp) (hsmall : recCount < 2 ^ 32) {D fuel : Nat} (hD : recCount ≤ (recpp + 1) ^ D * recpp)
    (hmin : ∀ l < D, (recpp + 1) ^ l * recpp < recCount) (hd : d ≤ D) (hf : d < fuel) :
    Builds uniqueOn recCount recpp d (buildBt uniqueOn nkeys recCount recpp fuel ((recpp + 1) ^ (D - d))) := by
  induction d generalizing fuel with
  | zero =>
    obtain ⟨fuel, rfl⟩ : ∃ n, fuel = n + 1 := ⟨fuel - 1, by omega⟩
    intro st s hr
    exact buildLeaf_ok hn hpp hsmall hD hr
  | succ d ih =>
    obtain ⟨fuel, rfl⟩ : ∃ n, fuel = n + 1 := ⟨fuel - 1, by omega⟩
    intro st s hr
    have hcall := ih (by omega) (show d < fuel by omega)
    have htp : (recpp + 1) ^ (D - (d + 1)) * (recpp + 1) = (recpp + 1) ^ (D - d) := by
      rw [← pow_succ]
      congr 1
      omega
    have hkeys1 : s.keys (takePage st).hdr uniqueOn = s.keys st.hdr uniqueOn := s.keys_congr rfl
    have hfill : Filling recpp d st.hdr.pagecnt (takePage st) [] := by
      refine ⟨hr.pagecnt.ne', Nat.lt_succ_self _, ?_, by simp, by simp, by simp, by simp, by simp, by simp, by simp, fresh_takePage hr.fresh⟩
      show (st.file st.hdr.pagecnt).entryCnt = 0
      rw [hr.fresh _ le_rfl]
      rfl
    have hr1 : Ready uniqueOn recCount (takePage st) s :=
      ⟨fresh_takePage hr.fresh, Nat.succ_pos _, by rw [hkeys1]; exact hr.keys, by rw [hkeys1]; exact hr.count⟩
    obtain ⟨st', s', ss, ks, hrun, hc⟩ := buildKids_ok hcall (Nat.succ_pos recpp) (by simp) hfill hr1
    rw [hkeys1] at hrun hc
    have hcap : capOf recpp (d + 1) = (recpp + 1) * capOf recpp d := by
      rw [capOf, capOf, pow_succ]
      ring
    have hlaid := (laid_takePage st).trans hc.laid fun q hq hlt => by
      rw [List.mem_singleton.1 hq] at hlt
      exact absurd hlt (lt_irrefl _)
    refine ⟨st', s', .node st.hdr.pagecnt ss ks, ?_, ⟨⟨rfl, hc.stored, hc.shape, hc.sized, hc.depth, ?_, hc.above, hc.nodup, hlaid, hc.fresh⟩, ?_, ?_,
      hc.pno_eq, hc.recno, hc.key⟩⟩
    · rw [buildBt, NdxM.bind_ok (getpage_new le_rfl), NdxM.bind_ok (takePage_apply st), if_neg (not_le.2 (hmin _ (by omega))), htp, hcap]
      exact hrun
    · rw [MTree.entries_node, hc.entries, hcap]
    · rw [hcap]
      exact (s'.keys_congr (laid_takePage st).hdr).symm.trans hc.keys
    · rw [hcap]
      exact hc.prcd

end Build

end Db3w
