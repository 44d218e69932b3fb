/-
Search in a character-key index. Looking for a key finds its first entry, for a key that is cut by a
NUL byte the first entry that starts with what is before it, and for a key with a record that very
entry. Looking for the neighbours of a key finds the first entry above it and the last one below
it; the nearest entry not below and the nearest not above it are found unless the first entry above
the key is the first of its page.
-/
import Db3w.Ndx.RemoveOld
import Db3w.Ndx.Search

namespace Db3w

open Falling

/-- The part of `find` that makes the target out of a character value: blanks up to the length of
the key and, unless EXACT is on or the search is for equality by name, a NUL after the value. -/
def findKey (exactOn : Bool) (mode : Option RelOp) (buf : Key) (len : Nat) : Key :=
  let p := buf ++ List.replicate (len - buf.length) 32
  if !exactOn && mode ≠ some .tequal then p.set buf.length 0 else p

/-- The slots of the tree an index holds. -/
def slotsOf (ot : Option Tree) : List (Slot Pageno Ent) := ot.elim [] MTree.slots

/-- A character-key index that searching relies on. -/
structure SearchIndex (st : Ndx) (ot : Option Tree) : Prop where
  index : Index st ot
  keytyp : st.hdr.keytyp = 0
  sorted : (entriesOf ot).Pairwise fun a b => a.rank < b.rank
  keylen : ∀ e ∈ entriesOf ot, e.key.length = st.hdr.keylen
  recno : ∀ e ∈ entriesOf ot, e.recno ≠ 0
  shape : ∀ t ∈ ot, t.Shape SameKey ∨ ∃ p, t = .leaf p []

/-- The position kept for traversal is that of entry `n` of the index. -/
def Addresses (st : Ndx) (ot : Option Tree) (n : Nat) : Prop :=
  ∃ s, (slotsOf ot)[n]? = some s ∧ st.pageNo = s.page ∧ st.entryNo = s.idx ∧ s.idx < (st.file s.page).entryCnt ∧
    ((st.file s.page).entries s.idx).ent = s.ent

/-- The search gives the record of entry `e`, which stands after `L` and before `M`, and its
position is kept; or it gives 0 when there is no entry that it may give. -/
def Gives (st : Ndx) (ot : Option Tree) (res : EStateM.Result HbErr Ndx Recno) (may : List Ent → Ent → List Ent → Prop) : Prop :=
  ∃ n st', res = .ok n st' ∧ st'.file = st.file ∧ (n = 0 → ∀ L e M, entriesOf ot = L ++ e :: M → ¬may L e M) ∧
    (n ≠ 0 → ∃ L e M, entriesOf ot = L ++ e :: M ∧ may L e M ∧ n = e.recno ∧ Addresses st' ot L.length)

section Index

variable {st : Ndx} {cfg : Cfg} {fuel : Nat} {mode : RelOp} {target : NdxEntry} {t : Tree} {ot : Option Tree}
  {s : Slot Pageno Ent} {may : List Ent → Ent → List Ent → Prop} {X Y : List (Slot Pageno Ent)}

/-- A slot of a stored tree is where its entry is. -/
theorem Stored.slot (h : Stored st t) (hs : s ∈ t.slots) :
    s.idx < (st.file s.page).entryCnt ∧ ((st.file s.page).entries s.idx).ent = s.ent := by
  induction t using MTree.ind with
  | leaf p es =>
    cases h with
    | leaf h0 hlt hes hps =>
      rw [MTree.slots_leaf] at hs
      obtain ⟨i, hi, rfl⟩ := List.mem_mapIdx.1 hs
      have hlt : i < (st.file p).entryCnt := by rw [← NdxPage.length_ents, hes]; exact hi
      have hget := NdxPage.ents_get hlt
      rw [hes, List.getElem?_eq_getElem hi, Option.some.injEq] at hget
      exact ⟨hlt, hget.symm⟩
  | node p ss ks ih =>
    cases h with
    | node h0 hlt hes hps hk =>
      rw [MTree.slots_node] at hs
      obtain ⟨k, hk', hs⟩ := List.mem_flatMap.1 hs
      exact ih k hk' (hk k hk') hs

theorem map_ent_slotsOf (ot : Option Tree) : (slotsOf ot).map Slot.ent = entriesOf ot := by
  cases ot with
  | none => rfl
  | some t => exact MTree.map_ent_slots t

theorem entries_of_slots (h : slotsOf ot = X ++ s :: Y) : entriesOf ot = X.map Slot.ent ++ s.ent :: Y.map Slot.ent := by
  rw [← map_ent_slotsOf, h, List.map_append, List.map_cons]

/-- Search from the root of an index. -/
theorem btsrch_index (h : SearchIndex st ot) (hf : Falling (srchCmp st.hdr cfg.exactOn target) (entriesOf ot))
    (hmode : mode ≠ .tnequ ∧ mode ≠ .tquestn) (hm : mode ≠ .tequal → target.recno = 0) (hfuel : heightOf ot < fuel) :
    btsrch cfg fuel st.hdr.rootno mode target st = land st (srchSlot mode (srchCmp st.hdr cfg.exactOn target) (slotsOf ot)) := by
  cases hix : h.index with
  | none hroot =>
    obtain ⟨fuel, rfl⟩ : ∃ n, fuel = n + 1 := ⟨fuel - 1, by omega⟩
    rw [hroot]
    cases mode <;> rfl
  | @some t hroot hst =>
    rw [hroot]
    rcases h.shape t rfl with hsh | ⟨p, rfl⟩
    · exact btsrch_ok hst hsh hf hmode hm (fun _ => h.recno) hfuel
    · obtain ⟨fuel, rfl⟩ : ∃ n, fuel = n + 2 := ⟨fuel - 2, by
        have : (MTree.leaf p [] : Tree).height = 1 := MTree.height_leaf _ _
        simp only [heightOf, Option.elim_some] at hfuel
        omega⟩
      exact btsrch_leaf hst (by simpa [entriesOf] using hf) hmode hm

/-- A search that ends at a slot gives its entry. -/
theorem SearchIndex.gives_some (h : SearchIndex st ot) (hs : slotsOf ot = X ++ s :: Y) (hmay : may (X.map Slot.ent) s.ent (Y.map Slot.ent)) :
    Gives st ot (land st (some s)) may := by
  have he := entries_of_slots hs
  have hm : s.ent ∈ entriesOf ot := by rw [he]; simp
  refine ⟨_, _, rfl, rfl, fun h0 => absurd h0 (h.recno _ hm), fun _ => ⟨_, _, _, he, hmay, rfl, s, ?_, rfl, rfl, ?_⟩⟩
  · rw [hs, List.length_map, List.getElem?_append_right le_rfl, Nat.sub_self, List.getElem?_cons_zero]
  · cases h.index with
    | none => simp [slotsOf] at hs
    | @some t hroot hst =>
      exact hst.slot (by
        have : t.slots = X ++ s :: Y := hs
        rw [this]
        simp)

/-- A search that ends at no slot gives 0. -/
theorem gives_none (hno : ∀ L e M, entriesOf ot = L ++ e :: M → ¬may L e M) : Gives st ot (land st none) may :=
  ⟨0, st, rfl, rfl, fun _ => hno, fun h => absurd rfl h⟩

/-- The first entry that passes a test. -/
theorem SearchIndex.gives_first (h : SearchIndex st ot) (f : Ent → Bool) :
    Gives st ot (land st ((slotsOf ot).filter fun s => f s.ent).head?) fun L e _ => f e = true ∧ ∀ a ∈ L, f a = false := by
  rw [List.head?_filter]
  rcases hs : (slotsOf ot).find? (fun s => f s.ent) with _ | s
  · rw [hs]
    refine gives_none fun L e M he hmay => ?_
    have hm : e ∈ entriesOf ot := by rw [he]; simp
    rw [← map_ent_slotsOf] at hm
    obtain ⟨s, hsm, rfl⟩ := List.mem_map.1 hm
    exact List.find?_eq_none.1 hs s hsm hmay.1
  · rw [hs]
    obtain ⟨hp, X, Y, hXY, hX⟩ := List.find?_eq_some_iff_append.1 hs
    refine h.gives_some hXY ⟨hp, fun a ha => ?_⟩
    obtain ⟨s', hs', rfl⟩ := List.mem_map.1 ha
    simpa using hX s' hs'

/-- The last entry that passes a test. -/
theorem SearchIndex.gives_last (h : SearchIndex st ot) (f : Ent → Bool) :
    Gives st ot (land st ((slotsOf ot).filter fun s => f s.ent).getLast?) fun _ e M => f e = true ∧ ∀ a ∈ M, f a = false := by
  rcases hs : ((slotsOf ot).filter fun s => f s.ent).getLast? with _ | s
  · rw [hs]
    refine gives_none fun L e M he hmay => ?_
    have hm : e ∈ entriesOf ot := by rw [he]; simp
    rw [← map_ent_slotsOf] at hm
    obtain ⟨s, hsm, rfl⟩ := List.mem_map.1 hm
    exact List.filter_eq_nil_iff.1 (List.getLast?_eq_none_iff.1 hs) s hsm hmay.1
  · rw [hs]
    obtain ⟨F, hF⟩ := List.getLast?_eq_some_iff.1 hs
    obtain ⟨X, Y, hXY, -, hY⟩ := List.filter_eq_append_iff.1 hF
    obtain ⟨U, V, rfl, -, hp, hV⟩ := List.filter_eq_cons_iff.1 hY
    refine h.gives_some (X := X ++ U) (Y := V) (by rw [hXY]; simp) ⟨hp, fun a ha => ?_⟩
    obtain ⟨s', hs', rfl⟩ := List.mem_map.1 ha
    simpa using List.filter_eq_nil_iff.1 hV s' hs'

end Index

/-! ## Keys cut by a NUL -/

section Cut

variable {hdr : NdxHdr} {exactOn : Bool} {target : NdxEntry} {x : Ent} {L : List Ent} {s rest : Key}

/-- `find` without EXACT cuts a short value. -/
theorem findKey_cut {mode : Option RelOp} (hm : mode ≠ some .tequal) {len : Nat} (h : s.length < len) :
    findKey false mode s len = s ++ 0 :: List.replicate (len - s.length - 1) 32 := by
  obtain ⟨n, hn⟩ : ∃ n, len - s.length = n + 1 := ⟨len - s.length - 1, by omega⟩
  simp [findKey, hm, hn, List.replicate_succ]

theorem skcmpRest_cut : ∀ (s q : Key) {len : Nat}, s.length < len → q.length = len → 0 ∉ s →
    skcmpRest (s ++ 0 :: rest) q len = cmpOrd (bytes s) (bytes (q.take s.length))
  | [], b :: q, len + 1, _, _, _ => by simp [skcmpRest, cmpOrd_self]
  | [], [], len + 1, _, hq, _ => by simp at hq
  | a :: s, b :: q, len + 1, hs, hq, h0 => by
    simp only [List.mem_cons, not_or] at h0
    rw [List.cons_append, skcmpRest, if_neg (Ne.symm h0.1), skcmpRest_cut s q (by simpa using hs) (by simpa using hq) h0.2, cmpByte]
    exact (cmpOrd_cons _ _ _ _).symm

/-- A target that is cut after `s` is compared with as much of a stored key. -/
theorem keyCmp_cut (ht : hdr.keytyp = 0) (hl : target.key.length = hdr.keylen) (hs : target.key = s ++ 0 :: rest) (hne : s ≠ [])
    (h0 : 0 ∉ s.tail) (hx : x.key.length = hdr.keylen) :
    keyCmp hdr exactOn target x = cmpOrd (bytes s) (bytes (x.key.take s.length)) := by
  rw [keyCmp, keycmp, ht, if_pos (by decide), if_neg (by decide), hs]
  rw [hs] at hl
  obtain ⟨a, s, rfl⟩ := List.exists_cons_of_ne_nil hne
  simp only [List.cons_append, List.length_cons, List.length_append] at hl
  obtain ⟨b, q, hq⟩ : ∃ b q, x.key = b :: q := List.exists_cons_of_length_pos (by omega)
  rw [hq, List.length_cons] at hx
  rw [← hl, hq, List.cons_append, skcmp, skcmpRest_cut s q (by omega) (by omega) h0, cmpByte]
  exact (cmpOrd_cons _ _ _ _).symm

theorem take_le_take (n : Nat) {a b : List ℕ} (h : a ≤ b) : a.take n ≤ b.take n := by
  rw [← not_lt] at h ⊢
  intro hlt
  refine h ?_
  clear h
  induction n generalizing a b with
  | zero => simp at hlt
  | succ n ih =>
    rcases a with _ | ⟨x, a⟩
    · simp at hlt
    · rcases b with _ | ⟨y, b⟩
      · simp
      · rw [List.take_succ_cons, List.take_succ_cons, List.cons_lt_cons_iff] at hlt
        rw [List.cons_lt_cons_iff]
        exact hlt.imp id fun h => ⟨h.1, ih h.2⟩

theorem falling_cut (ht : hdr.keytyp = 0) (hl : target.key.length = hdr.keylen) (hs : target.key = s ++ 0 :: rest) (hne : s ≠ [])
    (h0 : 0 ∉ s.tail) (hx : ∀ x ∈ L, x.key.length = hdr.keylen) (hsort : L.Pairwise fun a b => a.rank < b.rank) :
    Falling (keyCmp hdr exactOn target) L := by
  refine Falling.of_sorted (f := fun x => bytes (x.key.take s.length)) ((keys_le hsort).imp fun {a b} hab => ?_) fun x hx' =>
    keyCmp_cut ht hl hs hne h0 (hx x hx')
  simpa only [bytes, List.map_take] using take_le_take s.length hab

theorem keyCmp_cut_zero (ht : hdr.keytyp = 0) (hl : target.key.length = hdr.keylen) (hs : target.key = s ++ 0 :: rest) (hne : s ≠ [])
    (h0 : 0 ∉ s.tail) (hx : x.key.length = hdr.keylen) : keyCmp hdr exactOn target x = 0 ↔ s <+: x.key := by
  rw [keyCmp_cut ht hl hs hne h0 hx, cmpOrd_zero, bytes_inj, List.prefix_iff_eq_take]

end Cut

/-! ## Search for equality -/

/-- The entry is the first of those that are `p`. -/
def FirstOf (p : Ent → Prop) (L : List Ent) (e : Ent) (_ : List Ent) : Prop := p e ∧ ∀ a ∈ L, ¬p a

section Equal

variable {st : Ndx} {cfg : Cfg} {fuel : Nat} {target : NdxEntry} {ot : Option Tree} {res : EStateM.Result HbErr Ndx Recno}

theorem Gives.mono {may may' : List Ent → Ent → List Ent → Prop} (h : Gives st ot res may)
    (hm : ∀ L e M, entriesOf ot = L ++ e :: M → (may L e M ↔ may' L e M)) : Gives st ot res may' := by
  obtain ⟨n, st', hres, hf, h0, h1⟩ := h
  refine ⟨n, st', hres, hf, fun hn L e M he hmay => h0 hn L e M he ((hm L e M he).2 hmay), fun hn => ?_⟩
  obtain ⟨L, e, M, he, hmay, hrest⟩ := h1 hn
  exact ⟨L, e, M, he, (hm L e M he).1 hmay, hrest⟩

/-- A search for equality gives the first entry that compares as equal. -/
theorem SearchIndex.gives_equal (h : SearchIndex st ot) {p : Ent → Prop} (hf : Falling (srchCmp st.hdr cfg.exactOn target) (entriesOf ot))
    (hp : ∀ e ∈ entriesOf ot, srchCmp st.hdr cfg.exactOn target e = 0 ↔ p e) (hfuel : heightOf ot < fuel) :
    Gives st ot (btsrch cfg fuel st.hdr.rootno .tequal target st) (FirstOf p) := by
  rw [btsrch_index h hf (by simp) (by simp) hfuel]
  refine (h.gives_first fun e => decide (srchCmp st.hdr cfg.exactOn target e = 0)).mono fun L e M he => ?_
  rw [decide_eq_true_eq, hp e (by rw [he]; simp)]
  refine and_congr_right fun _ => forall₂_congr fun a ha => ?_
  rw [decide_eq_false_iff_not, hp a (by rw [he]; simp [ha])]

end Equal

/-- **Search for equality** finds the first entry with the key; with a key that is cut after `s`, the
first entry whose key starts with `s`; and with a record, that entry and no other. -/
theorem btsrch_finds {st : Ndx} {cfg : Cfg} {fuel : Nat} {target : NdxEntry} {ot : Option Tree} (h : SearchIndex st ot)
    (hl : target.key.length = st.hdr.keylen) (hfuel : heightOf ot < fuel) :
    (target.recno = 0 → 0 ∉ target.key.tail →
      Gives st ot (btsrch cfg fuel st.hdr.rootno .tequal target st) (FirstOf fun e => e.key = target.key)) ∧
    (∀ s rest, target.recno = 0 → target.key = s ++ 0 :: rest → s ≠ [] → 0 ∉ s.tail →
      Gives st ot (btsrch cfg fuel st.hdr.rootno .tequal target st) (FirstOf fun e => s <+: e.key)) ∧
    (target.recno ≠ 0 → 0 ∉ target.key.tail →
      Gives st ot (btsrch cfg fuel st.hdr.rootno .tequal target st) (FirstOf fun e => e = target.ent)) := by
  refine ⟨fun hr h0 => ?_, fun s rest hr hs hne h0 => ?_, fun hr h0 => ?_⟩
  · have hc : srchCmp st.hdr cfg.exactOn target = keyCmp st.hdr cfg.exactOn target := by
      funext x
      rw [srchCmp, if_pos hr]
    refine h.gives_equal (hc ▸ falling_keyCmp h.keytyp hl h0 h.keylen h.sorted) (fun e he => ?_) hfuel
    rw [hc, keyCmp_char h.keytyp hl h0 (h.keylen e he), cmpOrd_zero, bytes_inj, eq_comm]
  · have hc : srchCmp st.hdr cfg.exactOn target = keyCmp st.hdr cfg.exactOn target := by
      funext x
      rw [srchCmp, if_pos hr]
    refine h.gives_equal (hc ▸ falling_cut h.keytyp hl hs hne h0 h.keylen h.sorted) (fun e he => ?_) hfuel
    rw [hc, keyCmp_cut_zero h.keytyp hl hs hne h0 (h.keylen e he)]
  · have hc : srchCmp st.hdr cfg.exactOn target = entCmp st.hdr cfg.exactOn target := by
      funext x
      rw [srchCmp, if_neg hr]
    refine h.gives_equal (hc ▸ falling_entCmp h.keytyp hl h0 h.keylen h.sorted) (fun e he => ?_) hfuel
    rw [hc, entCmp_char h.keytyp hl h0 (h.keylen e he), cmpOrd_zero]
    exact ⟨fun hr => (Ent.rank_inj hr).symm, fun he => he ▸ rfl⟩

theorem oneEntryIndex_search : SearchIndex oneEntryIndex (some oneEntry) where
  index := oneEntryIndex_ok.index
  keytyp := rfl
  sorted := oneEntryIndex_ok.sorted
  keylen := oneEntryIndex_ok.keylen
  recno := by
    intro e he
    rw [entriesOf, Option.elim_some, oneEntry, MTree.entries_leaf, List.mem_singleton] at he
    rw [he]
    decide
  shape := by rintro t ⟨⟩; simp [oneEntry]

theorem oneEntry_height : heightOf (some oneEntry) < 2 := by simp [heightOf, oneEntry, MTree.height]

theorem clashIndex_search : SearchIndex clashIndex (some clashTree) where
  index := clashIndex_ok.index
  keytyp := rfl
  sorted := clashIndex_ok.sorted
  keylen := clashIndex_ok.keylen
  recno := by
    change ∀ e ∈ clashTree.entries, _
    rw [clashTree_entries]
    intro e he
    obtain ⟨i, -, rfl⟩ := List.mem_map.1 he
    exact Nat.succ_ne_zero i
  shape := by rintro t ⟨⟩; exact Or.inl clashTree_shape

theorem btsrch_finds_clashIndex :
    Gives clashIndex (some clashTree) (btsrch exclusiveCfg 4 1 .tequal ⟨0, 0, findKey false none [72] 1024⟩ clashIndex)
      (FirstOf fun e => [72] <+: e.key) :=
  have hk : findKey false none [72] 1024 = [72] ++ 0 :: List.replicate 1022 32 :=
    @findKey_cut _ none (by decide) 1024 (by decide)
  have hl : (findKey false none [72] 1024).length = 1024 := by
    rw [hk, List.length_append, List.length_singleton, List.length_cons, List.length_replicate]
  (btsrch_finds clashIndex_search hl (by simp [heightOf, clashTree_height])).2.1 [72] _ rfl hk (List.cons_ne_nil _ _) List.not_mem_nil

/-! ## Search for a neighbour -/

/-- What a relational search may give: the first entry above the key, an entry with the smallest key
not below it, the last entry below it, an entry with the largest key not above it. -/
def Neighbour (mode : RelOp) (all : List Ent) (k : Key) (L : List Ent) (e : Ent) (M : List Ent) : Prop :=
  match mode with
  | .tgreater => bytes k < bytes e.key ∧ ∀ a ∈ L, ¬bytes k < bytes a.key
  | .tgtrequ => bytes k ≤ bytes e.key ∧ ∀ a ∈ all, bytes k ≤ bytes a.key → bytes e.key ≤ bytes a.key
  | .tless => bytes e.key < bytes k ∧ ∀ a ∈ M, ¬bytes a.key < bytes k
  | .tlessequ => bytes e.key ≤ bytes k ∧ ∀ a ∈ all, bytes a.key ≤ bytes k → bytes a.key ≤ bytes e.key
  | _ => False

/-- Where the first entry above the key stands, as two of the modes ask it: not first in its page,
except for TLESSEQU as the very first entry, unless the key is stored. -/
def NotHidden (mode : RelOp) (k : Key) (l : List (Slot Pageno Ent)) : Prop :=
  match mode with
  | .tgtrequ => (∃ s ∈ l, s.ent.key = k) ∨ ∀ g, l.find? (fun s => bytes k < bytes s.ent.key) = some g → g.idx ≠ 0
  | .tlessequ => (∃ s ∈ l, s.ent.key = k) ∨
      ∀ g, l.find? (fun s => bytes k < bytes s.ent.key) = some g → g.idx ≠ 0 ∨ l.head? = some g
  | _ => True

section Neighbour

variable {st : Ndx} {cfg : Cfg} {fuel : Nat} {mode : RelOp} {target : NdxEntry} {ot : Option Tree} {k : Key} {l : List (Slot Pageno Ent)} {L M : List Ent} {e : Ent}
  {res : EStateM.Result HbErr Ndx Recno}

/-- A search that gives some of the entries it may give, and 0 only when there are none. -/
theorem Gives.weaken {may may' : List Ent → Ent → List Ent → Prop} (h : Gives st ot res may)
    (h1 : ∀ L e M, entriesOf ot = L ++ e :: M → may L e M → may' L e M)
    (h2 : ∀ L e M, entriesOf ot = L ++ e :: M → may' L e M → ∃ L e M, entriesOf ot = L ++ e :: M ∧ may L e M) : Gives st ot res may' := by
  obtain ⟨n, st', hres, hf, hn0, hn1⟩ := h
  refine ⟨n, st', hres, hf, fun hn L e M he hmay => ?_, fun hn => ?_⟩
  · obtain ⟨L', e', M', he', hmay'⟩ := h2 L e M he hmay
    exact hn0 hn L' e' M' he' hmay'
  · obtain ⟨L, e, M, he, hmay, hrest⟩ := hn1 hn
    exact ⟨L, e, M, he, h1 L e M he hmay, hrest⟩

theorem Gives.none_of {may : List Ent → Ent → List Ent → Prop} (h : Gives st ot (land st none) may) (he : entriesOf ot = L ++ e :: M) :
    ¬may L e M := by
  obtain ⟨n, st', hres, -, hn0, -⟩ := h
  cases hres
  exact hn0 rfl L e M he

/-- The first entry above a key that is not stored has the smallest key not below it. -/
theorem neighbour_tgtrequ (hs : (L ++ e :: M).Pairwise fun a b => bytes a.key ≤ bytes b.key) (hno : ∀ a ∈ L ++ e :: M, a.key ≠ k)
    (he : bytes k < bytes e.key) (hL : ∀ a ∈ L, ¬bytes k < bytes a.key) : Neighbour .tgtrequ (L ++ e :: M) k L e M := by
  refine ⟨he.le, fun a ha hk => ?_⟩
  have hlt : bytes k < bytes a.key := lt_of_le_of_ne hk fun h => hno a ha (bytes_inj.1 h.symm)
  rcases List.mem_append.1 ha with hm | hm
  · exact absurd hlt (hL a hm)
  · rcases List.mem_cons.1 hm with rfl | hm
    · exact le_rfl
    · exact (List.pairwise_cons.1 (List.pairwise_append.1 hs).2.1).1 a hm

/-- The last entry below a key that is not stored has the largest key not above it. -/
theorem neighbour_tlessequ (hs : (L ++ e :: M).Pairwise fun a b => bytes a.key ≤ bytes b.key) (hno : ∀ a ∈ L ++ e :: M, a.key ≠ k)
    (he : bytes e.key < bytes k) (hM : ∀ a ∈ M, ¬bytes a.key < bytes k) : Neighbour .tlessequ (L ++ e :: M) k L e M := by
  refine ⟨he.le, fun a ha hk => ?_⟩
  have hlt : bytes a.key < bytes k := lt_of_le_of_ne hk fun h => hno a ha (bytes_inj.1 h)
  rcases List.mem_append.1 ha with hm | hm
  · exact (List.pairwise_append.1 hs).2.2 a hm e List.mem_cons_self
  · rcases List.mem_cons.1 hm with rfl | hm
    · exact le_rfl
    · exact absurd hlt (hM a hm)

theorem above_keys (hc : ∀ s ∈ l, keyCmp st.hdr cfg.exactOn target s.ent = cmpOrd (bytes k) (bytes s.ent.key)) :
    above (fun s => keyCmp st.hdr cfg.exactOn target s.ent) l = l.filter fun s => decide (bytes k < bytes s.ent.key) :=
  List.filter_congr fun s hs => by simp only [hc s hs, cmpOrd_neg]

theorem below_keys (hc : ∀ s ∈ l, keyCmp st.hdr cfg.exactOn target s.ent = cmpOrd (bytes k) (bytes s.ent.key)) :
    below (fun s => keyCmp st.hdr cfg.exactOn target s.ent) l = l.filter fun s => decide (bytes s.ent.key < bytes k) :=
  List.filter_congr fun s hs => by simp only [hc s hs, cmpOrd_pos]

theorem equal_keys (hc : ∀ s ∈ l, keyCmp st.hdr cfg.exactOn target s.ent = cmpOrd (bytes k) (bytes s.ent.key)) :
    equal (fun s => keyCmp st.hdr cfg.exactOn target s.ent) l = l.filter fun s => decide (s.ent.key = k) :=
  List.filter_congr fun s hs => by simp only [hc s hs, cmpOrd_zero, bytes_inj, eq_comm]

/-- The slot of a search for a neighbour, by the keys alone. -/
theorem srchSlot_keys (hc : ∀ s ∈ l, keyCmp st.hdr cfg.exactOn target s.ent = cmpOrd (bytes k) (bytes s.ent.key)) :
    srchSlot mode (keyCmp st.hdr cfg.exactOn target) l =
      let b := l.filter fun s => decide (bytes s.ent.key < bytes k)
      let e := l.filter fun s => decide (s.ent.key = k)
      let a := l.filter fun s => decide (bytes k < bytes s.ent.key)
      match mode with
      | .tequal => e.head?
      | .tgreater => a.head?
      | .tless => b.getLast?
      | .tlessequ => e.head?.or (if a.head?.any (·.idx = 0) then none else b.getLast?)
      | .tgtrequ => e.getLast?.or (a.head?.filter (·.idx ≠ 0))
      | _ => none := by
  unfold srchSlot
  cases mode <;> simp only [above_keys hc, below_keys hc, equal_keys hc]

/-- An entry with the key itself may be given by the modes that allow it. -/
theorem SearchIndex.gives_stored (h : SearchIndex st ot) (hm : mode = .tgtrequ ∨ mode = .tlessequ) {s : Slot Pageno Ent} (hs : s ∈ slotsOf ot)
    (hk : s.ent.key = k) : Gives st ot (land st (some s)) (Neighbour mode (entriesOf ot) k) := by
  obtain ⟨X, Y, hXY⟩ := List.append_of_mem hs
  refine h.gives_some hXY ?_
  rcases hm with rfl | rfl
  · exact ⟨by rw [hk], fun a _ ha => by rw [hk]; exact ha⟩
  · exact ⟨by rw [hk], fun a _ ha => by rw [hk]; exact ha⟩

theorem exists_first {α : Type} {p : α → Prop} {l : List α} (h : ∃ a ∈ l, p a) : ∃ X a Y, l = X ++ a :: Y ∧ p a ∧ ∀ b ∈ X, ¬p b := by
  classical
  obtain ⟨a, ha, hp⟩ := h
  have hsome : (l.find? fun a => decide (p a)).isSome := List.find?_isSome.2 ⟨a, ha, decide_eq_true hp⟩
  obtain ⟨b, hb⟩ := Option.isSome_iff_exists.1 hsome
  obtain ⟨hpb, X, Y, hXY, hX⟩ := List.find?_eq_some_iff_append.1 hb
  exact ⟨X, b, Y, hXY, by simpa using hpb, fun c hc => by simpa using hX c hc⟩

theorem exists_last {α : Type} {p : α → Prop} {l : List α} (h : ∃ a ∈ l, p a) : ∃ X a Y, l = X ++ a :: Y ∧ p a ∧ ∀ b ∈ Y, ¬p b := by
  obtain ⟨a, ha, hp⟩ := h
  obtain ⟨X, b, Y, hXY, hpb, hX⟩ := exists_first (l := l.reverse) ⟨a, List.mem_reverse.2 ha, hp⟩
  refine ⟨Y.reverse, b, X.reverse, ?_, hpb, fun c hc => hX c (List.mem_reverse.1 hc)⟩
  rw [← List.reverse_reverse l, hXY]
  simp

theorem not_stored (hs : ((slotsOf ot).filter fun s => decide (s.ent.key = k)) = []) :
    (¬∃ s ∈ slotsOf ot, s.ent.key = k) ∧ ∀ e ∈ entriesOf ot, e.key ≠ k := by
  have hno : ∀ s ∈ slotsOf ot, s.ent.key ≠ k := fun s hm => by simpa using List.filter_eq_nil_iff.1 hs s hm
  refine ⟨fun ⟨s, hm, hk⟩ => hno s hm hk, fun e he => ?_⟩
  rw [← map_ent_slotsOf] at he
  obtain ⟨s, hm, rfl⟩ := List.mem_map.1 he
  exact hno s hm

/-- The entry nearest to a key that is not stored and not below it. -/
theorem SearchIndex.tgtrequ_iff (h : SearchIndex st ot)
    (hfirst : Gives st ot (land st ((slotsOf ot).filter fun s => decide (bytes k < bytes s.ent.key)).head?)
      fun L e _ => decide (bytes k < bytes e.key) = true ∧ ∀ a ∈ L, decide (bytes k < bytes a.key) = false)
    (hs : ((slotsOf ot).filter fun s => decide (s.ent.key = k)) = []) :
    Gives st ot (land st (((slotsOf ot).filter fun s => decide (bytes k < bytes s.ent.key)).head?.filter (·.idx ≠ 0)))
      (Neighbour .tgtrequ (entriesOf ot) k) ↔ NotHidden .tgtrequ k (slotsOf ot) := by
  obtain ⟨hno, hnoe⟩ := not_stored hs
  have hsort := keys_le h.sorted
  have hnb : ∀ L e M, entriesOf ot = L ++ e :: M → bytes k < bytes e.key → (∀ a ∈ L, ¬bytes k < bytes a.key) →
      Neighbour .tgtrequ (entriesOf ot) k L e M := fun L e M he h1 h2 => by
    rw [he] at hsort hnoe ⊢
    exact neighbour_tgtrequ hsort hnoe h1 h2
  have hw := hfirst.weaken (fun L e M he hmay => hnb L e M he (by simpa using hmay.1) (by simpa using hmay.2)) fun L e M he hmay => by
    have hm : e ∈ entriesOf ot := by rw [he]; simp
    obtain ⟨X, a, Y, hXY, ha, hX⟩ := exists_first (p := fun a : Ent => bytes k < bytes a.key)
      ⟨e, hm, lt_of_le_of_ne hmay.1 fun h => hnoe e hm (bytes_inj.1 h.symm)⟩
    exact ⟨X, a, Y, hXY, by simpa using ha, by simpa using hX⟩
  have hnh : NotHidden .tgtrequ k (slotsOf ot) ↔
      ∀ g, ((slotsOf ot).filter fun s => decide (bytes k < bytes s.ent.key)).head? = some g → g.idx ≠ 0 := by
    simp only [NotHidden, hno, false_or, List.head?_filter]
  rw [hnh]
  rcases hg : ((slotsOf ot).filter fun s => decide (bytes k < bytes s.ent.key)).head? with _ | g
  · rw [hg] at hw ⊢
    exact iff_of_true hw nofun
  · rw [hg] at hw ⊢
    by_cases h0 : g.idx = 0
    · refine iff_of_false (fun hn => ?_) (fun hn => hn g rfl h0)
      rw [Option.filter, if_neg (by simp [h0])] at hn
      rw [List.head?_filter] at hg
      obtain ⟨hgk, X, Y, hXY, hX⟩ := List.find?_eq_some_iff_append.1 hg
      refine hn.none_of (entries_of_slots hXY) (hnb _ _ _ (entries_of_slots hXY) (by simpa using hgk) fun a ha => ?_)
      obtain ⟨s, hs, rfl⟩ := List.mem_map.1 ha
      simpa using hX s hs
    · refine iff_of_true ?_ fun g' hg' => by rwa [← Option.some.inj hg']
      rwa [Option.filter, if_pos (by simp [h0])]

/-- The entry nearest to a key that is not stored and not above it. -/
theorem SearchIndex.tlessequ_iff (h : SearchIndex st ot)
    (hlast : Gives st ot (land st ((slotsOf ot).filter fun s => decide (bytes s.ent.key < bytes k)).getLast?)
      fun _ e M => decide (bytes e.key < bytes k) = true ∧ ∀ a ∈ M, decide (bytes a.key < bytes k) = false)
    (hs : ((slotsOf ot).filter fun s => decide (s.ent.key = k)) = []) :
    Gives st ot (land st (if ((slotsOf ot).filter fun s => decide (bytes k < bytes s.ent.key)).head?.any (·.idx = 0) then none
        else ((slotsOf ot).filter fun s => decide (bytes s.ent.key < bytes k)).getLast?))
      (Neighbour .tlessequ (entriesOf ot) k) ↔ NotHidden .tlessequ k (slotsOf ot) := by
  obtain ⟨hno, hnoe⟩ := not_stored hs
  have hsort := keys_le h.sorted
  have hnb : ∀ L e M, entriesOf ot = L ++ e :: M → bytes e.key < bytes k → (∀ a ∈ M, ¬bytes a.key < bytes k) →
      Neighbour .tlessequ (entriesOf ot) k L e M := fun L e M he h1 h2 => by
    rw [he] at hsort hnoe ⊢
    exact neighbour_tlessequ hsort hnoe h1 h2
  have hex : ∀ e ∈ entriesOf ot, bytes e.key ≤ bytes k → ∃ L e M, entriesOf ot = L ++ e :: M ∧ bytes e.key < bytes k ∧
      ∀ a ∈ M, ¬bytes a.key < bytes k := fun e hm hle =>
    exists_last (p := fun a : Ent => bytes a.key < bytes k) ⟨e, hm, lt_of_le_of_ne hle fun h => hnoe e hm (bytes_inj.1 h)⟩
  have hw := hlast.weaken (fun L e M he hmay => hnb L e M he (by simpa using hmay.1) (by simpa using hmay.2)) fun L e M he hmay => by
    obtain ⟨X, a, Y, hXY, ha, hX⟩ := hex e (by rw [he]; simp) hmay.1
    exact ⟨X, a, Y, hXY, by simpa using ha, by simpa using hX⟩
  have hnh : NotHidden .tlessequ k (slotsOf ot) ↔
      ∀ g, ((slotsOf ot).filter fun s => decide (bytes k < bytes s.ent.key)).head? = some g → g.idx ≠ 0 ∨ (slotsOf ot).head? = some g := by
    simp only [NotHidden, hno, false_or, List.head?_filter]
  rw [hnh]
  rcases hg : ((slotsOf ot).filter fun s => decide (bytes k < bytes s.ent.key)).head? with _ | g
  · rw [hg, Option.any_none, if_neg Bool.false_ne_true]
    exact iff_of_true hw fun g hn => by cases hn
  · rw [hg, Option.any_some]
    by_cases h0 : g.idx = 0
    · rw [if_pos (by simpa using h0)]
      rw [List.head?_filter] at hg
      obtain ⟨hgk, X, Y, hXY, hX⟩ := List.find?_eq_some_iff_append.1 hg
      rcases X with _ | ⟨s, X⟩
      · -- no entry comes before the first one above the key
        refine iff_of_true (gives_none fun L e M he hmay => ?_) fun g' hg' => Or.inr (by rw [hXY, ← Option.some.inj hg']; rfl)
        have hall := hsort
        rw [entries_of_slots hXY] at hall
        have hm : e ∈ entriesOf ot := by rw [he]; simp
        rw [entries_of_slots hXY] at hm
        have hlt : bytes k < bytes g.ent.key := by simpa using hgk
        rcases List.mem_cons.1 hm with rfl | hm
        · exact absurd hmay.1 (not_le.2 hlt)
        · exact absurd hmay.1 (not_le.2 (hlt.trans_le ((List.pairwise_cons.1 hall).1 e hm)))
      · refine iff_of_false (fun hn => ?_) fun hn => ?_
        · have hs0 := hX s (by simp)
          obtain ⟨L, e, M, he, h1, h2⟩ := hex s.ent (by rw [entries_of_slots hXY]; simp) (by simpa using hs0)
          exact hn.none_of he (hnb L e M he h1 h2)
        · rcases hn g rfl with hn | hn
          · exact hn h0
          · rw [hXY] at hn
            obtain rfl : s = g := by simpa using hn
            have hs0 := hX s (by simp)
            rw [hgk] at hs0
            cases hs0
    · rw [if_neg (by simpa using h0)]
      exact iff_of_true hw fun g' hg' => Or.inl (by rwa [← Option.some.inj hg'])

end Neighbour

/-- **Search for a neighbour** gives the neighbour it is asked for exactly where the first entry above
the key does not hide it. -/
theorem btsrch_neighbour_iff {st : Ndx} {cfg : Cfg} {fuel : Nat} {mode : RelOp} {target : NdxEntry} {ot : Option Tree} (h : SearchIndex st ot)
    (hmode : mode ∈ [RelOp.tgreater, .tgtrequ, .tless, .tlessequ]) (hr : target.recno = 0) (hl : target.key.length = st.hdr.keylen)
    (h0 : 0 ∉ target.key.tail) (hfuel : heightOf ot < fuel) :
    Gives st ot (btsrch cfg fuel st.hdr.rootno mode target st) (Neighbour mode (entriesOf ot) target.key) ↔
      NotHidden mode target.key (slotsOf ot) := by
  have hsc : srchCmp st.hdr cfg.exactOn target = keyCmp st.hdr cfg.exactOn target := by
    funext x
    rw [srchCmp, if_pos hr]
  have hf : Falling (srchCmp st.hdr cfg.exactOn target) (entriesOf ot) := hsc ▸ falling_keyCmp h.keytyp hl h0 h.keylen h.sorted
  have hc : ∀ s ∈ slotsOf ot, keyCmp st.hdr cfg.exactOn target s.ent = cmpOrd (bytes target.key) (bytes s.ent.key) := fun s hs =>
    keyCmp_char h.keytyp hl h0 (h.keylen _ (map_ent_slotsOf ot ▸ List.mem_map_of_mem hs))
  have hm : mode ≠ .tnequ ∧ mode ≠ .tquestn := by
    constructor <;> rintro rfl <;> simp at hmode
  rw [btsrch_index h hf hm (fun _ => hr) hfuel, hsc, srchSlot_keys hc]
  generalize target.key = k
  have hfirst := h.gives_first fun e => decide (bytes k < bytes e.key)
  have hlast := h.gives_last fun e => decide (bytes e.key < bytes k)
  simp only [List.mem_cons, List.not_mem_nil, or_false] at hmode
  rcases hmode with rfl | rfl | rfl | rfl
  · exact iff_of_true (hfirst.mono fun L e M he => by simp [Neighbour]) trivial
  · dsimp only
    rcases hs : ((slotsOf ot).filter fun s => decide (s.ent.key = k)).getLast? with _ | s
    · rw [hs, Option.none_or]
      exact h.tgtrequ_iff hfirst (List.getLast?_eq_none_iff.1 hs)
    · rw [hs, Option.some_or]
      obtain ⟨hm, hk⟩ := List.mem_filter.1 (List.mem_of_getLast? hs)
      rw [decide_eq_true_eq] at hk
      exact iff_of_true (h.gives_stored (Or.inl rfl) hm hk) (Or.inl ⟨s, hm, hk⟩)
  · exact iff_of_true (hlast.mono fun L e M he => by simp [Neighbour]) trivial
  · dsimp only
    rcases hs : ((slotsOf ot).filter fun s => decide (s.ent.key = k)).head? with _ | s
    · rw [hs, Option.none_or]
      exact h.tlessequ_iff hlast (List.head?_eq_none_iff.1 hs)
    · rw [hs, Option.some_or]
      obtain ⟨hm, hk⟩ := List.mem_filter.1 (List.mem_of_head? hs)
      rw [decide_eq_true_eq] at hk
      exact iff_of_true (h.gives_stored (Or.inr rfl) hm hk) (Or.inl ⟨s, hm, hk⟩)

theorem oneEntryIndex_hides :
    SearchIndex oneEntryIndex (some oneEntry) ∧
      ¬Gives oneEntryIndex (some oneEntry) (btsrch exclusiveCfg 2 1 .tgtrequ ⟨0, 0, oneChar 65⟩ oneEntryIndex)
        (Neighbour .tgtrequ (entriesOf (some oneEntry)) (oneChar 65)) := by
  refine ⟨oneEntryIndex_search, fun hg => ?_⟩
  have h0 : (0 : UInt8) ∉ (oneChar 65).tail := tail_no_nul (oneChar_no_nul (by decide))
  have he : entriesOf (some oneEntry) = [] ++ ⟨oneChar 83, 5⟩ :: [] := by simp [entriesOf, oneEntry]
  have hlt : bytes (oneChar 65) < bytes (oneChar 83) := List.cons_lt_cons_iff.2 (Or.inl (by decide))
  have hc : srchCmp oneEntryIndex.hdr exclusiveCfg.exactOn ⟨0, 0, oneChar 65⟩ ⟨oneChar 83, 5⟩ < 0 := by
    rw [srchCmp, if_pos rfl, keyCmp_char rfl (oneChar_length 65) h0 (oneChar_length 83)]
    exact cmpOrd_neg.2 hlt
  have hs : srchSlot .tgtrequ (srchCmp oneEntryIndex.hdr exclusiveCfg.exactOn ⟨0, 0, oneChar 65⟩) (slotsOf (some oneEntry)) = none := by
    simp [slotsOf, oneEntry, srchSlot, above, equal, hc, hc.ne]
  have hrun : btsrch exclusiveCfg 2 1 .tgtrequ ⟨0, 0, oneChar 65⟩ oneEntryIndex = land oneEntryIndex none := by
    rw [← hs]
    exact btsrch_index oneEntryIndex_search (by rw [he]; exact List.pairwise_singleton _ _) (by simp) (fun _ => rfl) oneEntry_height
  rw [hrun] at hg
  refine hg.none_of he ⟨hlt.le, fun a ha _ => ?_⟩
  rw [he, List.nil_append, List.mem_singleton] at ha
  rw [ha]

theorem btsrch_neighbour_iff_clashIndex :
    Gives clashIndex (some clashTree) (btsrch exclusiveCfg 4 1 .tgtrequ ⟨0, 0, oneChar 72⟩ clashIndex)
        (Neighbour .tgtrequ (entriesOf (some clashTree)) (oneChar 72)) ↔
      NotHidden .tgtrequ (oneChar 72) (slotsOf (some clashTree)) :=
  btsrch_neighbour_iff clashIndex_search (by simp) rfl (oneChar_length 72) (tail_no_nul (oneChar_no_nul (by decide)))
    (by simp [heightOf, clashTree_height])

end Db3w
