/-
The indexes of a table as record commands see them: each has an expression that gives a record its
key, or none, and holds entries. Bringing an index up to date takes out the entry of the old key and
puts in one of the new key; `keycmp` decides whether the two differ, which entry is meant and whether
a new one is a duplicate. Whether the split of a page is refused depends on the pages, which are left
out here: an index says it for each entry that is still to be put in. For an index with character keys
the pages of its file do the same.
-/
import Db3w.Dbf.Transac
import Db3w.Ndx.Qcomp
import Db3w.Ndx.Tree

namespace Db3w

/-- An index: the head of its file, the key of a record's fields, `none` for NULL, its entries in order,
and which of the insertions to come are refused. -/
structure Idx where
  hdr : NdxHdr
  keyOf : List UInt8 → Option Key
  entries : List Ent
  refused : List Bool

/-- The open indexes of a table, the one that controls it, and the record at the position in that one, 0
when it has no position. -/
structure Indexes where
  ixs : List Idx
  order : Nat
  cur : Recno

namespace Idx

/-- What a key and a record are compared with in an index. -/
def target (k : Key) (r : Recno) : NdxEntry := ⟨0, r, k⟩

/-- `btsrdel`: NTNDX when there is no such entry. -/
def remove (cfg : Cfg) (k : Key) (r : Recno) (idx : Idx) : Except DbErr Idx :=
  if ∃ e ∈ idx.entries, entCmp idx.hdr cfg.exactOn (target k r) e = 0 then
    .ok { idx with entries := idx.entries.eraseP fun e => entCmp idx.hdr cfg.exactOn (target k r) e = 0 }
  else .error .index

/-- The entries with a new one at its place. -/
def inserted (cfg : Cfg) (k : Key) (r : Recno) (idx : Idx) : List Ent :=
  (idx.entries.takeWhile fun e => 0 < insCmp cfg idx.hdr (target k r) e) ++
    ⟨k, r⟩ :: idx.entries.dropWhile fun e => 0 < insCmp cfg idx.hdr (target k r) e

/-- `insert_new`: a duplicate is left out, and INVALID_ENTRY when a split is refused. -/
def insert (cfg : Cfg) (k : Key) (r : Recno) (idx : Idx) : Except DbErr Idx :=
  if ∃ e ∈ idx.entries, insCmp cfg idx.hdr (target k r) e = 0 then .ok idx
  else if idx.refused.headD false then .error .index
  else .ok { idx with entries := idx.inserted cfg k r, refused := idx.refused.tail }

/-- `remove_old_insert_new`. -/
def replace (cfg : Cfg) (r : Recno) (old new : Option Key) (idx : Idx) : Except DbErr Idx :=
  match old, new with
  | none, none => .ok idx
  | none, some b => idx.insert cfg b r
  | some a, none => idx.remove cfg a r
  | some a, some b =>
    if keycmp idx.hdr cfg.exactOn a b = 0 then .ok idx else idx.remove cfg a r >>= insert cfg b r

/-- `updndx` for one index, with the keys of the old and the new record. -/
def update (cfg : Cfg) (del : Bool) (r : Recno) (old new : Option Key) (idx : Idx) : Except DbErr Idx :=
  if del then idx.replace cfg r old new
  else
    match new with
    | none => .ok idx
    | some k => idx.insert cfg k r

/-- Whether `updndx` takes the index for changed: also when a duplicate was left out. -/
def changes (cfg : Cfg) (del : Bool) (old new : Option Key) (idx : Idx) : Bool :=
  match del, old, new with
  | false, _, b => b.isSome
  | true, none, none => false
  | true, some a, some b => keycmp idx.hdr cfg.exactOn a b ≠ 0
  | true, _, _ => true

/-- What `ndx_get_key` gives: off the table all fields are blank. -/
def keyAt (idx : Idx) (etof : Bool) (data : List UInt8) : Option Key :=
  idx.keyOf (if etof then List.replicate data.length 32 else data)

end Idx

/-- The loop of `updndx`, with whether each index has changed. `insert_new` clears the flag of the end of the table. -/
def updndxLoop (cfg : Cfg) (tof del : Bool) (r : Recno) (old new : List UInt8) : Bool → List Idx → Except DbErr (List (Bool × Idx))
  | _, [] => .ok []
  | eof, ix :: ixs => do
    let a := ix.keyAt (eof || tof) old
    let b := ix.keyAt (eof || tof) new
    let ix' ← ix.update cfg del r a b
    let rest ← updndxLoop cfg tof del r old new (eof && !(ix.changes cfg del a b && b.isSome)) ixs
    return (ix.changes cfg del a b, ix') :: rest

/-- What the loop leaves; the position in the controlling index is given up if that has changed. -/
def Indexes.after (s : Indexes) (res : List (Bool × Idx)) : Indexes :=
  { s with ixs := res.map Prod.snd, cur := if (res.map Prod.fst).getD s.order false then 0 else s.cur }

/-- The search of `go` in the controlling index, unless its position is at the record: NTNDX when there is no entry. -/
def Indexes.locate (cfg : Cfg) (r : Recno) (data : List UInt8) (s : Indexes) : Except DbErr Indexes :=
  if s.cur = r then .ok s
  else
    match s.ixs[s.order]? with
    | none => .ok s
    | some ix =>
      match ix.keyOf data with
      | none => .ok s
      | some k =>
        if ∃ e ∈ ix.entries, entCmp ix.hdr cfg.exactOn (Idx.target k r) e = 0 then .ok { s with cur := r } else .error .index

/-- `updndx` and the search of `go`; a filter may hide records. -/
def updndx (cfg : Cfg) (hidden : Nat → List UInt8 → Bool) : UpdNdx Indexes where
  update eof tof del r old new s := (updndxLoop cfg tof del r old new eof s.ixs).map s.after
  locate := Indexes.locate cfg
  hidden := hidden

/-! ## Entries of one record -/

namespace Idx

/-- Two indexes that hold the same entries. -/
structure Like (a b : Idx) : Prop where
  hdr : b.hdr = a.hdr
  keyOf : b.keyOf = a.keyOf
  entries : a.entries.Perm b.entries

/-- No insertion to come is refused. -/
def Granted (idx : Idx) : Prop := ∀ b ∈ idx.refused, b = false

/-- The entries of record `r`. -/
def own (idx : Idx) (r : Recno) : List Ent := idx.entries.filter fun e => e.recno = r

/-- The entries of other records. -/
def rest (idx : Idx) (r : Recno) : List Ent := idx.entries.filter fun e => ¬ e.recno = r

/-- Record `r`, with the given key, has no other entry than one of its key. -/
def SoundAt (idx : Idx) (r : Recno) (k : Option Key) : Prop :=
  idx.own r = [] ∨ ∃ a, k = some a ∧ idx.own r = [⟨a, r⟩]

section Own

variable {cfg : Cfg} {idx idx' : Idx} {r r' : Recno} {k : Key}

theorem cmpRecno_zero {a b : Recno} (h : cmpRecno a b = 0) : b = a := by
  unfold cmpRecno at h
  rcases lt_trichotomy a b with hlt | rfl | hgt
  · rw [if_neg (lt_asymm hlt), if_pos hlt] at h
    cases h
  · rfl
  · rw [if_pos hgt] at h
    cases h

/-- Only an entry of the record is meant. -/
theorem recno_of_entCmp {e : Ent} (h : entCmp idx.hdr cfg.exactOn (target k r) e = 0) : e.recno = r := by
  unfold entCmp at h
  split at h
  · contradiction
  · exact cmpRecno_zero h

/-- With its own key an entry is meant when the key is equal to itself. -/
theorem entCmp_self (h : keycmp idx.hdr cfg.exactOn k k = 0) :
    entCmp idx.hdr cfg.exactOn (target k r) ⟨k, r⟩ = 0 := by
  have hk : keyCmp idx.hdr cfg.exactOn (target k r) ⟨k, r⟩ = 0 := h
  unfold entCmp
  rw [if_neg (by rw [hk]; exact fun h => h rfl)]
  unfold cmpRecno target
  rw [if_neg (lt_irrefl _), if_neg (lt_irrefl _)]

theorem inserted_perm (cfg : Cfg) (k : Key) (r : Recno) (idx : Idx) : (idx.inserted cfg k r).Perm (⟨k, r⟩ :: idx.entries) := by
  unfold inserted
  refine List.perm_middle.trans (List.Perm.cons _ ?_)
  rw [List.takeWhile_append_dropWhile]

/-- An insertion that succeeds: a duplicate was left out, or the entry is at its place. -/
theorem insert_cases (h : idx.insert cfg k r = .ok idx') :
    ((∃ e ∈ idx.entries, insCmp cfg idx.hdr (target k r) e = 0) ∧ idx' = idx) ∨
      (¬(∃ e ∈ idx.entries, insCmp cfg idx.hdr (target k r) e = 0) ∧
        idx' = { idx with entries := idx.inserted cfg k r, refused := idx.refused.tail }) := by
  unfold insert at h
  split at h
  · rename_i hdup
    exact .inl ⟨hdup, (Except.ok.inj h).symm⟩
  · rename_i hdup
    split at h
    · cases h
    · exact .inr ⟨hdup, (Except.ok.inj h).symm⟩

theorem insert_frame (h : idx.insert cfg k r = .ok idx') : idx'.hdr = idx.hdr ∧ idx'.keyOf = idx.keyOf := by
  rcases insert_cases h with ⟨-, rfl⟩ | ⟨-, rfl⟩
  · exact ⟨rfl, rfl⟩
  · exact ⟨rfl, rfl⟩

/-- What is no duplicate has been put in. -/
theorem insert_perm {l : List Ent} (hp : idx.entries.Perm l) (hfree : ∀ e ∈ l, insCmp cfg idx.hdr (target k r) e ≠ 0)
    (h : idx.insert cfg k r = .ok idx') : idx'.entries.Perm (⟨k, r⟩ :: l) := by
  rcases insert_cases h with ⟨⟨e, he, hz⟩, -⟩ | ⟨-, rfl⟩
  · exact absurd hz (hfree e (hp.subset he))
  · exact (inserted_perm cfg k r idx).trans (hp.cons _)

/-- Where no split is refused an insertion succeeds. -/
theorem Granted.insert (hg : idx.Granted) (cfg : Cfg) (k : Key) (r : Recno) : ∃ idx', idx.insert cfg k r = .ok idx' ∧ idx'.Granted := by
  have hhead : idx.refused.headD false = false := by
    cases hr : idx.refused with
    | nil => rfl
    | cons b bs => exact hg b (by rw [hr]; exact List.mem_cons_self)
  unfold Idx.insert
  split
  · exact ⟨idx, rfl, hg⟩
  · rw [hhead, if_neg Bool.false_ne_true]
    exact ⟨_, rfl, fun b hb => hg b (List.mem_of_mem_tail hb)⟩

/-- What is removed was there and is an entry of the record. -/
theorem remove_cases (h : idx.remove cfg k r = .ok idx') :
    idx'.hdr = idx.hdr ∧ idx'.keyOf = idx.keyOf ∧
      ∃ e l₁ l₂, e.recno = r ∧ idx.entries = l₁ ++ e :: l₂ ∧ idx'.entries = l₁ ++ l₂ := by
  unfold remove at h
  split at h
  · rename_i hex
    obtain ⟨e, hmem, he⟩ := hex
    obtain rfl := Except.ok.inj h
    obtain ⟨a, l₁, l₂, -, ha, hsplit, herase⟩ := List.exists_of_eraseP
      (p := fun e => decide (entCmp idx.hdr cfg.exactOn (target k r) e = 0)) hmem (by simpa using he)
    rw [decide_eq_true_eq] at ha
    exact ⟨rfl, rfl, a, l₁, l₂, recno_of_entCmp ha, hsplit, herase⟩
  · cases h

/-- The entries of another record stay as they are. -/
theorem remove_own (h : idx.remove cfg k r = .ok idx') (hr : r' ≠ r) : idx'.own r' = idx.own r' := by
  obtain ⟨-, -, e, l₁, l₂, he, hsplit, herase⟩ := remove_cases h
  unfold own
  rw [hsplit, herase, List.filter_append, List.filter_append, List.filter_cons_of_neg]
  rw [decide_eq_true_eq, he]
  exact hr.symm

theorem insert_own (h : idx.insert cfg k r = .ok idx') (hr : r' ≠ r) : idx'.own r' = idx.own r' := by
  rcases insert_cases h with ⟨-, rfl⟩ | ⟨-, rfl⟩
  · rfl
  · unfold own inserted
    rw [List.filter_append, List.filter_cons_of_neg, ← List.filter_append, List.takeWhile_append_dropWhile]
    rw [decide_eq_true_eq]
    exact hr.symm

/-- Two updates one after the other. -/
theorem remove_insert_ok {a b : Key} (h : (idx.remove cfg a r >>= insert cfg b r) = .ok idx') :
    ∃ i₁, idx.remove cfg a r = .ok i₁ ∧ i₁.insert cfg b r = .ok idx' := by
  cases hrm : idx.remove cfg a r with
  | error e =>
    rw [hrm] at h
    cases h
  | ok i₁ =>
    rw [hrm] at h
    exact ⟨i₁, rfl, h⟩

theorem replace_frame {old new : Option Key} (h : idx.replace cfg r old new = .ok idx') :
    idx'.hdr = idx.hdr ∧ idx'.keyOf = idx.keyOf ∧ ∀ r', r' ≠ r → idx'.own r' = idx.own r' := by
  unfold replace at h
  split at h
  · obtain rfl := Except.ok.inj h
    exact ⟨rfl, rfl, fun _ _ => rfl⟩
  · obtain ⟨h1, h2⟩ := insert_frame h
    exact ⟨h1, h2, fun r' hr => insert_own h hr⟩
  · obtain ⟨h1, h2, -⟩ := remove_cases h
    exact ⟨h1, h2, fun r' hr => remove_own h hr⟩
  · split at h
    · obtain rfl := Except.ok.inj h
      exact ⟨rfl, rfl, fun _ _ => rfl⟩
    · obtain ⟨i₁, hrm, hin⟩ := remove_insert_ok h
      obtain ⟨h1, h2, -⟩ := remove_cases hrm
      obtain ⟨h1', h2'⟩ := insert_frame hin
      refine ⟨h1'.trans h1, h2'.trans h2, ?_⟩
      intro r' hr
      rw [insert_own hin hr, remove_own hrm hr]

/-- An index that is not taken for changed is as it was. -/
theorem replace_unchanged {old new : Option Key} (h : idx.replace cfg r old new = .ok idx') (hc : idx.changes cfg true old new = false) :
    idx' = idx := by
  match old, new with
  | none, none => exact (Except.ok.inj h).symm
  | none, some b => cases hc
  | some a, none => cases hc
  | some a, some b =>
    have hz : keycmp idx.hdr cfg.exactOn a b = 0 := by simpa [changes] using hc
    have hrun : idx.replace cfg r (some a) (some b) = .ok idx := if_pos hz
    exact (Except.ok.inj (hrun.symm.trans h)).symm

end Own

/-! ## Undoing -/

/-- A key of record `r` is no duplicate of one of another record. With UNIQUE off that is always so. -/
def Free (cfg : Cfg) (idx : Idx) (r : Recno) (k : Key) : Prop := ∀ e ∈ idx.rest r, insCmp cfg idx.hdr (target k r) e ≠ 0

section Undo

variable {cfg : Cfg} {idx idx' j : Idx} {r : Recno} {a b k : Key} {o n : Option Key}

theorem Free.congr (h : idx.Free cfg r k) (hdr : j.hdr = idx.hdr) : ∀ e ∈ idx.rest r, insCmp cfg j.hdr (target k r) e ≠ 0 := by
  rw [hdr]
  exact h

theorem Like.refl (idx : Idx) : Like idx idx := ⟨rfl, rfl, .refl _⟩

end Undo

end Idx

/-! ## All indexes -/

namespace Indexes

/-- The same entries in every index. -/
structure Like (s t : Indexes) : Prop where
  ixs : List.Forall₂ Idx.Like s.ixs t.ixs
  order : t.order = s.order

/-- No insertion to come is refused in any index. -/
def Granted (s : Indexes) : Prop := ∀ ix ∈ s.ixs, ix.Granted

/-- The position in the controlling index is at one of its entries. -/
def Placed (s : Indexes) : Prop := s.cur = 0 ∨ ∀ ix ∈ s.ixs[s.order]?, ∃ e ∈ ix.entries, e.recno = s.cur

theorem Like.refl (s : Indexes) : Like s s := ⟨List.forall₂_same.mpr fun ix _ => Idx.Like.refl ix, rfl⟩

end Indexes

section Loop

variable {cfg : Cfg} {hidden : Nat → List UInt8 → Bool} {ixs js : List Idx} {res : List (Bool × Idx)} {s s₁ s₂ j : Indexes} {r : Recno}
  {old new : List UInt8}

/-- With the cursor on a record the loop brings each index up to date by itself. -/
theorem updndxLoop_ok : updndxLoop cfg false true r old new false ixs = .ok res ↔
    List.Forall₂ (fun ix p => ix.replace cfg r (ix.keyOf old) (ix.keyOf new) = .ok p.2 ∧
      p.1 = ix.changes cfg true (ix.keyOf old) (ix.keyOf new)) ixs res := by
  induction ixs generalizing res with
  | nil =>
    rw [List.forall₂_nil_left_iff, updndxLoop]
    exact ⟨fun h => (Except.ok.inj h).symm, fun h => by rw [h]⟩
  | cons ix ixs ih =>
    have hstep : updndxLoop cfg false true r old new false (ix :: ixs) =
        (ix.replace cfg r (ix.keyOf old) (ix.keyOf new)).bind fun ix' =>
          (updndxLoop cfg false true r old new false ixs).map
            fun rest => (ix.changes cfg true (ix.keyOf old) (ix.keyOf new), ix') :: rest := by
      rfl
    rw [hstep]
    cases h₁ : ix.replace cfg r (ix.keyOf old) (ix.keyOf new) with
    | error e =>
      refine ⟨fun h => (nomatch h), fun h => ?_⟩
      cases h with
      | cons hp _ =>
        rw [h₁] at hp
        cases hp.1
    | ok ix' =>
      rw [Except.bind]
      cases h₂ : updndxLoop cfg false true r old new false ixs with
      | error e =>
        refine ⟨fun h => (nomatch h), fun h => ?_⟩
        cases h with
        | cons _ hrest =>
          rw [ih.mpr hrest] at h₂
          cases h₂
      | ok rest =>
        constructor
        · intro h
          obtain rfl := Except.ok.inj h
          exact .cons ⟨h₁, rfl⟩ (ih.mp h₂)
        · intro h
          cases h with
          | @cons _ p _ rest' hp hrest =>
            obtain rfl : rest = rest' := Except.ok.inj (h₂.symm.trans (ih.mpr hrest))
            obtain rfl : ix' = p.2 := Except.ok.inj (h₁.symm.trans hp.1)
            rw [← hp.2]
            rfl

/-- `updndx` of a record the cursor is on. -/
theorem updndx_ok : (updndx cfg hidden).update false false true r old new s = .ok s₁ ↔
    ∃ res, updndxLoop cfg false true r old new false s.ixs = .ok res ∧ s₁ = s.after res := by
  show (updndxLoop cfg false true r old new false s.ixs).map s.after = .ok s₁ ↔ _
  cases updndxLoop cfg false true r old new false s.ixs with
  | error e => exact ⟨fun h => (nomatch h), fun ⟨_, h, _⟩ => (nomatch h)⟩
  | ok res =>
    constructor
    · intro h
      exact ⟨res, rfl, (Except.ok.inj h).symm⟩
    · rintro ⟨res', h, rfl⟩
      obtain rfl := Except.ok.inj h
      rfl

/-- What an update leaves as it is in every index. -/
theorem updndxLoop_frame (h : updndxLoop cfg false true r old new false ixs = .ok res) :
    List.Forall₂ (fun ix ix' : Idx => ix'.hdr = ix.hdr ∧ ix'.keyOf = ix.keyOf ∧ ∀ r', r' ≠ r → ix'.own r' = ix.own r') ixs (res.map Prod.snd) := by
  rw [List.forall₂_map_right_iff]
  exact (updndxLoop_ok.mp h).imp fun ix p hp => Idx.replace_frame hp.1

theorem forall₂_mem_left {α β : Type} {R : α → β → Prop} {l : List α} {m : List β} (h : List.Forall₂ R l m) {a : α} (ha : a ∈ l) :
    ∃ b ∈ m, R a b := by
  obtain ⟨i, hi, rfl⟩ := List.getElem_of_mem ha
  have hi' : i < m.length := by
    rw [← h.length_eq]
    exact hi
  exact ⟨m[i], List.getElem_mem _, h.get hi hi'⟩

theorem forall₂_getElem? {α β : Type} {R : α → β → Prop} {l : List α} {m : List β} (h : List.Forall₂ R l m) {i : Nat} {b : β} (hb : m[i]? = some b) :
    ∃ a, l[i]? = some a ∧ R a b := by
  obtain ⟨hlt, rfl⟩ := List.getElem?_eq_some_iff.mp hb
  have hlt' : i < l.length := by
    rw [h.length_eq]
    exact hlt
  exact ⟨l[i], List.getElem?_eq_getElem hlt', h.get hlt' hlt⟩

/-- A search that succeeds: there was nothing to search for, or an entry was found. -/
theorem locate_cases {data : List UInt8} (h : s.locate cfg r data = .ok s₁) :
    ((s.cur = r ∨ ∀ ix ∈ s.ixs[s.order]?, ix.keyOf data = none) ∧ s₁ = s) ∨
      ∃ ix k, s.ixs[s.order]? = some ix ∧ ix.keyOf data = some k ∧
        (∃ e ∈ ix.entries, entCmp ix.hdr cfg.exactOn (Idx.target k r) e = 0) ∧ s₁ = { s with cur := r } := by
  unfold Indexes.locate at h
  split at h
  · exact .inl ⟨.inl ‹_›, (Except.ok.inj h).symm⟩
  split at h
  · rename_i hnone
    exact .inl ⟨.inr (by rw [hnone]; exact fun _ h => (nomatch h)), (Except.ok.inj h).symm⟩
  rename_i ix hix
  split at h
  · rename_i hkey
    refine .inl ⟨.inr ?_, (Except.ok.inj h).symm⟩
    rw [hix]
    rintro _ ⟨⟩
    exact hkey
  · rename_i k hkey
    split at h
    · exact .inr ⟨ix, k, hix, hkey, ‹_›, (Except.ok.inj h).symm⟩
    · cases h

theorem locate_ixs {data : List UInt8} (h : s.locate cfg r data = .ok s₁) : s₁.ixs = s.ixs ∧ s₁.order = s.order := by
  rcases locate_cases h with ⟨-, rfl⟩ | ⟨ix, k, -, -, -, rfl⟩
  · exact ⟨rfl, rfl⟩
  · exact ⟨rfl, rfl⟩

theorem Indexes.Placed.locate {data : List UInt8} (hp : s.Placed) (h : s.locate cfg r data = .ok s₁) : s₁.Placed := by
  rcases locate_cases h with ⟨-, rfl⟩ | ⟨ix, k, hix, -, ⟨e, he, hz⟩, rfl⟩
  · exact hp
  · refine .inr ?_
    show ∀ ix ∈ s.ixs[s.order]?, ∃ e ∈ ix.entries, e.recno = r
    rw [hix]
    rintro _ ⟨⟩
    exact ⟨e, he, Idx.recno_of_entCmp hz⟩

/-- After an update the position is given up, or the controlling index is as it was. -/
theorem Indexes.Placed.after (hp : s.Placed) (h : updndxLoop cfg false true r old new false s.ixs = .ok res) : (s.after res).Placed := by
  have hf := updndxLoop_ok.mp h
  unfold Indexes.Placed Indexes.after
  dsimp only
  split
  · exact .inl rfl
  · rename_i hno
    rcases hp with h0 | hp
    · exact .inl h0
    · refine .inr fun ix' hix' => ?_
      rw [Option.mem_def, List.getElem?_map, Option.map_eq_some_iff] at hix'
      obtain ⟨p, hres, rfl⟩ := hix'
      obtain ⟨ix, hix, hrep, hchg⟩ := forall₂_getElem? hf hres
      have hp1 : p.1 = false := by
        rw [List.getD_eq_getElem?_getD, List.getElem?_map, hres] at hno
        simpa using hno
      rw [Idx.replace_unchanged hrep (hchg.symm.trans hp1)]
      exact hp ix hix

end Loop

end Db3w
