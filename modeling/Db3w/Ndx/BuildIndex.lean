/-
Indexes built in one go are right. With the keys of a table in the order of the tree, `qindex` makes a
well-formed character-key index of them, with an entry for each record that has a key; with UNIQUE,
with one for each key, and SEEK answers from it as from the table. A table without keys has no index built: the
last entry of an empty leaf is asked for.
-/
import Db3w.Ndx.Qindex
import Db3w.Ndx.Seek

namespace Db3w

/-- The keys of the records of a table: of full length, without a NUL byte. -/
structure KeyTable (keylen reccnt : Nat) (keyOf : Recno → Option Key) : Prop where
  recno : ∀ {r key}, keyOf r = some key → 1 ≤ r ∧ r ≤ reccnt
  length : ∀ {r key}, keyOf r = some key → key.length = keylen
  text : ∀ {r key}, keyOf r = some key → 0 ∉ key

/-- The sort records of a table. -/
def sortRecs (keyOf : Recno → Option Key) : Set VsortRec := {p | keyOf p.recNo.toNat = some p.key}

/-- The sort of an index with the header `hdr`. -/
structure SortsFor (v : VsortCtl) (hdr : NdxHdr) (uniqueOn : Bool) : Prop where
  qcomp : v.qcomp = sortQcomp hdr uniqueOn
  ascending : v.descending = false
  fits : v.srtbufsz < 2 ^ 32

section Order

variable {hdr : NdxHdr} {uniqueOn : Bool} {keyOf : Recno → Option Key} {reccnt : Nat} {p q : VsortRec} {v : VsortCtl}

theorem KeyTable.recnos (h : KeyTable hdr.keylen reccnt keyOf) (hn : reccnt < 2 ^ 31) : Recnos (sortRecs keyOf) := by
  refine ⟨fun p hp h0 => ?_, fun p hp h0 => ?_, fun p hp q hq hpq => ?_⟩
  · have := (h.recno hp).1
    rw [h0] at this
    exact absurd this (by decide)
  · have := (h.recno hp).2
    rw [h0, show (-1 : UInt64).toNat = 2 ^ 64 - 1 from rfl] at this
    exact absurd (this.trans_lt hn) (by decide)
  · have hq' : keyOf q.recNo.toNat = some q.key := hq
    rw [← hpq, show keyOf p.recNo.toNat = some p.key from hp] at hq'
    exact Option.some.inj hq'

theorem KeyTable.keycmp (h : KeyTable hdr.keylen reccnt keyOf) (ht : hdr.keytyp = 0) (hp : p ∈ sortRecs keyOf) (hq : q ∈ sortRecs keyOf) :
    keycmp hdr false p.key q.key = cmpOrd (bytes p.key) (bytes q.key) :=
  @keyCmp_char _ _ ⟨0, 0, p.key⟩ q.ent ht (h.length hp) (tail_no_nul (h.text hp)) (h.length hq)

/-- What the sort compares: the key, and the record without UNIQUE. -/
def sortRank (uniqueOn : Bool) (p : VsortRec) : List ℕ ×ₗ ℕ := if uniqueOn then toLex (bytes p.key, 0) else p.ent.rank

theorem sortRank_le (h : sortRank uniqueOn p ≤ sortRank uniqueOn q) : bytes p.key ≤ bytes q.key := by
  unfold sortRank at h
  split at h
  all_goals
    rcases Prod.Lex.toLex_le_toLex.1 h with h | h
    · exact h.le
    · exact h.1.le

theorem sign_cmpOrd {α : Type} [LinearOrder α] (a b : α) : (cmpOrd a b).sign = cmpOrd a b := by
  unfold cmpOrd
  split_ifs <;> rfl

/-- A byte holds the type of character keys. -/
theorem sortQcomp_char (ht : hdr.keytyp = 0) : sortQcomp hdr uniqueOn p q = Db3w.qcomp hdr uniqueOn p q hdr.keylen hdr.keytyp := by
  rw [sortQcomp, ht]

/-- The comparison of the sort is that of the ranks. -/
theorem KeyTable.qcomp_sign (h : KeyTable hdr.keylen reccnt keyOf) (hn : reccnt < 2 ^ 31) (ht : hdr.keytyp = 0) (hp : p ∈ sortRecs keyOf)
    (hq : q ∈ sortRecs keyOf) : (Db3w.qcomp hdr uniqueOn p q hdr.keylen hdr.keytyp).sign = cmpOrd (sortRank uniqueOn p) (sortRank uniqueOn q) := by
  have hS := h.recnos hn
  have hkey := h.keycmp ht hp hq
  have hp1 : p.recNo.toNat ≤ reccnt := (h.recno hp).2
  have hq1 : q.recNo.toNat ≤ reccnt := (h.recno hq).2
  cases uniqueOn with
  | false =>
    have hfits : DiffFits p.recNo q.recNo := by
      constructor <;> intro hlt <;> rw [UInt64.lt_iff_toNat_lt] at hlt <;> rw [Nat.mod_eq_of_lt (by omega)] <;> omega
    have hsign : (sortCmp hdr p q).sign = treeCmp hdr false p q := (sign_iff hS hp hq (by rw [ht]; decide)).2 fun _ => hfits
    rw [← sortQcomp_char ht]
    change (sortCmp hdr p q).sign = _
    rw [hsign, treeCmp, hkey]
    show _ = cmpOrd p.ent.rank q.ent.rank
    rw [Ent.rank, Ent.rank, cmpOrd_lex]
    show (if cmpOrd (bytes p.key) (bytes q.key) ≠ 0 then _ else _) = if cmpOrd (bytes p.key) (bytes q.key) ≠ 0 then _ else _
    rw [sign_cmpOrd]
    rfl
  | true =>
    have hr : sortRank true p = toLex (bytes p.key, 0) ∧ sortRank true q = toLex (bytes q.key, 0) := ⟨rfl, rfl⟩
    have hkey' : (if hdr.keytyp = CMBK then qcompParts hdr.cmbkey p.key q.key else if hdr.keytyp ≠ 0 then nkcmp p.key q.key
        else skcmp p.key q.key hdr.keylen) = cmpOrd (bytes p.key) (bytes q.key) := by
      rw [← hkey, Db3w.keycmp, ht]
      simp [CMBK]
    have hlow : ∀ a ∈ sortRecs keyOf, ∀ b ∈ sortRecs keyOf, ¬(a.recNo = 0 ∨ b.recNo = -1) := by
      rintro a ha b hb (h | h)
      · exact hS.ne_zero a ha h
      · exact hS.ne_max b hb h
    rw [hr.1, hr.2, cmpOrd_lex, cmpOrd_self, ite_not, Db3w.qcomp]
    dsimp only
    rw [hkey', if_neg (hlow p hp q hq), if_neg (hlow q hq p hp), if_pos rfl, ite_not]
    have hsame : (if cmpOrd (bytes p.key) (bytes q.key) = 0 then 0 else cmpOrd (bytes p.key) (bytes q.key)) = cmpOrd (bytes p.key) (bytes q.key) := by
      split
      · rename_i h0
        rw [h0]
      · rfl
    rw [hsame]
    split
    · rename_i hrec
      rw [hS.inj p hp q hq hrec, cmpOrd_self]
      rfl
    · exact sign_cmpOrd _ _

theorem SortsFor.cmp_eq (hv : SortsFor v hdr uniqueOn) (p q : VsortRec) : v.cmp p q = sortQcomp hdr uniqueOn p q := by
  unfold VsortCtl.cmp
  rw [hv.ascending, if_neg Bool.false_ne_true, hv.qcomp]

/-- The order of the sort. -/
theorem SortsFor.cmp_le (hv : SortsFor v hdr uniqueOn) (h : KeyTable hdr.keylen reccnt keyOf) (hn : reccnt < 2 ^ 31) (ht : hdr.keytyp = 0)
    (hp : p ∈ sortRecs keyOf) (hq : q ∈ sortRecs keyOf) : v.cmp p q ≤ 0 ↔ sortRank uniqueOn p ≤ sortRank uniqueOn q := by
  rw [hv.cmp_eq, sortQcomp_char ht, ← not_lt, ← Int.sign_pos_iff, h.qcomp_sign hn ht hp hq, cmpOrd_pos, not_lt]

theorem SortsFor.orderOn (hv : SortsFor v hdr uniqueOn) (h : KeyTable hdr.keylen reccnt keyOf) (hn : reccnt < 2 ^ 31) (ht : hdr.keytyp = 0) :
    VsortCtl.OrderOn v.cmp (sortRecs keyOf) := by
  have hcmp : ∀ p ∈ sortRecs keyOf, ∀ q ∈ sortRecs keyOf, (v.cmp p q).sign = cmpOrd (sortRank uniqueOn p) (sortRank uniqueOn q) :=
    fun p hp q hq => (congrArg Int.sign ((hv.cmp_eq p q).trans (sortQcomp_char ht))).trans (h.qcomp_sign hn ht hp hq)
  refine ⟨fun p hp q hq => ?_, fun p hp q hq r hr hpq hqr => ?_, fun p hp q hq => ?_⟩
  · rw [← Int.sign_neg_iff, ← Int.sign_pos_iff, hcmp p hp q hq, hcmp q hq p hp, cmpOrd_neg, cmpOrd_pos]
  · rw [hv.cmp_le h hn ht hp hq] at hpq
    rw [hv.cmp_le h hn ht hq hr] at hqr
    exact (hv.cmp_le h hn ht hp hr).2 (hpq.trans hqr)
  · rw [hv.cmp_eq, sortQcomp, Db3w.qcomp]
    split
    · exact le_rfl
    · rw [if_pos (.inr hq)]
      decide

/-! ## The keys that are given out -/

theorem mem_qindexGetKey (h : KeyTable hdr.keylen reccnt keyOf) (hn : reccnt < 2 ^ 31) {n : Nat} :
    qindexGetKey keyOf n = some p ↔ p.recNo.toNat = n + 1 ∧ p ∈ sortRecs keyOf := by
  unfold qindexGetKey sortRecs
  rw [Option.map_eq_some_iff]
  constructor
  · rintro ⟨key, hkey, rfl⟩
    have hle : n + 1 ≤ reccnt := (h.recno hkey).2
    have hrec : (UInt64.ofNat (n + 1)).toNat = n + 1 := UInt64.toNat_ofNat_of_lt' (by rw [UInt64.size]; omega)
    exact ⟨hrec, show keyOf _ = some key by rw [hrec]; exact hkey⟩
  · rintro ⟨hrec, hp⟩
    refine ⟨p.key, hrec ▸ hp, ?_⟩
    rw [← hrec, UInt64.ofNat_toNat]

theorem mem_keysOf (h : KeyTable hdr.keylen reccnt keyOf) (hn : reccnt < 2 ^ 31) :
    p ∈ VsortCtl.keysOf (qindexGetKey keyOf) 0 reccnt ↔ p ∈ sortRecs keyOf := by
  unfold VsortCtl.keysOf
  rw [List.mem_filterMap]
  constructor
  · rintro ⟨n, -, hn'⟩
    exact ((mem_qindexGetKey h hn).1 hn').2
  · intro hp
    have hb : 1 ≤ p.recNo.toNat ∧ p.recNo.toNat ≤ reccnt := h.recno hp
    refine ⟨p.recNo.toNat - 1, List.mem_range'_1.2 (by omega), (mem_qindexGetKey h hn).2 ⟨by omega, hp⟩⟩

/-- The sort record of a record with a key. -/
theorem KeyTable.sortRec (h : KeyTable hdr.keylen reccnt keyOf) (hn : reccnt < 2 ^ 31) {r : Nat} {key : Key} (hk : keyOf r = some key) :
    ∃ p ∈ sortRecs keyOf, p.ent = ⟨key, r⟩ := by
  have hb : r ≤ reccnt := (h.recno hk).2
  have hrec : (UInt64.ofNat r).toNat = r := UInt64.toNat_ofNat_of_lt' (by rw [UInt64.size]; omega)
  refine ⟨⟨UInt64.ofNat r, key⟩, show keyOf _ = some key by rw [hrec]; exact hk, ?_⟩
  rw [VsortRec.ent, hrec]

theorem nodup_keysOf (h : KeyTable hdr.keylen reccnt keyOf) (hn : reccnt < 2 ^ 31) : (VsortCtl.keysOf (qindexGetKey keyOf) 0 reccnt).Nodup := by
  refine List.Nodup.filterMap (fun a b p ha hb => ?_) List.nodup_range'
  have h1 := ((mem_qindexGetKey h hn).1 ha).1
  have h2 := ((mem_qindexGetKey h hn).1 hb).1
  omega

theorem length_keysOf_le : (VsortCtl.keysOf (qindexGetKey keyOf) 0 reccnt).length ≤ reccnt :=
  (List.length_filterMap_le _ _).trans List.length_range'.le

theorem VsortRec.ent_inj (h : p.ent = q.ent) : p = q := by
  obtain ⟨h1, h2⟩ := Ent.mk.inj h
  cases p
  cases q
  exact congrArg₂ VsortRec.mk (UInt64.toNat_inj.1 h2) h1

/-- Without UNIQUE the records of a sorted file are in the order of the tree. -/
theorem ranks_lt {f : List VsortRec} (hs : f.Pairwise fun p q => sortRank false p ≤ sortRank false q) (hnd : f.Nodup) :
    (f.map VsortRec.ent).Pairwise fun a b => a.rank < b.rank := by
  rw [List.pairwise_map]
  refine (hs.and hnd).imp fun {p q} hpq => lt_of_le_of_ne hpq.1 fun heq => hpq.2 (VsortRec.ent_inj (Ent.rank_inj heq))

/-- The records kept after `last` have keys that grow, and the keys of the others are among theirs. -/
theorem keptKeys_unique {α : Type} [LinearOrder α] (f : VsortRec → α) {same : VsortRec → VsortRec → Bool} {last : VsortRec} {L : List VsortRec}
    (hsame : ∀ a ∈ last :: L, ∀ b ∈ last :: L, same a b = true ↔ f a = f b) (hs : (last :: L).Pairwise fun a b => f a ≤ f b) :
    (last :: keptKeys same true last L).Pairwise (fun a b => f a < f b) ∧
      ∀ x ∈ last :: L, ∃ y ∈ last :: keptKeys same true last L, f y = f x := by
  induction L generalizing last with
  | nil => simp [keptKeys]
  | cons r L ih =>
    obtain ⟨hlast, hrL⟩ := List.pairwise_cons.1 hs
    rw [keptKeys, Bool.true_and]
    cases hc : same last r with
    | true =>
      -- `r` has the key of `last` and is passed over
      have heq := (hsame last (by simp) r (by simp)).1 hc
      have hsub : ∀ a ∈ last :: L, a ∈ last :: r :: L := fun a ha => by
        rcases List.mem_cons.1 ha with rfl | ha
        · simp
        · simp [ha]
      obtain ⟨h1, h2⟩ := ih (fun a ha b hb => hsame a (hsub a ha) b (hsub b hb))
        (List.pairwise_cons.2 ⟨fun b hb => hlast b (by simp [hb]), (List.pairwise_cons.1 hrL).2⟩)
      rw [if_pos rfl]
      refine ⟨h1, fun x hx => ?_⟩
      rcases List.mem_cons.1 hx with rfl | hx
      · exact h2 x (by simp)
      · rcases List.mem_cons.1 hx with rfl | hx
        · exact ⟨last, by simp, heq⟩
        · exact h2 x (by simp [hx])
    | false =>
      have hne : f last ≠ f r := fun h => by
        rw [(hsame last (by simp) r (by simp)).2 h] at hc
        cases hc
      have hlt : f last < f r := lt_of_le_of_ne (hlast r (by simp)) hne
      obtain ⟨h1, h2⟩ := ih (fun a ha b hb => hsame a (List.mem_cons_of_mem _ ha) b (List.mem_cons_of_mem _ hb)) hrL
      rw [if_neg Bool.false_ne_true]
      refine ⟨List.pairwise_cons.2 ⟨fun b hb => ?_, h1⟩, fun x hx => ?_⟩
      · rcases List.mem_cons.1 hb with rfl | hb
        · exact hlt
        · exact hlt.trans ((List.pairwise_cons.1 h1).1 b hb)
      · rcases List.mem_cons.1 hx with rfl | hx
        · exact ⟨x, by simp, rfl⟩
        · obtain ⟨y, hy, he⟩ := h2 x hx
          exact ⟨y, List.mem_cons_of_mem _ hy, he⟩

/-! ## The index -/

/-- The entries of an index of the keys: one for each record that has a key, and with UNIQUE one for each key. -/
structure IndexOf (uniqueOn : Bool) (keyOf : Recno → Option Key) (L : List Ent) : Prop where
  entry : ∀ e ∈ L, keyOf e.recno = some e.key
  key : ∀ r key, keyOf r = some key → ∃ e ∈ L, e.key = key ∧ (uniqueOn = false → e.recno = r)
  distinct : uniqueOn = true → L.Pairwise fun a b => a.key ≠ b.key

/-- What is given out of the sorted file makes an index. -/
theorem indexOf_kept (hv : SortsFor v hdr uniqueOn) (h : KeyTable hdr.keylen reccnt keyOf) (hn : reccnt < 2 ^ 31) (ht : hdr.keytyp = 0)
    {f : List VsortRec} (hperm : f.Perm (VsortCtl.keysOf (qindexGetKey keyOf) 0 reccnt)) (hs : f.Pairwise (v.le · ·)) {zero : VsortRec} (h0 : zero.recNo = 0) :
    let L := (keptKeys (sameKeyent hdr) uniqueOn zero f).map VsortRec.ent
    IndexOf uniqueOn keyOf L ∧ L.Pairwise (fun a b => a.rank < b.rank) ∧ (f = [] ↔ L = []) := by
  intro L
  have hmem : ∀ p, p ∈ f ↔ p ∈ sortRecs keyOf := fun p => hperm.mem_iff.trans (mem_keysOf h hn)
  have hranks : f.Pairwise fun p q => sortRank uniqueOn p ≤ sortRank uniqueOn q :=
    hs.imp_of_mem fun {p q} hp hq hpq => (hv.cmp_le h hn ht ((hmem p).1 hp) ((hmem q).1 hq)).1 (of_decide_eq_true hpq)
  cases uniqueOn with
  | false =>
    have hL : L = f.map VsortRec.ent := congrArg (List.map VsortRec.ent) (keptKeys_off _ _ f)
    rw [hL]
    refine ⟨⟨fun e he => ?_, fun r key hk => ?_, fun h => by cases h⟩, ranks_lt hranks (hperm.nodup_iff.2 (nodup_keysOf h hn)), by simp⟩
    · obtain ⟨p, hp, rfl⟩ := List.mem_map.1 he
      exact (hmem p).1 hp
    · obtain ⟨p, hp, he⟩ := h.sortRec hn hk
      exact ⟨p.ent, List.mem_map_of_mem ((hmem p).2 hp), by rw [he], fun _ => by rw [he]⟩
  | true =>
    have hsame : ∀ a ∈ f, ∀ b ∈ f, sameKeyent hdr a b = true ↔ bytes a.key = bytes b.key := by
      intro a ha b hb
      have hsign := @KeyTable.qcomp_sign _ true _ _ _ _ h hn ht ((hmem a).1 ha) ((hmem b).1 hb)
      unfold sameKeyent
      rw [decide_eq_true_eq, ← Int.sign_eq_zero_iff_zero, hsign, cmpOrd_zero]
      simp [sortRank]
    cases f with
    | nil =>
      refine ⟨⟨by simp [L, keptKeys], fun r key hk => ?_, by simp [L, keptKeys]⟩, by simp [L, keptKeys], by simp [L, keptKeys]⟩
      obtain ⟨p, hp, -⟩ := h.sortRec hn hk
      exact absurd ((hmem p).2 hp) List.not_mem_nil
    | cons r f =>
      -- the first record follows a sentinel, which has no key
      have hfirst : sameKeyent hdr zero r = false := by
        have hne : ¬zero.recNo = r.recNo := fun he => (h.recnos hn).ne_zero r ((hmem r).1 (by simp)) (he.symm.trans h0)
        unfold sameKeyent
        rw [decide_eq_false_iff_not, Db3w.qcomp, if_neg hne, if_pos (.inl h0)]
        decide
      have hL : L = (r :: keptKeys (sameKeyent hdr) true r f).map VsortRec.ent := by
        show (keptKeys _ _ _ _).map _ = _
        rw [keptKeys, hfirst]
        rfl
      have hle : (r :: f).Pairwise fun a b => bytes a.key ≤ bytes b.key := hranks.imp fun {a b} hab => sortRank_le hab
      obtain ⟨hlt, hall⟩ := keptKeys_unique (fun p => bytes p.key) hsame hle
      have hsub : ∀ p ∈ r :: keptKeys (sameKeyent hdr) true r f, p ∈ r :: f := fun p hp =>
        ((keptKeys_sublist (sameKeyent hdr) r f).cons_cons r).subset hp
      rw [hL]
      refine ⟨⟨fun e he => ?_, fun s key hk => ?_, fun _ => ?_⟩, ?_, by simp⟩
      · obtain ⟨p, hp, rfl⟩ := List.mem_map.1 he
        exact (hmem p).1 (hsub p hp)
      · obtain ⟨p, hp, he⟩ := h.sortRec hn hk
        obtain ⟨y, hy, hyp⟩ := hall p ((hmem p).2 hp)
        refine ⟨y.ent, List.mem_map_of_mem hy, ?_, fun h => by cases h⟩
        have hkey : p.key = key := congrArg Ent.key he
        rw [← hkey]
        exact bytes_inj.1 hyp
      · exact List.pairwise_map.2 (hlt.imp fun {a b} hab heq => absurd hab (by rw [show a.key = b.key from heq]; exact lt_irrefl _))
      · exact List.pairwise_map.2 (hlt.imp fun {a b} hab => Prod.Lex.toLex_lt_toLex.2 (Or.inl hab))

/-- There is a depth at which the keys fit into the leaves, and none before it. -/
theorem exists_depth {recpp n : Nat} (hpp : 1 ≤ recpp) : ∃ D, n ≤ (recpp + 1) ^ D * recpp ∧ (∀ l < D, (recpp + 1) ^ l * recpp < n) ∧ D ≤ n := by
  have hgrow : ∀ l, l < (recpp + 1) ^ l * recpp := fun l =>
    (Nat.lt_pow_self (by omega)).trans_le (Nat.le_mul_of_pos_right _ hpp)
  have hex : ∃ D, n ≤ (recpp + 1) ^ D * recpp := ⟨n, (hgrow n).le⟩
  exact ⟨Nat.find hex, Nat.find_spec hex, fun l hl => not_le.1 (Nat.find_min hex hl), Nat.find_min' hex (hgrow n).le⟩

end Order

/-- The sort and `build_bt` after it: `K` are the keys that are given out. -/
theorem qindex_built {st : Ndx} {uniqueOn : Bool} {v : VsortCtl} {keyOf : Recno → Option Key} {reccnt fuel : Nat} {K : List VsortRec}
    {f : List VsortRec} {w : Nat} (hsort : v.vsort_ fuel (fun _ => 0) (qindexGetKey keyOf) reccnt false = some ((w : Int), f))
    (hK : K = keptKeys (sameKeyent st.hdr) uniqueOn ⟨0, List.replicate (v.vrecSize - 8) 0⟩ f) (hpp : 1 ≤ st.hdr.norecpp)
    (hpc : 0 < st.hdr.pagecnt) (hfresh : Fresh st) (hsmall : f.length < 2 ^ 32) (hfuel : f.length < fuel) :
    (K = [] → ∃ st', qindex uniqueOn fuel v keyOf reccnt st = .error (.invalidEntry st.seq) st') ∧
    (K ≠ [] → ∃ st' t, qindex uniqueOn fuel v keyOf reccnt st = .ok () st' ∧ st'.hdr = { st.hdr with rootno := t.page, pagecnt := st'.hdr.pagecnt } ∧
      Stored st' t ∧ t.Shape SameKey ∧ t.Sized (· ≤ st.hdr.norecpp) ∧ (∃ d, t.AtDepth d) ∧ t.entries = K.map VsortRec.ent ∧ t.pages.Nodup) := by
  let feed : Feed := ⟨[], f, ⟨0, List.replicate (v.vrecSize - 8) 0⟩⟩
  have hfeed : feed.keys st.hdr uniqueOn = K := hK.symm
  have hlen : K.length ≤ f.length := by rw [hK]; exact (keptKeys_sublist _ _ _).length_le
  have hcount : (if uniqueOn then countKeys uniqueOn v.nkeys st.hdr (f.length + 1) feed else f.length) = K.length := by
    cases uniqueOn with
    | false =>
      rw [if_neg Bool.false_ne_true, hK, keptKeys_off]
    | true => rw [if_pos rfl, countKeys_eq v.nkeys_pos (by rw [hfeed]; omega), hfeed]
  let st1 : Ndx := { st with hdr := { st.hdr with rootno := st.hdr.pagecnt } }
  have hkeys : BldSt.keys st1.hdr uniqueOn ⟨feed, 0, ⟨0, 0, []⟩⟩ = K := hfeed
  have hrun : qindex uniqueOn fuel v keyOf reccnt st =
      (buildBt uniqueOn v.nkeys K.length st.hdr.norecpp fuel 1 st.hdr.pagecnt ⟨feed, 0, ⟨0, 0, []⟩⟩ >>= fun _ => modify fun st => { st with wHdr := true }) st1 := by
    rw [qindex, hsort]
    dsimp only
    rw [if_neg (by omega), NdxM.bind_ok (NdxM.get_apply st), hcount, NdxM.bind_ok (NdxM.modify_apply _ _)]
  rw [hrun]
  constructor
  · intro hnil
    obtain ⟨fuel, rfl⟩ : ∃ n, fuel = n + 1 := ⟨fuel - 1, by omega⟩
    refine ⟨takePage st1, NdxM.bind_error ?_⟩
    show buildBt _ _ _ _ _ _ st1.hdr.pagecnt _ st1 = _
    rw [buildBt, NdxM.bind_ok (getpage_new le_rfl), NdxM.bind_ok (takePage_apply st1), hnil,
      if_pos (show ([] : List VsortRec).length ≤ 1 * st.hdr.norecpp from Nat.zero_le _)]
    simp only [List.length_nil, Nat.zero_sub, Nat.zero_mod, Nat.zero_min]
    rfl
  · intro hne
    obtain ⟨D, h1, h2, h3⟩ := exists_depth (n := K.length) hpp
    have hb := @buildBt_ok uniqueOn _ _ _ _ v.nkeys_pos hpp (by omega) _ _ h1 h2 le_rfl (show D < fuel by omega)
    have hready : Ready uniqueOn K.length st1 ⟨feed, 0, ⟨0, 0, []⟩⟩ :=
      ⟨hfresh, hpc, by rw [hkeys]; exact hne, by rw [hkeys]; exact Nat.zero_add _⟩
    obtain ⟨st', s', t, hrun', hbuilt⟩ := hb st1 _ hready
    have hl := hbuilt.loaded
    rw [hkeys] at hl
    rw [Nat.sub_self, pow_zero] at hrun'
    refine ⟨{ st' with wHdr := true }, t, ?_, ?_, ?_, hl.shape, hl.sized, ⟨D, hl.depth⟩, ?_, hl.nodup⟩
    · rw [NdxM.bind_ok (show buildBt _ _ _ _ _ _ st.hdr.pagecnt _ st1 = _ from hrun')]
      rfl
    · show st'.hdr = _
      rw [hl.laid.hdr, hl.page]
    · exact hl.stored.congr le_rfl fun _ _ => rfl
    · rw [hl.entries, List.take_of_length_le (by rw [capOf, Nat.mul_comm]; exact h1)]

/-- The two ways of building an index in one go: with a key in the table, and without one. -/
theorem qindex_cases {st : Ndx} {uniqueOn : Bool} {v : VsortCtl} {keyOf : Recno → Option Key} {reccnt fuel : Nat} (hv : SortsFor v st.hdr uniqueOn)
    (h : KeyTable st.hdr.keylen reccnt keyOf) (hn : reccnt < 2 ^ 31) (ht : st.hdr.keytyp = 0) (hpp : 1 ≤ st.hdr.norecpp) (hpc : 0 < st.hdr.pagecnt)
    (hfresh : Fresh st) (hfuel : 2 * reccnt + 3 ≤ fuel) :
    ((∀ r, keyOf r = none) → ∃ st', qindex uniqueOn fuel v keyOf reccnt st = .error (.invalidEntry st.seq) st') ∧
    ((∃ r key, keyOf r = some key) → ∃ st' t, qindex uniqueOn fuel v keyOf reccnt st = .ok () st' ∧ CharIndex st' (some t) ∧
      IndexOf uniqueOn keyOf t.entries) := by
  have hlen := @length_keysOf_le keyOf reccnt
  obtain ⟨w, f, -, hperm, hs, hsort⟩ := @VsortCtl.vsort_spec _ _ fuel (fun _ => 0) (qindexGetKey keyOf) reccnt false (hv.orderOn h hn ht) hv.fits (fun _ _ => rfl) (fun k r hk => ((mem_qindexGetKey h hn).1 hk).2) (Or.inr (by omega)) (by omega)
  have hflen := hperm.length_eq
  rw [if_neg Bool.false_ne_true, Option.bind_some, if_neg (not_not.mpr rfl)] at hsort
  obtain ⟨hix, hrank, hnil⟩ := @indexOf_kept _ _ _ _ _ hv h hn ht _ hperm hs ⟨0, List.replicate (v.vrecSize - 8) 0⟩ rfl
  obtain ⟨hempty, hsome⟩ := qindex_built hsort rfl hpp hpc hfresh (by omega) (by omega)
  constructor
  · intro hnone
    refine hempty (List.map_eq_nil_iff.1 (hnil.1 ?_))
    refine List.eq_nil_iff_forall_not_mem.2 fun p hp => ?_
    have hp' : keyOf p.recNo.toNat = some p.key := (mem_keysOf h hn).1 (hperm.mem_iff.1 hp)
    rw [hnone] at hp'
    cases hp'
  · rintro ⟨r, key, hk⟩
    have hne : keptKeys (sameKeyent st.hdr) uniqueOn ⟨0, List.replicate (v.vrecSize - 8) 0⟩ f ≠ [] := by
      intro h0
      obtain ⟨e, he, -⟩ := hix.key r key hk
      rw [h0] at he
      cases he
    obtain ⟨st', t, hrun, hhdr, hst, hsh, hsz, hd, hent, hnd⟩ := hsome hne
    refine ⟨st', t, hrun, ⟨.some (by rw [hhdr]) hst, by rw [hhdr]; exact ht, (Nat.zero_le _).trans_lt hst.page_lt, ?_, ?_, ?_, ?_, ?_, ?_⟩, by rw [hent]; exact hix⟩
    · show t.entries.Pairwise _
      rw [hent]
      exact hrank
    · show ∀ e ∈ t.entries, _
      rw [hent, hhdr]
      exact fun e he => h.length (hix.entry e he)
    · simpa using Or.inl hsh
    · have hcap : st'.hdr.norecpp = st.hdr.norecpp := by rw [hhdr]
      simpa [hcap] using hsz
    · simpa using hd
    · simpa using hnd

/-- Looking a key up in the index gives a record of the table with that key, the least one where `first` is true, and 0 when there is none. -/
def Answers (cfg : Cfg) (first : Prop) (keys : Recno → Option Key) (st : Ndx) : Prop :=
  ∃ n, ∀ fuel ≥ n, ∀ key : Key, key.length = st.hdr.keylen → 0 ∉ key →
    ∃ r st', btsrch cfg fuel st.hdr.rootno .tequal ⟨0, 0, key⟩ st = .ok r st' ∧ st'.file = st.file ∧ (r = 0 → ∀ r', keys r' ≠ some key) ∧
      (r ≠ 0 → keys r = some key ∧ (first → ∀ r' < r, keys r' ≠ some key))

/-- An index of the keys answers as the table does; without UNIQUE, or with the first record of each key in it, it gives the least record. -/
theorem IndexOf.answers {st : Ndx} {ot : Option Tree} {uniqueOn : Bool} {keys : Recno → Option Key} {first : Prop} (cfg : Cfg) (h : IndexOf uniqueOn keys (entriesOf ot))
    (hix : PagedIndex st ot) (hrec : ∀ {r key}, keys r = some key → r ≠ 0)
    (hfirst : first → uniqueOn = false ∨ ∀ e ∈ entriesOf ot, ∀ r < e.recno, keys r ≠ some e.key) : Answers cfg first keys st := by
  have hsearch : SearchIndex st ot :=
    ⟨hix.index, hix.keytyp, hix.sorted, hix.keylen, fun e he => hrec (h.entry e he), hix.shape⟩
  refine ⟨heightOf ot + 1, fun fuel hfuel key hl h0 => ?_⟩
  have hc : srchCmp st.hdr cfg.exactOn ⟨0, 0, key⟩ = keyCmp st.hdr cfg.exactOn ⟨0, 0, key⟩ := by
    funext x
    rw [srchCmp, if_pos rfl]
  have h0' := tail_no_nul h0
  obtain ⟨r, st', hrun, hfile, hzero, hsome⟩ := hsearch.gives_equal (p := fun e => e.key = key) (hc ▸ falling_keyCmp hix.keytyp hl h0' hix.keylen hix.sorted) (fun e he => by rw [hc, keyCmp_char hix.keytyp hl h0' (hix.keylen e he), cmpOrd_zero, bytes_inj, eq_comm]) hfuel
  refine ⟨r, st', hrun, hfile, fun hr r' hk => ?_, fun hr => ?_⟩
  · obtain ⟨e, he, hkey, -⟩ := h.key r' key hk
    obtain ⟨X, a, Y, hXY, ha, hX⟩ := exists_first (p := fun e : Ent => e.key = key) ⟨e, he, hkey⟩
    exact hzero hr X a Y hXY ⟨ha, hX⟩
  · obtain ⟨L, e, M, hLM, ⟨hkey, hL⟩, rfl, -⟩ := hsome hr
    have he : e ∈ entriesOf ot := by rw [hLM]; simp
    refine ⟨by rw [← hkey]; exact h.entry e he, fun hf r' hlt hk => ?_⟩
    rcases hfirst hf with hu | hall
    · -- the entry of a lesser record would stand before the first one with the key
      obtain ⟨e', he', hkey', hrec'⟩ := h.key r' key hk
      have hr' := hrec' hu
      have hsort := hix.sorted
      rw [hLM] at he' hsort
      rcases List.mem_append.1 he' with hm | hm
      · exact hL e' hm hkey'
      · rcases List.mem_cons.1 hm with rfl | hm
        · exact absurd hlt (by rw [hr']; exact lt_irrefl _)
        · have hrank := (List.pairwise_cons.1 (List.pairwise_append.1 hsort).2.1).1 e' hm
          rcases Prod.Lex.toLex_lt_toLex.1 hrank with hk' | ⟨-, hk'⟩
          · exact absurd hk' (by rw [hkey, hkey']; exact lt_irrefl _)
          · exact absurd hlt (by rw [← hr']; exact hk'.le.not_gt)
    · exact hall e he r' hlt (by rw [hkey]; exact hk)

/-- **Building an index in one go**: with a key in the table the index is well formed, has the entries it should and answers as the table does,
and without one the build ends with an error. -/
theorem qindex_right {st : Ndx} {uniqueOn : Bool} {v : VsortCtl} {keyOf : Recno → Option Key} {reccnt fuel : Nat} (hv : SortsFor v st.hdr uniqueOn)
    (h : KeyTable st.hdr.keylen reccnt keyOf) (hn : reccnt < 2 ^ 31) (ht : st.hdr.keytyp = 0) (hpp : 1 ≤ st.hdr.norecpp) (hpc : 0 < st.hdr.pagecnt)
    (hfresh : Fresh st) (hfuel : 2 * reccnt + 3 ≤ fuel) :
    ((∀ r, keyOf r = none) → ∃ st', qindex uniqueOn fuel v keyOf reccnt st = .error (.invalidEntry st.seq) st') ∧
    ((∃ r key, keyOf r = some key) → ∃ st' t, qindex uniqueOn fuel v keyOf reccnt st = .ok () st' ∧ CharIndex st' (some t) ∧
      IndexOf uniqueOn keyOf t.entries ∧ ∀ cfg, Answers cfg (uniqueOn = false) keyOf st') := by
  obtain ⟨hnone, hsome⟩ := qindex_cases hv h hn ht hpp hpc hfresh hfuel
  refine ⟨hnone, fun hex => ?_⟩
  obtain ⟨st', t, hrun, hix, hof⟩ := hsome hex
  exact ⟨st', t, hrun, hix, hof, fun cfg => hof.answers cfg hix.paged (fun hk => Nat.one_le_iff_ne_zero.1 (h.recno hk).1) fun hu => Or.inl hu⟩

/-- A table of three records with keys of one byte; the second has none. -/
def abKey (r : Recno) : Option Key := if r = 1 then some [0x42] else if r = 3 then some [0x41] else none

/-- An index file with its header page only, as `_index` makes it for keys of one byte. -/
def newIndex : Ndx where
  hdr := ⟨0, 1, 1, 31, 0, []⟩
  hdrPage := ⟨0, 1, 1, 31, 0, []⟩
  file _ := zeroPage
  wHdr := true
  fsync := false
  pageNo := 0
  entryNo := 0
  seq := 1

/-- The sort for it. -/
def newIndexSort (uniqueOn : Bool) : VsortCtl :=
  ⟨65536, 9, sortQcomp newIndex.hdr uniqueOn, false, Nat.le_add_left 1 65535, Nat.le_add_right 8 1⟩

theorem abKey_table : KeyTable newIndex.hdr.keylen 3 abKey := by
  have hcase : ∀ {r key}, abKey r = some key → (r = 1 ∧ key = [0x42]) ∨ (r = 3 ∧ key = [0x41]) := by
    intro r key h
    unfold abKey at h
    split at h
    · rename_i hr
      exact Or.inl ⟨hr, (Option.some.inj h).symm⟩
    · split at h
      · rename_i hr
        exact Or.inr ⟨hr, (Option.some.inj h).symm⟩
      · cases h
  constructor
  all_goals
    intro r key h
    rcases hcase h with ⟨rfl, rfl⟩ | ⟨rfl, rfl⟩
    all_goals decide

theorem qindex_right_abKey : ∃ st' t, qindex true 9 (newIndexSort true) abKey 3 newIndex = .ok () st' ∧ CharIndex st' (some t) ∧
    IndexOf true abKey t.entries ∧ ∀ cfg, Answers cfg (true = false) abKey st' :=
  (qindex_right (v := newIndexSort true) ⟨rfl, rfl, by decide⟩ abKey_table (by decide) rfl (by decide) (by decide) (fun _ _ => rfl) (by decide)).2 ⟨1, [0x42], rfl⟩

end Db3w
