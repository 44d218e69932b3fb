/-
The directory of a procedure library (`load_proc` and `proc_bin_srch` of proc.c). It is put in order by insertion while it
is read, as `strcmp` compares, and searched by bisection, as `namecmp` does.
-/
import Db3w.Hb.Keywords

namespace Db3w

open Bisect

def MAXMCOUNT : Nat := 32767
def MAXPROCSIZE : Nat := 1048576 * 32

/-- `struct do_entry`. -/
structure DoEntry where
  procName : Str
  type : Nat
  faddr : Int
  len : Int
  deriving DecidableEq

inductive ProcErr where
  | procErr
  | unresolved (procName : Str)

/-- `strcmp`. -/
def strcmp : Str → Str → Int
  | [], t => -(chr t).toNat
  | c :: s, t => if c = chr t then strcmp s t.tail else (c.toNat : Int) - (chr t).toNat

/-- The name at a place of the directory. -/
def nameAt (doTab : List DoEntry) (i : Nat) : Str := (doTab[i]?.map DoEntry.procName).getD []

/-- The loop that moves entries up, from place `j` down, until the new one can be put there. -/
def insertProc (doTab : List DoEntry) (de : DoEntry) : Nat → List DoEntry
  | 0 => de :: doTab
  | j + 1 => if strcmp (nameAt doTab j) de.procName > 0 then insertProc doTab de j else doTab.take (j + 1) ++ de :: doTab.drop (j + 1)

/-- The loop of `load_proc` that reads `mcount` entries of the file. -/
def loadEntries : Nat → List DoEntry → List DoEntry → Except ProcErr (List DoEntry)
  | 0, doTab, _ => .ok doTab
  | _ + 1, _, [] => .error .procErr
  | mcount + 1, doTab, de :: rest =>
    if de.faddr ≤ 0 then .error (.unresolved de.procName) else loadEntries mcount (insertProc doTab de doTab.length) rest

/-- `load_proc`, as far as the directory: `procSize` is the size of the code in front of it, and `mcount` the low word of what stands before
the entries. -/
def loadProc (procSize : Int) (mcount : Nat) (entries : List DoEntry) : Except ProcErr (List DoEntry) :=
  if procSize ≤ 0 ∨ procSize > MAXPROCSIZE then .error .procErr
  else if mcount > MAXMCOUNT then .error .procErr
  else loadEntries mcount [] entries

/-- The comparison of `proc_bin_srch`. -/
def proccmp (doTab : List DoEntry) (procName : Str) (mid : Nat) : Int := namecmp (nameAt doTab mid) procName procName.length ID_FNAME

/-- `proc_bin_srch`. -/
def procBinSrch (doTab : List DoEntry) (procName : Str) (start end_ : Int) : Option DoEntry :=
  (bisect (proccmp doTab procName) start end_).bind (doTab[·]?)

/-- A library of procedures with different names. -/
structure ProcLib where
  entries : List DoEntry
  nodup : (entries.map DoEntry.procName).Nodup
  word : ∀ e ∈ entries, ∀ c ∈ e.procName, isWordChar c = true
  short : ∀ e ∈ entries, 1 ≤ e.procName.length ∧ e.procName.length ≤ VNAMELEN

/-! ## Reading -/

/-- `strcmp` tells which name comes first. -/
theorem strcmp_pos {s t : Str} (hs : IsStr s) (ht : IsStr t) : 0 < strcmp s t ↔ t < s := by
  induction s generalizing t with
  | nil =>
    cases t with
    | nil => simp [strcmp, chr]
    | cons d t => simp [strcmp, chr]
  | cons c s ih =>
    obtain ⟨hc, hs'⟩ := isStr_cons hs
    unfold strcmp
    cases t with
    | nil =>
      rw [show chr [] = '\x00' from rfl, if_neg hc, sub_toNat_pos]
      simp [nul_lt hc]
    | cons d t =>
      rw [show chr (d :: t) = d from rfl, List.tail_cons]
      by_cases hd : c = d
      · rw [if_pos hd, hd, ih hs' (isStr_cons ht).2]
        exact List.cons_lt_cons_self.symm
      · rw [if_neg hd]
        exact (order_of_ne hd s t).2

/-- A directory in the order of the names. -/
def Ordered (doTab : List DoEntry) : Prop := doTab.Pairwise fun a b => a.procName < b.procName

variable {doTab rest : List DoEntry} {de e : DoEntry}

theorem nameAt_eq {j : Nat} (hj : j < doTab.length) : nameAt doTab j = doTab[j].procName := by
  unfold nameAt
  rw [List.getElem?_eq_getElem hj]
  rfl

theorem insertProc_perm (doTab : List DoEntry) (de : DoEntry) (j : Nat) : (insertProc doTab de j).Perm (de :: doTab) := by
  induction j with
  | zero => exact List.Perm.refl _
  | succ j ih =>
    unfold insertProc
    split_ifs
    · exact ih
    · have h := @List.perm_middle _ de (doTab.take (j + 1)) (doTab.drop (j + 1))
      rwa [List.take_append_drop] at h

/-- The entry goes below those that are above it, and above the others. -/
theorem insertProc_ordered (hord : Ordered doTab) (hstr : ∀ e ∈ de :: doTab, IsStr e.procName) (hnew : ∀ e ∈ doTab, e.procName ≠ de.procName) {j : Nat}
    (hj : j ≤ doTab.length) (habove : ∀ e ∈ doTab.drop j, de.procName < e.procName) : Ordered (insertProc doTab de j) := by
  induction j with
  | zero =>
    unfold insertProc Ordered
    exact List.pairwise_cons.mpr ⟨habove, hord⟩
  | succ j ih =>
    have hde := hstr de List.mem_cons_self
    have hmem : doTab[j] ∈ doTab := List.getElem_mem (by omega)
    have hcmp := @strcmp_pos doTab[j].procName de.procName (hstr _ (List.mem_cons_of_mem _ hmem)) hde
    unfold insertProc
    rw [nameAt_eq (by omega)]
    split_ifs with hlt
    · rw [gt_iff_lt, hcmp] at hlt
      refine ih (by omega) fun e he => ?_
      rw [List.drop_eq_getElem_cons (by omega), List.mem_cons] at he
      rcases he with rfl | he
      · exact hlt
      · exact habove e he
    · -- the entry below is smaller, and all below that one are
      rw [gt_iff_lt, hcmp] at hlt
      have hsmall : doTab[j].procName < de.procName := lt_of_le_of_ne (not_lt.mp hlt) (hnew _ hmem)
      have hlow : ∀ e ∈ doTab.take (j + 1), e.procName < de.procName := by
        intro e he
        obtain ⟨i, hi, rfl⟩ := List.mem_iff_getElem.mp he
        rw [List.length_take] at hi
        rw [List.getElem_take]
        rcases Nat.lt_or_ge i j with hij | hij
        · exact (List.pairwise_iff_getElem.mp hord i j (by omega) (by omega) hij).trans hsmall
        · obtain rfl : i = j := by omega
          exact hsmall
      have hsplit : Ordered (doTab.take (j + 1) ++ doTab.drop (j + 1)) := by rwa [List.take_append_drop]
      obtain ⟨h1, h2, h3⟩ := List.pairwise_append.mp hsplit
      refine List.pairwise_append.mpr ⟨h1, List.pairwise_cons.mpr ⟨habove, h2⟩, fun a ha b hb => ?_⟩
      rcases List.mem_cons.mp hb with rfl | hb
      · exact hlow a ha
      · exact h3 a ha b hb

/-- The directory that is read is that of the file, in order. -/
theorem loadEntries_spec {entries : List DoEntry} (hord : Ordered doTab) (hstr : ∀ e ∈ doTab ++ entries, IsStr e.procName)
    (hnodup : ((doTab ++ entries).map DoEntry.procName).Nodup) {tab : List DoEntry} (h : loadEntries entries.length doTab entries = .ok tab) :
    tab.Perm (doTab ++ entries) ∧ Ordered tab := by
  induction entries generalizing doTab with
  | nil =>
    obtain rfl := Except.ok.inj h
    exact ⟨by rw [List.append_nil], hord⟩
  | cons de rest ih =>
    rw [List.length_cons, loadEntries] at h
    split_ifs at h
    have hperm : (insertProc doTab de doTab.length ++ rest).Perm (doTab ++ de :: rest) :=
      ((insertProc_perm doTab de doTab.length).append_right rest).trans List.perm_middle.symm
    have hnew : ∀ e ∈ doTab, e.procName ≠ de.procName := by
      intro e he heq
      rw [List.map_append, List.nodup_append] at hnodup
      exact hnodup.2.2 _ (List.mem_map_of_mem he) _ (List.mem_map_of_mem List.mem_cons_self) heq
    have hord' : Ordered (insertProc doTab de doTab.length) := by
      refine insertProc_ordered hord (fun e he => hstr e ?_) hnew (le_refl _) (by simp)
      rcases List.mem_cons.mp he with rfl | he
      · simp
      · exact List.mem_append_left _ he
    obtain ⟨h1, h2⟩ := ih hord' (fun e he => hstr e (hperm.mem_iff.mp he)) ((hperm.map _).nodup_iff.mpr hnodup) h
    exact ⟨h1.trans hperm, h2⟩

namespace ProcLib

variable (lib : ProcLib) {tab : List DoEntry} {procSize : Int}

theorem isStr {e : DoEntry} (h : e ∈ lib.entries) : IsStr e.procName := fun hmem => absurd (lib.word e h _ hmem) (by decide)

theorem noWild {e : DoEntry} (h : e ∈ lib.entries) : NoWild e.procName := by
  intro c hc
  have hword := lib.word e h c hc
  constructor
  · rintro rfl
    exact absurd hword (by decide)
  · rintro rfl
    exact absurd hword (by decide)

theorem loadProc_spec (h : loadProc procSize lib.entries.length lib.entries = .ok tab) : tab.Perm lib.entries ∧ Ordered tab := by
  unfold loadProc at h
  split_ifs at h
  exact loadEntries_spec (List.Pairwise.nil) (fun e he => lib.isStr he) lib.nodup h

end ProcLib

/-! ## Searching -/

/-- A file name counts as a whole, as it is spelled. -/
theorem namecmp_fname {s t : Str} (hwild : NoWild s) (hs : IsStr s) (ht : IsStr t) :
    (namecmp s t t.length ID_FNAME < 0 ↔ s < t) ∧ (0 < namecmp s t t.length ID_FNAME ↔ t < s) := by
  have hspell : ∀ u : Str, spelling ID_FNAME u = u := fun u => List.map_id u
  have h := @namecmpLoop_order ID_FNAME s t hwild hs ht
  unfold compared at h
  rw [hspell, hspell] at h
  exact h

theorem namecmp_fname_zero {s t : Str} (hwild : NoWild s) (hs : IsStr s) (ht : IsStr t) : namecmp s t t.length ID_FNAME = 0 ↔ s = t := by
  obtain ⟨h1, h2⟩ := namecmp_fname hwild hs ht
  rcases lt_trichotomy s t with hlt | rfl | hgt
  · exact iff_of_false (h1.mpr hlt).ne hlt.ne
  · refine iff_of_true ?_ rfl
    have hle := not_lt.mp fun h => lt_irrefl s (h1.mp h)
    have hge := not_lt.mp fun h => lt_irrefl s (h2.mp h)
    exact le_antisymm hge hle
  · exact iff_of_false (h2.mpr hgt).ne' hgt.ne'

section Search

variable {lib : ProcLib} {tab : List DoEntry} {procSize : Int} (name : CStr)

theorem proccmp_zero (h : loadProc procSize lib.entries.length lib.entries = .ok tab) {i : Nat} (hi : i < tab.length) : proccmp tab name.chars i = 0 ↔ tab[i].procName = name.chars := by
  have hmem : tab[i] ∈ lib.entries := (lib.loadProc_spec h).1.mem_iff.mp (List.getElem_mem hi)
  unfold proccmp
  rw [nameAt_eq hi]
  exact namecmp_fname_zero (lib.noWild hmem) (lib.isStr hmem) name.isStr

theorem proccmp_zoned (h : loadProc procSize lib.entries.length lib.entries = .ok tab) : Zoned (proccmp tab name.chars) tab.length := by
  obtain ⟨hperm, hord⟩ := lib.loadProc_spec h
  have hsign : ∀ i, i < tab.length → (proccmp tab name.chars i < 0 ↔ nameAt tab i < name.chars) ∧ (0 < proccmp tab name.chars i ↔ name.chars < nameAt tab i) := by
    intro i hi
    have hmem : tab[i] ∈ lib.entries := hperm.mem_iff.mp (List.getElem_mem hi)
    unfold proccmp
    rw [nameAt_eq hi]
    exact namecmp_fname (lib.noWild hmem) (lib.isStr hmem) name.isStr
  refine zoned_of_monotone (fun i j hij hj => ?_) (fun i hi => (hsign i hi).1) fun i hi => (hsign i hi).2
  rw [nameAt_eq (by omega), nameAt_eq hj]
  rcases Nat.eq_or_lt_of_le hij with rfl | hlt
  · exact le_refl _
  · exact (List.pairwise_iff_getElem.mp hord i j (by omega) hj hlt).le

/-- Two entries of a name are the same. -/
theorem Ordered.inj (hord : Ordered tab) {i j : Nat} (hi : i < tab.length) (hj : j < tab.length) (heq : tab[i].procName = tab[j].procName) : i = j := by
  by_contra hne
  rcases Nat.lt_or_gt_of_ne hne with hlt | hgt
  · exact absurd heq (List.pairwise_iff_getElem.mp hord i j hi hj hlt).ne
  · exact absurd heq.symm (List.pairwise_iff_getElem.mp hord j i hj hi hgt).ne

/-- A name is found iff it is in the library, and then its entry is. -/
theorem procBinSrch_iff (h : loadProc procSize lib.entries.length lib.entries = .ok tab) (e : DoEntry) :
    procBinSrch tab name.chars 0 (tab.length - 1) = some e ↔ e ∈ lib.entries ∧ e.procName = name.chars := by
  obtain ⟨hperm, hord⟩ := lib.loadProc_spec h
  unfold procBinSrch
  rw [Option.bind_eq_some_iff]
  constructor
  · rintro ⟨m, hm, he⟩
    obtain ⟨hm0, -, -⟩ := bisect_some (le_refl 0) hm
    obtain ⟨hlt, rfl⟩ := List.getElem?_eq_some_iff.mp he
    exact ⟨hperm.mem_iff.mp (List.getElem_mem hlt), (proccmp_zero name h hlt).mp hm0⟩
  · rintro ⟨hmem, hname⟩
    obtain ⟨k, hk, rfl⟩ := List.mem_iff_getElem.mp (hperm.mem_iff.mpr hmem)
    obtain ⟨m, hm⟩ := bisect_complete (proccmp_zoned name h) (le_refl 0) (by omega) (by omega) (by omega : (k : Int) ≤ tab.length - 1)
      ((proccmp_zero name h hk).mpr hname)
    obtain ⟨hm0, -, hle⟩ := bisect_some (le_refl 0) hm
    have hlt : m < tab.length := by omega
    obtain rfl := hord.inj hk hlt (hname.trans ((proccmp_zero name h hlt).mp hm0).symm)
    exact ⟨k, hm, List.getElem?_eq_getElem hlt⟩

end Search

/-- Two procedures, one of them a beginning of the other, not stored in order. -/
theorem procBinSrch_iff_two : procBinSrch [⟨['a'], 1, 8, 0⟩, ⟨['a', 'B'], 1, 4, 0⟩] ['a', 'B'] 0 1 = some ⟨['a', 'B'], 1, 4, 0⟩ ↔
    (⟨['a', 'B'], 1, 4, 0⟩ : DoEntry) ∈ [(⟨['a', 'B'], 1, 4, 0⟩ : DoEntry), ⟨['a'], 1, 8, 0⟩] ∧ (⟨['a', 'B'], 1, 4, 0⟩ : DoEntry).procName = ['a', 'B'] :=
  @procBinSrch_iff ⟨[⟨['a', 'B'], 1, 4, 0⟩, ⟨['a'], 1, 8, 0⟩], by decide, by simp only [← List.all_eq_true]; decide, by decide⟩ [⟨['a'], 1, 8, 0⟩, ⟨['a', 'B'], 1, 4, 0⟩]
    12 ⟨['a', 'B'], by decide⟩ (by rfl) ⟨['a', 'B'], 1, 4, 0⟩

end Db3w
