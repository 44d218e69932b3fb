/-
`form_fn` of fn.c. Unlike `SET PATH` it has no end of the root path: a `..` leads up as far as the path goes, and the
last component is never looked at.
-/
import Db3w.Dbf.SetPath

namespace Db3w.Dbf

open Paths

inductive FnErr where
  | strTooLong | badFileName
  deriving DecidableEq, Repr

/-- `get_root_path`. -/
def getRootPath (rootpath : List UInt8) (len : Nat) : Except FnErr (List UInt8) :=
  if rootpath.length + 1 ≥ len then .error .strTooLong else .ok (rootpath ++ [SWITCHAR])

/-- `form_fn`: the full name, or nothing where the loop reads in front of the text. `table` is the name of the open table. -/
def formFn (rootpath defaPath : List UInt8) (table : Option (List UInt8)) (fn : List UInt8) (mode : Bool) : Option (Except FnErr (List UInt8)) :=
  let q := match mode, table with
    | true, some t => formFn1 t
    | _, _ => defaPath
  match (if fn.head? = some SWITCHAR then (getRootPath rootpath FULFNLEN).map fun dir => (dir, fn.tail) else .ok (q, fn)) with
  | .error e => some (.error e)
  | .ok (dir, fn) => if dir.length + fn.length ≥ FULFNLEN then some (.error .badFileName) else (relDirLoop backFn (dir ++ fn) 0).map .ok

/-- The directory a name starts from. -/
def startDir (rootpath defaPath : List UInt8) (table : Option (List UInt8)) (fn : List UInt8) (mode : Bool) : List UInt8 :=
  if fn.head? = some SWITCHAR then rootpath ++ [SWITCHAR]
  else match mode, table with
    | true, some t => formFn1 t
    | _, _ => defaPath

/-- What is left of the name. -/
def startName (fn : List UInt8) : List UInt8 := if fn.head? = some SWITCHAR then fn.tail else fn

/-- A directory below the root, without relative directories from there on. -/
structure UnderRoot (rootpath P : List UInt8) : Prop where
  root : rootpath ++ [SWITCHAR] <+: P
  closed : P.getLast? = some SWITCHAR
  clean : Clean DOT ((P.drop (rootpath.length + 1)).splitOn SWITCHAR)

/-- A name that is refused, or one below the root without relative directories. -/
def FormRight (rootpath : List UInt8) (r : Option (Except FnErr (List UInt8))) : Prop :=
  ∃ x, r = some x ∧ ∀ t, x = .ok t → rootpath ++ [SWITCHAR] <+: t ∧ Clean DOT (t.splitOn SWITCHAR)

/-- The name is too long, or its last component is a name and the others do not lead out of the root: counting one up for each
name and one down for each `..`, the count ends at the depth of the root or deeper, and each name that is entered last at a depth
of the root is the root's. A root path without a separator in front is never left at all. -/
def FormKept (rootpath dir name : List UInt8) : Prop :=
  let root := rootpath.splitOn SWITCHAR
  let depth := (dir.splitOn SWITCHAR).length - 1
  let cs := (name.splitOn SWITCHAR).dropLast
  FULFNLEN ≤ dir.length + name.length ∨
    (Clean DOT root ∧ (∀ c ∈ (name.splitOn SWITCHAR).getLast?, ¬IsDots DOT c) ∧ (root.head? = some [] ∨ ¬Falls DOT 1 depth cs) ∧
      root.length ≤ levels DOT 1 depth cs ∧ ∀ j < root.length, ∀ c, lastAt DOT 1 j depth cs = some c → root[j]? = some c)

/-! ## The way up -/

/-- Up, to the first component; a first component that is not empty has no separator in front of it. -/
def upFn (pos : List (List UInt8)) : Option (List (List UInt8)) :=
  if pos.length > 1 then some pos.dropLast else if pos = [[]] then some pos else none

/-- Some components, without a separator. -/
def Comps (pos : List (List UInt8)) : Prop := pos ≠ [] ∧ ∀ c ∈ pos, SWITCHAR ∉ c

variable {pos q : List (List UInt8)} {c : List UInt8}

theorem comps_upFn (h : Comps pos) (hup : upFn pos = some q) : Comps q ∧ q <+: pos := by
  have hdrop := List.dropLast_prefix pos
  unfold upFn at hup
  split_ifs at hup with hlen hnil <;> cases hup
  · refine ⟨⟨?_, fun c hc => h.2 c (List.mem_of_mem_dropLast hc)⟩, hdrop⟩
    rw [← List.length_pos_iff_ne_nil, List.length_dropLast]
    omega
  · exact ⟨h, List.prefix_refl pos⟩

theorem popsTo_upFn : PopsTo 1 upFn := by
  intro pos q hup
  unfold upFn at hup
  split_ifs at hup ⊢ <;> cases hup <;> rfl

theorem separatorBefore_none {s : List UInt8} {p : Nat} (h : ∀ i < p, s[i]? ≠ some SWITCHAR) : separatorBefore s p = none := by
  induction p with
  | zero => rfl
  | succ p ih =>
    rw [separatorBefore, if_neg (h p (Nat.lt_succ_self p))]
    exact ih fun i hi => h i (by omega)

/-- The index arithmetic of the code is the walk up. -/
theorem leads_backFn : Leads backFn upFn Comps where
  ne_nil h := h.1
  name hc h := ⟨List.append_ne_nil_of_left_ne_nil h.1 _, fun d hd => (List.mem_append.mp hd).elim (h.2 d) fun hd => (List.mem_singleton.mp hd).symm ▸ hc⟩
  up_below h hup := by
    obtain ⟨hq, hpre⟩ := comps_upFn h hup
    exact ⟨hq, join_mono hq.1 hpre⟩
  back_eq := by
    intro pos r h
    rcases List.eq_nil_or_concat pos with rfl | ⟨pre, d, rfl⟩
    · exact absurd rfl h.1
    rw [List.concat_eq_append] at h ⊢
    have hd : SWITCHAR ∉ d := h.2 d (by simp)
    unfold backFn upFn
    rcases eq_or_ne pre [] with rfl | hpre
    · rw [List.nil_append, join_singleton]
      cases d with
      | nil => rfl
      | cons a d =>
        have hpos : (a :: d).length > 0 := Nat.succ_pos _
        have hone : ¬[a :: d].length > 1 := by simp
        have hne : ¬[a :: d] = [[]] := by simp
        rw [if_pos hpos, if_neg hone, if_neg hne, separatorBefore_none]
        · rfl
        · intro i hi
          rw [List.getElem?_append_left hi, List.getElem?_eq_getElem hi]
          exact fun heq => hd (Option.some.inj heq ▸ List.getElem_mem _)
    · have hlen := List.length_pos_iff_ne_nil.mpr hpre
      rw [if_pos (c := (pre ++ [d]).length > 1) (by rw [List.length_append, List.length_singleton]; omega), List.dropLast_concat, join_concat hpre,
        if_pos (by rw [List.length_append, List.length_cons]; omega), List.length_append, List.length_cons, Nat.add_comm d.length, ← Nat.add_assoc]
      exact separatorBefore_join _ d _ hd

/-! ## The name that comes out -/

variable {rootpath defaPath dir name fn : List UInt8} {ds cs : List (List UInt8)}

/-- The loop over the directory and the name. -/
theorem relDirLoop_name (hclean : Clean DOT (rootpath.splitOn SWITCHAR)) (hds : ∀ d ∈ ds, SWITCHAR ∉ d) (hdsc : Clean DOT ds) (hcs : name.splitOn SWITCHAR = cs ++ [c]) :
    relDirLoop backFn (join SWITCHAR (rootpath.splitOn SWITCHAR ++ ds) ++ [SWITCHAR] ++ name) 0 =
      (walk DOT upFn (rootpath.splitOn SWITCHAR ++ ds) cs).map fun q => join SWITCHAR (q ++ [c]) := by
  have hroot : rootpath.splitOn SWITCHAR ≠ [] := List.splitOn_ne_nil _ _
  have hsep : ∀ d ∈ rootpath.splitOn SWITCHAR ++ ds, SWITCHAR ∉ d := fun d hd => (List.mem_append.mp hd).elim (not_mem_splitOn SWITCHAR _ d) (hds d)
  have hname := not_mem_splitOn SWITCHAR name
  rw [hcs] at hname
  rw [List.append_assoc, List.singleton_append, ← join_splitOn SWITCHAR name, hcs]
  exact relDirLoop_text leads_backFn ⟨List.append_ne_nil_of_left_ne_nil hroot ds, hsep⟩ hsep
    (fun d hd => clean_append hclean hdsc d (List.mem_of_mem_tail hd)) (fun d hd => hname d (List.mem_append_left _ hd)) (hname c (List.mem_append_right _ List.mem_cons_self))

/-- A walk along clean components keeps what is clean. -/
theorem walk_clean (hpos : Comps pos) (hclean : Clean DOT pos) (hcs : ∀ d ∈ cs, SWITCHAR ∉ d) (h : walk DOT upFn pos cs = some q) : Comps q ∧ Clean DOT q := by
  refine walk_induct (I := fun pos => Comps pos ∧ Clean DOT pos) ?_ ?_ ⟨hpos, hclean⟩ h
  · rintro pos d hd ⟨hb, hcl⟩ hdots
    exact ⟨leads_backFn.name (hcs d hd) hb, clean_append hcl fun e he => by rwa [List.mem_singleton.mp he]⟩
  · rintro pos pos' ⟨hb, hcl⟩ hup
    obtain ⟨hb', hpre⟩ := comps_upFn hb hup
    exact ⟨hb', fun e he => hcl e (hpre.subset he)⟩

/-- The walk reads in front of the text exactly if the root path has no separator in front and the name leads out of its first component. -/
theorem walk_upFn_none (hpos : pos ≠ []) : walk DOT upFn pos cs = none ↔ ¬(pos.head? = some [] ∨ ¬Falls DOT 1 pos.length cs) := by
  obtain ⟨h, t, rfl⟩ := List.exists_cons_of_ne_nil hpos
  have hname : ∀ a, ∀ pos : List (List UInt8), ∀ c, pos.head? = some a → (pos ++ [c]).head? = some a := by
    intro a pos c hh
    rw [List.head?_append, hh]
    rfl
  have hupI : ∀ a, ∀ pos q : List (List UInt8), pos.head? = some a → upFn pos = some q → q.head? = some a := by
    intro a pos q hh hup
    have hpop := popsTo_upFn pos q hup
    split_ifs at hpop with hlen
    · rw [hpop, List.head?_dropLast, if_pos hlen, hh]
    · rw [hpop, hh]
  rcases eq_or_ne h [] with rfl | hne
  · obtain ⟨q, hq⟩ := @walk_isSome _ DOT _ upFn ([] :: t) cs (fun pos => pos.head? = some []) (hname []) (fun pos hh => by
      have hone : pos.length ≤ 1 → pos = [[]] := by
        obtain ⟨t, rfl⟩ := List.head?_eq_some_iff.mp hh
        intro hlen
        rw [List.length_cons] at hlen
        rw [List.length_eq_zero_iff.mp (by omega : t.length = 0)]
      have hsome : ∃ q, upFn pos = some q := by
        unfold upFn
        split_ifs with h1 h2
        · exact ⟨_, rfl⟩
        · exact ⟨_, rfl⟩
        · exact absurd (hone (by omega)) h2
      obtain ⟨q, hq⟩ := hsome
      exact ⟨q, hq, hupI [] pos q hh hq⟩) rfl
    rw [hq]
    exact iff_of_false nofun (not_not.mpr (.inl rfl))
  · have hnone := @walk_eq_none_iff _ DOT _ upFn (h :: t) cs 1 (fun pos => pos.head? = some h) (hname h) (hupI h) popsTo_upFn (fun pos hh => by
      obtain ⟨t, rfl⟩ := List.head?_eq_some_iff.mp hh
      have hne' : ¬h :: t = [[]] := fun heq => hne (List.cons.inj heq).1
      by_cases h1 : (h :: t).length > 1
      · rw [upFn, if_pos h1]
        exact iff_of_false nofun (by omega)
      · rw [upFn, if_neg h1, if_neg hne']
        exact iff_of_true rfl (by omega)) rfl
    rw [hnone, not_or, not_not]
    exact (and_iff_right (fun heq => hne (Option.some.inj heq))).symm

/-- What is below the root path, in its text, is below it in components. -/
theorem root_prefix_iff (hq : Comps q) (hc : SWITCHAR ∉ c) : rootpath ++ [SWITCHAR] <+: join SWITCHAR (q ++ [c]) ↔ rootpath.splitOn SWITCHAR <+: q := by
  have hroot : rootpath.splitOn SWITCHAR ≠ [] := List.splitOn_ne_nil _ _
  constructor
  · rintro ⟨r, hr⟩
    have hsplit := congrArg (List.splitOn SWITCHAR) hr
    rw [splitOn_join (leads_backFn.name hc hq).2 (List.append_ne_nil_of_left_ne_nil hq.1 _), List.append_assoc, List.singleton_append, List.splitOn_append_cons_self] at hsplit
    obtain ⟨x, y, hxy⟩ := (List.eq_nil_or_concat (r.splitOn SWITCHAR)).resolve_left (List.splitOn_ne_nil _ _)
    rw [hxy, List.concat_eq_append, ← List.append_assoc] at hsplit
    exact ⟨x, (List.append_inj' hsplit rfl).1⟩
  · rintro ⟨x, rfl⟩
    rw [List.append_assoc]
    have h := @join_below _ SWITCHAR _ _ hroot (List.append_ne_nil_of_right_ne_nil x (List.cons_ne_nil c []))
    rwa [join_splitOn] at h

/-- A name below a root path has a root path without relative directories. -/
theorem clean_of_right {t : List UInt8} (h : rootpath ++ [SWITCHAR] <+: t) (hclean : Clean DOT (t.splitOn SWITCHAR)) : Clean DOT (rootpath.splitOn SWITCHAR) := by
  obtain ⟨r, rfl⟩ := h
  rw [List.append_assoc, List.singleton_append, List.splitOn_append_cons_self] at hclean
  exact fun d hd => hclean d (List.mem_append_left _ hd)

/-- A name that is not too long comes out below the root exactly if it does not lead out of it. -/
theorem name_right_iff (hdir : UnderRoot rootpath dir) (hlen : dir.length + name.length < FULFNLEN) :
    FormRight rootpath ((relDirLoop backFn (dir ++ name) 0).map .ok) ↔ FormKept rootpath dir name := by
  have hroot : rootpath.splitOn SWITCHAR ≠ [] := List.splitOn_ne_nil _ _
  obtain ⟨ds, hds, hdrop, htext⟩ := below_components hdir.root hdir.closed
  have hdsc : Clean DOT ds := fun d hd => hdir.clean d (by rw [hdrop]; exact List.mem_append_left _ hd)
  have hpos : Comps (rootpath.splitOn SWITCHAR ++ ds) :=
    ⟨List.append_ne_nil_of_left_ne_nil hroot ds, fun d hd => (List.mem_append.mp hd).elim (not_mem_splitOn SWITCHAR _ d) (hds d)⟩
  have hdepth : (dir.splitOn SWITCHAR).length - 1 = (rootpath.splitOn SWITCHAR ++ ds).length := by
    rw [htext, ← join_concat hpos.1, splitOn_join (leads_backFn.name List.not_mem_nil hpos).2 (List.append_ne_nil_of_left_ne_nil hpos.1 _), @List.length_append _ _ [[]]]
    exact Nat.add_sub_cancel _ _
  obtain ⟨cs, c, hcs⟩ := (List.eq_nil_or_concat (name.splitOn SWITCHAR)).resolve_left (List.splitOn_ne_nil _ _)
  rw [List.concat_eq_append] at hcs
  have hname := not_mem_splitOn SWITCHAR name
  rw [hcs] at hname
  have hc : SWITCHAR ∉ c := hname c (List.mem_append_right _ List.mem_cons_self)
  unfold FormKept
  dsimp only
  rw [hdepth, hcs, List.dropLast_concat, List.getLast?_concat, or_iff_right (by omega)]
  by_cases hclean : Clean DOT (rootpath.splitOn SWITCHAR)
  · have hwhole := clean_append hclean hdsc
    have hhead : (rootpath.splitOn SWITCHAR).head? = (rootpath.splitOn SWITCHAR ++ ds).head? := by
      rw [List.head?_append, Option.or_of_isSome (by simp [List.isSome_head?])]
    have hlast : (∀ d ∈ some c, ¬IsDots DOT d) ↔ ¬IsDots DOT c := by simp [Option.mem_def]
    rw [htext, relDirLoop_name hclean hds hdsc hcs, and_iff_right hclean, hlast, hhead]
    cases hw : walk DOT upFn (rootpath.splitOn SWITCHAR ++ ds) cs with
    | none =>
      refine iff_of_false ?_ fun h => (walk_upFn_none hpos.1).mp hw h.2.1
      rintro ⟨x, hx, -⟩
      cases hx
    | some q =>
      obtain ⟨hq, hqc⟩ := walk_clean hpos hwhole (fun d hd => hname d (List.mem_append_left _ hd)) hw
      have hstays : (rootpath.splitOn SWITCHAR ++ ds).head? = some [] ∨ ¬Falls DOT 1 (rootpath.splitOn SWITCHAR ++ ds).length cs := by
        by_contra h
        rw [← walk_upFn_none hpos.1, hw] at h
        cases h
      rw [and_iff_right hstays, ← walk_prefix_iff popsTo_upFn (List.prefix_append _ ds) hw, ← root_prefix_iff hq hc]
      have hsplit : (join SWITCHAR (q ++ [c])).splitOn SWITCHAR = q ++ [c] :=
        splitOn_join (leads_backFn.name hc hq).2 (List.append_ne_nil_of_left_ne_nil hq.1 _)
      constructor
      · rintro ⟨x, hx, hright⟩
        cases hx
        obtain ⟨hpre, hcl⟩ := hright _ rfl
        rw [hsplit] at hcl
        exact ⟨hcl c (List.mem_append_right _ List.mem_cons_self), hpre⟩
      · rintro ⟨hdots, hpre⟩
        refine ⟨_, rfl, ?_⟩
        intro t ht
        cases ht
        rw [hsplit]
        exact ⟨hpre, clean_append hqc fun d hd => by rwa [List.mem_singleton.mp hd]⟩
  · refine iff_of_false ?_ fun h => hclean h.1
    rintro ⟨x, hx, hright⟩
    obtain ⟨t, -, rfl⟩ := Option.map_eq_some_iff.mp hx
    obtain ⟨hpre, hcl⟩ := hright t rfl
    exact hclean (clean_of_right hpre hcl)

theorem underRoot_root (rootpath : List UInt8) : UnderRoot rootpath (rootpath ++ [SWITCHAR]) where
  root := List.prefix_refl _
  closed := List.getLast?_concat
  clean := by
    rw [List.drop_of_length_le (by simp)]
    decide

/-- `form_fn` in terms of the directory and the name it starts from. -/
theorem formFn_eq (rootpath defaPath : List UInt8) (table : Option (List UInt8)) (fn : List UInt8) (mode : Bool) :
    (∃ e, formFn rootpath defaPath table fn mode = some (.error e)) ∧
      FULFNLEN ≤ (startDir rootpath defaPath table fn mode).length + (startName fn).length ∨
    formFn rootpath defaPath table fn mode = (relDirLoop backFn (startDir rootpath defaPath table fn mode ++ startName fn) 0).map .ok ∧
      (startDir rootpath defaPath table fn mode).length + (startName fn).length < FULFNLEN := by
  unfold formFn startDir startName getRootPath
  by_cases habs : fn.head? = some SWITCHAR
  · simp only [if_pos habs]
    by_cases hroot : rootpath.length + 1 ≥ FULFNLEN
    · rw [if_pos hroot]
      refine .inl ⟨⟨_, rfl⟩, ?_⟩
      rw [List.length_append, List.length_singleton]
      omega
    · rw [if_neg hroot]
      dsimp only [Except.map]
      by_cases hlen : (rootpath ++ [SWITCHAR]).length + fn.tail.length ≥ FULFNLEN
      · rw [if_pos hlen]
        exact .inl ⟨⟨_, rfl⟩, hlen⟩
      · rw [if_neg hlen]
        exact .inr ⟨rfl, by omega⟩
  · simp only [if_neg habs]
    generalize (match mode, table with | true, some t => formFn1 t | _, _ => defaPath) = q
    by_cases hlen : q.length + fn.length ≥ FULFNLEN
    · rw [if_pos hlen]
      exact .inl ⟨⟨_, rfl⟩, hlen⟩
    · rw [if_neg hlen]
      exact .inr ⟨rfl, by omega⟩

/-- The full name is below the root exactly if the name does not lead out of it. -/
theorem formFn_right_iff (rootpath defaPath : List UInt8) (table : Option (List UInt8)) (fn : List UInt8) (mode : Bool) (hdefa : UnderRoot rootpath defaPath)
    (htable : ∀ t, table = some t → UnderRoot rootpath (formFn1 t)) :
    FormRight rootpath (formFn rootpath defaPath table fn mode) ↔ FormKept rootpath (startDir rootpath defaPath table fn mode) (startName fn) := by
  have hdir : UnderRoot rootpath (startDir rootpath defaPath table fn mode) := by
    unfold startDir
    split_ifs
    · exact underRoot_root rootpath
    · split
      · exact htable _ rfl
      · exact hdefa
  rcases formFn_eq rootpath defaPath table fn mode with ⟨⟨e, he⟩, hlong⟩ | ⟨heq, hlen⟩
  · rw [he]
    exact iff_of_true ⟨_, rfl, nofun⟩ (.inl hlong)
  · rw [heq]
    exact name_right_iff hdir hlen

/-- `/r/a`. -/
theorem formFn_right_iff_a : FormRight [47, 114] (formFn [47, 114] [47, 114, 47] none [97] false) ↔
    FormKept [47, 114] (startDir [47, 114] [47, 114, 47] none [97] false) (startName [97]) :=
  formFn_right_iff _ _ _ _ _ (underRoot_root _) nofun

/-- Below `/r` the name `../x` is `/x`. -/
theorem formFn_leaves : UnderRoot [47, 114] [47, 114, 47] ∧ ¬FormRight [47, 114] (formFn [47, 114] [47, 114, 47] none [46, 46, 47, 120] false) := by
  refine ⟨underRoot_root _, ?_⟩
  show ¬FormRight _ ((relDirLoop backFn ([47, 114, 47] ++ [46, 46, 47, 120]) 0).map .ok)
  refine (@name_right_iff _ [47, 114, 47] _ (underRoot_root [47, 114]) (by decide)).not.mpr ?_
  rintro (hlong | hkept)
  · exact absurd hlong (by decide)
  · exact absurd hkept.2.2.2.1 (by decide)

end Db3w.Dbf
