/-
`SET PATH TO` of setto.c. Relative directories are taken out in place and a `..` never leads in front of the end of
the root path, so the default path stays below a root path that has no relative directories itself.
-/
import Db3w.Dbf.FilePath

namespace Db3w.Dbf

open Paths

/-- What the file system says of a directory. -/
structure DirTests where
  fileexist : List UInt8 → Bool
  getaccess : List UInt8 → Bool

inductive PathErr where
  | invalidPath | dbAccess | strTooLong
  deriving DecidableEq, Repr

/-- `form_fn1` in mode 1: the directory of a file name. -/
def formFn1 (fn : List UInt8) : List UInt8 :=
  match separatorBefore fn fn.length with
  | some p => fn.take (p + 1)
  | none => fn

/-- The path before the relative directories are taken out. -/
def givenPath (admin : Bool) (rootpath defaPath q : List UInt8) : List UInt8 :=
  let s := (if q.head? = some SWITCHAR then if admin then [] else rootpath else defaPath) ++ q
  if s.getLast? = some SWITCHAR then s else s ++ [SWITCHAR]

/-- `PATH_TO`: the default path after the command, and the error if there is one. A text that is too long runs over its buffer. -/
def setPath (fs : DirTests) (admin : Bool) (rootpath defaPath : List UInt8) (filename arg : Option (List UInt8)) : Option (List UInt8 × Option PathErr) :=
  match arg with
  | some q =>
    let s := givenPath admin rootpath defaPath q
    if s.length + 2 > FULFNLEN then none
    else (relDirLoop (backPath (if admin then 0 else rootpath.length)) s 0).map fun t =>
      if fs.fileexist (t ++ [DOT]) = false then (defaPath, some .invalidPath)
      else if fs.getaccess (t ++ [DOT]) = false then (defaPath, some .dbAccess)
      else (t, none)
  | none =>
    match filename with
    | some fn => some (formFn1 fn, none)
    | none => if rootpath.length + 1 ≥ FULFNLEN then some (defaPath, some .strTooLong) else some (rootpath ++ [SWITCHAR], none)

/-- A directory below the root, without relative directories. -/
structure Confined (rootpath t : List UInt8) : Prop where
  root : rootpath ++ [SWITCHAR] <+: t
  closed : t.getLast? = some SWITCHAR
  clean : Clean DOT (t.splitOn SWITCHAR)

/-! ## The walk -/

/-- Up, but not above the components of the root path. -/
def upTo (top : Nat) (pos : List (List UInt8)) : Option (List (List UInt8)) := some (if pos.length > top then pos.dropLast else pos)

/-- Below the root, in components without a separator. -/
def Below (root pos : List (List UInt8)) : Prop := root <+: pos ∧ ∀ c ∈ pos, SWITCHAR ∉ c

variable {root pos q : List (List UInt8)} {c : List UInt8}

theorem below_name (hc : SWITCHAR ∉ c) (h : Below root pos) : Below root (pos ++ [c]) := by
  refine ⟨h.1.trans (List.prefix_append pos [c]), ?_⟩
  intro d hd
  rcases List.mem_append.mp hd with hd | hd
  · exact h.2 d hd
  · rw [List.mem_singleton.mp hd]
    exact hc

theorem below_upTo (h : Below root pos) (hup : upTo root.length pos = some q) : Below root q ∧ q <+: pos := by
  have hdrop := List.dropLast_prefix pos
  cases hup
  split_ifs with hlen
  · refine ⟨⟨?_, fun c hc => h.2 c (List.mem_of_mem_dropLast hc)⟩, hdrop⟩
    exact List.prefix_of_prefix_length_le h.1 hdrop (by rw [List.length_dropLast]; omega)
  · exact ⟨h, List.prefix_refl pos⟩

theorem join_mono (hne : root ≠ []) (h : root <+: pos) : join SWITCHAR root <+: join SWITCHAR pos := by
  obtain ⟨ds, rfl⟩ := h
  rcases eq_or_ne ds [] with rfl | hd
  · rw [List.append_nil]
  · exact (List.prefix_append _ _).trans (join_below hne hd)

theorem separatorFrom_self (s : List UInt8) (n : Nat) : separatorFrom n s n = n := by
  cases n with
  | zero => rfl
  | succ n => exact if_neg (Nat.lt_irrefl _)

/-- The index arithmetic of the code is the walk up to the root. -/
theorem leads_backPath (hroot : root ≠ []) : Leads (backPath (join SWITCHAR root).length) (upTo root.length) (Below root) where
  ne_nil h hnil := hroot (List.prefix_nil.mp (hnil ▸ h.1))
  name hc h := below_name hc h
  up_below h hup := by
    obtain ⟨hq, hpre⟩ := below_upTo h hup
    exact ⟨hq, join_mono (fun hnil => hroot (List.prefix_nil.mp (hnil ▸ hq.1))) hpre⟩
  back_eq := by
    intro pos r h
    obtain ⟨ds, rfl⟩ := h.1
    rcases List.eq_nil_or_concat ds with rfl | ⟨ds, d, rfl⟩
    · -- at the root the index stays
      unfold backPath upTo
      rw [List.append_nil, if_neg (by omega), separatorFrom_self]
      rfl
    · have hd : SWITCHAR ∉ d := h.2 d (by simp)
      have hne : root ++ ds ≠ [] := List.append_ne_nil_of_left_ne_nil hroot ds
      unfold backPath upTo
      rw [if_pos (by simp), List.concat_eq_append, ← List.append_assoc, List.dropLast_concat, join_concat hne]
      refine congrArg some ?_
      rw [List.length_append, List.length_cons, Nat.add_comm d.length, ← Nat.add_assoc]
      exact separatorFrom_join _ d _ hd (join_mono hroot (List.prefix_append root ds)).length_le

theorem confined_join (hroot : root ≠ []) (hq : Below root q) (hclean : Clean DOT q) : Confined (join SWITCHAR root) (join SWITCHAR (q ++ [[]])) := by
  obtain ⟨ds, rfl⟩ := hq.1
  have hne : root ++ ds ≠ [] := List.append_ne_nil_of_left_ne_nil hroot ds
  have hsep : ∀ c ∈ root ++ ds ++ [[]], SWITCHAR ∉ c := (below_name List.not_mem_nil hq).2
  refine ⟨?_, ?_, ?_⟩
  · rw [List.append_assoc]
    exact join_below hroot (List.append_ne_nil_of_right_ne_nil ds (List.cons_ne_nil [] []))
  · rw [join_concat hne, List.getLast?_concat]
  · rw [splitOn_join hsep (List.append_ne_nil_of_left_ne_nil hne _)]
    exact clean_append hclean (by decide)

/-- The components of a directory below the root. -/
theorem below_components {rootpath s : List UInt8} (hs : rootpath ++ [SWITCHAR] <+: s) (hlast : s.getLast? = some SWITCHAR) :
    ∃ cs, (∀ d ∈ cs, SWITCHAR ∉ d) ∧ (s.drop (rootpath.length + 1)).splitOn SWITCHAR = cs ++ [[]] ∧
      s = join SWITCHAR (rootpath.splitOn SWITCHAR ++ cs) ++ [SWITCHAR] := by
  obtain ⟨r, rfl⟩ := hs
  have hroot : rootpath.splitOn SWITCHAR ≠ [] := List.splitOn_ne_nil _ _
  have hr := not_mem_splitOn SWITCHAR r
  obtain ⟨cs, c, hcs⟩ := (List.eq_nil_or_concat (r.splitOn SWITCHAR)).resolve_left (List.splitOn_ne_nil _ _)
  rw [List.concat_eq_append] at hcs
  rw [hcs] at hr
  have htext : rootpath ++ [SWITCHAR] ++ r = join SWITCHAR (rootpath.splitOn SWITCHAR ++ cs) ++ SWITCHAR :: c := by
    rw [← join_concat (List.append_ne_nil_of_left_ne_nil hroot cs), List.append_assoc _ cs, ← hcs, join_append hroot (List.splitOn_ne_nil _ _), join_splitOn, join_splitOn,
      List.append_assoc, List.singleton_append]
  -- the text ends in a separator, so there is nothing behind the last one
  have hnil : c = [] := by
    rcases List.eq_nil_or_concat c with rfl | ⟨c', a, rfl⟩
    · rfl
    · rw [htext, List.concat_eq_append, ← List.cons_append, ← List.append_assoc, List.getLast?_concat] at hlast
      cases hlast
      exact absurd (by simp) (hr _ (List.mem_append_right _ List.mem_cons_self))
  subst hnil
  refine ⟨cs, fun d hd => hr d (List.mem_append_left _ hd), ?_, htext⟩
  rw [List.append_assoc, List.drop_length_add_append]
  exact hcs

/-- A text below the root comes out below the root. -/
theorem relDirLoop_confined {rootpath s : List UInt8} (hclean : Clean DOT (rootpath.splitOn SWITCHAR)) (hs : rootpath ++ [SWITCHAR] <+: s)
    (hlast : s.getLast? = some SWITCHAR) : ∃ t, relDirLoop (backPath rootpath.length) s 0 = some t ∧ Confined rootpath t := by
  have hroot : rootpath.splitOn SWITCHAR ≠ [] := List.splitOn_ne_nil _ _
  have hsep := not_mem_splitOn SWITCHAR rootpath
  have hjoin := join_splitOn SWITCHAR rootpath
  obtain ⟨cs, hr, -, htext⟩ := below_components hs hlast
  have hbelow : Below (rootpath.splitOn SWITCHAR) (rootpath.splitOn SWITCHAR) := ⟨List.prefix_refl _, hsep⟩
  have hloop := relDirLoop_text (leads_backPath hroot) hbelow hsep (fun d hd => hclean d (List.mem_of_mem_tail hd)) hr List.not_mem_nil
  obtain ⟨q, hq⟩ := @walk_isSome _ DOT _ (upTo (rootpath.splitOn SWITCHAR).length) (rootpath.splitOn SWITCHAR) cs (fun _ => True)
    (fun _ _ _ => trivial) (fun _ _ => ⟨_, rfl, trivial⟩) trivial
  have hinv : Below (rootpath.splitOn SWITCHAR) q ∧ Clean DOT q := by
    refine walk_induct (I := fun pos => Below (rootpath.splitOn SWITCHAR) pos ∧ Clean DOT pos) ?_ ?_ ⟨hbelow, hclean⟩ hq
    · rintro pos d hd ⟨hb, hcl⟩ hdots
      exact ⟨below_name (hr d hd) hb, clean_append hcl fun e he => by rwa [List.mem_singleton.mp he]⟩
    · rintro pos pos' ⟨hb, hcl⟩ hup
      obtain ⟨hb', hpre⟩ := below_upTo hb hup
      exact ⟨hb', fun e he => hcl e (hpre.subset he)⟩
  rw [hq, ← join_append hroot (List.append_ne_nil_of_right_ne_nil cs (List.cons_ne_nil [] [])), ← List.append_assoc,
    join_concat (List.append_ne_nil_of_left_ne_nil hroot cs), hjoin, ← htext] at hloop
  exact ⟨_, hloop, hjoin ▸ confined_join hroot hinv.1 hinv.2⟩

/-! ## Any sequence of commands -/

/-- A path string: not empty, and without a NUL. -/
structure PathText where
  text : List UInt8
  ne_nil : text ≠ []
  no_nul : 0 ∉ text

/-- The default paths that commands lead to. The table that may be open when no path is given is one below the root. -/
inductive Reach (rootpath : List UInt8) : List UInt8 → Prop where
  | init : Reach rootpath (rootpath ++ [SWITCHAR])
  | set {P P' : List UInt8} {e : Option PathErr} (fs : DirTests) (filename : Option (List UInt8)) (q : PathText) (h : Reach rootpath P)
      (hset : setPath fs false rootpath P filename (some q.text) = some (P', e)) : Reach rootpath P'
  | unset {P P' : List UInt8} {e : Option PathErr} (fs : DirTests) (filename : Option (List UInt8)) (h : Reach rootpath P)
      (hfn : ∀ fn, filename = some fn → Confined rootpath (formFn1 fn)) (hset : setPath fs false rootpath P filename none = some (P', e)) : Reach rootpath P'

variable {rootpath P P' : List UInt8}

theorem confined_root (hclean : Clean DOT (rootpath.splitOn SWITCHAR)) : Confined rootpath (rootpath ++ [SWITCHAR]) := by
  have hroot : rootpath.splitOn SWITCHAR ≠ [] := List.splitOn_ne_nil _ _
  have h := confined_join hroot ⟨List.prefix_refl _, not_mem_splitOn SWITCHAR rootpath⟩ hclean
  rwa [join_concat hroot, join_splitOn] at h

/-- The text that is given starts below the root and ends in a separator. -/
theorem givenPath_spec (hP : rootpath ++ [SWITCHAR] <+: P) {q : List UInt8} (hq : q ≠ []) :
    rootpath ++ [SWITCHAR] <+: givenPath false rootpath P q ∧ (givenPath false rootpath P q).getLast? = some SWITCHAR ∧
      (givenPath false rootpath P q).length ≤ max rootpath.length P.length + q.length + 1 := by
  have hbase : rootpath ++ [SWITCHAR] <+: (if q.head? = some SWITCHAR then rootpath else P) ++ q := by
    split_ifs with hhead
    · obtain ⟨r, rfl⟩ := List.head?_eq_some_iff.mp hhead
      exact ⟨r, by simp⟩
    · exact hP.trans (List.prefix_append P q)
  have hlen : ((if q.head? = some SWITCHAR then rootpath else P) ++ q).length ≤ max rootpath.length P.length + q.length := by
    rw [List.length_append]
    split_ifs <;> omega
  unfold givenPath
  simp only [Bool.false_eq_true, if_false]
  generalize (if q.head? = some SWITCHAR then rootpath else P) ++ q = s at hbase hlen
  split_ifs with hlast
  · exact ⟨hbase, hlast, by omega⟩
  · refine ⟨hbase.trans (List.prefix_append s _), List.getLast?_concat, ?_⟩
    rw [List.length_append, List.length_singleton]
    omega

/-- One command with a path: an error, or a path below the root. -/
theorem setPath_cases (hclean : Clean DOT (rootpath.splitOn SWITCHAR)) (hP : rootpath ++ [SWITCHAR] <+: P) {q : List UInt8} (hq : q ≠ []) (fs : DirTests)
    (filename : Option (List UInt8)) :
    ((givenPath false rootpath P q).length + 2 > FULFNLEN ∧ setPath fs false rootpath P filename (some q) = none) ∨
      ∃ P' e, setPath fs false rootpath P filename (some q) = some (P', e) ∧ ((e ≠ none ∧ P' = P) ∨ (e = none ∧ Confined rootpath P')) := by
  obtain ⟨hpre, hlast, -⟩ := givenPath_spec hP hq
  obtain ⟨t, ht, hconf⟩ := relDirLoop_confined hclean hpre hlast
  unfold setPath
  dsimp only
  by_cases hlen : (givenPath false rootpath P q).length + 2 > FULFNLEN
  · exact .inl ⟨hlen, if_pos hlen⟩
  · rw [if_neg hlen, if_neg Bool.false_ne_true, ht]
    refine .inr ?_
    by_cases hexist : fs.fileexist (t ++ [DOT]) = false
    · exact ⟨P, some .invalidPath, congrArg some (if_pos hexist), .inl ⟨nofun, rfl⟩⟩
    by_cases haccess : fs.getaccess (t ++ [DOT]) = false
    · exact ⟨P, some .dbAccess, congrArg some ((if_neg hexist).trans (if_pos haccess)), .inl ⟨nofun, rfl⟩⟩
    · exact ⟨t, none, congrArg some ((if_neg hexist).trans (if_neg haccess)), .inr ⟨rfl, hconf⟩⟩

/-- All default paths are below the root. -/
theorem Reach.confined (hclean : Clean DOT (rootpath.splitOn SWITCHAR)) (h : Reach rootpath P) : Confined rootpath P := by
  induction h with
  | init => exact confined_root hclean
  | set fs filename q _ hset ih =>
    rcases setPath_cases hclean ih.root q.ne_nil fs filename with ⟨-, hnone⟩ | ⟨t, e, hsome, hcases⟩
    · rw [hnone] at hset
      cases hset
    · rw [hsome] at hset
      cases hset
      rcases hcases with ⟨-, rfl⟩ | ⟨-, hconf⟩
      · exact ih
      · exact hconf
  | unset fs filename _ hfn hset ih =>
    unfold setPath at hset
    cases filename with
    | some fn =>
      cases hset
      exact hfn fn rfl
    | none =>
      dsimp only at hset
      split_ifs at hset <;> cases hset
      · exact ih
      · exact confined_root hclean

/-- `SET PATH` reports an error and changes nothing, or sets a path below the root. -/
theorem setPath_confined (hclean : Clean DOT (rootpath.splitOn SWITCHAR)) (hP : Reach rootpath P) (q : PathText)
    (hlen : rootpath.length + 1 + P.length + q.text.length + 1 < FULFNLEN) (fs : DirTests) (filename : Option (List UInt8)) :
    ∃ P' e, setPath fs false rootpath P filename (some q.text) = some (P', e) ∧ ((e ≠ none ∧ P' = P) ∨ (e = none ∧ Confined rootpath P')) := by
  have hroot := (hP.confined hclean).root
  rcases setPath_cases hclean hroot q.ne_nil fs filename with ⟨hlong, -⟩ | h
  · have := (givenPath_spec hroot q.ne_nil).2.2
    omega
  · exact h

/-- `/r` and `a/../../..`. -/
theorem setPath_confined_r : ∃ P' e, setPath ⟨fun _ => true, fun _ => true⟩ false [47, 114] [47, 114, 47] none (some [97, 47, 46, 46, 47, 46, 46, 47, 46, 46]) = some (P', e) ∧
    ((e ≠ none ∧ P' = [47, 114, 47]) ∨ (e = none ∧ Confined [47, 114] P')) :=
  setPath_confined (by decide) .init ⟨_, by decide, by decide⟩ (by decide) _ _

/-- A root path with a relative directory is changed itself: below `/./s` the path `x` is `/s/x`. -/
theorem setPath_leaves : ∃ P', setPath ⟨fun _ => true, fun _ => true⟩ false [47, 46, 47, 115] [47, 46, 47, 115, 47] none (some [120]) = some (P', none) ∧
    ¬Confined [47, 46, 47, 115] P' := by
  have hloop : relDirLoop (backPath 4) [47, 46, 47, 115, 47, 120, 47] 0 = some [47, 115, 47, 120, 47] := by
    refine (turn_dot [] [115, 47, 120, 47]).trans ?_
    refine (@relDirLoop_names _ [[]] [[115], [120]] (by decide) (by decide) (by decide) []).trans ?_
    exact turn_last _ List.not_mem_nil
  refine ⟨[47, 115, 47, 120, 47], ?_, fun h => absurd h.root (by decide)⟩
  exact congrArg (Option.map _) hloop

end Db3w.Dbf
