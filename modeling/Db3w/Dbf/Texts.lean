/-
The texts of the contexts: filter, relation and LOCATE expressions, and the names of open files, each
kind packed in a buffer of its own. Deleting a file name clears the pointer to it. Deleting an
expression does not; the pointer of its context stays where the text was, on what has moved there.
So the texts are right in the runs in which no expression that is set is cleared without another
one taking its place.
-/
import Db3w.Lib.Runs
import Db3w.Lib.StrPool
import Db3w.Ndx.Header
import Db3w.Ndx.Pool

namespace Db3w

open Bytes

abbrev EXPBUFSZ : Nat := 16384
abbrev FNBUFSZ : Nat := 2048

abbrev CtxId := Fin (MAXCTX + 1)

/-- `EXP_RELA`, `EXP_FILTER` and `EXP_LOCATE`. -/
inductive ExpTyp where
  | rela | filter | locate
  deriving DecidableEq, Repr

/-- The entries that have a file name. -/
inductive FnHolder where
  | dbf (c : CtxId)
  | ndx (c : CtxId) (j : Fin MAXNDX)
  | frm | pro | mem
  deriving DecidableEq, Repr

/-- The pools with the pointers into them, the tables related to (-1 for none), and the files that are open. -/
structure Texts where
  exps : ExpTyp → StrPool CtxId
  fns : StrPool FnHolder
  rela : CtxId → Int
  isOpen : FnHolder → Bool

inductive TextErr where
  | noMemory | invalidType | evaluation | badAlias | noNameSpace | stillOpen
  deriving DecidableEq, Repr

/-- A text that a command passes. -/
abbrev Text := {s : List UInt8 // 0 ∉ s}

def isspace (b : UInt8) : Bool := b = 32 || 9 ≤ b && b ≤ 13

/-- `filterisset` and `relation_isset`. -/
def Texts.filterisset (st : Texts) (c : CtxId) : Bool := ((st.exps .filter).ptr c).isSome

def Texts.relationIsset (st : Texts) (c : CtxId) : Bool := st.rela c ≠ -1 && ((st.exps .rela).ptr c).isSome

def Texts.setExps (st : Texts) (t : ExpTyp) (p : StrPool CtxId) : Texts := { st with exps := Function.update st.exps t p }

/-- `del_exp`. The pointer of the context is left as it is. -/
def Texts.delExp (st : Texts) (t : ExpTyp) (c : CtxId) : Texts :=
  match (st.exps t).ptr c with
  | none => st
  | some q => st.setExps t ((st.exps t).cut q EXPBUFSZ)

/-- The type of a relation is not logical, the other expressions are conditions. -/
def ExpTyp.accepts (t : ExpTyp) (v : ValTyp) : Prop := if t = .rela then v ≠ .logic else v = .logic

instance (t : ExpTyp) (v : ValTyp) : Decidable (t.accepts v) := inferInstanceAs (Decidable (ite _ _ _))

/-- `add_exp`. `v` is the type of what the expression evaluates to, unless evaluating it fails: the
room in the buffer is taken before that, the pointer set after it. -/
def Texts.addExp (st : Texts) (t : ExpTyp) (c : CtxId) (s : List UInt8) (v : Option ValTyp) : Texts × Option TextErr :=
  let s := s.dropWhile isspace
  let p := st.exps t
  if s.length = 0 then (st, none)
  else if p.next + s.length + 1 > EXPBUFSZ then (st, some .noMemory)
  else
    match v with
    | none => (st.setExps t (p.append s), some .evaluation)
    | some v =>
      if t.accepts v then (st.setExps t ((p.append s).point c (some p.next)), none)
      else (st.setExps t (p.append s), some .invalidType)

/-- An expression that a command sets: its text and what it evaluates to. -/
abbrev ExpArg := Text × Option ValTyp

/-- `SET FILTER TO` and `LOCATE`. -/
def Texts.setExp (st : Texts) (t : ExpTyp) (c : CtxId) (arg : Option ExpArg) : Texts × Option TextErr :=
  let st := st.delExp t c
  match arg with
  | none => (st, none)
  | some (s, v) => st.addExp t c s.1 v

/-- `SET RELATION TO`. The table related to is looked up first; `none` is one that does not exist, or
would close a cycle. A number below zero is none of these. -/
def Texts.setRelation (st : Texts) (c : CtxId) (arg : Option (Option Int × ExpArg)) : Texts × Option TextErr :=
  let st := { st with rela := Function.update st.rela c (-1) }.delExp .rela c
  match arg with
  | none => (st, none)
  | some (none, _) => (st, some .badAlias)
  | some (some i, s, v) => { st with rela := Function.update st.rela c i }.addExp .rela c s.1 v

/-- `addfn`, into the entry `h`. -/
def Texts.addfn (st : Texts) (h : FnHolder) (filename : Text) : Texts × Option TextErr :=
  if st.fns.next + (filename.1.length + 1) > FNBUFSZ then (st, some .noNameSpace)
  else ({ st with fns := (st.fns.append filename.1).point h (some st.fns.next) }, none)

def Texts.delfn (st : Texts) (h : FnHolder) : Texts × Option TextErr :=
  match st.fns.ptr h with
  | none => (st, none)
  | some q => if st.isOpen h then (st, some .stillOpen) else ({ st with fns := (st.fns.cut q st.fns.next).point h none }, none)

/-- The file names of a context. -/
def ctxHolders (c : CtxId) : List FnHolder := (List.finRange MAXNDX).map (FnHolder.ndx c) ++ [FnHolder.dbf c]

/-- `cleandb`: the files of the context are closed and their names deleted, then its expressions. -/
def Texts.cleandb (st : Texts) (c : CtxId) : Texts :=
  let st := { st with isOpen := fun h => st.isOpen h && h ∉ ctxHolders c }
  let st := (ctxHolders c).foldl (fun st h => (st.delfn h).1) st
  let st := (st.delExp .rela c).delExp .filter c
  { st with rela := Function.update st.rela c (-1) }

/-! ## Runs -/

/-- What the texts should be: those last set. -/
structure Said where
  exps : ExpTyp → CtxId → Option (List UInt8)
  fns : FnHolder → Option (List UInt8)

inductive TextOp where
  | setExp (t : ExpTyp) (c : CtxId) (arg : Option ExpArg)
  | setRelation (c : CtxId) (arg : Option (Option Int × ExpArg))
  | cleandb (c : CtxId)
  | addfn (h : FnHolder) (filename : Text)
  | delfn (h : FnHolder)
  | fopen (h : FnHolder) (o : Bool)

def Said.setExp (sd : Said) (t : ExpTyp) (c : CtxId) (s : Option (List UInt8)) : Said :=
  { sd with exps := Function.update sd.exps t (Function.update (sd.exps t) c s) }

def Said.setFn (sd : Said) (h : FnHolder) (s : Option (List UInt8)) : Said := { sd with fns := Function.update sd.fns h s }

/-- The text that a command has set: none when it reports an error, or when there is nothing to set. -/
def saidText (arg : Option ExpArg) (err : Option TextErr) : Option (List UInt8) :=
  match arg, err with
  | some (s, _), none => some (s.1.dropWhile isspace) |>.filter (·.length ≠ 0)
  | _, _ => none

/-- The state, and what it should hold. -/
abbrev TextRun := Texts × Said

def TextOp.apply (x : TextRun) : TextOp → TextRun
  | .setExp t c arg =>
    let (st, err) := x.1.setExp t c arg
    (st, x.2.setExp t c (saidText arg err))
  | .setRelation c arg =>
    let (st, err) := x.1.setRelation c arg
    (st, x.2.setExp .rela c (saidText (arg.map Prod.snd) err))
  | .cleandb c =>
    (x.1.cleandb c, (((ctxHolders c).foldl (fun sd h => sd.setFn h none) x.2).setExp .rela c none).setExp .filter c none)
  | .addfn h filename =>
    match x.1.addfn h filename with
    | (st, none) => (st, x.2.setFn h (some filename.1))
    | (st, some _) => (st, x.2)
  | .delfn h =>
    match x.1.delfn h with
    | (st, none) => (st, x.2.setFn h none)
    | (st, some _) => (st, x.2)
  | .fopen h o => ({ x.1 with isOpen := Function.update x.1.isOpen h o }, x.2)

/-- Every pointer reads the text last set, and what is cleared is not active. -/
structure Texts.Right (st : Texts) (sd : Said) : Prop where
  exps : ∀ t c, (st.exps t).text c = sd.exps t c
  fns : ∀ h, st.fns.text h = sd.fns h
  filter : ∀ c, sd.exps .filter c = none → st.filterisset c = false
  rela : ∀ c, sd.exps .rela c = none → st.relationIsset c = false

/-- The texts are right after the step. -/
def TextOp.Right (x : TextRun) (op : TextOp) : Prop := (op.apply x).1.Right (op.apply x).2

/-- There is a text to set, with room for it, and it is of the right type. -/
def Settable (st : Texts) (t : ExpTyp) (arg : Option ExpArg) : Prop :=
  ∃ s v, arg = some (s, some v) ∧ (s.1.dropWhile isspace).length ≠ 0 ∧ (st.exps t).next + (s.1.dropWhile isspace).length + 1 ≤ EXPBUFSZ ∧ t.accepts v

/-- No expression that is set is cleared, other than by setting another one. -/
def TextOp.Ok (x : TextRun) : TextOp → Prop
  | .setExp t c arg => (x.1.exps t).ptr c = none ∨ Settable (x.1.delExp t c) t arg
  | .setRelation c arg => (x.1.exps .rela).ptr c = none ∨ ∃ i a, arg = some (some i, a) ∧ Settable (x.1.delExp .rela c) .rela (some a)
  | .cleandb c => (x.1.exps .rela).ptr c = none ∧ (x.1.exps .filter).ptr c = none
  | _ => True

/-! ## The pools -/

/-- The pools hold the texts last set. -/
structure Texts.Good (st : Texts) (sd : Said) : Prop where
  exps : ∀ t, (st.exps t).Holds (sd.exps t)
  fns : st.fns.Holds sd.fns
  expsLen : ∀ t, (st.exps t).buf.length = EXPBUFSZ
  fnsLen : st.fns.buf.length = FNBUFSZ

section Pools

variable {st : Texts} {sd : Said} {t : ExpTyp} {c : CtxId} {p : StrPool CtxId} {s : Option (List UInt8)}

theorem Texts.Good.right (hg : st.Good sd) : st.Right sd where
  exps t := (hg.exps t).text
  fns := hg.fns.text
  filter c hc := by rw [Texts.filterisset, ((hg.exps .filter).unset c).mpr hc, Option.isSome_none]
  rela c hc := by rw [Texts.relationIsset, ((hg.exps .rela).unset c).mpr hc, Option.isSome_none, Bool.and_false]

/-- The pointer of a context whose text is cleared stands for a text that is not set. -/
theorem Texts.Right.ptr_none (hr : st.Right sd) (hc : sd.exps t c = none) : (st.exps t).ptr c = none := by
  have htext := hr.exps t c
  rw [hc, StrPool.text, Option.map_eq_none_iff] at htext
  exact htext

theorem Texts.Good.setExps (hg : st.Good sd) (hp : p.Holds (Function.update (sd.exps t) c s)) (hl : p.buf.length = EXPBUFSZ) :
    (st.setExps t p).Good (sd.setExp t c s) := by
  refine ⟨fun u => ?_, hg.fns, fun u => ?_, hg.fnsLen⟩
  · by_cases hu : u = t
    · subst hu
      simpa [Texts.setExps, Said.setExp] using hp
    · simpa [Texts.setExps, Said.setExp, hu] using hg.exps u
  · by_cases hu : u = t
    · subst hu
      simpa [Texts.setExps] using hl
    · simpa [Texts.setExps, hu] using hg.expsLen u

/-- `del_exp` on the pool of the expression. -/
def delPool (p : StrPool CtxId) (c : CtxId) : StrPool CtxId :=
  match p.ptr c with
  | none => p
  | some q => p.cut q EXPBUFSZ

theorem delExp_eq (st : Texts) (t : ExpTyp) (c : CtxId) : st.delExp t c = st.setExps t (delPool (st.exps t) c) := by
  unfold Texts.delExp delPool
  cases (st.exps t).ptr c with
  | none => simp [Texts.setExps]
  | some q => rfl

theorem delPool_ptr (p : StrPool CtxId) (c : CtxId) : (delPool p c).ptr c = p.ptr c := by
  unfold delPool
  cases hq : p.ptr c with
  | none => exact hq
  | some q => simp [StrPool.cut, hq]

/-- But for the pointer of the context itself the pool holds the other texts. -/
theorem delPool_holds {T : CtxId → Option (List UInt8)} (h : p.Holds T) (hl : p.buf.length = EXPBUFSZ) :
    ((delPool p c).point c none).Holds (Function.update T c none) ∧ (delPool p c).buf.length = EXPBUFSZ := by
  unfold delPool
  cases hq : p.ptr c with
  | none =>
    have hT := (h.unset c).mp hq
    have hp : p.point c none = p := by rw [StrPool.point, ← hq, Function.update_eq_self]
    rw [← hT, Function.update_eq_self]
    refine ⟨?_, hl⟩
    show (p.point c none).Holds T
    rwa [hp]
  | some q =>
    obtain ⟨hcut, hlen⟩ := h.cut hq (hl ▸ h.next_le) hl.ge
    exact ⟨hcut, hlen.trans hl⟩

theorem addExp_settable {s : Text} {v : Option ValTyp} (h : Settable st t (some (s, v))) :
    st.addExp t c s.1 v = (st.setExps t (((st.exps t).append (s.1.dropWhile isspace)).point c (some (st.exps t).next)), none) ∧
      saidText (some (s, v)) none = some (s.1.dropWhile isspace) ∧ (st.exps t).next + (s.1.dropWhile isspace).length + 1 ≤ EXPBUFSZ := by
  obtain ⟨s', v', heq, h0, hle, hacc⟩ := h
  obtain ⟨rfl, rfl⟩ := Prod.mk.inj (Option.some.inj heq)
  refine ⟨?_, ?_, hle⟩
  · unfold Texts.addExp
    rw [if_neg h0, if_neg (by omega)]
    exact if_pos hacc
  · simp only [saidText, Option.filter_some, ne_eq, decide_eq_true_eq]
    rw [if_pos h0]

/-- What cannot be set takes room at most. -/
theorem addExp_unsettable {s : Text} {v : Option ValTyp} (h : ¬Settable st t (some (s, v))) :
    ∃ p err, st.addExp t c s.1 v = (st.setExps t p, err) ∧ saidText (some (s, v)) err = none ∧
      (p = st.exps t ∨ p = (st.exps t).append (s.1.dropWhile isspace) ∧ (st.exps t).next + (s.1.dropWhile isspace).length + 1 ≤ EXPBUFSZ) := by
  unfold Texts.addExp
  dsimp only
  by_cases h0 : (s.1.dropWhile isspace).length = 0
  · refine ⟨st.exps t, none, by rw [if_pos h0]; simp [Texts.setExps], ?_, Or.inl rfl⟩
    simp [saidText, Option.filter_some, List.eq_nil_of_length_eq_zero h0]
  rw [if_neg h0]
  by_cases hle : (st.exps t).next + (s.1.dropWhile isspace).length + 1 > EXPBUFSZ
  · exact ⟨st.exps t, some .noMemory, by rw [if_pos hle]; simp [Texts.setExps], rfl, Or.inl rfl⟩
  rw [if_neg hle]
  cases v with
  | none => exact ⟨_, _, rfl, rfl, Or.inr ⟨rfl, by omega⟩⟩
  | some v =>
    have hacc : ¬t.accepts v := fun hacc => h ⟨s, v, rfl, h0, by omega, hacc⟩
    exact ⟨_, _, if_neg hacc, rfl, Or.inr ⟨rfl, by omega⟩⟩

theorem setExps_setExps (st : Texts) (t : ExpTyp) (p q : StrPool CtxId) : (st.setExps t p).setExps t q = st.setExps t q := by
  simp [Texts.setExps]

@[simp] theorem setExps_self (st : Texts) (t : ExpTyp) (p : StrPool CtxId) : (st.setExps t p).exps t = p := by simp [Texts.setExps]

/-- **Setting and clearing an expression** leaves the pool in order exactly where nothing that is set is
cleared. -/
theorem setExp_spec (hg : st.Good sd) (arg : Option ExpArg) :
    ∃ p err, st.setExp t c arg = (st.setExps t p, err) ∧
      ((((st.exps t).ptr c = none ∨ Settable (st.delExp t c) t arg) ∧ p.Holds (Function.update (sd.exps t) c (saidText arg err)) ∧
          p.buf.length = EXPBUFSZ) ∨
        ¬((st.exps t).ptr c = none ∨ Settable (st.delExp t c) t arg) ∧ p.ptr c ≠ none ∧ saidText arg err = none) := by
  obtain ⟨hdel, hlen⟩ := delPool_holds (c := c) (hg.exps t) (hg.expsLen t)
  have hpool : (st.delExp t c).exps t = delPool (st.exps t) c := by rw [delExp_eq, setExps_self]
  -- the pool after the deletion, with no more than room taken in it
  have hkept : ∀ p, p = delPool (st.exps t) c ∨ (∃ s, p = (delPool (st.exps t) c).append s ∧ (delPool (st.exps t) c).next + s.length + 1 ≤ EXPBUFSZ) →
      (st.exps t).ptr c = none → p.Holds (Function.update (sd.exps t) c none) ∧ p.buf.length = EXPBUFSZ := by
    intro p hp hnone
    have hd : delPool (st.exps t) c = st.exps t := by simp [delPool, hnone]
    rw [← ((hg.exps t).unset c).mp hnone, Function.update_eq_self]
    rcases hp with rfl | ⟨s, rfl, hle⟩
    · rw [hd]
      exact ⟨hg.exps t, hg.expsLen t⟩
    · rw [hd] at hle ⊢
      obtain ⟨ha, -, hl⟩ := (hg.exps t).append (s := s) (hle.trans (hg.expsLen t).ge)
      exact ⟨ha, hl.trans (hg.expsLen t)⟩
  have hptr : ∀ p, p = delPool (st.exps t) c ∨ (∃ s, p = (delPool (st.exps t) c).append s ∧ (delPool (st.exps t) c).next + s.length + 1 ≤ EXPBUFSZ) →
      p.ptr c = (st.exps t).ptr c := by
    rintro p (rfl | ⟨s, rfl, -⟩)
    · exact delPool_ptr ..
    · exact delPool_ptr ..
  unfold Texts.setExp
  cases arg with
  | none =>
    refine ⟨delPool (st.exps t) c, none, by rw [delExp_eq], ?_⟩
    by_cases hnone : (st.exps t).ptr c = none
    · exact Or.inl ⟨Or.inl hnone, hkept _ (Or.inl rfl) hnone⟩
    · refine Or.inr ⟨?_, ?_, rfl⟩
      · rintro (h | ⟨s, v, h, -⟩)
        · exact hnone h
        · cases h
      · rw [hptr _ (Or.inl rfl)]
        exact hnone
  | some a =>
    obtain ⟨s, v⟩ := a
    by_cases hset : Settable (st.delExp t c) t (some (s, v))
    · obtain ⟨hadd, hsaid, hle⟩ := addExp_settable (c := c) hset
      rw [hpool] at hadd hle
      refine ⟨_, none, hadd.trans (by rw [delExp_eq, setExps_setExps]), Or.inl ⟨Or.inr hset, ?_, ?_⟩⟩
      · -- as if the pointer had been cleared in between
        have h0 : 0 ∉ s.1.dropWhile isspace := fun h => s.2 ((List.dropWhile_suffix isspace).subset h)
        have hnew := hdel.add (s := s.1.dropWhile isspace) h0 (hle.trans hlen.ge) c
        rw [Function.update_idem] at hnew
        rw [hsaid]
        have hpp : ((delPool (st.exps t) c).point c none |>.append (s.1.dropWhile isspace)).point c (some ((delPool (st.exps t) c).point c none).next) =
            ((delPool (st.exps t) c).append (s.1.dropWhile isspace)).point c (some (delPool (st.exps t) c).next) := by
          simp only [StrPool.point, StrPool.append, Function.update_idem]
        rwa [hpp] at hnew
      · have hl := (hdel.append (s := s.1.dropWhile isspace) (hle.trans hlen.ge)).2.2
        exact hl.trans hlen
    · obtain ⟨p, err, hadd, hsaid, hp⟩ := addExp_unsettable (c := c) hset
      rw [hpool] at hp
      have hp' : p = delPool (st.exps t) c ∨ (∃ s, p = (delPool (st.exps t) c).append s ∧ (delPool (st.exps t) c).next + s.length + 1 ≤ EXPBUFSZ) :=
        hp.imp_right fun h => ⟨_, h⟩
      refine ⟨p, err, hadd.trans (by rw [delExp_eq, setExps_setExps]), ?_⟩
      rw [hsaid]
      by_cases hnone : (st.exps t).ptr c = none
      · exact Or.inl ⟨Or.inl hnone, hkept p hp' hnone⟩
      · refine Or.inr ⟨not_or.mpr ⟨hnone, hset⟩, ?_, rfl⟩
        rw [hptr p hp']
        exact hnone

end Pools

/-! ## The steps -/

section Steps

variable {st : Texts} {sd : Said} {t : ExpTyp} {c : CtxId} {h : FnHolder}

theorem Said.setExp_none (hc : sd.exps t c = none) : sd.setExp t c none = sd := by
  rw [Said.setExp, ← hc, Function.update_eq_self, Function.update_eq_self]

theorem Said.setFn_none (hn : sd.fns h = none) : sd.setFn h none = sd := by rw [Said.setFn, ← hn, Function.update_eq_self]

/-- The tables related to do not matter to the texts. -/
theorem Texts.Good.setRela (hg : st.Good sd) (r : CtxId → Int) : Texts.Good { st with rela := r } sd :=
  ⟨hg.exps, hg.fns, hg.expsLen, hg.fnsLen⟩

theorem Texts.Good.setOpen (hg : st.Good sd) (o : FnHolder → Bool) : Texts.Good { st with isOpen := o } sd :=
  ⟨hg.exps, hg.fns, hg.expsLen, hg.fnsLen⟩

theorem delExp_rela (st : Texts) (t : ExpTyp) (c : CtxId) (r : CtxId → Int) :
    ({ st with rela := r } : Texts).delExp t c = { st.delExp t c with rela := r } := by
  rw [delExp_eq, delExp_eq]
  rfl

/-- Setting a relation is setting its expression, on the table related to. -/
theorem setRelation_eq (st : Texts) (c : CtxId) (arg : Option (Option Int × ExpArg)) :
    ∃ r err, st.setRelation c arg = ((({ st with rela := r } : Texts).setExp .rela c (arg.bind fun a => a.1.map fun _ => a.2)).1, err) ∧
      saidText (arg.map Prod.snd) err = saidText (arg.bind fun a => a.1.map fun _ => a.2)
        (({ st with rela := r } : Texts).setExp .rela c (arg.bind fun a => a.1.map fun _ => a.2)).2 := by
  unfold Texts.setRelation
  match arg with
  | none => exact ⟨_, _, rfl, rfl⟩
  | some (none, a) => exact ⟨_, _, rfl, rfl⟩
  | some (some i, a) =>
    refine ⟨Function.update (Function.update st.rela c (-1)) c i, _, Prod.ext ?_ rfl, ?_⟩
    · simp only [Option.bind_some, Option.map_some, Texts.setExp, delExp_rela]
    · simp only [Option.bind_some, Option.map_some, Texts.setExp, delExp_rela]

theorem Texts.Good.addfn (hg : st.Good sd) (s : Text) :
    (TextOp.addfn h s |>.apply (st, sd)).1.Good (TextOp.addfn h s |>.apply (st, sd)).2 := by
  unfold TextOp.apply Texts.addfn
  dsimp only
  by_cases hle : st.fns.next + (s.1.length + 1) > FNBUFSZ
  · rw [if_pos hle]
    exact hg
  · rw [if_neg hle]
    have hroom : st.fns.next + s.1.length + 1 ≤ st.fns.buf.length := by
      rw [hg.fnsLen]
      omega
    exact ⟨hg.exps, hg.fns.add s.2 hroom h, hg.expsLen, ((hg.fns.append hroom).2.2).trans hg.fnsLen⟩

theorem delfn_closed (hg : st.Good sd) (hcl : st.isOpen h = false) :
    (st.delfn h).1.Good (sd.setFn h none) ∧ (st.delfn h).2 = none ∧ (st.delfn h).1.exps = st.exps ∧ (st.delfn h).1.isOpen = st.isOpen := by
  unfold Texts.delfn
  cases hq : st.fns.ptr h with
  | none =>
    rw [Said.setFn_none ((hg.fns.unset h).mp hq)]
    exact ⟨hg, rfl, rfl, rfl⟩
  | some q =>
    rw [hcl]
    obtain ⟨hcut, hlen⟩ := hg.fns.cut hq le_rfl hg.fns.next_le
    exact ⟨⟨hg.exps, hcut, hg.expsLen, hlen.trans hg.fnsLen⟩, rfl, rfl, rfl⟩

theorem Texts.Good.delfn (hg : st.Good sd) : (TextOp.delfn h |>.apply (st, sd)).1.Good (TextOp.delfn h |>.apply (st, sd)).2 := by
  by_cases hcl : st.isOpen h = false
  · obtain ⟨hg', herr, -⟩ := delfn_closed hg hcl
    unfold TextOp.apply
    dsimp only
    rw [show st.delfn h = ((st.delfn h).1, none) from Prod.ext rfl herr]
    exact hg'
  · rw [Bool.not_eq_false] at hcl
    unfold TextOp.apply Texts.delfn
    dsimp only
    cases hq : st.fns.ptr h with
    | none =>
      show st.Good (sd.setFn h none)
      rwa [Said.setFn_none ((hg.fns.unset h).mp hq)]
    | some q =>
      dsimp only
      rw [hcl]
      exact hg

/-- The names of files that are closed are deleted one after the other. -/
theorem delfns_closed : ∀ (hs : List FnHolder) {st : Texts} {sd : Said}, st.Good sd → (∀ h ∈ hs, st.isOpen h = false) →
    (hs.foldl (fun st h => (st.delfn h).1) st).Good (hs.foldl (fun sd h => sd.setFn h none) sd) ∧
      (hs.foldl (fun st h => (st.delfn h).1) st).exps = st.exps
  | [], _, _, hg, _ => ⟨hg, rfl⟩
  | h :: hs, st, sd, hg, hcl => by
    obtain ⟨hg', -, hexps, hopen⟩ := delfn_closed hg (hcl h (List.mem_cons_self ..))
    obtain ⟨hg'', hexps'⟩ := delfns_closed hs hg' fun k hk => by
      rw [hopen]
      exact hcl k (List.mem_cons_of_mem _ hk)
    exact ⟨hg'', hexps'.trans hexps⟩

theorem delExp_none (hn : (st.exps t).ptr c = none) : st.delExp t c = st := by
  unfold Texts.delExp
  rw [hn]

/-- What `cleandb` does to the pools: the names go, and the expressions are cleared. -/
theorem cleandb_spec (hg : st.Good sd) (c : CtxId) :
    ∃ st' : Texts, st'.Good ((ctxHolders c).foldl (fun sd h => sd.setFn h none) sd) ∧ st'.exps = st.exps ∧
      (st.cleandb c).exps = ((st'.delExp .rela c).delExp .filter c).exps ∧ (st.cleandb c).fns = st'.fns := by
  obtain ⟨hg', hexps⟩ := delfns_closed (ctxHolders c) (hg.setOpen fun h => st.isOpen h && h ∉ ctxHolders c) (by simp +contextual)
  refine ⟨_, hg', hexps, rfl, ?_⟩
  unfold Texts.cleandb
  dsimp only
  rw [delExp_eq, delExp_eq]
  rfl

end Steps

/-- **Each step** leaves the texts right exactly where it clears no expression that is set, and keeps
the pools in order there. -/
theorem TextOp.right_iff {x : TextRun} (hg : x.1.Good x.2) (op : TextOp) :
    (op.Right x ↔ op.Ok x) ∧ (op.Ok x → (op.apply x).1.Good (op.apply x).2) := by
  suffices h : (op.Ok x → (op.apply x).1.Good (op.apply x).2) ∧ (op.Right x → op.Ok x) from
    ⟨⟨h.2, fun hok => (h.1 hok).right⟩, h.1⟩
  obtain ⟨st, sd⟩ := x
  cases op with
  | setExp t c arg =>
    obtain ⟨p, err, hset, hp⟩ := setExp_spec (t := t) (c := c) hg arg
    have happ : (TextOp.setExp t c arg).apply (st, sd) = (st.setExps t p, sd.setExp t c (saidText arg err)) := by
      simp only [TextOp.apply, hset]
    unfold TextOp.Right
    rw [happ]
    constructor
    · intro hok
      rcases hp with ⟨-, hp, hl⟩ | ⟨hno, -⟩
      · exact hg.setExps hp hl
      · exact absurd hok hno
    · intro hr
      rcases hp with ⟨hok, -⟩ | ⟨-, hptr, hsaid⟩
      · exact hok
      · rw [hsaid] at hr
        have := hr.ptr_none (t := t) (c := c) (by simp [Said.setExp])
        rw [setExps_self] at this
        exact absurd this hptr
  | setRelation c arg =>
    obtain ⟨r, err, hrel, hsaid⟩ := setRelation_eq st c arg
    obtain ⟨p, err', hset, hp⟩ := setExp_spec (t := .rela) (c := c) (hg.setRela r) (arg.bind fun a => a.1.map fun _ => a.2)
    have happ : (TextOp.setRelation c arg).apply (st, sd) =
        (({ st with rela := r } : Texts).setExps .rela p, sd.setExp .rela c (saidText (arg.bind fun a => a.1.map fun _ => a.2) err')) := by
      rw [hset] at hrel hsaid
      simp only [TextOp.apply, hrel, hsaid]
    have hok : TextOp.Ok (st, sd) (.setRelation c arg) ↔ (st.exps .rela).ptr c = none ∨
        Settable (({ st with rela := r } : Texts).delExp .rela c) .rela (arg.bind fun a => a.1.map fun _ => a.2) := by
      rw [delExp_rela]
      refine or_congr_right ?_
      match arg with
      | none => simp [Settable]
      | some (none, a) => simp [Settable]
      | some (some i, a) => simp [Settable]
    unfold TextOp.Right
    rw [happ, hok]
    constructor
    · intro hok
      rcases hp with ⟨-, hp, hl⟩ | ⟨hno, -⟩
      · exact (hg.setRela r).setExps hp hl
      · exact absurd hok hno
    · intro hr
      rcases hp with ⟨hok, -⟩ | ⟨-, hptr, hnone⟩
      · exact hok
      · rw [hnone] at hr
        have := hr.ptr_none (t := .rela) (c := c) (by simp [Said.setExp])
        rw [setExps_self] at this
        exact absurd this hptr
  | cleandb c =>
    obtain ⟨st', hg', hexps, hcl, hfns⟩ := cleandb_spec hg c
    constructor
    · rintro ⟨hrela, hfltr⟩
      rw [← hexps] at hrela hfltr
      rw [delExp_none hrela, delExp_none hfltr] at hcl
      have hsaid : (TextOp.cleandb c |>.apply (st, sd)).2 = (ctxHolders c).foldl (fun sd h => sd.setFn h none) sd := by
        show Said.setExp (Said.setExp _ _ _ _) _ _ _ = _
        rw [Said.setExp_none (((hg'.exps .rela).unset c).mp hrela), Said.setExp_none (((hg'.exps .filter).unset c).mp hfltr)]
      show (st.cleandb c).Good _
      rw [hsaid]
      refine ⟨fun t => ?_, ?_, fun t => ?_, ?_⟩
      · rw [hcl]
        exact hg'.exps t
      · rw [hfns]
        exact hg'.fns
      · rw [hcl]
        exact hg'.expsLen t
      · rw [hfns]
        exact hg'.fnsLen
    · intro hr
      have hrela : ((st.cleandb c).exps .rela).ptr c = none := hr.ptr_none (by simp [TextOp.apply, Said.setExp])
      have hfltr : ((st.cleandb c).exps .filter).ptr c = none := hr.ptr_none (by simp [TextOp.apply, Said.setExp])
      -- neither deletion changes the pointer of the context
      rw [hcl, delExp_eq, delExp_eq] at hrela hfltr
      constructor
      · simpa [Texts.setExps, delPool_ptr, hexps] using hrela
      · simpa [Texts.setExps, delPool_ptr, hexps] using hfltr
  | addfn h s => exact ⟨fun _ => hg.addfn s, fun _ => trivial⟩
  | delfn h => exact ⟨fun _ => hg.delfn, fun _ => trivial⟩
  | fopen h o => exact ⟨fun _ => hg.setOpen _, fun _ => trivial⟩

end Db3w
