/-
The compiler of a file of procedures (`compile_proc` and `write_rtable` of proc.c). The procedures lie
one behind the other. A call may stand in front of the procedure it names; when all lines are read,
each call holds the address of its procedure, and the names that were only called are counted.
-/
import Db3w.Hb.ControlOk

namespace Db3w.Hb

open Bytes Structured

/-! ## The compiler -/

/-- `MAKE_DWORD` and `LO_DWORD`. -/
def makeDword (low high : Nat) : Nat := high % 2 ^ 16 * 2 ^ 16 + low % 2 ^ 16

def loDword (l : Nat) : Nat := l % 2 ^ 16

/-- What is written: the code, and the names with how many of them are not defined; `spec` stands in front of the names. -/
structure ObjFile where
  code : List UInt8
  procs : List DoEntry
  spec : Nat
  ecount : Nat

/-- `load_proc` of the file; the address of the names is the size of the code. -/
def ObjFile.load (o : ObjFile) : Except ProcErr (List DoEntry) := loadProc (getCpos (readAt 2 CPOSSZ o.code)) (loDword o.spec) o.procs

inductive Made where
  | file (o : ObjFile)
  /-- The compiler returns -1. -/
  | tooLarge
  /-- A comment in front of a procedure is looked at again and again. -/
  | hangs

/-- PROCEDURE and FUNCTION. -/
def Cmd.defines : Cmd → Option (Nat × Str)
  | .procedure name => some (PRG_PROC, name)
  | .function name => some (PRG_FUNC, name)
  | _ => none

/-- The address field at the end of a chain of calls. -/
def chainEnd : Nat → List UInt8 → Int → Nat
  | 0, _, faddr => (-faddr).toNat
  | fuel + 1, file, faddr =>
    let next := getCpos (readAt (-faddr).toNat CPOSSZ file)
    if next ≠ 0 then chainEnd fuel file next else (-faddr).toNat

/-- The loop of `write_rtable`: names that are not defined are counted, and the last call of each holds its number. -/
def countOpen : List DoEntry → List UInt8 → Nat → List UInt8 × Nat
  | [], file, ecount => (file, ecount)
  | de :: des, file, ecount =>
    if de.faddr < 0 then countOpen des (writeAt (chainEnd file.length file de.faddr) (word CPOSSZ (cposWord ↑(ecount + 1))) file) (ecount + 1)
    else countOpen des file ecount

/-- `write_rtable`. -/
def writeRtable (flags : Bool) (st : Ec) : ObjFile :=
  let (file, ecount) := countOpen st.doList st.outfp 0
  { code := writeAt 2 (word CPOSSZ (cposWord st.pos)) file, procs := st.doList, spec := makeDword st.doList.length flags.toNat, ecount }

/-- The size of the entry of a name is set. -/
def setLen (name : Str) (pos : Nat) (doList : List DoEntry) : List DoEntry :=
  doList.map fun de => if sameName de.procName name then { de with len := pos - de.faddr } else de

/-- A procedure of `compile_proc`, whose first line has been read. -/
def compileOne (dbg : Bool) (type : Nat) (name : Str) (cmds : List Cmd) (mcount : Nat) (st : Ec) : Except CtlErr (Option (List Cmd × Ec)) :=
  if mcount ≥ MAXMCOUNT then .error .tooManyProcs
  else if 2 ^ 31 ≤ st.pos % 2 ^ 32 then .ok none
  else do
    let st ← addDef name type (st.pos % 2 ^ 32) st
    let (cmds, st) ← ec dbg (type == PRG_FUNC) cmds st
    return some (cmds, { st with doList := setLen name st.pos st.doList })

theorem ecLines_length {dbg isfcn : Bool} {cmds rest : List Cmd} {st st' : Ec} (h : ecLines dbg isfcn cmds st = .ok (rest, st')) :
    rest.length ≤ cmds.length := by
  induction cmds generalizing st with
  | nil =>
    unfold ecLines at h
    split at h
    · obtain ⟨rfl, -⟩ := Prod.mk.inj (Except.ok.inj h)
      exact le_rfl
    · cases h
  | cons cmd cmds ih =>
    have hstop : ∀ {x : Except CtlErr (List Cmd × Ec)}, x = .ok (rest, st') → (x = .error .missingReturn ∨ x = .ok (cmd :: cmds, st)) →
        rest.length ≤ (cmd :: cmds).length := fun hx hor => by
      rcases hor with rfl | rfl
      · cases hx
      · obtain ⟨rfl, -⟩ := Prod.mk.inj (Except.ok.inj hx)
        exact le_rfl
    have hgo : (ecCmd dbg isfcn cmd st).bind (ecLines dbg isfcn cmds) = .ok (rest, st') → rest.length ≤ (cmd :: cmds).length := fun h => by
      cases hc : ecCmd dbg isfcn cmd st with
      | error e =>
        rw [hc] at h
        cases h
      | ok st1 =>
        rw [hc] at h
        exact (ih h).trans (Nat.le_succ _)
    unfold ecLines at h
    split at h
    · exact hstop h (by split <;> simp)
    · exact hstop h (by split <;> simp)
    · exact hgo h

theorem compileOne_length {dbg : Bool} {type mcount : Nat} {name : Str} {cmds rest : List Cmd} {st st' : Ec}
    (h : compileOne dbg type name cmds mcount st = .ok (some (rest, st'))) : rest.length ≤ cmds.length := by
  unfold compileOne at h
  split_ifs at h
  · cases h
  · change (addDef name type _ st).bind _ = _ at h
    cases hd : addDef name type (st.pos % 2 ^ 32) st with
    | error e =>
      rw [hd] at h
      cases h
    | ok st1 =>
      rw [hd] at h
      change (ec dbg _ cmds st1).bind _ = _ at h
      unfold ec at h
      cases hl : ecLines dbg (type == PRG_FUNC) cmds { st1 with neststack := [], seenRet := false } with
      | error e =>
        rw [hl] at h
        cases h
      | ok r =>
        rw [hl] at h
        obtain ⟨rfl, -⟩ := Prod.mk.inj (Option.some.inj (Except.ok.inj h))
        exact ecLines_length hl

/-- The loop of `compile_proc` over the lines. -/
def compileLoop (dbg : Bool) (cmds : List Cmd) (mcount : Nat) (st : Ec) : Except CtlErr Made :=
  match cmds with
  | [] => .ok (.file (writeRtable dbg st))
  | cmd :: cmds =>
    match cmd.defines with
    | some (type, name) =>
      match h : compileOne dbg type name cmds mcount st with
      | .error e => .error e
      | .ok none => .ok .tooLarge
      | .ok (some (rest, st)) => compileLoop dbg rest (mcount + 1) st
    | none =>
      match cmd with
      | .null => compileLoop dbg cmds mcount st
      | .comment => .ok .hangs
      | _ => .error .missingProc
termination_by cmds.length
decreasing_by
  · exact Nat.lt_succ_of_le (compileOne_length h)
  · exact Nat.lt_succ_self _

/-- `compile_proc`; the session may have addresses on the stack. -/
def compileProc (dbg : Bool) (cmds : List Cmd) (jmpAddr : List Nat) : Except CtlErr Made :=
  compileLoop dbg cmds 0 { outfp := cgenLjmp OBJ_LIB (cposWord 0), neststack := [], jmpAddr, doList := [], seenRet := false }

/-! ## Libraries of structured procedures -/

structure ProcDef where
  isfcn : Bool
  name : Str
  body : Prog

namespace ProcDef

def type (p : ProcDef) : Nat := if p.isfcn then PRG_FUNC else PRG_PROC

def cmd (p : ProcDef) : Cmd := if p.isfcn then .function p.name else .procedure p.name

/-- The code at an address; it ends with a RETURN that may be missing in the procedure. -/
def gen (dbg : Bool) (a : Nat) (p : ProcDef) : List Chunk := bodyGen dbg a PLACE_HOLDER p.body ++ [jmp RETURN 0]

def size (dbg : Bool) (p : ProcDef) : Nat := bodySize dbg p.body + 2

/-- What the compiler asks of a procedure when `n` addresses are on its stack. -/
structure Fits (n : Nat) (p : ProcDef) : Prop where
  name : p.name.length ≤ Db3w.VNAMELEN
  body : BodyFits p.isfcn false p.body
  levels : bodyLevels p.body < MAXLEVELS
  addrs : n + bodyAddrs p.body < MAXLEVELS

end ProcDef

/-- The lines of a file. -/
def libLines (ps : List ProcDef) : List Cmd := ps.flatMap fun p => p.cmd :: bodyLines p.body

/-- The code of procedures from an address on. -/
def libGen (dbg : Bool) : Nat → List ProcDef → List Chunk
  | _, [] => []
  | a, p :: ps => p.gen dbg a ++ libGen dbg (a + p.size dbg) ps

/-- The procedures with their addresses. -/
def libDefs (dbg : Bool) : Nat → List ProcDef → List (ProcDef × Nat)
  | _, [] => []
  | a, p :: ps => (p, a) :: libDefs dbg (a + p.size dbg) ps

mutual

/-- The names that are called. -/
def bodyCalls : Prog → List Str
  | .nil => []
  | .act (.doProc name _) rest => name.take Db3w.VNAMELEN :: bodyCalls rest
  | .act _ rest => bodyCalls rest
  | .loop _ body rest => bodyCalls body ++ bodyCalls rest
  | .if_ _ body more rest => bodyCalls body ++ casesCalls more ++ bodyCalls rest
  | .case_ pre cases rest => bodyCalls pre ++ casesCalls cases ++ bodyCalls rest

def casesCalls : Cases → List Str
  | .none => []
  | .else_ body => bodyCalls body
  | .cond _ body more => bodyCalls body ++ casesCalls more

end

/-- The names that are called in code. -/
def calls (I : List Chunk) : List Str :=
  I.filterMap fun
    | .call name => some name
    | .code _ => none

section Calls

variable {dbg : Bool} {a : Nat} {A B : List Chunk}

@[simp] theorem calls_nil : calls [] = [] := rfl

@[simp] theorem calls_append : calls (A ++ B) = calls A ++ calls B := List.filterMap_append

@[simp] theorem calls_code {i : CodeItem} : calls (.code i :: A) = calls A := rfl

@[simp] theorem calls_call {name : Str} : calls (.call name :: A) = name :: calls A := rfl

@[simp] theorem calls_link (t : Nat) (more : Cases) : calls (link dbg t more) = [] := by
  unfold link
  split <;> rfl

theorem callsAt_names (a : Nat) (A : List Chunk) : (callsAt dbg a A).map Prod.snd = calls A := by
  induction A generalizing a with
  | nil => rfl
  | cons i A ih =>
    cases i with
    | code i => exact ih _
    | call name => exact congrArg (name :: ·) (ih _)

mutual

@[simp] theorem calls_bodyGen (a : Nat) (k : Int) : (p : Prog) → calls (bodyGen dbg a k p) = bodyCalls p
  | .nil => rfl
  | .act act rest => by
    rw [bodyGen, calls_append, calls_bodyGen _ _ rest]
    cases act with
    | ret value =>
      rcases value with _ | ⟨pound, b⟩
      · rfl
      · rfl
    | _ => rfl
  | .loop c body rest => by
    simp only [bodyGen, bodyCalls, calls_append, jmp, calls_code, calls_nil, List.nil_append, List.append_nil, calls_bodyGen _ _ body, calls_bodyGen _ _ rest]
  | .if_ c body more rest => by
    simp only [bodyGen, bodyCalls, calls_append, jmp, calls_code, calls_nil, calls_link, List.nil_append, List.append_nil, calls_bodyGen _ _ body,
      calls_bodyGen _ _ rest, calls_casesGen _ _ more]
  | .case_ pre cases rest => by
    simp only [bodyGen, bodyCalls, calls_append, calls_bodyGen _ _ pre, calls_bodyGen _ _ rest, calls_casesGen _ _ cases]

@[simp] theorem calls_casesGen (a : Nat) (k : Int) : (brs : Cases) → calls (casesGen dbg a k brs) = casesCalls brs
  | .none => rfl
  | .else_ body => by rw [casesGen, casesCalls, calls_bodyGen]
  | .cond c body more => by
    simp only [casesGen, casesCalls, calls_append, jmp, calls_code, calls_nil, calls_link, List.nil_append, List.append_nil, calls_bodyGen _ _ body,
      calls_casesGen _ _ more]

end

end Calls

/-! ## One procedure -/

mutual

/-- The lines of a procedure do not begin another. -/
theorem bodyLines_defines : (p : Prog) → ∀ c ∈ bodyLines p, c.defines = none
  | .nil => by simp [bodyLines]
  | .act act rest => by
    have hact : act.cmd.defines = none := by
      cases act with
      | blank comment => cases comment <;> rfl
      | _ => rfl
    simpa [bodyLines, hact] using bodyLines_defines rest
  | .loop c body rest => by
    have h1 := bodyLines_defines body
    have h2 := bodyLines_defines rest
    simp only [bodyLines, List.mem_cons, List.mem_append]
    rintro d (rfl | hd | rfl | hd)
    exacts [rfl, h1 d hd, rfl, h2 d hd]
  | .if_ c body more rest => by
    have h1 := bodyLines_defines body
    have h2 := casesLines_defines false more
    have h3 := bodyLines_defines rest
    simp only [bodyLines, List.mem_cons, List.mem_append]
    rintro d (rfl | hd | hd | rfl | hd)
    exacts [rfl, h1 d hd, h2 d hd, rfl, h3 d hd]
  | .case_ pre cases rest => by
    have h1 := bodyLines_defines pre
    have h2 := casesLines_defines true cases
    have h3 := bodyLines_defines rest
    simp only [bodyLines, List.mem_cons, List.mem_append]
    rintro d (rfl | hd | hd | rfl | hd)
    exacts [rfl, h1 d hd, h2 d hd, rfl, h3 d hd]

theorem casesLines_defines (isCase : Bool) : (brs : Cases) → ∀ c ∈ casesLines isCase brs, c.defines = none
  | .none => by simp [casesLines]
  | .else_ body => by
    have h1 := bodyLines_defines body
    simp only [casesLines, List.mem_cons]
    rintro d (rfl | hd)
    · cases isCase <;> rfl
    · exact h1 d hd
  | .cond c body more => by
    have h1 := bodyLines_defines body
    have h2 := casesLines_defines isCase more
    simp only [casesLines, List.mem_cons, List.mem_append]
    rintro d (rfl | hd | hd)
    · cases isCase <;> rfl
    exacts [h1 d hd, h2 d hd]

end

section One

variable {dbg isfcn : Bool} {D : List DoEntry} {st st' : Ec} {I : List Chunk} {J : List Nat} {cmds rest : List Cmd} {p : Prog}

theorem ecLines_append (hdef : ∀ c ∈ cmds, c.defines = none) (h : ecRun dbg isfcn cmds st = .ok st') :
    ecLines dbg isfcn (cmds ++ rest) st = ecLines dbg isfcn rest st' := by
  induction cmds generalizing st with
  | nil =>
    obtain ⟨⟩ := h
    rfl
  | cons cmd cmds ih =>
    rw [ecRun] at h
    cases hc : ecCmd dbg isfcn cmd st with
    | error e =>
      rw [hc] at h
      cases h
    | ok st1 =>
      rw [hc] at h
      have hno := hdef cmd List.mem_cons_self
      have hstep : ecLines dbg isfcn (cmd :: (cmds ++ rest)) st = (ecCmd dbg isfcn cmd st).bind (ecLines dbg isfcn (cmds ++ rest)) := by
        cases cmd with
        | procedure name => cases hno
        | function name => cases hno
        | _ => rfl
      rw [List.cons_append, hstep, hc]
      exact ih (fun c hc => hdef c (List.mem_cons_of_mem _ hc)) h

/-- The lines of a procedure end with those of the file, or where the next procedure begins. -/
def Ending (isfcn rets : Bool) (rest : List Cmd) : Prop := rest = [] ∨ (∃ cmd cmds, rest = cmd :: cmds ∧ cmd.defines ≠ none) ∧ (isfcn = true → rets = true)

theorem ecLines_ending (his : Is dbg D st I [] J rets) (h : Ending isfcn rets rest) : ecLines dbg isfcn rest st = .ok (rest, st) := by
  rcases h with rfl | ⟨⟨cmd, cmds, rfl, hdef⟩, hrets⟩
  · have hnest := his.nest
    unfold ecLines
    rw [hnest]
  · have hif : (isfcn && !st.seenRet) = false := by
      rw [his.seenRet]
      cases isfcn with
      | false => rfl
      | true => rw [hrets rfl]; rfl
    cases cmd with
    | procedure name =>
      show (if (isfcn && !st.seenRet) = true then _ else _) = _
      rw [hif, if_neg (by decide)]
    | function name =>
      show (if (isfcn && !st.seenRet) = true then _ else _) = _
      rw [hif, if_neg (by decide)]
    | _ => exact absurd rfl hdef

/-- `ec` on the lines of a structured procedure. -/
theorem ec_ok (hw : Written dbg D I st.outfp st.doList) (hfit : BodyFits isfcn false p) (hL : bodyLevels p < MAXLEVELS)
    (hJ : st.jmpAddr.length + bodyAddrs p < MAXLEVELS) (hrest : Ending isfcn (bodyRets p) rest) :
    ∃ st', ec dbg isfcn (bodyLines p ++ rest) st = .ok (rest, st') ∧
      Is dbg D st' (I ++ (bodyGen dbg (chunksSize dbg I) PLACE_HOLDER p ++ [jmp RETURN 0])) [] st.jmpAddr (bodyRets p) := by
  have hr : Ready dbg D { st with neststack := [], seenRet := false } (fun _ => I) [] st.jmpAddr (chunksSize dbg I) false :=
    ⟨⟨hw, rfl, rfl, rfl⟩, fun _ => rfl, fun i hi => by cases hi⟩
  obtain ⟨st1, J1, h1, his, hsame, -⟩ := body_ok p hr hfit (by simp) (by simpa using hL) hJ
  obtain rfl : J1 = st.jmpAddr := by
    rcases hsame with rfl | ⟨i, h, hi, -⟩
    · rfl
    · cases hi
  rw [Bool.false_or] at his
  refine ⟨st1.ljmp RETURN 0, ?_, ?_⟩
  · unfold ec
    rw [ecLines_append (bodyLines_defines p) h1, ecLines_ending his hrest]
    rfl
  · rw [← List.append_assoc]
    exact his.ljmp (by decide) 0

end One

/-! ## The file -/

/-- The procedures that have been compiled: their code, and their names with the addresses. -/
structure Library (dbg : Bool) (I : List Chunk) (defs : List (ProcDef × Nat)) (J : List Nat) (st : Ec) : Prop where
  code : ∃ ca, st.outfp = bytesAt dbg ca 0 I ∧ Linked ca st.doList (callsAt dbg 0 I)
  defined : ∀ d ∈ defs, 0 < d.2 ∧ ∃ e ∈ st.doList, lowerName e.procName = lowerName d.1.name ∧ e.type = d.1.type ∧ e.faddr = d.2
  only : ∀ e ∈ st.doList, 0 < e.faddr → ∃ d ∈ defs, lowerName e.procName = lowerName d.1.name
  jmpAddr : st.jmpAddr = J

section File

variable {dbg : Bool} {ca : Nat → Int} {st : Ec} {I : List Chunk} {defs : List (ProcDef × Nat)} {J : List Nat} {doList : List DoEntry} {name : Str}
  {cl : List (Nat × Str)} {e : DoEntry} {pos mcount : Nat} {rest : List Cmd}

theorem mem_setLen (h : e ∈ setLen name pos doList) : ∃ d ∈ doList, d.procName = e.procName ∧ d.type = e.type ∧ d.faddr = e.faddr := by
  obtain ⟨d, hd, rfl⟩ := List.mem_map.1 h
  refine ⟨d, hd, ?_⟩
  split <;> exact ⟨rfl, rfl, rfl⟩

theorem setLen_mem (name : Str) (pos : Nat) (h : e ∈ doList) : ∃ d ∈ setLen name pos doList, d.procName = e.procName ∧ d.type = e.type ∧ d.faddr = e.faddr := by
  refine ⟨_, List.mem_map_of_mem h, ?_⟩
  split <;> exact ⟨rfl, rfl, rfl⟩

/-- The sizes do not matter to the chains. -/
theorem Linked.setLen (h : Linked ca doList cl) (name : Str) (pos : Nat) : Linked ca (setLen name pos doList) cl := by
  refine ⟨?_, fun c hc => ?_, fun e he hp c hc heq => ?_, fun e he hle => ?_⟩
  · have hnames : (Hb.setLen name pos doList).map (fun de => lowerName de.procName) = doList.map fun de => lowerName de.procName := by
      rw [Hb.setLen, List.map_map]
      refine List.map_congr_left fun e _ => ?_
      dsimp only [Function.comp]
      split <;> rfl
    rw [hnames]
    exact h.nodup
  · obtain ⟨e, he, heq⟩ := h.listed c hc
    obtain ⟨d, hd, hname, -⟩ := setLen_mem name pos he
    exact ⟨d, hd, by rw [hname, heq]⟩
  · obtain ⟨d, hd, hname, -, hfaddr⟩ := mem_setLen he
    rw [← hfaddr] at hp ⊢
    exact h.resolved d hd hp c hc (by rw [hname, heq])
  · obtain ⟨d, hd, hname, htype, hfaddr⟩ := mem_setLen he
    rw [← hfaddr] at hle ⊢
    rw [← htype, ← hname]
    exact h.pending d hd hle

theorem mem_calls (h : name ∈ calls I) : ∃ f, (f, name) ∈ callsAt dbg 0 I := by
  rw [← @callsAt_names dbg 0 I] at h
  obtain ⟨⟨f, nm⟩, hf, rfl⟩ := List.mem_map.1 h
  exact ⟨f, hf⟩

theorem calls_mem {f : Nat} (h : (f, name) ∈ callsAt dbg 0 I) : name ∈ calls I := by
  rw [← @callsAt_names dbg 0 I]
  exact List.mem_map_of_mem (f := Prod.snd) h

/-- A name that waits for its procedure was called. -/
theorem Linked.pending_called (h : Linked ca doList (callsAt dbg 0 I)) (he : e ∈ doList) (hle : e.faddr ≤ 0) :
    ∃ name ∈ calls I, lowerName e.procName = lowerName name := by
  obtain ⟨-, fs, hne, -, -, hfs⟩ := h.pending e he hle
  obtain ⟨f, fs, rfl⟩ := List.exists_cons_of_ne_nil hne
  obtain ⟨nm, hf, heq⟩ := (hfs f).1 List.mem_cons_self
  exact ⟨nm, calls_mem hf, heq⟩

/-- A procedure is compiled behind the others. -/
theorem compileOne_ok (h : Library dbg I defs J st) (p : ProcDef) (hfit : p.Fits J.length) (hsize : chunksSize dbg I < 2 ^ 31) (hpos : 0 < chunksSize dbg I)
    (hm : mcount < MAXMCOUNT) (hnew : ∀ d ∈ defs, lowerName d.1.name ≠ lowerName p.name)
    (hfun : p.isfcn = true → ∀ name ∈ calls I, lowerName p.name ≠ lowerName name) (hrest : Ending p.isfcn (bodyRets p.body) rest) :
    ∃ st', compileOne dbg p.type p.name (bodyLines p.body ++ rest) mcount st = .ok (some (rest, st')) ∧
      Library dbg (I ++ p.gen dbg (chunksSize dbg I)) (defs ++ [(p, chunksSize dbg I)]) J st' := by
  obtain ⟨ca, hout, hl⟩ := h.code
  have hst : st.pos = chunksSize dbg I := by rw [Ec.pos, hout, length_bytesAt]
  have hno : ∀ de ∈ st.doList, lowerName de.procName = lowerName p.name → de.faddr ≤ 0 ∧ p.type = PRG_PROC := by
    intro de hde heq
    have hle : de.faddr ≤ 0 := by
      by_contra hgt
      obtain ⟨d, hd, hd'⟩ := h.only de hde (not_le.1 hgt)
      exact hnew d hd (hd'.symm.trans heq)
    obtain ⟨nm, hnm, heq'⟩ := hl.pending_called hde hle
    refine ⟨hle, ?_⟩
    have hproc : p.isfcn = false := Bool.eq_false_iff.2 fun hf => hfun hf nm hnm (heq.symm.trans heq')
    rw [ProcDef.type, hproc]
    rfl
  obtain ⟨ca1, doList1, hadd, hl1, hdef⟩ := hl.addDef hsize hout hpos hno
  have hw : Written dbg doList1 I (bytesAt dbg ca1 0 I) doList1 := ⟨⟨ca1, rfl, hl1⟩, fun e he _ => he, fun e he _ => he⟩
  obtain ⟨st2, hec, his⟩ := @ec_ok dbg p.isfcn doList1 { st with outfp := bytesAt dbg ca1 0 I, doList := doList1 } I rest p.body hw hfit.body hfit.levels (by rw [h.jmpAddr]; exact hfit.addrs) hrest
  obtain ⟨ca2, hout2, hl2⟩ := his.written.code
  refine ⟨{ st2 with doList := setLen p.name st2.pos st2.doList }, ?_, ⟨ca2, hout2, hl2.setLen _ _⟩, ?_, ?_, his.jmpAddr.trans h.jmpAddr⟩
  · have htype : (p.type == PRG_FUNC) = p.isfcn := by
      unfold ProcDef.type
      cases p.isfcn <;> rfl
    unfold compileOne
    rw [if_neg (not_le.2 hm), hst, Nat.mod_eq_of_lt (by omega), if_neg (not_le.2 hsize), htype, hadd]
    show (ec dbg p.isfcn (bodyLines p.body ++ rest) _).bind _ = _
    rw [hec]
    rfl
  · have hkeep : ∀ d : ProcDef × Nat, 0 < d.2 → (∃ e ∈ doList1, lowerName e.procName = lowerName d.1.name ∧ e.type = d.1.type ∧ e.faddr = d.2) →
        ∃ e ∈ setLen p.name st2.pos st2.doList, lowerName e.procName = lowerName d.1.name ∧ e.type = d.1.type ∧ e.faddr = d.2 := by
      rintro d hd ⟨e, he, h1, h2, h3⟩
      obtain ⟨e', he', h1', h2', h3'⟩ := setLen_mem p.name st2.pos (his.written.keep e he (by omega))
      exact ⟨e', he', by rw [h1', h1], by rw [h2', h2], by rw [h3', h3]⟩
    intro d hd
    rcases List.mem_append.1 hd with hd | hd
    · obtain ⟨hp, e, he, h1, h2, h3⟩ := h.defined d hd
      exact ⟨hp, hkeep d hp ⟨e, hdef.keep e he (by omega), h1, h2, h3⟩⟩
    · rw [List.mem_singleton.1 hd]
      exact ⟨hpos, hkeep _ hpos hdef.entry⟩
  · intro e he hp
    obtain ⟨e', he', hname, -, hfaddr⟩ := mem_setLen he
    rcases hdef.only e' (his.written.only e' he' (by omega)) (by omega) with hold | heq
    · obtain ⟨d, hd, heq⟩ := h.only e' hold (by omega)
      exact ⟨d, List.mem_append_left _ hd, by rw [← hname, heq]⟩
    · exact ⟨_, List.mem_append_right _ (List.mem_singleton_self _), by rw [← hname, heq]⟩

theorem libSize (a : Nat) (ps : List ProcDef) : chunksSize dbg (libGen dbg a ps) = (ps.map (ProcDef.size dbg)).sum := by
  induction ps generalizing a with
  | nil => rfl
  | cons p ps ih =>
    rw [libGen, chunksSize_append, ih, ProcDef.gen, chunksSize_append, size_bodyGen]
    rfl

theorem libCalls (a : Nat) (ps : List ProcDef) : calls (libGen dbg a ps) = ps.flatMap fun p => bodyCalls p.body := by
  induction ps generalizing a with
  | nil => rfl
  | cons p ps ih =>
    rw [libGen, calls_append, ih, ProcDef.gen, calls_append, calls_bodyGen, List.flatMap_cons]
    exact congrArg (· ++ _) (List.append_nil _)

/-- Where the next procedure begins. -/
theorem ending_lib {p : ProcDef} {ps : List ProcDef} (h : ps = [] ∨ (p.isfcn = true → bodyRets p.body = true)) : Ending p.isfcn (bodyRets p.body) (libLines ps) := by
  cases ps with
  | nil => exact Or.inl rfl
  | cons q qs =>
    refine Or.inr ⟨⟨q.cmd, bodyLines q.body ++ libLines qs, rfl, ?_⟩, h.resolve_left (List.cons_ne_nil q qs)⟩
    unfold ProcDef.cmd
    cases q.isfcn <;> exact Option.some_ne_none _

theorem compileLoop_def {type : Nat} {cmd : Cmd} {cmds : List Cmd} {st' : Ec} (hdef : cmd.defines = some (type, name))
    (h : compileOne dbg type name cmds mcount st = .ok (some (rest, st'))) :
    compileLoop dbg (cmd :: cmds) mcount st = compileLoop dbg rest (mcount + 1) st' := by
  conv_lhs => unfold compileLoop
  split
  · next type' name' hdef' =>
    obtain ⟨rfl, rfl⟩ := Prod.mk.inj (Option.some.inj (hdef.symm.trans hdef'))
    split
    · next e he => cases h.symm.trans he
    · next he => cases h.symm.trans he
    · next rest' st'' he =>
      obtain ⟨rfl, rfl⟩ := Prod.mk.inj (Option.some.inj (Except.ok.inj (h.symm.trans he)))
      rfl
  · next hno => cases hdef.symm.trans hno

/-- The procedures of a file are compiled one after another. -/
theorem compileLoop_ok {ps : List ProcDef} (h : Library dbg I defs J st) (hfit : ∀ p ∈ ps, p.Fits J.length)
    (hsize : chunksSize dbg I + (ps.map (ProcDef.size dbg)).sum < 2 ^ 31) (hpos : 0 < chunksSize dbg I) (hm : mcount + ps.length ≤ MAXMCOUNT)
    (hnames : ((defs.map Prod.fst ++ ps).map fun p => lowerName p.name).Nodup)
    (hfun : ∀ A q B, ps = A ++ q :: B → q.isfcn = true → ∀ name ∈ calls I ++ A.flatMap fun p => bodyCalls p.body, lowerName q.name ≠ lowerName name)
    (hrets : ∀ p ∈ ps.dropLast, p.isfcn = true → bodyRets p.body = true) :
    ∃ st', compileLoop dbg (libLines ps) mcount st = .ok (.file (writeRtable dbg st')) ∧
      Library dbg (I ++ libGen dbg (chunksSize dbg I) ps) (defs ++ libDefs dbg (chunksSize dbg I) ps) J st' := by
  induction ps generalizing I defs mcount st with
  | nil =>
    refine ⟨st, ?_, ?_⟩
    · rw [libLines, List.flatMap_nil, compileLoop]
    · rw [libGen, libDefs, List.append_nil, List.append_nil]
      exact h
  | cons p ps ih =>
    have hgen : chunksSize dbg (p.gen dbg (chunksSize dbg I)) = p.size dbg := by
      rw [ProcDef.gen, chunksSize_append, size_bodyGen]
      rfl
    rw [List.map_cons, List.sum_cons] at hsize
    rw [List.length_cons] at hm
    have hcalls : calls (p.gen dbg (chunksSize dbg I)) = bodyCalls p.body := by
      rw [ProcDef.gen, calls_append, calls_bodyGen]
      exact List.append_nil _
    have hlast : ps = [] ∨ (p.isfcn = true → bodyRets p.body = true) := by
      cases ps with
      | nil => exact Or.inl rfl
      | cons q qs => exact Or.inr (hrets p (by rw [List.dropLast_cons_cons]; exact List.mem_cons_self))
    have hnew : ∀ d ∈ defs, lowerName d.1.name ≠ lowerName p.name := by
      intro d hd
      rw [List.map_append, List.nodup_append] at hnames
      exact hnames.2.2 _ (List.mem_map_of_mem (List.mem_map_of_mem hd)) _ (List.mem_map_of_mem List.mem_cons_self)
    have hrets' : ∀ q ∈ ps.dropLast, q.isfcn = true → bodyRets q.body = true := by
      intro q hq
      cases ps with
      | nil => cases hq
      | cons r rs => exact hrets q (by rw [List.dropLast_cons_cons]; exact List.mem_cons_of_mem _ hq)
    have hcount : mcount < MAXMCOUNT := by omega
    obtain ⟨st1, hone, h1⟩ := compileOne_ok h p (hfit p List.mem_cons_self) (by omega) hpos hcount hnew
      (fun hf name hn => hfun [] p ps rfl hf name (List.mem_append_left _ hn)) (ending_lib hlast)
    obtain ⟨st2, hloop, h2⟩ := ih h1 (fun q hq => hfit q (List.mem_cons_of_mem _ hq)) (by rw [chunksSize_append, hgen]; omega)
      (by rw [chunksSize_append]; omega) (show mcount + 1 + ps.length ≤ MAXMCOUNT by omega) (by simpa using hnames)
      (fun A q B hAB hf name hn => hfun (p :: A) q B (congrArg (p :: ·) hAB) hf name (by
        rw [calls_append, hcalls, List.append_assoc] at hn
        exact hn)) hrets'
    refine ⟨st2, ?_, ?_⟩
    · have hlines : libLines (p :: ps) = p.cmd :: (bodyLines p.body ++ libLines ps) := rfl
      have hdef : p.cmd.defines = some (p.type, p.name) := by
        unfold ProcDef.cmd ProcDef.type
        cases p.isfcn <;> rfl
      rw [hlines, compileLoop_def hdef hone, hloop]
    · rw [libGen, libDefs, ← hgen, ← chunksSize_append, ← List.append_assoc, ← List.singleton_append, ← List.append_assoc]
      exact h2

/-! ## Names that are not defined -/

/-- A chain ends in one of its calls. -/
theorem chainEnd_mem {faddr : Int} {fs : List Nat} (hsize : chunksSize dbg I < 2 ^ 31) {fuel : Nat} (hchain : ChainOf ca faddr fs) (hne : fs ≠ [])
    (hfs : ∀ f ∈ fs, ∃ nm, (f, nm) ∈ callsAt dbg 0 I) : chainEnd fuel (bytesAt dbg ca 0 I) faddr ∈ fs := by
  induction fs generalizing faddr fuel with
  | nil => exact absurd rfl hne
  | cons f fs ih =>
    obtain ⟨rfl, hpos, hrest⟩ := hchain
    obtain ⟨nm, hf⟩ := hfs f List.mem_cons_self
    cases fuel with
    | zero =>
      rw [chainEnd, neg_neg, Int.toNat_natCast]
      exact List.mem_cons_self
    | succ fuel =>
      have hfit := hrest.fits hsize fun g hg => hfs g (List.mem_cons_of_mem f hg)
      rw [chainEnd, neg_neg, Int.toNat_natCast, readAt_call hf, getCpos_word hfit.1 hfit.2]
      by_cases hnext : ca f = 0
      · rw [if_neg (not_not.2 hnext)]
        exact List.mem_cons_self
      · rw [if_pos hnext]
        have hfs' : fs ≠ [] := by
          rintro rfl
          exact hnext hrest
        exact List.mem_cons_of_mem _ (ih hrest hfs' fun g hg => hfs g (List.mem_cons_of_mem f hg))

/-- Counting the names changes only calls of names that are not defined. -/
theorem countOpen_ok {des : List DoEntry} (hsize : chunksSize dbg I < 2 ^ 31) (hnames : (des.map fun de => lowerName de.procName).Nodup)
    (hpend : ∀ de ∈ des, de.faddr < 0 → ∃ fs, fs ≠ [] ∧ ChainOf ca de.faddr fs ∧ ∀ f ∈ fs, ∃ nm, (f, nm) ∈ callsAt dbg 0 I ∧ lowerName de.procName = lowerName nm)
    (n : Nat) :
    ∃ ca', countOpen des (bytesAt dbg ca 0 I) n = (bytesAt dbg ca' 0 I, n + des.countP fun de => de.faddr < 0) ∧
      ∀ c ∈ callsAt dbg 0 I, (∀ de ∈ des, de.faddr < 0 → lowerName de.procName ≠ lowerName c.2) → ca' c.1 = ca c.1 := by
  induction des generalizing ca n with
  | nil => exact ⟨ca, rfl, fun _ _ _ => rfl⟩
  | cons de des ih =>
    rw [List.map_cons, List.nodup_cons] at hnames
    rw [countOpen]
    by_cases hneg : de.faddr < 0
    · rw [if_pos hneg]
      obtain ⟨fs, hne, hchain, hfs⟩ := hpend de List.mem_cons_self hneg
      have hcalls : ∀ f ∈ fs, ∃ nm, (f, nm) ∈ callsAt dbg 0 I := fun f hf => by
        obtain ⟨nm, hf, -⟩ := hfs f hf
        exact ⟨nm, hf⟩
      have hend : chainEnd (bytesAt dbg ca 0 I).length (bytesAt dbg ca 0 I) de.faddr ∈ fs := chainEnd_mem hsize hchain hne hcalls
      obtain ⟨nm, hf, heq⟩ := hfs _ hend
      generalize chainEnd (bytesAt dbg ca 0 I).length (bytesAt dbg ca 0 I) de.faddr = f at hf ⊢
      rw [bytesAt_update hf]
      -- the calls of other names are others
      have hother : ∀ g nm', (g, nm') ∈ callsAt dbg 0 I → lowerName de.procName ≠ lowerName nm' → g ≠ f := by
        rintro g nm' hg hno rfl
        exact hno (callsAt_inj hg hf ▸ heq)
      have hpend' : ∀ e ∈ des, e.faddr < 0 → ∃ gs, gs ≠ [] ∧ ChainOf (Function.update ca f ↑(n + 1)) e.faddr gs ∧
          ∀ g ∈ gs, ∃ nm, (g, nm) ∈ callsAt dbg 0 I ∧ lowerName e.procName = lowerName nm := by
        intro e he hlt
        obtain ⟨gs, hgne, hgchain, hgs⟩ := hpend e (List.mem_cons_of_mem _ he) hlt
        refine ⟨gs, hgne, hgchain.congr fun g hg => ?_, hgs⟩
        obtain ⟨nm', hg', heq'⟩ := hgs g hg
        refine Function.update_of_ne (hother g nm' hg' fun hsame => hnames.1 ?_) _ _
        rw [hsame, ← heq']
        exact List.mem_map_of_mem he
      obtain ⟨ca', hcount, hkeep⟩ := ih hnames.2 hpend' (n + 1)
      refine ⟨ca', ?_, fun c hc hno => ?_⟩
      · rw [hcount, List.countP_cons_of_pos (by simpa using hneg)]
        congr 1
        omega
      · rw [hkeep c hc fun e he => hno e (List.mem_cons_of_mem _ he), Function.update_of_ne (hother c.1 c.2 hc (hno de List.mem_cons_self hneg))]
    · rw [if_neg hneg, List.countP_cons_of_neg (by simpa using hneg)]
      obtain ⟨ca', hcount, hkeep⟩ := ih hnames.2 (fun e he => hpend e (List.mem_cons_of_mem _ he)) n
      exact ⟨ca', hcount, fun c hc hno => hkeep c hc fun e he => hno e (List.mem_cons_of_mem _ he)⟩

theorem libDefs_fst (a : Nat) (ps : List ProcDef) : (libDefs dbg a ps).map Prod.fst = ps := by
  induction ps generalizing a with
  | nil => rfl
  | cons p ps ih => exact congrArg (p :: ·) (ih _)

theorem mem_libDefs {d : ProcDef × Nat} {a : Nat} {ps : List ProcDef} (h : d ∈ libDefs dbg a ps) : d.1 ∈ ps := by
  rw [← @libDefs_fst dbg a ps]
  exact List.mem_map_of_mem h

theorem libDefs_mem {p : ProcDef} (a : Nat) {ps : List ProcDef} (h : p ∈ ps) : ∃ ad, (p, ad) ∈ libDefs dbg a ps := by
  rw [← @libDefs_fst dbg a ps] at h
  obtain ⟨⟨q, ad⟩, hd, rfl⟩ := List.mem_map.1 h
  exact ⟨ad, hd⟩

/-- What the compiler asks of a file of procedures when `n` addresses are on its stack. -/
structure LibFits (dbg : Bool) (n : Nat) (ps : List ProcDef) : Prop where
  fits : ∀ p ∈ ps, p.Fits n
  count : ps.length ≤ MAXMCOUNT
  size : JBLOCKSZ + (ps.map (ProcDef.size dbg)).sum < 2 ^ 31
  names : (ps.map fun p => lowerName p.name).Nodup
  /-- A function is not called by DO in front of it. -/
  procs : ∀ A q B, ps = A ++ q :: B → q.isfcn = true → ∀ name ∈ A.flatMap fun p => bodyCalls p.body, lowerName q.name ≠ lowerName name
  /-- A function in front of another has a RETURN. -/
  rets : ∀ p ∈ ps.dropLast, p.isfcn = true → bodyRets p.body = true

/-- Every name that is called is that of a procedure in the file. -/
def Closed (ps : List ProcDef) : Prop := ∀ name ∈ ps.flatMap (fun p => bodyCalls p.body), ∃ q ∈ ps, lowerName q.name = lowerName name

/-- The file: its code behind the address of the names, and the names with their addresses. -/
def fileGen (dbg : Bool) (ps : List ProcDef) : List Chunk :=
  jmp OBJ_LIB ↑(JBLOCKSZ + (ps.map (ProcDef.size dbg)).sum) :: libGen dbg JBLOCKSZ ps

/-- Code in which the calls of the procedures of the file hold their addresses. -/
def LinkedCode (dbg : Bool) (ps : List ProcDef) (code : List UInt8) : Prop :=
  ∃ ca, code = bytesAt dbg ca 0 (fileGen dbg ps) ∧
    ∀ c ∈ callsAt dbg 0 (fileGen dbg ps), ∀ d ∈ libDefs dbg JBLOCKSZ ps, lowerName d.1.name = lowerName c.2 → ca c.1 = d.2

/-- The list has each procedure with its address, and the names that are not defined. -/
structure Named (dbg : Bool) (ps : List ProcDef) (procs : List DoEntry) : Prop where
  nodup : (procs.map fun e => lowerName e.procName).Nodup
  defined : ∀ d ∈ libDefs dbg JBLOCKSZ ps, ∃ e ∈ procs, lowerName e.procName = lowerName d.1.name ∧ e.type = d.1.type ∧ e.faddr = d.2
  only : ∀ e ∈ procs, 0 < e.faddr → ∃ p ∈ ps, lowerName e.procName = lowerName p.name

/-- The counted calls, and the others, which are as they were. -/
theorem Library.counted (h : Library dbg I defs J st) (hsize : chunksSize dbg I < 2 ^ 31) :
    ∃ ca, countOpen st.doList st.outfp 0 = (bytesAt dbg ca 0 I, st.doList.countP fun de => de.faddr < 0) ∧
      ∀ c ∈ callsAt dbg 0 I, ∀ e ∈ st.doList, 0 < e.faddr → lowerName e.procName = lowerName c.2 → ca c.1 = e.faddr := by
  obtain ⟨ca, hout, hl⟩ := h.code
  obtain ⟨ca', hcount, hkeep⟩ := countOpen_ok hsize hl.nodup (fun de hde hneg => by
    obtain ⟨-, fs, hne, hchain, -, hfs⟩ := hl.pending de hde hneg.le
    exact ⟨fs, hne, hchain, fun f hf => (hfs f).1 hf⟩) 0
  refine ⟨ca', by rw [hout, hcount, Nat.zero_add], fun c hc e he hp heq => ?_⟩
  rw [hkeep c hc fun de hde hneg hsame => ?_, hl.resolved e he hp c hc heq]
  rw [List.inj_on_of_nodup_map hl.nodup hde he (hsame.trans heq.symm)] at hneg
  omega

theorem countP_open (h : Library dbg I defs J st) : st.doList.countP (fun de => de.faddr < 0) = 0 ↔ ∀ e ∈ st.doList, 0 < e.faddr := by
  obtain ⟨ca, -, hl⟩ := h.code
  rw [List.countP_eq_zero]
  refine forall₂_congr fun e he => ?_
  rw [decide_eq_true_iff]
  constructor
  · intro hneg
    by_contra hle
    exact hneg (hl.pending_neg he (not_lt.1 hle))
  · intro hp hneg
    omega

/-- Nothing waits for its procedure if and only if each name that is called is defined. -/
theorem all_defined (h : Library dbg I defs J st) :
    (∀ e ∈ st.doList, 0 < e.faddr) ↔ ∀ name ∈ calls I, ∃ d ∈ defs, lowerName d.1.name = lowerName name := by
  obtain ⟨ca, -, hl⟩ := h.code
  constructor
  · intro hall name hn
    obtain ⟨f, hf⟩ := mem_calls hn
    obtain ⟨e, he, heq⟩ := hl.listed (f, name) hf
    obtain ⟨d, hd, hsame⟩ := h.only e he (hall e he)
    exact ⟨d, hd, hsame.symm.trans heq⟩
  · intro hall e he
    by_contra hle
    obtain ⟨name, hn, heq⟩ := hl.pending_called he (not_lt.1 hle)
    obtain ⟨d, hd, hsame⟩ := hall name hn
    obtain ⟨hp, e', he', hname, -, hfaddr⟩ := h.defined d hd
    rw [List.inj_on_of_nodup_map hl.nodup he he' (heq.trans (hsame.symm.trans hname.symm))] at hle
    omega

theorem loadEntries_ok {tab entries : List DoEntry} : (∃ r, loadEntries entries.length tab entries = .ok r) ↔ ∀ e ∈ entries, 0 < e.faddr := by
  induction entries generalizing tab with
  | nil => exact iff_of_true ⟨tab, rfl⟩ (by simp)
  | cons e es ih =>
    rw [List.length_cons, loadEntries, List.forall_mem_cons]
    by_cases hle : e.faddr ≤ 0
    · rw [if_pos hle]
      refine iff_of_false ?_ fun h => by omega
      rintro ⟨r, hr⟩
      cases hr
    · rw [if_neg hle, ih]
      exact ⟨fun h => ⟨by omega, h⟩, fun h => h.2⟩

theorem loDword_makeDword {low : Nat} (high : Nat) (h : low < 2 ^ 16) : loDword (makeDword low high) = low := by
  unfold loDword makeDword
  omega

section Made

variable {ps : List ProcDef} (h : LibFits dbg J.length ps)

include h

theorem LibFits.size_file (v : Int) : chunksSize dbg (jmp OBJ_LIB v :: libGen dbg JBLOCKSZ ps) < 2 ^ 31 := by
  rw [chunksSize_cons, libSize]
  exact h.size

/-- The procedures of a library are compiled. -/
theorem LibFits.compiled :
    ∃ st, compileProc dbg (libLines ps) J = .ok (.file (writeRtable dbg st)) ∧
      Library dbg (jmp OBJ_LIB 0 :: libGen dbg JBLOCKSZ ps) (libDefs dbg JBLOCKSZ ps) J st := by
  have hinit : Library dbg [jmp OBJ_LIB 0] [] J { outfp := cgenLjmp OBJ_LIB (cposWord 0), neststack := [], jmpAddr := J, doList := [], seenRet := false } :=
    ⟨⟨fun _ => 0, rfl, Linked.nil⟩, by simp, by simp, rfl⟩
  exact compileLoop_ok hinit h.fits h.size (Nat.succ_pos _) (show 0 + ps.length ≤ MAXMCOUNT by rw [Nat.zero_add]; exact h.count) h.names h.procs h.rets

variable (hlib : Library dbg (jmp OBJ_LIB 0 :: libGen dbg JBLOCKSZ ps) (libDefs dbg JBLOCKSZ ps) J st)

include hlib

/-- Each call of a procedure of the file holds its address. -/
theorem LibFits.linkedCode : LinkedCode dbg ps (writeRtable dbg st).code := by
  obtain ⟨ca, hcount, hcalls⟩ := hlib.counted (h.size_file 0)
  refine ⟨ca, ?_, fun c hc d hd heq => ?_⟩
  · obtain ⟨ca0, hout, -⟩ := hlib.code
    have hpos : st.pos = JBLOCKSZ + (ps.map (ProcDef.size dbg)).sum := by
      rw [Ec.pos, hout, length_bytesAt, chunksSize_cons, libSize]
      rfl
    rw [writeRtable, hcount, hpos]
    exact bytesAt_patch (A := []) rfl rfl
  · obtain ⟨hp, e, he, hname, -, hfaddr⟩ := hlib.defined d hd
    rw [← hfaddr]
    exact hcalls c hc e he (by omega) (hname.trans heq)

omit h in
theorem Library.named : Named dbg ps st.doList := by
  refine ⟨?_, fun d hd => (hlib.defined d hd).2, fun e he hp => ?_⟩
  · obtain ⟨ca, -, hl⟩ := hlib.code
    exact hl.nodup
  · obtain ⟨d, hd, heq⟩ := hlib.only e he hp
    exact ⟨d.1, mem_libDefs hd, heq⟩

omit h in
theorem Library.closed : (∀ e ∈ st.doList, 0 < e.faddr) ↔ Closed ps := by
  rw [all_defined hlib, show calls (jmp OBJ_LIB 0 :: libGen dbg JBLOCKSZ ps) = ps.flatMap fun p => bodyCalls p.body from libCalls _ ps]
  refine forall₂_congr fun name _ => ⟨?_, ?_⟩
  · rintro ⟨d, hd, heq⟩
    exact ⟨d.1, mem_libDefs hd, heq⟩
  · rintro ⟨q, hq, heq⟩
    obtain ⟨ad, hd⟩ := @libDefs_mem dbg q JBLOCKSZ ps hq
    exact ⟨(q, ad), hd, heq⟩

/-- The size of the code is read back. -/
theorem LibFits.procSize : getCpos (readAt 2 CPOSSZ (writeRtable dbg st).code) = ↑(JBLOCKSZ + (ps.map (ProcDef.size dbg)).sum) := by
  obtain ⟨ca, hcode, -⟩ := h.linkedCode hlib
  have hsize := h.size
  have hv : -2 ^ 31 ≤ ((JBLOCKSZ + (ps.map (ProcDef.size dbg)).sum : Nat) : Int) ∧ ((JBLOCKSZ + (ps.map (ProcDef.size dbg)).sum : Nat) : Int) < 2 ^ 31 := by omega
  have hread : readAt 2 CPOSSZ (bytesAt dbg ca 0 (fileGen dbg ps)) = word CPOSSZ (cposWord ↑(JBLOCKSZ + (ps.map (ProcDef.size dbg)).sum)) := by
    rw [fileGen, jmp, bytesAt]
    show readAt 2 CPOSSZ (cgenLjmp (UInt8.ofNat OBJ_LIB).toNat (cposWord _) ++ _) = _
    rw [cgenLjmp_long (by decide)]
    exact List.take_left' (length_word _ _)
  rw [hcode, hread, getCpos_word hv.1 hv.2]

/-- There are no more names than procedures if nothing else is called. -/
theorem LibFits.count_closed (hclosed : Closed ps) : st.doList.length ≤ MAXMCOUNT := by
  have hall := hlib.closed.2 hclosed
  have hsub : (st.doList.map fun e => lowerName e.procName) ⊆ ps.map fun p => lowerName p.name := by
    rintro x hx
    obtain ⟨e, he, rfl⟩ := List.mem_map.1 hx
    obtain ⟨p, hp, heq⟩ := hlib.named.only e he (hall e he)
    exact List.mem_map.2 ⟨p, hp, heq.symm⟩
  have hlen := (hlib.named.nodup.subperm hsub).length_le
  rw [List.length_map, List.length_map] at hlen
  exact hlen.trans h.count

/-- The names are those of the procedures if nothing else is called. -/
theorem LibFits.loads (hcount : st.doList.length < 2 ^ 16) :
    (∃ tab, (writeRtable dbg st).load = .ok tab) ↔ Closed ps ∧ JBLOCKSZ + (ps.map (ProcDef.size dbg)).sum ≤ MAXPROCSIZE := by
  have hspec : loDword (writeRtable dbg st).spec = st.doList.length := loDword_makeDword dbg.toNat hcount
  have hload : (writeRtable dbg st).load = loadProc (getCpos (readAt 2 CPOSSZ (writeRtable dbg st).code)) (loDword (writeRtable dbg st).spec) st.doList := rfl
  rw [hload, hspec, h.procSize hlib, loadProc, ← hlib.closed, ← @loadEntries_ok []]
  constructor
  · rintro ⟨tab, htab⟩
    split_ifs at htab with hsize hmany
    exact ⟨⟨tab, htab⟩, by omega⟩
  · rintro ⟨⟨tab, htab⟩, hsize⟩
    have hle := h.count_closed hlib (hlib.closed.1 (loadEntries_ok.1 ⟨tab, htab⟩))
    have hpos : 0 < JBLOCKSZ := Nat.succ_pos _
    rw [if_neg (by omega), if_neg (by omega)]
    exact ⟨tab, htab⟩

theorem LibFits.ecount : (writeRtable dbg st).ecount = 0 ↔ Closed ps := by
  obtain ⟨ca, hcount, -⟩ := hlib.counted (h.size_file 0)
  rw [← hlib.closed, ← countP_open hlib, writeRtable, hcount]

end Made

/-- **A file of structured procedures** compiles to the code of the procedures, in which each call has the address of the procedure it names, wherever that
stands in the file. The compiler returns 0 if and only if each name that is called is defined; then the names can be loaded if the code is not too large. -/
theorem compileProc_links {ps : List ProcDef} (h : LibFits dbg J.length ps) :
    ∃ o, compileProc dbg (libLines ps) J = .ok (.file o) ∧ LinkedCode dbg ps o.code ∧ Named dbg ps o.procs ∧ (o.ecount = 0 ↔ Closed ps) ∧
      (o.procs.length < 2 ^ 16 → ((∃ tab, o.load = .ok tab) ↔ Closed ps ∧ JBLOCKSZ + (ps.map (ProcDef.size dbg)).sum ≤ MAXPROCSIZE)) := by
  obtain ⟨st, hmade, hlib⟩ := h.compiled
  exact ⟨writeRtable dbg st, hmade, h.linkedCode hlib, hlib.named, h.ecount hlib, h.loads hlib⟩

end File

/-- Two procedures, the first of which calls the other. -/
def twoProcs : List ProcDef :=
  let none0 : LineBlock := ⟨⟨[⟨PUSH_N, 0⟩], [], by decide, by decide⟩, 2⟩
  [⟨false, ['A'], .loop none0 (.act .exit .nil) (.act (.doProc ['b'] none0) .nil)⟩, ⟨false, ['B'], .act (.ret none) .nil⟩]

theorem twoProcs_fits : LibFits false 0 twoProcs := by
  have hproc : ∀ q ∈ twoProcs, q.isfcn = false := by decide
  refine ⟨?_, by decide, by decide, by decide, fun A q B hAB hf => ?_, by decide⟩
  swap
  · rw [hproc q (by rw [hAB]; simp)] at hf
    cases hf
  intro p hp
  simp only [twoProcs, List.mem_cons, List.not_mem_nil, or_false] at hp
  rcases hp with rfl | rfl
  · exact ⟨by decide, ⟨⟨rfl, trivial⟩, trivial, trivial⟩, by decide, by decide⟩
  · exact ⟨by decide, ⟨rfl, trivial⟩, by decide, by decide⟩

theorem compileProc_links_two : LibFits false 0 twoProcs ∧
    ∃ o, compileProc false (libLines twoProcs) [] = .ok (.file o) ∧ LinkedCode false twoProcs o.code ∧ Named false twoProcs o.procs ∧
      (o.ecount = 0 ↔ Closed twoProcs) ∧ (o.procs.length < 2 ^ 16 →
        ((∃ tab, o.load = .ok tab) ↔ Closed twoProcs ∧ JBLOCKSZ + (twoProcs.map (ProcDef.size false)).sum ≤ MAXPROCSIZE)) :=
  ⟨twoProcs_fits, compileProc_links (J := []) twoProcs_fits⟩

end Db3w.Hb
