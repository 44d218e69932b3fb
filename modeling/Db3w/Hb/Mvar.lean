/-
Memory variables (var.c). A name has a slot in the table of variables, reached by a hash chain; the
slot leads to the newest declaration of the name, and each declaration to the one it hides. The
declarations of a procedure level are a linked list, and so are the free ones. Values are packed in
one buffer. The elements of an array are the declarations that follow its descriptor in its list.

Names come as arguments here, and not on the value stack. A result `fault` means that the code does
not come to an end, or that it reads or writes what is not its own.
-/
import Db3w.Hb.Names
import Db3w.Hb.RawVal
import Db3w.Lib.Links

namespace Db3w.Mvar

open Db3w.Hb Links

abbrev VARTABSZ : Nat := 16384
abbrev HASHTABSZ : Nat := 4096
abbrev HASHCONST : Nat := 47
abbrev DCLNTABSZ : Nat := 65536
abbrev VALBUFSZ : Nat := 1048576
abbrev MAXLEVEL : Nat := 32
abbrev MAXADIM : Nat := 13
abbrev MAXAELE : Int := 10000

inductive VErr where
  | undefVar | nullValue | notArray | badDim | missingDim | tooManyDim | arrayTooBig | varLocal | nameConflict | noPrivate | invalidParmcnt
  | vartblOverflow | dctblOverflow | membufOverflow | tooManyLevels | stackFault | internErr | fault
  deriving DecidableEq, Repr

/-- `struct var`. -/
structure Var where
  name : Str
  hlink : Nat
  decEntry : Nat
  deriving DecidableEq

/-- `struct dcln`; `value` is a place in the buffer of values. -/
structure Dcln where
  level : Nat
  varEntry : Nat
  link : Nat
  prior : Int
  value : Option Nat
  deriving DecidableEq

/-- The tables, the bytes of `val_buf` up to `next`, and the procedure level. -/
structure St where
  varTable : Nat → Var
  decTable : Nat → Dcln
  hashTable : Nat → Nat
  pool : List UInt8
  vlevel : Nat → Nat
  arrayDe : Nat
  currLvl : Nat

/-- `var_init`. -/
def varInit : St where
  varTable := fun i => ⟨[], i + 1, 0⟩
  decTable := fun i => ⟨0, 0, i + 1, 0, none⟩
  hashTable := fun _ => 0
  pool := []
  vlevel := fun _ => 0
  arrayDe := 0
  currLvl := 0

abbrev VRes := Except VErr

theorem VRes.bind_eq_ok {α β : Type} {m : VRes α} {f : α → VRes β} {b : β} (h : m >>= f = .ok b) : ∃ a, m = .ok a ∧ f a = .ok b := by
  cases m with
  | error e => cases h
  | ok a => exact ⟨a, rfl, h⟩

namespace St

variable (s : St)

def setVar (e : Nat) (v : Var) : St := { s with varTable := Function.update s.varTable e v }

def setDec (e : Nat) (d : Dcln) : St := { s with decTable := Function.update s.decTable e d }

variable {s} {e j : Nat} {d : Dcln} {v : Var}

@[simp] theorem setDec_self : (s.setDec e d).decTable e = d := Function.update_self ..

theorem setDec_of_ne (h : j ≠ e) : (s.setDec e d).decTable j = s.decTable j := Function.update_of_ne h ..

/-- A field that the new declaration has like the old one. -/
theorem setDec_field {α : Type} (f : Dcln → α) (h : f d = f (s.decTable e)) (j : Nat) : f ((s.setDec e d).decTable j) = f (s.decTable j) := by
  by_cases hje : j = e
  · subst hje
    rw [setDec_self, h]
  · rw [setDec_of_ne hje]

@[simp] theorem setDec_varTable : (s.setDec e d).varTable = s.varTable := rfl

@[simp] theorem setDec_vlevel : (s.setDec e d).vlevel = s.vlevel := rfl

@[simp] theorem setDec_pool : (s.setDec e d).pool = s.pool := rfl

@[simp] theorem setVar_self : (s.setVar e v).varTable e = v := Function.update_self ..

theorem setVar_of_ne (h : j ≠ e) : (s.setVar e v).varTable j = s.varTable j := Function.update_of_ne h ..

@[simp] theorem setVar_decTable : (s.setVar e v).decTable = s.decTable := rfl

@[simp] theorem setVar_vlevel : (s.setVar e v).vlevel = s.vlevel := rfl

@[simp] theorem setVar_pool : (s.setVar e v).pool = s.pool := rfl

variable (s)

/-- The links of the declarations. -/
def link (e : Nat) : Nat := (s.decTable e).link

def setLink (e l : Nat) : St := s.setDec e { s.decTable e with link := l }

theorem setLink_link (e l : Nat) : (s.setLink e l).link = Function.update s.link e l := by
  funext j
  by_cases hje : j = e
  · subst hje
    rw [Function.update_self]
    exact congrArg Dcln.link setDec_self
  · rw [Function.update_of_ne hje]
    exact congrArg Dcln.link (setDec_of_ne hje)

theorem setLink_field {α : Type} (f : Dcln → α) (h : ∀ d l, f { d with link := l } = f d) (e l j : Nat) :
    f ((s.setLink e l).decTable j) = f (s.decTable j) := setDec_field f (h _ _) j

/-- A declaration forgets its variable. -/
def disown (e : Nat) : St := s.setDec e { s.decTable e with varEntry := 0 }

theorem disown_field {α : Type} (f : Dcln → α) (h : ∀ d n, f { d with varEntry := n } = f d) (e j : Nat) :
    f ((s.disown e).decTable j) = f (s.decTable j) := setDec_field f (h _ _) j

/-- The value of a declaration. -/
def valueOf (e : Nat) : Option RawVal := (s.decTable e).value.bind fun p => readVal (s.pool.drop p)

end St

/-! ## Names -/

/-- `hash`, of a name with something in it. -/
def hash (name : Str) : Nat :=
  let up := fun c : Char => c.toUpper.toNat
  let len := name.length
  if 2 < len then
    (HASHCONST * up (chr name) + 2 * HASHCONST * up (chr name.tail) + len * up (chr (name.drop (len - 1))) +
      (len - 1) * up (chr (name.drop (len - 2))) + HASHCONST) % HASHTABSZ
  else (HASHCONST * up (chr name) + len * up (chr (name.drop (len - 1))) + HASHCONST) % HASHTABSZ

/-- Where the number of a slot is kept: in the hash table, or in the slot before it. -/
inductive HPtr where
  | bucket (h : Nat)
  | slot (e : Nat)
  deriving DecidableEq

def HPtr.get (s : St) : HPtr → Nat
  | bucket h => s.hashTable h
  | slot e => (s.varTable e).hlink

def HPtr.set (s : St) (e : Nat) : HPtr → St
  | bucket h => { s with hashTable := Function.update s.hashTable h e }
  | slot f => s.setVar f { s.varTable f with hlink := e }

/-- `hlink`: a slot without declarations ends the chain. With `ins` a free slot is put there. -/
def hlink (ins : Bool) (name : Str) : Nat → HPtr → St → VRes (Nat × St)
  | 0, _, _ => .error .fault
  | fuel + 1, p, s =>
    let e := p.get s
    if (s.varTable e).decEntry ≠ 0 then
      if namecmp (s.varTable e).name name name.length ID_VNAME ≠ 0 then hlink ins name fuel (.slot e) s else .ok (e, s)
    else if !ins then .ok (0, s)
    else
      let f := (s.varTable 0).hlink
      if f = VARTABSZ then .error .vartblOverflow
      else
        let s := p.set s f
        let s := s.setVar 0 { s.varTable 0 with hlink := (s.varTable f).hlink }
        .ok (f, s.setVar f { s.varTable f with hlink := 0, name := chgcase name })

/-- `varsrin`. -/
def varsrin (ins : Bool) (name : Str) (s : St) : VRes (Nat × St) := hlink ins name (VARTABSZ + 1) (.bucket (hash name)) s

/-! ## Values -/

/-- The value at a place in the buffer. -/
def readAt (s : St) (p : Option Nat) : VRes RawVal :=
  match p.bind fun p => readVal (s.pool.drop p) with
  | some v => .ok v
  | none => .error .fault

/-- `add_val`. -/
def addVal (v : RawVal) (s : St) : VRes (Nat × St) :=
  if s.pool.length + v.size > VALBUFSZ then .error .membufOverflow else .ok (s.pool.length, { s with pool := s.pool ++ v.bytes })

/-- The declarations of a level. -/
def levelList (s : St) (i : Nat) : Option (List Nat) := walk s.link (· = 0) DCLNTABSZ (s.vlevel i)

/-- The declarations of all levels in use. -/
def levelEntries (s : St) : Option (List Nat) := ((List.range (s.currLvl + 1)).mapM (levelList s)).map List.flatten

/-- A value behind `p` is moved by `len`. -/
def relocate (p len : Nat) (dec : Nat → Dcln) (j : Nat) : Nat → Dcln :=
  match (dec j).value with
  | some q => if p < q then Function.update dec j { dec j with value := some (q - len) } else dec
  | none => dec

/-- `del_val`. -/
def delVal (p : Option Nat) (s : St) : VRes St :=
  match p with
  | none => .ok s
  | some p => do
    let v ← readAt s (some p)
    match levelEntries s with
    | none => .error .fault
    | some es =>
      if s.pool.length < v.size then .error .internErr
      else .ok { s with
        decTable := es.foldl (relocate p v.size) s.decTable
        pool := s.pool.take p ++ s.pool.drop (p + v.size) }

/-! ## Declarations -/

/-- `get_next_dec`; 0 if there is none left. -/
def getNextDec (lvl ve : Nat) (s : St) : Nat × St :=
  let e := (s.decTable 0).link
  if e = DCLNTABSZ then (0, s)
  else
    let dec := s.decTable e
    let s := s.setDec 0 { s.decTable 0 with link := dec.link }
    let s := s.setDec e { dec with prior := if lvl = 0 then 0 else -1, varEntry := ve, value := none, link := s.vlevel lvl }
    (e, { s with vlevel := Function.update s.vlevel lvl e })

/-- The declaration that references lead to from `de`. -/
def addrTarget (s : St) : Nat → Nat → VRes Nat
  | 0, _ => .error .fault
  | fuel + 1, de => do
    let v ← readAt s (s.decTable de).value
    if v.typ = ADDR then addrTarget s fuel (getWord v.buf) else .ok de

/-- A number as an `int`. -/
def toInt32 (n : Int) : Int := n.bmod (2 ^ 32)

/-- The sizes of the dimensions of an array. -/
def dimWords : Nat → List UInt8 → List Nat
  | 0, _ => []
  | n + 1, a => getWord a :: dimWords n (a.drop 2)

/-- The product of some sizes, as an `int`. -/
def wordProd (ws : List Nat) : Int := ws.foldl (fun n w => toInt32 (n * w)) 1

/-- Declarations for the elements of an array. -/
def takeDecs (lvl e : Nat) : Nat → Nat → St → VRes (Nat × St)
  | 0, de, s => .ok (de, s)
  | n + 1, _, s =>
    let r := getNextDec lvl e s
    if r.1 = 0 then .error .dctblOverflow else takeDecs lvl e n r.1 r.2

/-- The end of `_vstore`: the value is put into the buffer, and the declaration given to it. For an array, declarations are taken
for its elements, and its slot `e` and the descriptor go to the last of them. -/
def place (lvl : Nat) (e : Option Nat) (de : Nat) (t : RawVal) (s : St) : VRes St := do
  let r ← addVal t s
  if t.typ = ARRAYTYP then
    match e with
    | none => .error .fault
    | some e =>
      let nele := wordProd (dimWords (t.len / 2) t.buf)
      if nele < 0 then .error .dctblOverflow
      else do
        let d ← takeDecs lvl e nele.toNat de r.2
        let s := d.2.setVar e { d.2.varTable e with decEntry := d.1 }
        .ok (s.setDec d.1 { s.decTable d.1 with value := some r.1 })
  else .ok (r.2.setDec de { r.2.decTable de with value := some r.1 })

/-- The old value of a visible variable is deleted. -/
def clearOld (de : Nat) (s : St) : VRes St := do
  let v ← readAt s (s.decTable de).value
  if v.typ = ARRAYTYP then .error .missingDim
  else do
    let s ← delVal (s.decTable de).value s
    .ok (s.setDec de { s.decTable de with value := none })

/-- `_vstore`, with the level that a new declaration belongs to. -/
def vstoreAt (pub : Bool) (name : Str) (t : RawVal) (s : St) : VRes St :=
  let lvl := if pub then 0 else s.currLvl
  if s.arrayDe ≠ 0 then place lvl none s.arrayDe t { s with arrayDe := 0 }
  else do
    let r ← varsrin true name s
    let e := r.1
    let s := r.2
    let de := (s.varTable e).decEntry
    if de = 0 then
      let d := getNextDec lvl e s
      if d.1 = 0 then .error .dctblOverflow
      else place lvl (some e) d.1 t (d.2.setVar e { d.2.varTable e with decEntry := d.1 })
    else if (s.decTable de).level ≠ 0 then
      if pub then .error .varLocal
      else
        -- whether there was a declaration left is not checked here
        let d := getNextDec s.currLvl e s
        let s := d.2.setVar e { d.2.varTable e with decEntry := d.1 }
        place lvl (some e) d.1 t (s.setDec d.1 { s.decTable d.1 with prior := de })
    else if pub ∧ 0 < (s.decTable de).prior then .error .varLocal
    else if t.typ = ARRAYTYP then .error .nameConflict
    else do
      let de ← addrTarget s DCLNTABSZ de
      let s ← clearOld de s
      place lvl (some e) de t s

/-- `vstore`. -/
def vstore (name : Str) (t : RawVal) (s : St) : VRes St := vstoreAt false name t s

/-- The value of a new public variable. -/
def undefVal : RawVal := ⟨UNDEF, 0, [], by decide, by decide, rfl⟩

/-- `public`. -/
def publicVar (name : Str) (s : St) : VRes St := vstoreAt true name undefVal s

/-! ## Reading -/

/-- The declaration that is read: an array element that has just been found, or the newest one of the name. -/
def readDec (name : Str) (s : St) : VRes (Nat × St) :=
  if s.arrayDe ≠ 0 then .ok (s.arrayDe, { s with arrayDe := 0 })
  else do
    let r ← varsrin false name s
    if r.1 = 0 then .error .undefVar else .ok ((r.2.varTable r.1).decEntry, r.2)

/-- The value of a declaration that is not hidden. -/
def decValue (de : Nat) (s : St) : VRes RawVal :=
  if (s.decTable de).level ≠ 0 then .error .undefVar
  else if (s.decTable de).value = none then .error .nullValue
  else readAt s (s.decTable de).value

/-- The value that references lead to. -/
def derefAddr (s : St) : Nat → RawVal → VRes RawVal
  | 0, _ => .error .fault
  | fuel + 1, v =>
    if v.typ = ADDR then do
      let v ← readAt s (s.decTable (getWord v.buf)).value
      derefAddr s fuel v
    else .ok v

/-- `v_retrv`. -/
def vRetrv (name : Str) (s : St) : VRes (RawVal × St) := do
  let r ← readDec name s
  let v ← decValue r.1 r.2
  if v.typ = ARRAYTYP then .error .missingDim
  else do
    let v ← derefAddr r.2 DCLNTABSZ v
    .ok (v, r.2)

/-- The number of links to follow to an element. -/
def eleCount : List Int → List Nat → Int → VRes Int
  | [], _, nele => .ok nele
  | i :: is, ws, nele =>
    let le := toInt32 i
    if le ≤ 0 ∨ le > MAXAELE then .error .badDim
    else if le - 1 > ws.headD 0 then .error .badDim
    else eleCount is ws.tail (toInt32 (nele + toInt32 ((le - 1) * wordProd ws.tail)))

/-- `arraychk`: the element is kept for the access that follows. -/
def arraychk (name : Str) (idx : List Int) (s : St) : VRes St := do
  let r ← readDec name s
  let v ← decValue r.1 r.2
  if v.typ ≠ ARRAYTYP then .error .notArray
  else if idx.length ≠ v.len / 2 then .error .badDim
  else do
    let nele ← eleCount idx (dimWords (v.len / 2) v.buf) 1
    if nele < 0 then .error .fault else .ok { r.2 with arrayDe := r.2.link^[nele.toNat] r.1 }

/-- The sizes of an array, when it is declared. -/
def checkDims : List Int → Int → VRes (List Nat)
  | [], _ => .ok []
  | n :: ns, tele =>
    let nele := toInt32 n
    if nele ≤ 0 then .error .badDim
    else if toInt32 (tele * nele) > MAXAELE then .error .arrayTooBig
    else do
      let ws ← checkDims ns (toInt32 (tele * nele))
      .ok ((nele % 65536).toNat :: ws)

/-- The descriptor of an array. -/
def arrayVal (ws : List Nat) (h : ws.length ≤ MAXADIM) : RawVal where
  typ := ARRAYTYP
  len := 2 * ws.length
  buf := ws.flatMap putWord
  typ_lt := by decide
  len_lt := by
    have : MAXADIM = 13 := rfl
    omega
  length_buf := by
    have hlen : (ws.flatMap putWord).length = 2 * ws.length := by
      induction ws with
      | nil => rfl
      | cons w ws ih =>
        rw [List.flatMap_cons, List.length_append, ih (by rw [List.length_cons] at h; omega), List.length_cons]
        show 2 + _ = _
        omega
    rw [hlen]
    by_cases hz : ws.length = 0
    · rw [hz]
      rfl
    · have hlen : valSize ARRAYTYP (2 * ws.length) = 2 * ws.length + 2 := by
        rw [valSize, if_neg (by omega), if_neg (by decide), if_neg (by decide), if_neg (by decide), if_neg (by decide)]
      exact hlen.symm

theorem checkDims_length {dims : List Int} {tele : Int} {ws : List Nat} (h : checkDims dims tele = .ok ws) : ws.length = dims.length := by
  induction dims generalizing tele ws with
  | nil =>
    cases h
    rfl
  | cons n ns ih =>
    unfold checkDims at h
    dsimp only at h
    split at h
    · cases h
    split at h
    · cases h
    cases hr : checkDims ns (toInt32 (tele * toInt32 n)) with
    | error e =>
      rw [hr] at h
      cases h
    | ok ws' =>
      rw [hr] at h
      cases h
      rw [List.length_cons, List.length_cons, ih hr]

/-- What `arraydef` makes of the sizes. -/
def arrayDesc (dims : List Int) : VRes RawVal :=
  if hd : dims.length ≤ MAXADIM then
    match hc : checkDims dims 1 with
    | .error e => .error e
    | .ok ws => .ok (arrayVal ws (checkDims_length hc ▸ hd))
  else .error .tooManyDim

/-- `arraydef`. -/
def arraydef (pub : Bool) (name : Str) (dims : List Int) (s : St) : VRes St := do
  let v ← arrayDesc dims
  vstoreAt pub name v s

/-! ## Procedure levels -/

/-- `vmatch` for a list of names, the last one first. Their number is the mode, which from 16 on stands for a pattern; what
`isPattern` says of it depends on what lies in memory behind the names. -/
def vmatch (names : List Str) (isPattern : Str → Bool) (name : Str) : Bool :=
  if names.length % 256 &&& 0xf0 ≠ 0 then isPattern name
  else (names.take (names.length % 16)).any fun v => namecmp name v v.length ID_VNAME = 0

/-- Where the link to a declaration is kept. -/
inductive DPtr where
  | head (lvl : Nat)
  | dec (e : Nat)
  deriving DecidableEq

def DPtr.get (s : St) : DPtr → Nat
  | head lvl => s.vlevel lvl
  | dec e => s.link e

def DPtr.set (s : St) (e : Nat) : DPtr → St
  | head lvl => { s with vlevel := Function.update s.vlevel lvl e }
  | dec f => s.setLink f e

/-- A declaration goes from the list that `ip` points into to the free ones. -/
def unlinkDec (ip : DPtr) (e : Nat) (s : St) : St :=
  let s := s.disown e
  let s := ip.set s (s.link e)
  let s := s.setLink e (s.link 0)
  s.setLink 0 e

/-- The inner loop of `release`: the declarations of the slot `ve` that follow each other are freed. -/
def freeDecs (ve : Nat) : Nat → DPtr → Nat → St → VRes St
  | 0, _, _, _ => .error .fault
  | fuel + 1, ip, e, s => do
    let s ← delVal (s.decTable e).value s
    let s := unlinkDec ip e s
    if (s.decTable (ip.get s)).varEntry = ve then freeDecs ve fuel ip (ip.get s) s else .ok s

/-- A slot goes back to the declaration that was hidden, or is free. -/
def dropDec (d : Dcln) (s : St) : St :=
  let de := if d.prior = -1 then 0 else d.prior.toNat
  let s := s.setVar d.varEntry { s.varTable d.varEntry with decEntry := de }
  if de = 0 then
    let s := s.setVar d.varEntry { s.varTable d.varEntry with hlink := (s.varTable 0).hlink }
    s.setVar 0 { s.varTable 0 with hlink := d.varEntry }
  else s

/-- The outer loop of `release`. -/
def releaseLoop (m : Str → Bool) : Nat → DPtr → St → VRes St
  | 0, _, _ => .error .fault
  | fuel + 1, ip, s =>
    let e := ip.get s
    if e = 0 then .ok s
    else
      let d := s.decTable e
      if m (s.varTable d.varEntry).name then do
        let s ← freeDecs d.varEntry DCLNTABSZ ip e (dropDec d s)
        releaseLoop m fuel ip s
      else releaseLoop m fuel (.dec e) s

/-- The declarations of a list whose level `p` says are no longer hidden. -/
def unhide (p : Nat → Bool) (es : List Nat) (s : St) : St :=
  es.foldl (fun s i => if p (s.decTable i).level then s.setDec i { s.decTable i with level := 0 } else s) s

/-- What the end of a procedure does besides: what it has hidden is visible again. -/
def unhideAll (s : St) : VRes St := do
  let s ← if 1 < s.currLvl then
      match levelList s (s.currLvl - 1) with
      | some es => .ok (unhide (fun _ => true) es s)
      | none => .error .fault
    else .ok s
  match levelList s 0 with
  | some es => .ok (unhide (· = s.currLvl) es s)
  | none => .error .fault

/-- `release` of a list of names. -/
def release (names : List Str) (isPattern : Str → Bool) (s : St) : VRes St := do
  let s ← releaseLoop (vmatch names isPattern) (DCLNTABSZ + 1) (.head s.currLvl) s
  if names.length % 256 &&& 0x10 ≠ 0 then unhideAll s else .ok s

/-- `release(R_ALL | R_PROC)`. -/
def releaseProc (s : St) : VRes St := do
  let s ← releaseLoop (fun _ => true) (DCLNTABSZ + 1) (.head s.currLvl) s
  unhideAll s

/-- `private` of a list of names. -/
def privateVars (names : List Str) (isPattern : Str → Bool) (s : St) : VRes St :=
  if s.currLvl = 0 then .error .noPrivate
  else match (List.range s.currLvl).mapM (levelList s) with
    | none => .error .fault
    | some ess => .ok (ess.flatten.foldl (fun s j =>
        if vmatch names isPattern (s.varTable (s.decTable j).varEntry).name ∧ (s.decTable j).level = 0 then
          s.setDec j { s.decTable j with level := s.currLvl } else s) s)

/-- A reference to a declaration. -/
def addrVal (e : Nat) : RawVal := ⟨ADDR, 2, putWord (e % 65536), by decide, by decide, rfl⟩

/-- `addr`: a reference to a variable, or to the array element that has just been found. -/
def addr (name : Option Str) (s : St) : VRes (RawVal × St) :=
  match name with
  | some name => do
    let r ← varsrin false name s
    if r.1 = 0 then .error .undefVar
    else if (r.2.decTable (r.2.varTable r.1).decEntry).level ≠ 0 then .error .undefVar
    else .ok (addrVal (r.2.varTable r.1).decEntry, r.2)
  | none => .ok (addrVal s.arrayDe, { s with arrayDe := 0 })

end Db3w.Mvar
