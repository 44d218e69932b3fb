/-
Record and file locks of one table. The system keeps a lock for every byte of the table's file; the
engine remembers a single record or file lock and answers requests from what it remembers. The
memory is right in every run in which no record lock is taken while another lock is remembered, and
no lock is given up by a request for a record.
-/
import Db3w.Lib.Runs

namespace Db3w

/-- What the system holds for a byte: `F_UNLCK`, `F_RDLCK` or `F_WRLCK`. -/
inductive Flk where
  | unlck | rdlck | wrlck
  deriving DecidableEq, Repr

/-- How strong a lock is. -/
def Flk.strength : Flk → Nat
  | unlck => 0
  | rdlck => 1
  | wrlck => 2

/-- The types of a remembered lock: none, one of a record, one of the whole file. -/
inductive LockTyp where
  | unlck | rdlck | wrlck | fwlck | frlck
  deriving DecidableEq, Repr

/-- `struct _lock`. -/
structure Lock where
  type : LockTyp
  mode : Nat
  recno : Nat
  deriving DecidableEq, Repr

/-- A request for a record. -/
inductive RecReq where
  | unlck | rdlck | wrlck
  deriving DecidableEq, Repr

def RecReq.typ : RecReq → LockTyp
  | unlck => .unlck
  | rdlck => .rdlck
  | wrlck => .wrlck

def RecReq.flk : RecReq → Flk
  | unlck => .unlck
  | rdlck => .rdlck
  | wrlck => .wrlck

/-- Where records are in the file: `byprec` and `doffset` of its header. -/
structure RecGeom where
  byprec : Nat
  doffset : Nat
  pos : 0 < byprec

/-- How the table is open. -/
structure TblMode where
  inUse : Bool
  readonly : Bool
  exclusive : Bool
  denywrite : Bool
  deriving DecidableEq, Repr

/-- A table that others may write too. -/
def sharedTbl : TblMode := ⟨true, false, false, false⟩

/-- The remembered lock and the locks the system holds for the session, by byte. -/
structure LockSt where
  lock : Lock
  held : Nat → Flk

/-! ## System calls -/

/-- The bytes of a system call; a length of 0 reaches to the end of the file. -/
def InRange (start len b : Nat) : Prop := start ≤ b ∧ (len = 0 ∨ b < start + len)

instance (start len b : Nat) : Decidable (InRange start len b) := inferInstanceAs (Decidable (_ ∧ _))

/-- `fcntl(F_SETLK)`: the bytes get the new type, or the call is refused. A release is not refused. -/
def setlk (granted : Bool) (typ : Flk) (start len : Nat) (held : Nat → Flk) : Option (Nat → Flk) :=
  if typ = .unlck ∨ granted = true then some fun b => if InRange start len b then typ else held b else none

def LRETRY : Nat := 100

/-- A call that is tried again; `ans i` is the system's answer to try `i`. -/
def tryLock (ans : Nat → Bool) (typ : Flk) (start len : Nat) (held : Nat → Flk) : Nat → Nat → Option (Nat → Flk)
  | _, 0 => none
  | i, n + 1 =>
    match setlk (ans i) typ start len held with
    | some held' => some held'
    | none => tryLock ans typ start len held (i + 1) n

/-! ## Record and file locks -/

def isRecLocked (lk : Lock) (recno : Nat) (type : LockTyp) : Bool :=
  (type = .wrlck && lk.type = .fwlck) || (type = .rdlck && (lk.type = .fwlck || lk.type = .frlck)) ||
    ((lk.recno = 0 || lk.recno = recno) && (lk.type = type || lk.type = .wrlck))

def RecGeom.offset (g : RecGeom) (recno : Nat) : Nat := (recno - 1) * g.byprec + g.doffset

/-- `r_lock`; the result is 0 or -1. -/
def rLock (m : TblMode) (g : RecGeom) (recno : Nat) (req : RecReq) (doRetry : Bool) (ans : Nat → Bool) (st : LockSt) : Int × LockSt :=
  if m.inUse = false then (-1, st)
  else if recno = 0 then (-1, st)
  else if m.readonly ∧ req = .wrlck then (-1, st)
  else if m.exclusive then (0, st)
  else if m.denywrite ∧ req = .rdlck then (0, st)
  else if isRecLocked st.lock recno req.typ then (0, st)
  else
    match tryLock ans req.flk (g.offset recno) g.byprec st.held 0 (if doRetry then LRETRY else 1) with
    | none => (-1, st)
    | some held => (0, ⟨⟨req.typ, if req = .unlck then 0 else st.lock.mode, recno⟩, held⟩)

/-- `unlock_all`, for the context of the table. -/
def unlockAll (st : LockSt) : LockSt := ⟨⟨.unlck, 0, 0⟩, ((setlk true .unlck 0 0 st.held).getD st.held)⟩

/-- `f_unlock`. -/
def fUnlock (m : TblMode) (st : LockSt) : LockSt :=
  if m.exclusive ∨ m.denywrite then st
  else
    match setlk true .unlck 0 0 st.held with
    | none => st
    | some held => ⟨{ st.lock with type := .unlck }, held⟩

/-- `f_lock`. -/
def fLock (m : TblMode) (excl : Bool) (ans : Nat → Bool) (st : LockSt) : Int × LockSt :=
  if m.inUse = false then (-1, st)
  else if m.readonly ∧ excl then (-1, st)
  else if m.exclusive ∨ st.lock.type = .fwlck then (0, st)
  else if !excl ∧ (m.denywrite ∨ st.lock.type = .fwlck ∨ st.lock.type = .frlck) then (0, st)
  else
    let st := fUnlock m st
    match tryLock ans (if excl then .wrlck else .rdlck) 0 0 st.held 0 LRETRY with
    | none => (-1, st)
    | some held => (0, ⟨{ st.lock with type := if excl then .fwlck else .frlck, recno := 0 }, held⟩)

/-- A call, with the answers the system gives to it. -/
inductive LockOp where
  | rLock (recno : Nat) (req : RecReq) (doRetry : Bool) (ans : Nat → Bool)
  | fLock (excl : Bool) (ans : Nat → Bool)
  | fUnlock
  | unlockAll

/-- A call on a shared table. -/
def LockOp.apply (g : RecGeom) (st : LockSt) : LockOp → Int × LockSt
  | .rLock recno req doRetry ans => Db3w.rLock sharedTbl g recno req doRetry ans st
  | .fLock excl ans => Db3w.fLock sharedTbl excl ans st
  | .fUnlock => (0, Db3w.fUnlock sharedTbl st)
  | .unlockAll => (0, Db3w.unlockAll st)

/-! ## What the calls should do -/

/-- The bytes of a record. -/
def RecGeom.InRec (g : RecGeom) (recno b : Nat) : Prop := InRange (g.offset recno) g.byprec b

instance (g : RecGeom) (recno b : Nat) : Decidable (g.InRec recno b) := inferInstanceAs (Decidable (InRange _ _ _))

/-- The lock of a byte that a remembered lock stands for. -/
def Lock.describes (lk : Lock) (g : RecGeom) (b : Nat) : Flk :=
  match lk.type with
  | .unlck => .unlck
  | .rdlck => if g.InRec lk.recno b then .rdlck else .unlck
  | .wrlck => if g.InRec lk.recno b then .wrlck else .unlck
  | .frlck => .rdlck
  | .fwlck => .wrlck

/-- The remembered lock describes exactly the bytes held. -/
def LockSt.Exact (g : RecGeom) (st : LockSt) : Prop := ∀ b, st.held b = st.lock.describes g b

def LockTyp.IsFile (t : LockTyp) : Prop := t = .frlck ∨ t = .fwlck

instance (t : LockTyp) : Decidable t.IsFile := inferInstanceAs (Decidable (_ ∨ _))

/-- A request for a record that returns success: the record is locked as asked; given up, it is no
longer locked, except that a file lock is not weakened. -/
def Granted (g : RecGeom) (recno : Nat) (req : RecReq) (st st' : LockSt) : Prop :=
  match req with
  | .unlck =>
    (st.lock.type.IsFile → ∀ b, (st.held b).strength ≤ (st'.held b).strength) ∧
      (¬st.lock.type.IsFile → ∀ b, g.InRec recno b → st'.held b = .unlck)
  | req => ∀ b, g.InRec recno b → req.flk.strength ≤ (st'.held b).strength

/-- What a call has to do: keep the memory exact, and mean its success. -/
def LockOp.Right (g : RecGeom) (st : LockSt) (op : LockOp) : Prop :=
  (op.apply g st).2.Exact g ∧
    match op with
    | .rLock recno req _ _ => (op.apply g st).1 = 0 → Granted g recno req st (op.apply g st).2
    | _ => True

/-- The system refuses every try of a request. -/
def Refused (req : RecReq) (doRetry : Bool) (ans : Nat → Bool) : Prop := req ≠ .unlck ∧ ∀ i < if doRetry then LRETRY else 1, ans i = false

/-- The calls that the memory of a single lock stands. -/
def LockOp.Safe (st : LockSt) : LockOp → Prop
  | .rLock recno req doRetry ans =>
    recno = 0 ∨
      match st.lock.type with
      | .unlck => True
      | .rdlck => st.lock.recno = recno ∨ Refused req doRetry ans
      | .wrlck => (st.lock.recno = recno ∧ req ≠ .unlck) ∨ Refused req doRetry ans
      | .frlck => req = .rdlck ∨ Refused req doRetry ans
      | .fwlck => req ≠ .unlck
  | _ => True

/-- Every call of a run has the property in the state it is made in. -/
def LockRun (g : RecGeom) (P : LockSt → LockOp → Prop) (ops : List LockOp) (st : LockSt) : Prop :=
  Runs.Along (fun st op => (LockOp.apply g st op).2) P ops st

/-- No lock is held. -/
def noLocks : LockSt := ⟨⟨.unlck, 0, 0⟩, fun _ => .unlck⟩

/-! ## One call -/

section Call

variable {g : RecGeom} {st : LockSt} {recno : Nat} {req : RecReq} {doRetry : Bool} {ans : Nat → Bool} {typ : Flk} {start len : Nat}
  {held : Nat → Flk}

/-- A call that some try of is granted, and every release, sets the bytes. -/
theorem tryLock_some {n : Nat} : ∀ {i : Nat}, (typ = .unlck ∧ 0 < n ∨ ∃ j < n, ans (i + j) = true) →
    tryLock ans typ start len held i n = some fun b => if InRange start len b then typ else held b := by
  induction n with
  | zero => simp
  | succ n ih =>
    intro i h
    unfold tryLock setlk
    by_cases hg : typ = .unlck ∨ ans i = true
    · rw [if_pos hg]
    · rw [if_neg hg]
      refine ih ?_
      rcases h with h | ⟨j, hj, hans⟩
      · exact absurd (Or.inl h.1) hg
      · rcases j with _ | j
        · exact absurd (Or.inr hans) hg
        · exact Or.inr ⟨j, by omega, by rwa [Nat.add_assoc, Nat.add_comm 1]⟩

theorem tryLock_none (h : typ ≠ .unlck) {n : Nat} : ∀ {i : Nat}, (∀ j < n, ans (i + j) = false) → tryLock ans typ start len held i n = none := by
  induction n with
  | zero => simp [tryLock]
  | succ n ih =>
    intro i ha
    unfold tryLock setlk
    have h0 : ans i = false := ha 0 (by omega)
    rw [h0, if_neg (by simp [h])]
    refine ih fun j hj => ?_
    rw [Nat.add_assoc, Nat.add_comm 1]
    exact ha (j + 1) (by omega)

/-- The state after the system has granted a request for a record. -/
def LockSt.took (st : LockSt) (g : RecGeom) (recno : Nat) (req : RecReq) : LockSt :=
  ⟨⟨req.typ, if req = .unlck then 0 else st.lock.mode, recno⟩, fun b => if g.InRec recno b then req.flk else st.held b⟩

/-- The ways a request for a record ends on a shared table. -/
theorem rLock_cases (g : RecGeom) (recno : Nat) (req : RecReq) (doRetry : Bool) (ans : Nat → Bool) (st : LockSt) :
    (recno = 0 ∧ rLock sharedTbl g recno req doRetry ans st = (-1, st)) ∨
      (recno ≠ 0 ∧ isRecLocked st.lock recno req.typ = true ∧ rLock sharedTbl g recno req doRetry ans st = (0, st)) ∨
      (recno ≠ 0 ∧ isRecLocked st.lock recno req.typ = false ∧ Refused req doRetry ans ∧ rLock sharedTbl g recno req doRetry ans st = (-1, st)) ∨
      (recno ≠ 0 ∧ isRecLocked st.lock recno req.typ = false ∧ ¬Refused req doRetry ans ∧
        rLock sharedTbl g recno req doRetry ans st = (0, st.took g recno req)) := by
  have hflk : req.flk = .unlck ↔ req = .unlck := by cases req <;> decide
  have hpos : 0 < if doRetry then LRETRY else 1 := by cases doRetry <;> decide
  simp only [rLock, sharedTbl, Bool.true_eq_false, Bool.false_eq_true, false_and, if_false]
  by_cases h0 : recno = 0
  · simp [h0]
  · rw [if_neg h0]
    cases hl : isRecLocked st.lock recno req.typ with
    | true => simp [h0]
    | false =>
      rw [if_neg Bool.false_ne_true]
      by_cases hr : Refused req doRetry ans
      · rw [tryLock_none (hflk.not.2 hr.1) fun j hj => by rw [Nat.zero_add]; exact hr.2 j hj]
        exact Or.inr (Or.inr (Or.inl ⟨h0, rfl, hr, rfl⟩))
      · rw [tryLock_some]
        · exact Or.inr (Or.inr (Or.inr ⟨h0, rfl, hr, rfl⟩))
        · by_cases hu : req = .unlck
          · exact Or.inl ⟨hflk.2 hu, hpos⟩
          · right
            unfold Refused at hr
            push Not at hr
            obtain ⟨j, hj, hans⟩ := hr hu
            exact ⟨j, hj, by rw [Nat.zero_add]; simpa using hans⟩

/-- A record lock names a record. -/
def Lock.Valid (lk : Lock) : Prop := lk.type = .rdlck ∨ lk.type = .wrlck → lk.recno ≠ 0

theorem RecGeom.inRec_iff {b : Nat} : g.InRec recno b ↔ g.offset recno ≤ b ∧ b < g.offset recno + g.byprec := by
  have := g.pos
  unfold InRec InRange
  constructor <;> rintro ⟨h1, h2⟩ <;> exact ⟨h1, by omega⟩

theorem RecGeom.inRec_offset (g : RecGeom) (recno : Nat) : g.InRec recno (g.offset recno) :=
  g.inRec_iff.2 ⟨le_rfl, Nat.lt_add_of_pos_right g.pos⟩

/-- Different records have no byte in common. -/
theorem RecGeom.inRec_unique {r r' b : Nat} (hr : r ≠ 0) (hr' : r' ≠ 0) (h : g.InRec r b) (h' : g.InRec r' b) : r = r' := by
  rw [g.inRec_iff] at h h'
  have hlt : ∀ {p q : Nat}, p ≠ 0 → p < q → g.offset p + g.byprec ≤ g.offset q := by
    intro p q hp hpq
    have hmul : (p - 1 + 1) * g.byprec ≤ (q - 1) * g.byprec := Nat.mul_le_mul_right _ (by omega)
    unfold RecGeom.offset
    rw [Nat.add_mul] at hmul
    omega
  rcases lt_trichotomy r r' with hlt' | heq | hlt'
  · have := hlt hr hlt'
    omega
  · exact heq
  · have := hlt hr' hlt'
    omega

/-- Outside a record nothing is held: no lock is remembered, or one of that record. -/
theorem Lock.describes_outside {lk : Lock} (hv : lk.Valid) (h0 : recno ≠ 0) :
    (∀ b, ¬g.InRec recno b → lk.describes g b = .unlck) ↔ lk.type = .unlck ∨ ¬lk.type.IsFile ∧ lk.recno = recno := by
  have hout : ¬g.InRec recno (g.offset recno + g.byprec) := fun h => by
    rw [g.inRec_iff] at h
    omega
  have hrec : lk.recno ≠ 0 → ¬lk.recno = recno → ¬g.InRec recno (g.offset lk.recno) := fun hlk hne hin =>
    hne (g.inRec_unique hlk h0 (g.inRec_offset _) hin)
  have hin := g.inRec_offset lk.recno
  unfold Lock.describes LockTyp.IsFile
  unfold Lock.Valid at hv
  rcases lk with ⟨type, mode, r⟩
  dsimp only at hv hrec hin ⊢
  cases type with
  | unlck => simp
  | rdlck =>
    simp only [reduceCtorEq, false_or, or_self, not_false_eq_true, true_and, ite_eq_right_iff, imp_false]
    refine ⟨fun h => by_contra fun hne => h _ (hrec (hv (Or.inl rfl)) hne) hin, ?_⟩
    rintro rfl b hb
    exact hb
  | wrlck =>
    simp only [reduceCtorEq, false_or, or_self, not_false_eq_true, true_and, ite_eq_right_iff, imp_false]
    refine ⟨fun h => by_contra fun hne => h _ (hrec (hv (Or.inr rfl)) hne) hin, ?_⟩
    rintro rfl b hb
    exact hb
  | frlck => simpa using ⟨_, hout⟩
  | fwlck => simpa using ⟨_, hout⟩

/-- A granted request leaves an exact memory when nothing else was held. -/
theorem LockSt.took_exact (he : st.Exact g) (hv : st.lock.Valid) (h0 : recno ≠ 0) :
    (st.took g recno req).Exact g ↔ st.lock.type = .unlck ∨ ¬st.lock.type.IsFile ∧ st.lock.recno = recno := by
  rw [← Lock.describes_outside hv h0]
  refine forall_congr' fun b => ?_
  rw [← he b]
  unfold LockSt.took Lock.describes
  by_cases hb : g.InRec recno b <;> cases req <;> simp [RecReq.typ, RecReq.flk, hb]

variable (g st recno req) in
theorem LockSt.took_granted (hf : ¬(st.lock.type.IsFile ∧ req = .unlck)) : Granted g recno req st (st.took g recno req) := by
  have hset : ∀ b, g.InRec recno b → (st.took g recno req).held b = req.flk := fun b hb => if_pos hb
  cases req with
  | unlck => exact ⟨fun h => absurd ⟨h, rfl⟩ hf, fun _ b hb => hset b hb⟩
  | rdlck => exact fun b hb => (congrArg Flk.strength (hset b hb)).ge
  | wrlck => exact fun b hb => (congrArg Flk.strength (hset b hb)).ge

/-- The shortcut answers wrongly only when a record that is locked for writing is given up. -/
theorem granted_shortcut (he : st.Exact g) (hv : st.lock.Valid) (h0 : recno ≠ 0) (hl : isRecLocked st.lock recno req.typ = true) :
    Granted g recno req st st ↔ ¬(st.lock.type = .wrlck ∧ req = .unlck) := by
  have hrec : st.lock.type = .rdlck ∨ st.lock.type = .wrlck → (st.lock.recno = 0 ∨ st.lock.recno = recno) → st.lock.recno = recno :=
    fun h h' => h'.resolve_left (hv h)
  unfold Granted
  simp only [he _]
  unfold Lock.describes
  unfold isRecLocked at hl
  have hin := g.inRec_offset recno
  cases htyp : st.lock.type <;> cases req <;>
    simp only [htyp, RecReq.typ, Bool.or_eq_true, Bool.and_eq_true, decide_eq_true_eq, reduceCtorEq, and_false, or_false, false_or,
      and_true, or_self, and_self, or_true] at hl hrec ⊢
  case unlck.unlck => simp
  case wrlck.unlck =>
    obtain rfl := hrec trivial hl
    refine iff_of_false (fun h => ?_) (by simp)
    have := h.2 (by simp [LockTyp.IsFile]) _ hin
    rw [if_pos hin] at this
    cases this
  case rdlck.rdlck | wrlck.rdlck | wrlck.wrlck =>
    obtain rfl := hrec trivial hl
    refine iff_of_true (fun b hb => ?_) (by simp)
    rw [if_pos hb]
    decide
  all_goals exact iff_of_true (fun _ _ => by decide) not_false

/-! ## Releases and file locks -/

theorem inRange_all (b : Nat) : InRange 0 0 b := ⟨Nat.zero_le b, Or.inl rfl⟩

theorem setlk_all (granted : Bool) (held : Nat → Flk) : setlk granted .unlck 0 0 held = some fun _ => .unlck := by
  unfold setlk
  rw [if_pos (Or.inl rfl)]
  exact congrArg some (funext fun b => if_pos (inRange_all b))

theorem unlockAll_eq (st : LockSt) : unlockAll st = noLocks := by
  unfold unlockAll
  rw [setlk_all]
  rfl

theorem fUnlock_eq (st : LockSt) : fUnlock sharedTbl st = ⟨{ st.lock with type := .unlck }, fun _ => .unlck⟩ := by
  unfold fUnlock
  rw [if_neg (by decide), setlk_all]

/-- The ways a request for the file ends on a shared table. -/
theorem fLock_cases (excl : Bool) (ans : Nat → Bool) (st : LockSt) :
    (fLock sharedTbl excl ans st).2 = st ∨ (fLock sharedTbl excl ans st).2 = fUnlock sharedTbl st ∨
      (fLock sharedTbl excl ans st).2 =
        ⟨⟨if excl then .fwlck else .frlck, st.lock.mode, 0⟩, fun _ => if excl then .wrlck else .rdlck⟩ := by
  have hne : (if excl then Flk.wrlck else Flk.rdlck) ≠ .unlck := by cases excl <;> decide
  unfold fLock
  rw [if_neg (by decide), if_neg (by simp [sharedTbl])]
  by_cases h1 : sharedTbl.exclusive = true ∨ st.lock.type = .fwlck
  · rw [if_pos h1]
    exact Or.inl rfl
  rw [if_neg h1]
  by_cases h2 : (!excl) = true ∧ (sharedTbl.denywrite = true ∨ st.lock.type = .fwlck ∨ st.lock.type = .frlck)
  · rw [if_pos h2]
    exact Or.inl rfl
  · rw [if_neg h2]
    right
    dsimp only
    by_cases hg : ∃ j < LRETRY, ans (0 + j) = true
    · rw [tryLock_some (Or.inr hg)]
      right
      rw [fUnlock_eq]
      refine congrArg₂ LockSt.mk rfl (funext fun b => if_pos (inRange_all b))
    · push Not at hg
      rw [tryLock_none hne fun j hj => by simpa using hg j hj]
      exact Or.inl rfl

theorem fUnlock_exact (st : LockSt) : (fUnlock sharedTbl st).Exact g := by
  rw [fUnlock_eq]
  exact fun _ => rfl

theorem fLock_exact (he : st.Exact g) (excl : Bool) (ans : Nat → Bool) : (fLock sharedTbl excl ans st).2.Exact g := by
  rcases fLock_cases excl ans st with h | h | h <;> rw [h]
  · exact he
  · exact fUnlock_exact st
  · cases excl <;> exact fun _ => rfl

/-! ## Runs -/

/-- **One call** does what it has to exactly when it is one that the memory of a single lock stands. -/
theorem LockOp.right_iff (he : st.Exact g) (hv : st.lock.Valid) (op : LockOp) : op.Right g st ↔ op.Safe st := by
  cases op with
  | fLock excl ans => exact iff_of_true ⟨fLock_exact he excl ans, trivial⟩ trivial
  | fUnlock => exact iff_of_true ⟨fUnlock_exact st, trivial⟩ trivial
  | unlockAll => exact iff_of_true ⟨by simp only [LockOp.apply, unlockAll_eq]; exact fun _ => rfl, trivial⟩ trivial
  | rLock recno req doRetry ans =>
    unfold LockOp.Right LockOp.Safe LockOp.apply
    dsimp only
    rcases rLock_cases g recno req doRetry ans st with ⟨h0, hr⟩ | ⟨h0, hl, hr⟩ | ⟨h0, hl, href, hr⟩ | ⟨h0, hl, href, hr⟩ <;> rw [hr]
    · exact iff_of_true ⟨he, nofun⟩ (Or.inl h0)
    · -- the request is answered from the memory
      rw [granted_shortcut he hv h0 hl, or_iff_right h0]
      unfold isRecLocked at hl
      unfold Lock.Valid at hv
      cases htyp : st.lock.type <;> cases req <;> simp_all [RecReq.typ, Refused]
    · refine iff_of_true ⟨he, nofun⟩ (Or.inr ?_)
      cases htyp : st.lock.type
      · trivial
      · exact Or.inr href
      · exact Or.inr href
      · exact href.1
      · exact Or.inr href
    · -- the system grants the request
      rw [or_iff_right h0, LockSt.took_exact he hv h0]
      have hg := LockSt.took_granted g st recno req
      unfold isRecLocked at hl
      cases htyp : st.lock.type <;> cases req <;> simp_all [RecReq.typ, LockTyp.IsFile]

theorem LockOp.apply_valid (hv : st.lock.Valid) (op : LockOp) : (op.apply g st).2.lock.Valid := by
  cases op with
  | fLock excl ans =>
    rcases fLock_cases excl ans st with h | h | h <;> simp only [LockOp.apply, h]
    · exact hv
    · rw [fUnlock_eq]
      exact nofun
    · cases excl <;> exact nofun
  | fUnlock =>
    simp only [LockOp.apply, fUnlock_eq]
    exact nofun
  | unlockAll =>
    simp only [LockOp.apply, unlockAll_eq]
    exact nofun
  | rLock recno req doRetry ans =>
    show (Db3w.rLock sharedTbl g recno req doRetry ans st).2.lock.Valid
    rcases rLock_cases g recno req doRetry ans st with ⟨h0, hr⟩ | ⟨h0, hl, hr⟩ | ⟨h0, hl, href, hr⟩ | ⟨h0, hl, href, hr⟩ <;> rw [hr]
    · exact hv
    · exact hv
    · exact hv
    · exact fun _ => h0

end Call

/-- **In a run** from no locks every call does what it has to exactly where every call is one that
the memory of a single lock stands. -/
theorem lockRun_right_iff (g : RecGeom) (ops : List LockOp) :
    LockRun g (fun st op => op.Right g st) ops noLocks ↔ LockRun g (fun st op => op.Safe st) ops noLocks := by
  refine Runs.along_iff (I := fun st => st.Exact g ∧ st.lock.Valid) (fun st op h => LockOp.right_iff h.1 h.2 op) ?_ ⟨fun _ => rfl, nofun⟩
  exact fun st op h hr => ⟨hr.1, op.apply_valid h.2⟩

/-- Records of ten bytes after a header of 65. -/
def tenBytes : RecGeom := ⟨10, 65, by decide⟩

/-- A record that is locked for writing stays locked when it is given up, and a second record makes
the first one forgotten. -/
theorem secondRecord_forgets :
    ¬LockRun tenBytes (fun st op => op.Right tenBytes st)
        [.rLock 1 .wrlck false fun _ => true, .rLock 1 .unlck false fun _ => true] noLocks ∧
      ¬LockRun tenBytes (fun st op => op.Right tenBytes st)
        [.rLock 1 .rdlck false fun _ => true, .rLock 2 .rdlck false fun _ => true] noLocks := by
  constructor
  · rintro ⟨-, ⟨-, hg⟩, -⟩
    have := (hg rfl).2 (by decide) 65 (by decide)
    cases this
  · rintro ⟨-, ⟨he, -⟩, -⟩
    have := he 65
    cases this

end Db3w
