/-
Appending blank records from several sessions that share a table. A session locks the header for
reading, reads the record count again, gives up the lock of its current record, takes a write lock on
the record after the last one, writes it, and writes the header with the count raised. Read locks do not keep other sessions from reading
the same count; only the lock of the record does, and it lasts until the session releases all its
locks.
-/
import Db3w.Dbf.Lock

namespace Db3w

def HD3SZ : Nat := 32
def HDRSZ : Nat := 64
def MKR_MASK : Nat := 0x07
def DB3_MKR : Nat := 0x03
def DB5_MKR : Nat := 0x05
/-- The mark of a locked header in its copy in memory. -/
def HDR_LOCKED : Nat := 0x8000
def R_APPEND : Nat := 1

/-- `is_db3`: the equality binds before the mask. -/
def isDb3 (id : Nat) : Bool := MKR_MASK &&& (if id = DB3_MKR then 1 else 0) ≠ 0

def isHdrLocked (id : Nat) : Bool := HDR_LOCKED &&& id ≠ 0

/-- Where a session is in `_apblank`; `hdrTry n` is before try `n` of the header lock, and `failed`
after an error that has not been cleared. -/
inductive ApPc where
  | idle | hdrTry (n : Nat) | hdrLocked | hdrRead | etofClear | recLocked | recWritten | counted | endMarked | hdrWritten | recUnlocked | failed
  deriving DecidableEq, Repr

/-- A session: its copy of the header, the current record and the remembered lock. -/
structure Sess where
  id : Nat
  reccnt : Nat
  crntrec : Nat
  lock : Lock
  pc : ApPc
  deriving DecidableEq, Repr

/-- The file with the sessions that share it. `recs` tells which session's append wrote a record, and
`done` lists the appends whose header has been written, which are then reported as successes. -/
structure ApSt (ι : Type) where
  id : Nat
  count : Nat
  recs : Nat → Option ι
  held : ι → Nat → Flk
  sess : ι → Sess
  done : List (ι × Nat)

variable {ι : Type} [DecidableEq ι] [Fintype ι]

/-! ## Locks of several sessions -/

/-- Locks of two sessions that exclude each other. -/
def Flk.Conflict (a b : Flk) : Prop := (a = .wrlck ∧ b ≠ .unlck) ∨ (b = .wrlck ∧ a ≠ .unlck)

instance (a b : Flk) : Decidable (a.Conflict b) := inferInstanceAs (Decidable (_ ∨ _))

/-- No other session holds a lock in the range that excludes the new one. -/
def Grantable (held : ι → Nat → Flk) (i : ι) (typ : Flk) (start len : Nat) : Prop :=
  ∀ j, j ≠ i → ∀ k < len, ¬typ.Conflict (held j (start + k))

instance (held : ι → Nat → Flk) (i : ι) (typ : Flk) (start len : Nat) : Decidable (Grantable held i typ start len) :=
  inferInstanceAs (Decidable (∀ j, j ≠ i → ∀ k < len, ¬typ.Conflict (held j (start + k))))

/-- A system call of session `i`, granted or refused by what the others hold. -/
def ApSt.setlk (st : ApSt ι) (i : ι) (typ : Flk) (start len : Nat) : Option (ApSt ι) :=
  (Db3w.setlk (Grantable st.held i typ start len) typ start len (st.held i)).map fun h => { st with held := Function.update st.held i h }

def ApSt.put (st : ApSt ι) (i : ι) (s : Sess) : ApSt ι := { st with sess := Function.update st.sess i s }

/-- `r_lock` of session `i`, tried once; the result `none` is -1. -/
def ApSt.rLock (g : RecGeom) (st : ApSt ι) (i : ι) (s : Sess) (recno : Nat) (req : RecReq) : Option (ApSt ι × Sess) :=
  if recno = 0 then none
  else if isRecLocked s.lock recno req.typ then some (st, s)
  else (st.setlk i req.flk (g.offset recno) g.byprec).map fun st =>
    (st, { s with lock := ⟨req.typ, if req = .unlck then 0 else s.lock.mode, recno⟩ })

/-! ## The steps of an append -/

/-- The bytes of the header that `lock_hdr` locks and reads. -/
def hdrszOf (id : Nat) : Nat := if isDb3 id then HD3SZ else HDRSZ

/-- `read_db_hdr` on the fixed part of the header, of which `size` bytes are in the buffer. -/
def readFixed (st : ApSt ι) (size : Nat) (s : Sess) : Sess :=
  let mkr := MKR_MASK &&& st.id
  if mkr ≠ DB3_MKR ∧ mkr ≠ DB5_MKR then s
  else if (mkr = DB3_MKR ∧ size < HD3SZ) ∨ size < HDRSZ then s
  else { s with id := st.id, reccnt := st.count }

/-- The next step of session `i`. A session that is idle begins an append, and one that has failed
has its error cleared, which releases all its locks. -/
def apStep (g : RecGeom) (st : ApSt ι) (i : ι) : ApSt ι :=
  let s := st.sess i
  match s.pc with
  | .idle => st.put i { s with pc := if isHdrLocked s.id then .hdrLocked else .hdrTry 0 }
  | .hdrTry n =>
    match st.setlk i .rdlck 0 (hdrszOf s.id) with
    | some st => st.put i { s with pc := .hdrLocked }
    | none => st.put i { s with pc := if n + 1 < LRETRY then .hdrTry (n + 1) else .failed }
  | .hdrLocked =>
    let s := readFixed st (hdrszOf s.id) s
    st.put i { s with id := s.id ||| HDR_LOCKED, pc := .hdrRead }
  | .hdrRead =>
    -- `clretof`
    let (st, s) := (st.rLock g i s s.crntrec .unlck).getD (st, s)
    st.put i { s with pc := .etofClear }
  | .etofClear =>
    let s := { s with crntrec := s.reccnt + 1 }
    match st.rLock g i s s.crntrec .wrlck with
    | some (st, s) => st.put i { s with lock := { s.lock with mode := R_APPEND }, pc := .recLocked }
    | none => st.put i { s with pc := .failed }
  | .recLocked => { st with recs := Function.update st.recs s.crntrec (some i) }.put i { s with pc := .recWritten }
  | .recWritten => st.put i { s with reccnt := s.reccnt + 1, pc := .counted }
  | .counted =>
    -- the end mark, and the file cut off after it
    { st with recs := fun r => if r ≤ s.reccnt then st.recs r else none }.put i { s with pc := .endMarked }
  | .endMarked => { st with count := s.reccnt, done := (i, s.crntrec) :: st.done }.put i { s with pc := .hdrWritten }
  | .hdrWritten =>
    let s := { s with lock := { s.lock with mode := 0 } }
    let (st, s) := (st.rLock g i s s.crntrec .unlck).getD (st, s)
    st.put i { s with pc := .recUnlocked }
  | .recUnlocked =>
    let st := if isHdrLocked s.id then (st.setlk i .unlck 0 HD3SZ).getD st else st
    st.put i { s with id := s.id &&& 0x7fff, pc := .idle }
  | .failed =>
    let st := (st.setlk i .unlck 0 0).getD st
    st.put i { s with lock := { s.lock with type := .unlck }, pc := .idle }

/-- A run: the sessions take their steps in the given order. -/
def apRun (g : RecGeom) (sched : List ι) (st : ApSt ι) : ApSt ι := sched.foldl (apStep g) st

/-- A table of `n` records that the sessions have opened, each with a count and a current record of
its own. -/
def apStart (ι : Type) (id n : Nat) (cnt crnt : ι → Nat) : ApSt ι where
  id := id
  count := n
  recs _ := none
  held _ _ := .unlck
  sess i := ⟨id, cnt i, crnt i, ⟨.unlck, 0, 0⟩, .idle⟩
  done := []

/-- What appending should do to a table of `n` records: every success has a record of its own after
the old ones, which still holds what it wrote, and the count on disk is that of all of them. -/
structure AppendsKept (n : Nat) (st : ApSt ι) : Prop where
  count : st.count = n + st.done.length
  own : (st.done.map Prod.snd).Nodup
  kept : ∀ a ∈ st.done, n < a.2 ∧ a.2 ≤ st.count ∧ st.recs a.2 = some a.1
  old : ∀ r ≤ n, st.recs r = none

/-- The session is about to be given the lock of a record that is in use: it has read the header,
its count is not that on disk, and the lock of the next record is free. -/
def Stale (g : RecGeom) (st : ApSt ι) (i : ι) : Prop :=
  (st.sess i).pc = .etofClear ∧ (st.sess i).reccnt ≠ st.count ∧
    (isRecLocked (st.sess i).lock ((st.sess i).reccnt + 1) .wrlck = true ∨ Grantable st.held i .wrlck (g.offset ((st.sess i).reccnt + 1)) g.byprec)

instance (g : RecGeom) (st : ApSt ι) (i : ι) : Decidable (Stale g st i) := inferInstanceAs (Decidable (_ ∧ _))

/-! ## What one step keeps -/

/-- Between the lock of its record and the header written. -/
def ApPc.Busy (pc : ApPc) : Prop := pc = .recLocked ∨ pc = .recWritten ∨ pc = .counted ∨ pc = .endMarked

/-- A remembered lock is held. -/
def LockOK (g : RecGeom) (held : Nat → Flk) (lk : Lock) : Prop :=
  lk.type = .unlck ∨ lk.type = .wrlck ∧ lk.recno ≠ 0 ∧ ∀ b, g.InRec lk.recno b → held b = .wrlck

/-- A busy session works on the record after the last one, and holds its lock. -/
structure BusyOK (g : RecGeom) (count : Nat) (recs : Nat → Option ι) (i : ι) (held : Nat → Flk) (s : Sess) : Prop where
  crntrec : s.crntrec = count + 1
  held : ∀ b, g.InRec s.crntrec b → held b = .wrlck
  reccnt : s.reccnt = if s.pc = .recLocked ∨ s.pc = .recWritten then count else count + 1
  written : s.pc ≠ .recLocked → recs s.crntrec = some i

/-- The invariant of runs in which no stale count gets a lock. -/
structure AppInv (g : RecGeom) (n : Nat) (st : ApSt ι) : Prop where
  kept : AppendsKept n st
  compat : ∀ i j, i ≠ j → ∀ b, ¬(st.held i b).Conflict (st.held j b)
  lock : ∀ i, LockOK g (st.held i) (st.sess i).lock
  busy : ∀ i, (st.sess i).pc.Busy → BusyOK g st.count st.recs i (st.held i) (st.sess i)

section Step

variable {g : RecGeom} {n : Nat} {st st' : ApSt ι} {i j : ι} {typ : Flk} {start len : Nat} {s : Sess} {h : Nat → Flk}

theorem Flk.conflict_comm {a b : Flk} : a.Conflict b ↔ b.Conflict a := Or.comm

theorem Flk.not_conflict_unlck (b : Flk) : ¬Flk.unlck.Conflict b := by cases b <;> decide

/-- A system call that is granted sets the bytes of its session, and the others have nothing against it. -/
theorem ApSt.setlk_some (h : st.setlk i typ start len = some st') :
    st' = { st with held := Function.update st.held i fun b => if InRange start len b then typ else st.held i b } ∧
      (typ = .unlck ∨ Grantable st.held i typ start len) := by
  unfold ApSt.setlk Db3w.setlk at h
  split_ifs at h with hg
  · cases h
    exact ⟨rfl, hg.imp_right of_decide_eq_true⟩
  · cases h

theorem ApSt.setlk_unlck (st : ApSt ι) (i : ι) (start len : Nat) :
    st.setlk i .unlck start len = some { st with held := Function.update st.held i fun b => if InRange start len b then .unlck else st.held i b } := by
  unfold ApSt.setlk Db3w.setlk
  rw [if_pos (Or.inl rfl)]
  rfl

omit [DecidableEq ι] [Fintype ι] in
/-- The bytes of session `i` after a call agree with those of the others. -/
theorem AppInv.compat_set (hi : AppInv g n st) (hg : typ = .unlck ∨ Grantable st.held i typ start len) (hlen : typ = .unlck ∨ len ≠ 0) (hj : j ≠ i) (b : Nat) :
    ¬(if InRange start len b then typ else st.held i b).Conflict (st.held j b) := by
  split_ifs with hb
  · rcases hg with rfl | hg
    · exact Flk.not_conflict_unlck _
    · rcases hlen with rfl | hlen
      · exact Flk.not_conflict_unlck _
      · obtain ⟨k, rfl⟩ := Nat.exists_eq_add_of_le hb.1
        exact hg j hj k (by have := hb.2; omega)
  · exact hi.compat i j hj.symm b

omit [Fintype ι] in
/-- A step that changes only the session and its locks. -/
theorem AppInv.session (hi : AppInv g n st) (hc : ∀ j ≠ i, ∀ b, ¬(h b).Conflict (st.held j b)) (hl : LockOK g h s.lock)
    (hb : s.pc.Busy → BusyOK g st.count st.recs i h s) : AppInv g n ({ st with held := Function.update st.held i h }.put i s) := by
  unfold ApSt.put
  refine ⟨⟨hi.kept.count, hi.kept.own, hi.kept.kept, hi.kept.old⟩, fun a b hab x => ?_, fun a => ?_, fun a ha => ?_⟩
  · dsimp only
    by_cases hai : a = i
    · subst hai
      rw [Function.update_self, Function.update_of_ne hab.symm]
      exact hc b hab.symm x
    · rw [Function.update_of_ne hai]
      by_cases hbi : b = i
      · subst hbi
        rw [Function.update_self, Flk.conflict_comm]
        exact hc a hai x
      · rw [Function.update_of_ne hbi]
        exact hi.compat a b hab x
  · dsimp only
    by_cases hai : a = i
    · subst hai
      rw [Function.update_self, Function.update_self]
      exact hl
    · rw [Function.update_of_ne hai, Function.update_of_ne hai]
      exact hi.lock a
  · dsimp only at ha ⊢
    by_cases hai : a = i
    · subst hai
      rw [Function.update_self] at ha
      rw [Function.update_self, Function.update_self]
      exact hb ha
    · rw [Function.update_of_ne hai] at ha
      rw [Function.update_of_ne hai, Function.update_of_ne hai]
      exact hi.busy a ha

omit [Fintype ι] in
/-- The same without a system call. -/
theorem AppInv.put (hi : AppInv g n st) (hl : LockOK g (st.held i) s.lock) (hb : s.pc.Busy → BusyOK g st.count st.recs i (st.held i) s) :
    AppInv g n (st.put i s) := by
  have := hi.session (h := st.held i) (fun j hj => hi.compat i j hj.symm) hl hb
  rwa [Function.update_eq_self] at this

omit [Fintype ι] in
/-- Two sessions are never busy at the same time. -/
theorem AppInv.busy_unique (hi : AppInv g n st) (h1 : (st.sess i).pc.Busy) (h2 : (st.sess j).pc.Busy) : i = j := by
  by_contra hne
  have b1 := hi.busy i h1
  have b2 := hi.busy j h2
  have hin := g.inRec_offset (st.count + 1)
  refine hi.compat i j hne (g.offset (st.count + 1)) ?_
  rw [b1.held _ (by rw [b1.crntrec]; exact hin), b2.held _ (by rw [b2.crntrec]; exact hin)]
  decide

theorem LockOK.of_eq {held held' : Nat → Flk} {lk : Lock} (h : LockOK g held lk) (he : ∀ b, g.doffset ≤ b → held' b = held b) : LockOK g held' lk := by
  refine h.imp_right fun h => ⟨h.1, h.2.1, fun b hb => ?_⟩
  rw [he b ((Nat.le_add_left _ _).trans (g.inRec_iff.1 hb).1)]
  exact h.2.2 b hb

omit [DecidableEq ι] [Fintype ι] in
theorem readFixed_lock (st : ApSt ι) (size : Nat) (s : Sess) : (readFixed st size s).lock = s.lock := by
  unfold readFixed
  dsimp only
  split_ifs <;> rfl

theorem hdrszOf_le (id : Nat) : hdrszOf id ≠ 0 ∧ hdrszOf id ≤ HDRSZ := by
  unfold hdrszOf
  split_ifs <;> decide

theorem not_inRange_hdr {size b : Nat} (h0 : size ≠ 0) (h : size ≤ b) : ¬InRange 0 size b := by
  rintro ⟨-, h' | h'⟩ <;> omega

/-- A record lock that is given up leaves the session without a remembered lock, or with the one it had. -/
theorem AppInv.unlock (hi : AppInv g n st) (hl : s.lock.type = (st.sess i).lock.type ∧ s.lock.recno = (st.sess i).lock.recno) (recno : Nat)
    (pc : ApPc) (hpc : ¬pc.Busy) :
    AppInv g n (((st.rLock g i s recno .unlck).getD (st, s)).1.put i { ((st.rLock g i s recno .unlck).getD (st, s)).2 with pc }) := by
  have hlock : LockOK g (st.held i) s.lock := by
    unfold LockOK
    rw [hl.1, hl.2]
    exact hi.lock i
  unfold ApSt.rLock
  split_ifs
  · exact hi.put hlock fun h => absurd h hpc
  · exact hi.put hlock fun h => absurd h hpc
  · rw [show RecReq.unlck.flk = .unlck from rfl, ApSt.setlk_unlck, Option.map_some, Option.getD_some]
    exact hi.session (fun j hj => hi.compat_set (Or.inl rfl) (Or.inl rfl) hj) (Or.inl rfl) fun h => absurd h hpc
  · contradiction

/-- A session that takes the lock of the record after the last one becomes busy. -/
theorem AppInv.etofClear (hi : AppInv g n st) (hs : ¬Stale g st i) (hpc : (st.sess i).pc = .etofClear) : AppInv g n (apStep g st i) := by
  have hlock := hi.lock i
  unfold apStep ApSt.rLock
  unfold Stale at hs
  simp only [hpc, true_and, not_and_or, not_or, Nat.succ_ne_zero, if_false] at hs ⊢
  by_cases hl : isRecLocked (st.sess i).lock ((st.sess i).reccnt + 1) .wrlck = true
  · have hcnt : (st.sess i).reccnt = st.count := by_contra fun h => hs.elim (fun h' => h' h) fun h' => h'.1 hl
    have hw : (st.sess i).lock.recno = (st.sess i).reccnt + 1 ∧ ∀ b, g.InRec (st.sess i).lock.recno b → st.held i b = .wrlck := by
      unfold isRecLocked at hl
      rcases hlock with h | ⟨h, h0, hb⟩
      · simp [h] at hl
      · simp only [h, h0] at hl
        exact ⟨by simpa using hl, hb⟩
    rw [show RecReq.wrlck.typ = .wrlck from rfl, if_pos hl]
    refine hi.put hlock fun _ => ⟨by rw [hcnt], ?_, ?_, fun h => absurd rfl h⟩
    · rw [← hw.1]
      exact hw.2
    · rw [if_pos (Or.inl rfl), hcnt]
  · rw [show RecReq.wrlck.typ = .wrlck from rfl, if_neg hl]
    rcases hset : st.setlk i RecReq.wrlck.flk (g.offset ((st.sess i).reccnt + 1)) g.byprec with _ | st'
    · exact hi.put hlock (by rintro (h | h | h | h) <;> cases h)
    · obtain ⟨rfl, hg⟩ := ApSt.setlk_some hset
      have hg' := hg.resolve_left (by decide)
      have hcnt : (st.sess i).reccnt = st.count := by_contra fun h => hs.elim (fun h' => h' h) fun h' => h'.2 hg'
      have hin : ∀ b, g.InRec ((st.sess i).reccnt + 1) b →
          (if InRange (g.offset ((st.sess i).reccnt + 1)) g.byprec b then Flk.wrlck else st.held i b) = .wrlck := fun b hb => if_pos hb
      refine hi.session (fun j hj => hi.compat_set hg (Or.inr g.pos.ne') hj) (Or.inr ⟨rfl, Nat.succ_ne_zero _, hin⟩) fun _ =>
        ⟨by rw [hcnt], hin, ?_, fun h => absurd rfl h⟩
      rw [if_pos (Or.inl rfl), hcnt]

omit [Fintype ι] in
/-- A busy session may change the records and the count, as no other session is busy. -/
theorem AppInv.alone {recs : Nat → Option ι} {count : Nat} {done : List (ι × Nat)} (hi : AppInv g n st) (hp : (st.sess i).pc.Busy)
    (hk : AppendsKept n { st with recs, count, done }) (hl : s.lock = (st.sess i).lock)
    (hb : s.pc.Busy → BusyOK g count recs i (st.held i) s) : AppInv g n ({ st with recs, count, done }.put i s) := by
  unfold ApSt.put
  refine ⟨⟨hk.count, hk.own, hk.kept, hk.old⟩, hi.compat, fun a => ?_, fun a ha => ?_⟩
  · dsimp only
    by_cases hai : a = i
    · subst hai
      rw [Function.update_self, hl]
      exact hi.lock a
    · rw [Function.update_of_ne hai]
      exact hi.lock a
  · dsimp only at ha ⊢
    by_cases hai : a = i
    · subst hai
      rw [Function.update_self] at ha ⊢
      exact hb ha
    · rw [Function.update_of_ne hai] at ha
      exact absurd (hi.busy_unique ha hp) hai

theorem AppInv.recLocked (hi : AppInv g n st) (hpc : (st.sess i).pc = .recLocked) : AppInv g n (apStep g st i) := by
  have hb := hi.busy i (Or.inl hpc)
  have hcnt := hi.kept.count
  have hne : ∀ r, r ≤ st.count → r ≠ (st.sess i).crntrec := fun r hr => by
    rw [hb.crntrec]
    omega
  unfold apStep
  simp only [hpc]
  refine hi.alone (Or.inl hpc) ⟨hcnt, hi.kept.own, fun a ha => ?_, fun r hr => ?_⟩ rfl fun _ => ⟨hb.crntrec, hb.held, ?_, fun _ => Function.update_self _ _ _⟩
  · obtain ⟨h1, h2, h3⟩ := hi.kept.kept a ha
    exact ⟨h1, h2, (Function.update_of_ne (hne _ h2) _ _).trans h3⟩
  · exact (Function.update_of_ne (hne r (by omega)) _ _).trans (hi.kept.old r hr)
  · have := hb.reccnt
    rw [hpc, if_pos (Or.inl rfl)] at this
    rw [if_pos (Or.inr rfl), this]

omit [DecidableEq ι] [Fintype ι] in
theorem BusyOK.counted {count : Nat} {recs : Nat → Option ι} (hb : BusyOK g count recs i h s) (hpc : s.pc = .counted ∨ s.pc = .endMarked) :
    s.reccnt = count + 1 := by
  rw [hb.reccnt, if_neg]
  rcases hpc with hpc | hpc <;> rw [hpc] <;> rintro (h | h) <;> cases h

theorem AppInv.counted (hi : AppInv g n st) (hpc : (st.sess i).pc = .counted) : AppInv g n (apStep g st i) := by
  have hbusy : (st.sess i).pc.Busy := Or.inr (Or.inr (Or.inl hpc))
  have hb := hi.busy i hbusy
  have hcnt := hb.counted (Or.inl hpc)
  unfold apStep
  simp only [hpc]
  rw [hcnt]
  refine hi.alone hbusy ⟨hi.kept.count, hi.kept.own, fun a ha => ?_, fun r hr => ?_⟩ rfl fun _ => ⟨hb.crntrec, hb.held, ?_, fun _ => ?_⟩
  · obtain ⟨h1, h2, h3⟩ := hi.kept.kept a ha
    exact ⟨h1, h2, (if_pos (by omega)).trans h3⟩
  · dsimp only
    rw [hi.kept.old r hr, ite_self]
  · rw [if_neg (by rintro (h | h) <;> cases h)]
  · refine (if_pos ?_).trans (hb.written (by rw [hpc]; decide))
    exact hb.crntrec.le

theorem AppInv.endMarked (hi : AppInv g n st) (hpc : (st.sess i).pc = .endMarked) : AppInv g n (apStep g st i) := by
  have hbusy : (st.sess i).pc.Busy := Or.inr (Or.inr (Or.inr hpc))
  have hb := hi.busy i hbusy
  have hcnt := hb.counted (Or.inr hpc)
  have hn := hi.kept.count
  unfold apStep
  simp only [hpc]
  rw [hcnt]
  refine hi.alone hbusy ⟨?_, ?_, fun a ha => ?_, hi.kept.old⟩ rfl (by rintro (h | h | h | h) <;> cases h)
  · rw [List.length_cons, hn]
    rfl
  · rw [List.map_cons, List.nodup_cons]
    refine ⟨fun hm => ?_, hi.kept.own⟩
    obtain ⟨a, ha, hr⟩ := List.mem_map.1 hm
    have := (hi.kept.kept a ha).2.1
    rw [hr, hb.crntrec] at this
    omega
  · rcases List.mem_cons.1 ha with rfl | ha
    · refine ⟨?_, hb.crntrec.le, hb.written (by rw [hpc]; decide)⟩
      rw [hb.crntrec]
      omega
    · obtain ⟨h1, h2, h3⟩ := hi.kept.kept a ha
      exact ⟨h1, h2.trans (Nat.le_succ _), h3⟩

/-- **One step** of a session that is not given a lock on a stale count. -/
theorem AppInv.step (hd : HDRSZ ≤ g.doffset) (hi : AppInv g n st) (hs : ¬Stale g st i) : AppInv g n (apStep g st i) := by
  have hlock := hi.lock i
  have hbusy := hi.busy i
  cases hpc : (st.sess i).pc with
  | etofClear => exact hi.etofClear hs hpc
  | hdrRead =>
    unfold apStep
    simp only [hpc]
    exact hi.unlock ⟨rfl, rfl⟩ _ .etofClear (by rintro (h | h | h | h) <;> cases h)
  | recLocked => exact hi.recLocked hpc
  | counted => exact hi.counted hpc
  | endMarked => exact hi.endMarked hpc
  | idle =>
    unfold apStep
    simp only [hpc]
    exact hi.put hlock (by split_ifs <;> rintro (h | h | h | h) <;> cases h)
  | hdrTry k =>
    unfold apStep
    simp only [hpc]
    obtain ⟨h0, hle⟩ := hdrszOf_le (st.sess i).id
    rcases hset : st.setlk i .rdlck 0 (hdrszOf (st.sess i).id) with _ | st'
    · exact hi.put hlock (by split_ifs <;> rintro (h | h | h | h) <;> cases h)
    · obtain ⟨rfl, hg⟩ := ApSt.setlk_some hset
      refine hi.session (fun j hj => hi.compat_set hg (Or.inr h0) hj) (hlock.of_eq fun b hb => if_neg (not_inRange_hdr h0 ?_)) (by
        rintro (h | h | h | h) <;> cases h)
      exact (hle.trans hd).trans hb
  | hdrLocked =>
    unfold apStep
    simp only [hpc]
    exact hi.put (by rw [readFixed_lock]; exact hlock) (by rintro (h | h | h | h) <;> cases h)
  | recWritten =>
    unfold apStep
    simp only [hpc]
    have hb := hbusy (Or.inr (Or.inl hpc))
    refine hi.put hlock fun _ => ⟨hb.crntrec, hb.held, ?_, fun _ => hb.written (by rw [hpc]; decide)⟩
    have := hb.reccnt
    rw [hpc, if_pos (Or.inr rfl)] at this
    rw [if_neg (by rintro (h | h) <;> cases h), this]
  | hdrWritten =>
    unfold apStep
    simp only [hpc]
    exact hi.unlock (s := { st.sess i with lock := { (st.sess i).lock with mode := 0 }, pc := .hdrWritten }) ⟨rfl, rfl⟩ _ .recUnlocked (by
      rintro (h | h | h | h) <;> cases h)
  | recUnlocked =>
    unfold apStep
    simp only [hpc]
    split_ifs with hf
    · rw [ApSt.setlk_unlck, Option.getD_some]
      refine hi.session (fun j hj => hi.compat_set (Or.inl rfl) (Or.inl rfl) hj) (hlock.of_eq fun b hb => if_neg (not_inRange_hdr (by decide) ?_)) (by
        rintro (h | h | h | h) <;> cases h)
      exact (show HD3SZ ≤ HDRSZ by decide).trans (hd.trans hb)
    · exact hi.put hlock (by rintro (h | h | h | h) <;> cases h)
  | failed =>
    unfold apStep
    simp only [hpc]
    rw [ApSt.setlk_unlck, Option.getD_some]
    exact hi.session (fun j hj => hi.compat_set (Or.inl rfl) (Or.inl rfl) hj) (Or.inl rfl) (by rintro (h | h | h | h) <;> cases h)

end Step

omit [DecidableEq ι] [Fintype ι] in
theorem appInv_start (g : RecGeom) (id n : Nat) (cnt crnt : ι → Nat) : AppInv g n (apStart ι id n cnt crnt) where
  kept := ⟨rfl, List.nodup_nil, fun _ ha => absurd ha List.not_mem_nil, fun _ _ => rfl⟩
  compat _ _ _ _ := Flk.not_conflict_unlck _
  lock _ := Or.inl rfl
  busy _ := by rintro (h | h | h | h) <;> cases h

/-- **Appends are kept** in every run in which no session is given the lock of a record on a stale count. -/
theorem appends_kept {g : RecGeom} {id n : Nat} {cnt crnt : ι → Nat} {sched : List ι} (hd : HDRSZ ≤ g.doffset)
    (hs : Runs.Along (apStep g) (fun st i => ¬Stale g st i) sched (apStart ι id n cnt crnt)) :
    AppendsKept n (apRun g sched (apStart ι id n cnt crnt)) :=
  (hs.inv (I := AppInv g n) (fun _ _ hi h => hi.step hd h) (appInv_start g id n cnt crnt)).kept

/-- Records of two bytes. -/
def twoBytes : RecGeom := ⟨2, 65, by decide⟩

/-- The third session reads the count before the first one appends record 1; the second one takes the
lock of record 2; the first one fails to get it, and its error is cleared; the third one goes on. -/
def clearedRun : List (Fin 3) :=
  [2, 2, 2] ++ [0, 0, 0, 0, 0, 0, 0, 0, 0, 0, 0] ++ [1, 1, 1, 1, 1] ++ [0, 0, 0, 0, 0, 0] ++ [2, 2, 2, 2, 2, 2]

theorem clearedRun_loses :
    (apRun twoBytes clearedRun (apStart (Fin 3) DB5_MKR 0 (fun _ => 0) fun _ => 0)).done = [(2, 1), (0, 1)] ∧
      (apRun twoBytes clearedRun (apStart (Fin 3) DB5_MKR 0 (fun _ => 0) fun _ => 0)).count = 1 ∧
      ¬AppendsKept 0 (apRun twoBytes clearedRun (apStart (Fin 3) DB5_MKR 0 (fun _ => 0) fun _ => 0)) := by
  have hdone : (apRun twoBytes clearedRun (apStart (Fin 3) DB5_MKR 0 (fun _ => 0) fun _ => 0)).done = [(2, 1), (0, 1)] := by decide +kernel
  refine ⟨hdone, by decide +kernel, fun h => ?_⟩
  have := h.own
  rw [hdone] at this
  exact absurd this (by decide)

/-- The second session reads the count when the first one has written it, and goes on while the first one ends its append. -/
def secondRun : List (Fin 2) := [0, 0, 0, 0, 1, 1, 0, 0, 0, 0, 0] ++ [1, 0, 1, 0, 1, 1, 1, 1, 1, 1, 1]

theorem appends_kept_second : AppendsKept 3 (apRun twoBytes secondRun (apStart (Fin 2) DB5_MKR 3 (fun _ => 3) fun _ => 1)) :=
  appends_kept (by decide) (by decide +kernel)

end Db3w
