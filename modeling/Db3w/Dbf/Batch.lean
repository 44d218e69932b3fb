/-
Records in batches (sys.c, hbapi.c). The engine packs a reply of as many records as the auxiliary buffer
holds, each behind its number, and skips behind each. The client takes the reply apart. It could have
asked for every record on its own: its number, its bytes, and a SKIP. There are eight bytes for a record
number in the reply; four of them are written and read.
-/
import Db3w.Dbf.Returns
import Db3w.Dbf.SkipRel

namespace Db3w.Nav

open Bytes Outcome

def MAXBUFSZ : Nat := 65536
/-- The room for a record number. -/
def RECNOSZ : Nat := 8

/-- What the commands depend on: how deep calls may go, the length of a record, its bytes, whether it is
locked, which the state tells, and what the auxiliary buffer holds. -/
structure Source where
  env : Env
  fuel : Nat
  byprec : Nat
  image : Recno → List UInt8
  length_image : ∀ recno, (image recno).length = byprec
  locked : World → Bool

/-! ## The calls -/

section Calls

variable (src : Source)

/-- `get_db_rec`: a record that others may change is read again. -/
def getDbRec : NavM (List UInt8) := do
  let w ← get
  if w.cur.etof none then throw .outOfRange
  if !w.cur.exclusive && !src.locked w then modifyCur fun a => a.gorec a.crntrec
  return src.image (← get).cur.buf

/-- `dbe_get_recno`; both halves of the number are sent. -/
def dbeGetRecno : NavM Recno := do
  validChk
  return (← get).cur.crntrec

/-- `dbe_get_rec`, without a skip; at an end of the table there is none. -/
def dbeGetRec : NavM (Option (List UInt8)) := do
  validChk
  if (← get).cur.etof none then return none
  return some (← getDbRec src)

/-- `dbe_skip` by one record. -/
def dbeSkip (dir : Dir) : NavM Unit := do
  let _ ← skip src.env src.fuel (if dir = .forward then 1 else -1)

/-- One record after the other, until the end of the table. -/
def oneByOne (dir : Dir) : Nat → NavM (List (Recno × Option (List UInt8)))
  | 0 => return []
  | n + 1 => do
    if (← get).cur.etof (some dir) then return []
    let recno ← dbeGetRecno
    let data ← dbeGetRec src
    dbeSkip src dir
    return (recno, data) :: (← oneByOne dir n)

/-- The number of records in a batch. -/
def batchSize (n : Int) : Nat := min (MAXBUFSZ / (src.byprec + RECNOSZ)) n.toNat

/-- The loop of `DBE_GET_REC_BATCH` at `rp` in the buffer, which holds `stale`: how many records it packs, and
the bytes from there on. -/
def packBatch (dir : Dir) (stale : Nat → UInt8) : Nat → Nat → NavM (Nat × List UInt8)
  | 0, _ => return (0, [])
  | nrec + 1, rp => do
    let w ← get
    if w.cur.etof (some dir) then return (0, [])
    -- `put_recno` writes a double word
    let recno := word 4 w.cur.crntrec ++ [stale (rp + 4), stale (rp + 5), stale (rp + 6), stale (rp + 7)]
    let data ← getDbRec src
    dbeSkip src dir
    let r ← packBatch dir stale nrec (rp + src.byprec + RECNOSZ)
    return (r.1 + 1, recno ++ (data ++ r.2))

/-- The loop of `dbe_get_rec_batch` over `n` records. -/
def unpack (recsiz : Nat) : Nat → List UInt8 → List (Recno × List UInt8)
  | 0, _ => []
  | n + 1, rp => (readWord 4 rp, (rp.drop RECNOSZ).take recsiz) :: unpack recsiz n (rp.drop (recsiz + RECNOSZ))

/-- `dbe_get_rec_batch`, with what the engine does for it. -/
def dbeGetRecBatch (stale : Nat → UInt8) (n : Int) (dir : Dir) : NavM (List (Recno × List UInt8)) := do
  validChk
  let (dx, bx) ← packBatch src dir stale (batchSize src n) 0
  if bx.length > 0 then return unpack src.byprec dx bx
  return []

/-- The numbers of the records that repeated skips go through. -/
def tour (dir : Dir) : Nat → NavM (List Recno)
  | 0 => return []
  | n + 1 => do
    let w ← get
    if w.cur.etof (some dir) then return []
    if !w.cur.etof none && !w.cur.exclusive && !src.locked w then modifyCur fun a => a.gorec a.crntrec
    dbeSkip src dir
    return w.cur.crntrec :: (← tour dir n)

end Calls

/-- A position of the cursor: a record, or an end of the table. -/
structure Position where
  world : World
  valid : world.cur.etof none = true ∨ world.cur.reccnt = 0 ∨ world.cur.crntrec ≠ 0

/-- Whenever the records can be had one by one, the batch has the same ones, and leaves the cursor and all
else in the same state, whatever was in the buffer. -/
def BatchRight (src : Source) (p : Position) (n : Int) (dir : Dir) : Prop :=
  ∀ l w, oneByOne src dir (batchSize src n) p.world = .ok l w → ∀ stale, ∃ batch,
    dbeGetRecBatch src stale n dir p.world = .ok batch w ∧ l = batch.map fun r => (r.1, some r.2)

/-! ## What a run leaves behind -/

/-- What holds after a run that does not fail. -/
abbrev Ends {α : Type} (f : NavM α) (w : World) (Q : α → World → Prop) : Prop := Ensures (fun _ => True) f w Q

section Ends

variable {α : Type}

theorem onStack_cur (f : Hb.Stack → Except Hb.HbErr (α × Hb.Stack)) (w : World) : Ends (onStack f) w fun _ w' => w'.cur = w.cur :=
  ensures_onStack (fun _ _ => trivial) fun _ _ _ => rfl

/-- Whatever is done in the related table. -/
theorem inRela_cur (f : NavM α) (w : World) : Ends (inRela f) w fun _ w' => w'.cur = w.cur :=
  ensures_inRela trivial fun _ _ _ => ensures_iff.2 ⟨fun _ _ _ => rfl, fun _ _ _ => trivial⟩

/-- Work on the index changes nothing else. -/
theorem onIndex_cur (env : Env) (f : Cfg → NdxM α) (w : World) :
    Ends (onIndex env f) w fun _ w' => ∃ st, w'.cur = { w.cur with order := st } :=
  ensures_onIndex (fun _ _ => trivial) fun _ _ _ _ _ => ⟨_, rfl⟩

end Ends

/-! ## Where a skip ends -/

/-- The cursor may go on in a direction: it is at that end if it is at one, and else at a record. -/
structure Ready (dir : Dir) (a : Area) : Prop where
  ends : a.etof none = true → a.etof (some dir) = true
  valid : a.etof none = true ∨ a.reccnt = 0 ∨ a.crntrec ≠ 0

section Skip

variable {env : Env} {fuel : Nat} {dir : Dir} {w : World} {a : Area}

theorem Ready.congr {a' : Area} (h : Ready dir a) (he : a'.eof = a.eof) (ht : a'.tof = a.tof) (hr : a'.reccnt = a.reccnt) (hc : a'.crntrec = a.crntrec) :
    Ready dir a' := by
  obtain ⟨h1, h2⟩ := h
  constructor
  · cases dir <;> simpa only [Area.etof, he, ht] using h1
  · simpa only [Area.etof, he, ht, hr, hc] using h2

/-- The related tables move, and not the table itself. -/
theorem goRel_cur (fuel : Nat) (w : World) : Ends (goRel env fuel) w fun _ w' => w'.cur = w.cur := by
  cases fuel with
  | zero =>
    rw [goRel]
    exact ensures_throw trivial
  | succ fuel =>
    rw [goRel]
    apply Ensures.bind
    apply ensures_get
    apply ensures_ite
    · intro _
      exact ensures_pure rfl
    intro _
    apply ensures_ite
    · intro _
      apply Ensures.bind
      refine (inRela_cur _ w).mono fun _ w' h => ?_
      exact ensures_pure h
    intro _
    apply Ensures.bind
    refine (onStack_cur _ w).mono fun _ w1 h1 => ?_
    exact (inRela_cur _ w1).mono fun _ w2 h2 => h2.trans h1

theorem skipRel_cur (fuel : Nat) (w : World) :
    Ends (skipRel env fuel dir) w fun _ w' => w'.cur = w.cur := by
  cases fuel with
  | zero =>
    rw [skipRel]
    exact ensures_throw trivial
  | succ fuel =>
    rw [skipRel]
    apply Ensures.bind
    apply ensures_get
    apply ensures_ite
    · intro _
      exact ensures_pure rfl
    intro _
    apply Ensures.bind
    refine (onStack_cur _ w).mono fun _ w1 h1 => ?_
    exact (inRela_cur _ w1).mono fun _ w2 h2 => h2.trans h1

theorem ready_goNext (w : World) (dir : Dir) (crntr : Recno) : Ready dir (w.goNext dir crntr).cur := by
  unfold World.goNext
  dsimp only
  generalize hw : (if crntr = 0 then w.setetof (some dir) else if w.cur.reccnt < crntr then w.setetof (some .forward) else w) = w1
  by_cases hend : w1.cur.etof (some dir) = true
  · rw [if_pos hend]
    have hnone : w1.cur.etof none = true := by
      cases dir <;> simp_all [Area.etof]
    exact ⟨fun _ => hend, .inl hnone⟩
  · rw [if_neg hend]
    have hpos : crntr ≠ 0 := by
      rintro rfl
      rw [if_pos rfl] at hw
      subst hw
      apply hend
      cases dir <;> rfl
    constructor
    · intro h
      cases dir <;> simp_all [Area.etof, Area.clretof, Area.gorec]
    · exact .inr (.inr hpos)

theorem next_ready : ∀ fuel w, Ends (next env fuel dir) w (fun _ w' => Ready dir w'.cur) ∧
    (Ready dir w.cur → Ends (nextRel env fuel dir) w fun _ w' => Ready dir w'.cur) := by
  intro fuel
  induction fuel with
  | zero =>
    intro w
    rw [next, nextRel]
    exact ⟨ensures_throw trivial, fun _ => ensures_throw trivial⟩
  | succ fuel ih =>
    intro w
    constructor
    · rw [next]
      apply Ensures.bind
      apply ensures_modify
      apply Ensures.bind
      refine ensures_of_ok fun crntr w1 _ => ?_
      apply Ensures.bind
      apply ensures_modify
      exact (ih _).2 (ready_goNext w1 dir crntr)
    · intro hw
      rw [nextRel]
      apply Ensures.bind
      refine (goRel_cur fuel w).mono fun b w1 h1 => ?_
      apply ensures_ite
      · intro _
        exact ensures_pure (by rwa [h1])
      · intro _
        apply Ensures.bind
        exact (ih w1).1.mono fun _ w2 h2 => (ih w2).2 h2

theorem settle_ready : ∀ fuel w, Ready dir w.cur → Ends (settle env fuel dir) w fun _ w' => Ready dir w'.cur := by
  intro fuel
  induction fuel with
  | zero =>
    intro w _
    rw [settle]
    exact ensures_throw trivial
  | succ fuel ih =>
    intro w hw
    rw [settle]
    apply Ensures.bind
    apply ensures_get
    apply ensures_ite
    · intro _
      exact ensures_pure hw
    intro _
    apply ensures_ite
    · intro _
      apply Ensures.bind
      exact (next_ready fuel w).1.mono fun _ w1 h1 => ih w1 h1
    · intro _
      apply Ensures.bind
      refine (goRel_cur fuel w).mono fun b w1 h1 => ?_
      have hw1 : Ready dir w1.cur := by rwa [h1]
      apply ensures_ite
      · intro _
        exact ensures_pure hw1
      · intro _
        exact ih w1 hw1

/-- The end of `gotop` and `gobot`, from both ends or from a record. -/
theorem ready_land (hw : w.cur.eof = w.cur.tof) (recno : Recno) :
    Ends (if recno = 0 then setetof none >>= fun _ => settle env fuel dir else modifyCur (·.gorec recno) >>= fun _ => settle env fuel dir) w
      fun _ w' => Ready dir w'.cur := by
  apply ensures_ite
  · intro _
    apply Ensures.bind
    apply ensures_modify
    apply settle_ready
    constructor
    · intro _
      cases dir <;> rfl
    · exact .inl rfl
  · intro h0
    apply Ensures.bind
    apply ensures_modify
    apply settle_ready
    have hgo : w.cur.gorec recno = { w.cur with buf := recno, crntrec := recno } := if_neg h0
    dsimp only
    rw [hgo]
    constructor
    · intro h
      cases dir <;> simp_all [Area.etof]
    · exact .inr (.inr h0)

theorem gotop_ready (fuel : Nat) (w : World) : Ends (gotop env fuel) w fun _ w' => Ready .forward w'.cur := by
  unfold gotop
  apply Ensures.bind
  apply ensures_modify
  apply Ensures.bind
  apply ensures_get
  dsimp only
  apply ensures_ite
  · intro _
    apply Ensures.bind
    apply Ensures.bind
    apply ensures_modify
    apply ensures_pure
    exact ready_land rfl _
  intro _
  apply ensures_ite
  · intro _
    apply Ensures.bind
    apply Ensures.bind
    refine Ensures.mono (onIndex_cur _ _ _) ?_
    rintro (_ | recno) w1 ⟨st, h1⟩
    · apply Ensures.bind
      apply ensures_modify
      apply ensures_pure
      exact ready_land rfl _
    · apply ensures_pure
      exact ready_land (by rw [h1]; rfl) _
  · intro _
    apply Ensures.bind
    apply ensures_pure
    exact ready_land rfl _

theorem gobot_ready (fuel : Nat) (w : World) : Ends (gobot env fuel) w fun _ w' => Ready .backward w'.cur := by
  unfold gobot
  apply Ensures.bind
  apply ensures_modify
  apply Ensures.bind
  apply ensures_get
  dsimp only
  apply ensures_ite
  · intro _
    apply Ensures.bind
    apply Ensures.bind
    refine Ensures.mono (onIndex_cur _ _ _) ?_
    rintro (_ | recno) w1 ⟨st, h1⟩
    · apply Ensures.bind
      apply ensures_modify
      apply ensures_pure
      exact ready_land rfl _
    · apply ensures_pure
      exact ready_land (by rw [h1]; rfl) _
  · intro _
    apply Ensures.bind
    apply ensures_pure
    exact ready_land rfl _

theorem skipLoop_ready : ∀ fuel n w, Ready dir w.cur → Ends (skipLoop env fuel dir n) w fun _ w' => Ready dir w'.cur := by
  intro fuel
  induction fuel with
  | zero =>
    intro n w _
    rw [skipLoop]
    exact ensures_throw trivial
  | succ fuel ih =>
    intro n w hw
    cases n with
    | zero =>
      rw [skipLoop]
      exact ensures_pure hw
    | succ n =>
      rw [skipLoop]
      apply Ensures.bind
      refine (skipRel_cur fuel w).mono fun _ w1 h1 => ?_
      apply ensures_ite
      · intro _
        exact ih n w1 (by rwa [h1])
      intro _
      apply Ensures.bind
      refine (next_ready fuel w1).1.mono fun _ w2 h2 => ?_
      apply Ensures.bind
      apply ensures_get
      apply ensures_ite
      · intro _
        exact ensures_pure h2
      intro _
      apply ensures_ite
      · intro _
        exact ih (n + 1) w2 h2
      · intro _
        exact ih n w2 h2

/-- A skip by one record ends where it can go on, or is at its end. -/
theorem dbeSkip_ready (src : Source) (dir : Dir) (w : World)
    (hw : w.cur.etof none = true ∨ w.cur.reccnt = 0 ∨ w.cur.crntrec ≠ 0) (hend : w.cur.etof (some dir) = false) :
    Ends (dbeSkip src dir) w fun _ w' => Ready dir w'.cur := by
  unfold dbeSkip skip
  apply Ensures.bind
  rw [if_neg (by cases dir <;> decide)]
  have hdir : (if 0 < (if dir = .forward then 1 else -1 : Int) then Dir.forward else .backward) = dir := by cases dir <;> rfl
  have hcount : (if dir = .forward then 1 else -1 : Int).natAbs = 1 := by cases dir <;> rfl
  dsimp only
  rw [hdir, hcount]
  apply Ensures.bind
  apply ensures_get
  have hrest : ∀ w1 : World, Ready dir w1.cur → Ends (do
      if (← get).cur.etof none then return 0
      return 1 - (← skipLoop src.env src.fuel dir (1 - 1)) : NavM Nat) w1 fun _ w' => Ends (pure ()) w' fun _ w' => Ready dir w'.cur := by
    intro w1 h1
    apply Ensures.bind
    apply ensures_get
    apply ensures_ite
    · intro _
      exact ensures_pure (ensures_pure h1)
    · intro _
      apply Ensures.bind
      exact (skipLoop_ready src.fuel 0 w1 h1).mono fun _ w2 h2 => ensures_pure (ensures_pure h2)
  apply ensures_ite
  · -- from the other end it goes to the first record of the direction
    intro _
    apply ensures_ite
    · rintro rfl
      apply Ensures.bind
      exact (gotop_ready src.fuel w).mono fun _ w1 h1 => hrest w1 h1
    · intro hdir
      obtain rfl : dir = .backward := by
        cases dir
        · exact absurd rfl hdir
        · rfl
      apply Ensures.bind
      exact (gobot_ready src.fuel w).mono fun _ w1 h1 => hrest w1 h1
  · intro hother
    apply Ensures.bind
    have hready : Ready dir w.cur := by
      refine ⟨?_, hw⟩
      intro hnone
      cases dir <;> simp_all [Area.etof]
    refine (skipLoop_ready src.fuel 1 w hready).mono fun _ w1 h1 => ?_
    exact ensures_pure (ensures_pure h1)

end Skip

/-! ## The steps -/

section Step

variable {src : Source} {dir : Dir} {stale : Nat → UInt8} {w : World} {n rp : Nat}

/-- The state once the record has been read. -/
def World.passed (src : Source) (w : World) : World :=
  if !w.cur.etof none && !w.cur.exclusive && !src.locked w then { w with cur := w.cur.gorec w.cur.crntrec } else w

/-- What is read of it. -/
def World.data (src : Source) (w : World) : Option (List UInt8) :=
  if w.cur.etof none then none else some (src.image (w.passed src).cur.buf)

theorem passed_cur (src : Source) (w : World) : (w.passed src).cur.eof = w.cur.eof ∧ (w.passed src).cur.tof = w.cur.tof ∧
    (w.passed src).cur.reccnt = w.cur.reccnt ∧ (w.passed src).cur.crntrec = w.cur.crntrec := by
  unfold World.passed Area.gorec
  split
  · dsimp only
    split
    · exact ⟨rfl, rfl, rfl, rfl⟩
    · exact ⟨rfl, rfl, rfl, rfl⟩
  · exact ⟨rfl, rfl, rfl, rfl⟩

/-- What `valid_chk` lets through. -/
def Valid (a : Area) : Prop := a.etof none = true ∨ a.reccnt = 0 ∨ a.crntrec ≠ 0

theorem validChk_ok (h : Valid w.cur) : validChk w = .ok () w := by
  unfold validChk
  rw [NavM.bind_ok (NavM.get_apply w), if_neg]
  · rfl
  · rcases h with h | h | h <;> simp [h]

theorem Valid.passed (h : Valid w.cur) : Valid (w.passed src).cur := by
  obtain ⟨he, ht, hr, hc⟩ := passed_cur src w
  simpa only [Valid, Area.etof, he, ht, hr, hc] using h

theorem etof_passed (d : Option Dir) : (w.passed src).cur.etof d = w.cur.etof d := by
  obtain ⟨he, ht, -, -⟩ := passed_cur src w
  rcases d with _ | _ | _ <;> simp only [Area.etof, he, ht]

theorem getDbRec_ok (h : w.cur.etof none = false) : getDbRec src w = .ok (src.image (w.passed src).cur.buf) (w.passed src) := by
  unfold getDbRec World.passed
  rw [NavM.bind_ok (NavM.get_apply w), h]
  simp only [Bool.not_false, Bool.true_and, Bool.false_eq_true, if_false]
  by_cases hread : (!w.cur.exclusive && !src.locked w) = true
  · rw [if_pos hread, if_pos hread]
    rfl
  · rw [if_neg hread, if_neg hread]
    rfl

theorem getDbRec_end (h : w.cur.etof none = true) : getDbRec src w = .error .outOfRange w := by
  unfold getDbRec
  rw [NavM.bind_ok (NavM.get_apply w), h]
  rfl

theorem dbeGetRec_ok (hv : Valid w.cur) : dbeGetRec src w = .ok (w.data src) (w.passed src) := by
  unfold dbeGetRec
  rw [NavM.bind_ok (validChk_ok hv), NavM.bind_ok (NavM.get_apply w)]
  cases h : w.cur.etof none with
  | true =>
    have hsame : w.passed src = w := by
      unfold World.passed
      rw [h]
      rfl
    rw [if_pos rfl, hsame, World.data, h]
    rfl
  | false =>
    rw [if_neg Bool.false_ne_true, NavM.bind_ok (getDbRec_ok h), World.data, h]
    rfl

theorem oneByOne_end (h : w.cur.etof (some dir) = true) : oneByOne src dir n w = .ok [] w := by
  cases n with
  | zero => rfl
  | succ n =>
    rw [oneByOne, NavM.bind_ok (NavM.get_apply w), if_pos h]
    rfl

theorem oneByOne_succ (hv : Valid w.cur) (h : w.cur.etof (some dir) = false) :
    oneByOne src dir (n + 1) w = (do
      dbeSkip src dir
      return (w.cur.crntrec, w.data src) :: (← oneByOne src dir n) : NavM _) (w.passed src) := by
  have hno : dbeGetRecno w = .ok w.cur.crntrec w := by
    unfold dbeGetRecno
    rw [NavM.bind_ok (validChk_ok hv)]
    rfl
  rw [oneByOne, NavM.bind_ok (NavM.get_apply w), h, if_neg Bool.false_ne_true, NavM.bind_ok hno, NavM.bind_ok (dbeGetRec_ok hv)]

theorem tour_end (h : w.cur.etof (some dir) = true) : tour src dir n w = .ok [] w := by
  cases n with
  | zero => rfl
  | succ n =>
    rw [tour, NavM.bind_ok (NavM.get_apply w), if_pos h]
    rfl

theorem tour_succ (h : w.cur.etof (some dir) = false) :
    tour src dir (n + 1) w = (do
      dbeSkip src dir
      return w.cur.crntrec :: (← tour src dir n) : NavM _) (w.passed src) := by
  rw [tour, NavM.bind_ok (NavM.get_apply w), h, if_neg Bool.false_ne_true]
  unfold World.passed
  split
  · rfl
  · rfl

theorem packBatch_end (h : w.cur.etof (some dir) = true) : packBatch src dir stale n rp w = .ok (0, []) w := by
  cases n with
  | zero => rfl
  | succ n =>
    rw [packBatch, NavM.bind_ok (NavM.get_apply w), if_pos h]
    rfl

/-- The bytes of a record number: half of them are written. -/
def recnoBytes (stale : Nat → UInt8) (rp : Nat) (recno : Recno) : List UInt8 :=
  word 4 recno ++ [stale (rp + 4), stale (rp + 5), stale (rp + 6), stale (rp + 7)]

theorem packBatch_succ (h : w.cur.etof (some dir) = false) (hnone : w.cur.etof none = false) :
    packBatch src dir stale (n + 1) rp w = (do
      dbeSkip src dir
      let r ← packBatch src dir stale n (rp + src.byprec + RECNOSZ)
      return (r.1 + 1, recnoBytes stale rp w.cur.crntrec ++ ((w.data src).getD [] ++ r.2)) : NavM _) (w.passed src) := by
  rw [packBatch, NavM.bind_ok (NavM.get_apply w), h, if_neg Bool.false_ne_true]
  rw [NavM.bind_ok (getDbRec_ok hnone), World.data, hnone]
  rfl

/-- At the other end of the table there is no record to pack, and that is an error. -/
theorem packBatch_other (h : w.cur.etof (some dir) = false) (hnone : w.cur.etof none = true) :
    packBatch src dir stale (n + 1) rp w = .error .outOfRange w := by
  rw [packBatch, NavM.bind_ok (NavM.get_apply w), h, if_neg Bool.false_ne_true]
  rw [NavM.bind_apply, getDbRec_end hnone]

end Step

/-! ## Runs -/

section Run

variable {src : Source} {dir : Dir} {stale : Nat → UInt8}

theorem bind_congr_ok {α β : Type} {f : NavM α} {g g' : α → NavM β} {w : World} (h : ∀ a w', f w = .ok a w' → g a w' = g' a w') :
    (f >>= g) w = (f >>= g') w := by
  rw [NavM.bind_apply, NavM.bind_apply]
  cases hf : f w with
  | ok a w' => exact h a w' hf
  | error e w' => rfl

/-- One by one, the records of the tour come. -/
theorem tour_eq (n : Nat) : ∀ w : World, Valid w.cur → tour src dir n w = (do return (← oneByOne src dir n).map Prod.fst : NavM _) w := by
  induction n with
  | zero =>
    intro w _
    rfl
  | succ n ih =>
    intro w hv
    cases h : w.cur.etof (some dir) with
    | true => rw [tour_end h, NavM.bind_ok (oneByOne_end h)]; rfl
    | false =>
      rw [tour_succ h, NavM.bind_apply (oneByOne src dir (n + 1)), oneByOne_succ hv h, ← NavM.bind_apply, bind_assoc]
      refine bind_congr_ok fun _ w1 h1 => ?_
      have hv1 := ((dbeSkip_ready src dir _ hv.passed ((etof_passed _).trans h)).of_ok h1).valid
      rw [NavM.bind_apply, ih w1 hv1, ← NavM.bind_apply, bind_assoc, bind_assoc]
      rfl

/-- The reply for a list of records. -/
def slots (byprec : Nat) (stale : Nat → UInt8) : Nat → List (Recno × Option (List UInt8)) → List UInt8
  | _, [] => []
  | rp, r :: rs => recnoBytes stale rp r.1 ++ (r.2.getD [] ++ slots byprec stale (rp + byprec + RECNOSZ) rs)

/-- The batch packs the records that come one by one, from where it can go on. -/
theorem packBatch_eq (n : Nat) : ∀ (rp : Nat) (w : World), Ready dir w.cur →
    packBatch src dir stale n rp w = (do
      let l ← oneByOne src dir n
      return (l.length, slots src.byprec stale rp l) : NavM _) w := by
  induction n with
  | zero =>
    intro rp w _
    rfl
  | succ n ih =>
    intro rp w hr
    cases h : w.cur.etof (some dir) with
    | true => rw [packBatch_end h, NavM.bind_ok (oneByOne_end h)]; rfl
    | false =>
      have hnone : w.cur.etof none = false := by
        by_contra hne
        rw [hr.ends (by simpa using hne)] at h
        cases h
      rw [packBatch_succ h hnone, NavM.bind_apply (oneByOne src dir (n + 1)), oneByOne_succ hr.valid h, ← NavM.bind_apply, bind_assoc]
      refine bind_congr_ok fun _ w1 h1 => ?_
      have hr1 := (dbeSkip_ready src dir _ (Valid.passed hr.valid) ((etof_passed _).trans h)).of_ok h1
      rw [NavM.bind_apply, ih _ w1 hr1, ← NavM.bind_apply, bind_assoc, bind_assoc]
      rfl

/-- There all of them have their bytes. -/
theorem oneByOne_data (n : Nat) : ∀ w : World, Ready dir w.cur →
    Ends (oneByOne src dir n) w fun l _ => ∀ r ∈ l, ∃ data, r.2 = some data ∧ data.length = src.byprec := by
  induction n with
  | zero =>
    intro w _
    apply ensures_pure
    rintro r hr
    cases hr
  | succ n ih =>
    intro w hr
    refine ensures_of_ok fun l w' hrun => ?_
    cases h : w.cur.etof (some dir) with
    | true =>
      rw [oneByOne_end h] at hrun
      cases hrun
      rintro r hr
      cases hr
    | false =>
      have hnone : w.cur.etof none = false := by
        by_contra hne
        rw [hr.ends (by simpa using hne)] at h
        cases h
      rw [oneByOne_succ hr.valid h] at hrun
      obtain ⟨_, w1, h1, hrun⟩ := NavM.bind_eq_ok hrun
      have hr1 := (dbeSkip_ready src dir _ (Valid.passed hr.valid) ((etof_passed _).trans h)).of_ok h1
      obtain ⟨rs, w2, h2, hrun⟩ := NavM.bind_eq_ok hrun
      cases hrun
      intro r hmem
      rcases List.mem_cons.mp hmem with rfl | hmem
      · rw [World.data, hnone]
        exact ⟨_, rfl, src.length_image _⟩
      · exact (ih w1 hr1).of_ok h2 r hmem

/-- The client takes the records apart again, but of their numbers the low halves. -/
theorem unpack_slots {byprec : Nat} {l : List (Recno × Option (List UInt8))} (h : ∀ r ∈ l, ∃ data, r.2 = some data ∧ data.length = byprec) (rp : Nat) :
    unpack byprec l.length (slots byprec stale rp l) = l.map fun r => (r.1 % 2 ^ 32, r.2.getD []) := by
  induction l generalizing rp with
  | nil => rfl
  | cons r l ih =>
    obtain ⟨data, hdata, hlen⟩ := h r (List.mem_cons_self ..)
    have hword : readWord 4 (slots byprec stale rp (r :: l)) = r.1 % 2 ^ 32 := by
      unfold slots recnoBytes readWord
      rw [List.append_assoc, List.take_left' (length_word 4 r.1), value_word]
      rfl
    have hrec : (recnoBytes stale rp r.1).length = RECNOSZ := by
      unfold recnoBytes
      rw [List.length_append, length_word]
      rfl
    rw [List.length_cons, unpack, hword, slots, hdata, Option.getD_some, List.drop_left' hrec, List.take_left' hlen, ← List.append_assoc,
      List.drop_left' (by rw [List.length_append, hrec, hlen, Nat.add_comm]), ih (fun s hs => h s (List.mem_cons_of_mem _ hs)), List.map_cons, hdata,
      Option.getD_some]

/-- From where it can go on a batch has the records that come one by one, with the low halves of their numbers. -/
theorem dbeGetRecBatch_eq {w : World} (hr : Ready dir w.cur) (n : Int) :
    dbeGetRecBatch src stale n dir w = (do
      let l ← oneByOne src dir (batchSize src n)
      return l.map fun r => (r.1 % 2 ^ 32, r.2.getD []) : NavM _) w := by
  unfold dbeGetRecBatch
  rw [NavM.bind_ok (validChk_ok hr.valid), NavM.bind_apply, packBatch_eq _ _ w hr, ← NavM.bind_apply, bind_assoc]
  refine bind_congr_ok fun l w1 h1 => ?_
  have hdata := (oneByOne_data _ w hr).of_ok h1
  rw [pure_bind]
  dsimp only
  split_ifs with hlen
  · rw [unpack_slots hdata]
  · cases l with
    | nil => rfl
    | cons r l => simp [slots, recnoBytes] at hlen

end Run

/-! ## When a batch is right -/

section Main

variable {src : Source} {p : Position} {n : Int} {dir : Dir}

/-- What a tour has to be like for the batch to be right. -/
def Small (p : Position) (rs : List Recno) : Prop := (rs ≠ [] → p.world.cur.etof none = false) ∧ ∀ recno ∈ rs, recno < 2 ^ 32

theorem small_of_batchRight (hright : BatchRight src p n dir) {rs : List Recno} {w : World}
    (hrun : tour src dir (batchSize src n) p.world = .ok rs w) : Small p rs := by
  rw [tour_eq _ _ p.valid] at hrun
  obtain ⟨l, w1, h1, hrun⟩ := NavM.bind_eq_ok hrun
  cases hrun
  obtain ⟨batch, hbatch, hl⟩ := hright l w h1 fun _ => 0
  by_cases hr : Ready dir p.world.cur
  · rw [dbeGetRecBatch_eq hr, NavM.bind_ok h1] at hbatch
    cases hbatch
    refine ⟨?_, ?_⟩
    · intro hne
      by_contra hnone
      have hend := hr.ends (by simpa using hnone)
      rw [oneByOne_end hend] at h1
      cases h1
      exact hne rfl
    · rintro recno hmem
      obtain ⟨r, hr', rfl⟩ := List.mem_map.mp hmem
      rw [hl, List.mem_map] at hr'
      obtain ⟨s, hs, rfl⟩ := hr'
      obtain ⟨t, -, rfl⟩ := List.mem_map.mp hs
      exact Nat.mod_lt _ (by decide)
  · -- at the other end the batch fails if there is something to pack
    have hnone : p.world.cur.etof none = true ∧ p.world.cur.etof (some dir) = false := by
      by_contra hne
      apply hr
      refine ⟨?_, p.valid⟩
      intro h
      by_contra hend
      exact hne ⟨h, by simpa using hend⟩
    cases hsize : batchSize src n with
    | zero =>
      rw [hsize] at h1
      cases h1
      simp [Small]
    | succ k =>
      unfold dbeGetRecBatch at hbatch
      rw [NavM.bind_ok (validChk_ok p.valid), hsize, NavM.bind_apply, packBatch_other hnone.2 hnone.1] at hbatch
      cases hbatch

theorem batchRight_of_small (hcond : ∀ rs w, tour src dir (batchSize src n) p.world = .ok rs w → Small p rs) : BatchRight src p n dir := by
  intro l w h1 stale
  obtain ⟨hstart, hsmall⟩ := hcond (l.map Prod.fst) w (by rw [tour_eq _ _ p.valid, NavM.bind_ok h1]; rfl)
  by_cases hr : Ready dir p.world.cur
  · refine ⟨_, by rw [dbeGetRecBatch_eq hr, NavM.bind_ok h1]; rfl, ?_⟩
    have hsame : ∀ r ∈ l, ((r.1 % 2 ^ 32, some (r.2.getD [])) : Recno × Option (List UInt8)) = id r := by
      intro r hmem
      obtain ⟨data, hdata, -⟩ := (oneByOne_data _ _ hr).of_ok h1 r hmem
      have hlt := hsmall r.1 (List.mem_map_of_mem hmem)
      rw [hdata, Nat.mod_eq_of_lt hlt, Option.getD_some, ← hdata]
      rfl
    rw [List.map_map]
    exact ((List.map_congr_left hsame).trans (List.map_id l)).symm
  · have hnone : p.world.cur.etof none = true := by
      by_contra hne
      exact hr ⟨fun h => absurd h hne, p.valid⟩
    have hend : p.world.cur.etof (some dir) = false := by
      by_contra hne
      exact hr ⟨fun _ => by simpa using hne, p.valid⟩
    have hnil : l = [] := by
      by_contra hne
      have hno := hstart (by simpa using hne)
      rw [hnone] at hno
      cases hno
    subst hnil
    cases hsize : batchSize src n with
    | zero =>
      rw [hsize] at h1
      cases h1
      refine ⟨[], ?_, rfl⟩
      unfold dbeGetRecBatch
      rw [NavM.bind_ok (validChk_ok p.valid), hsize]
      rfl
    | succ k =>
      rw [hsize, oneByOne_succ p.valid hend] at h1
      obtain ⟨_, w1, -, h1⟩ := NavM.bind_eq_ok h1
      obtain ⟨l, w2, -, h1⟩ := NavM.bind_eq_ok h1
      cases h1

/-- Records come in a batch as they come one by one if and only if the cursor does not start at the other
end of the table and no number of a record it passes takes more than a double word. -/
theorem batchRight_iff : BatchRight src p n dir ↔ ∀ rs w, tour src dir (batchSize src n) p.world = .ok rs w →
    (rs ≠ [] → p.world.cur.etof none = false) ∧ ∀ recno ∈ rs, recno < 2 ^ 32 :=
  ⟨fun hright _ _ hrun => small_of_batchRight hright hrun, batchRight_of_small⟩

end Main

/-- A table with more records than a double word counts, and the cursor at one of the last. -/
def longSource : Source where
  env := ⟨⟨false, false⟩, false, 64, 4, fun _ => 0, [], 0⟩
  fuel := 8
  byprec := 2
  image _ := [32, 65]
  length_image _ := rfl
  locked _ := false

def longArea : Area where
  reccnt := 2 ^ 32 + 5
  crntrec := 2 ^ 32 + 1
  buf := 2 ^ 32 + 1
  eof := false
  tof := false
  recFound := false
  order := none
  nextrec := 0
  exclusive := false
  denywrite := false
  hidden _ := false
  keyVals _ := []
  keyOf _ := none
  relation _ := .logic none

def longPosition : Position where
  world := ⟨longArea, [], []⟩
  valid := .inr (.inr (by decide))

/-- In a batch the record comes under the number 1. -/
theorem batch_long : ¬BatchRight longSource longPosition 1 .forward ∧
    ∃ w, oneByOne longSource .forward 1 longPosition.world = .ok [(4294967297, some [32, 65])] w ∧
      dbeGetRecBatch longSource (fun _ => 0) 1 .forward longPosition.world = .ok [(1, [32, 65])] w := by
  refine ⟨?_, _, rfl, rfl⟩
  intro h
  have hrun : ∃ w, tour longSource .forward (batchSize longSource 1) longPosition.world = .ok [4294967297] w := ⟨_, rfl⟩
  obtain ⟨w, hrun⟩ := hrun
  have hlt := (small_of_batchRight h hrun).2 4294967297 (by simp)
  exact absurd hlt (by decide)

end Db3w.Nav
