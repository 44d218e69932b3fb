/-
Serial numbers (`hb_get_serial` of serial.c), asked for by any number of sessions at the same file. A session makes one system
call at a time, and the calls of the sessions come in any order; each may fail. The lock is one of all the bytes of the
counter for writing, and it is a session's, so that it goes whenever the session closes the file; after an error the file is
not closed.
-/
import Mathlib.Data.List.Nodup
import Mathlib.Tactic

namespace Db3w.Serial

abbrev LRETRY : Nat := 100

/-- Where a session is in `hb_get_serial`. -/
inductive Phase where
  | idle
  /-- The file is open, and a number of attempts to lock it have failed. -/
  | opened (i : Nat)
  | locked
  | read (serial : Int64)
  | written (serial : Int64)
  deriving DecidableEq

/-- The counter in the file, whose lock it is, and what has been returned, the last first. -/
structure State (σ : Type) where
  file : Int64
  holder : Option σ
  phase : σ → Phase
  log : List Int64

section Model

variable {σ : Type} [DecidableEq σ]

/-- The session's next call has been made. -/
def State.at_ (st : State σ) (s : σ) (p : Phase) : State σ := { st with phase := Function.update st.phase s p }

/-- `close`, which takes away the locks of the session. -/
def State.close (st : State σ) (s : σ) : State σ := { st with holder := if st.holder = some s then none else st.holder }

/-- `rlock(serfd, 0, sizeof(long), HB_WRLCK)`. -/
def State.rlock (st : State σ) (s : σ) : Option (State σ) :=
  if st.holder = none ∨ st.holder = some s then some { st with holder := some s } else none

/-- A session and whether its next call succeeds; a lock that another one holds is not granted. -/
abbrev Event (σ : Type) := σ × Bool

/-- `hb_get_serial`, one call of it. -/
def step (st : State σ) (e : Event σ) : State σ :=
  let (s, ok) := e
  match st.phase s with
  | .idle => if ok then st.at_ s (.opened 0) else st
  | .opened i =>
    if i ≤ LRETRY then
      match if ok then st.rlock s else none with
      | some st => st.at_ s .locked
      | none => st.at_ s (.opened (i + 1))
    else (st.close s).at_ s .idle
  | .locked => st.at_ s (if ok then .read st.file else .idle)
  | .read serial => if ok then { st with file := serial + 1 }.at_ s (.written serial) else st.at_ s .idle
  | .written serial => { st.close s with log := serial :: st.log }.at_ s .idle

def run (st : State σ) (es : List (Event σ)) : State σ := es.foldl step st

/-- No session has called yet. -/
def start (n0 : Int64) : State σ := ⟨n0, none, fun _ => .idle, []⟩

/-- No session is between writing and returning. -/
def State.Quiet (st : State σ) : Prop := ∀ s n, st.phase s ≠ .written n

/-- All numbers are different, and the counter has counted them. -/
def SerialRight (n0 : Int64) (st : State σ) : Prop := st.log.Nodup ∧ (st.Quiet → st.file.toInt = n0.toInt + st.log.length)

/-! ## The lock -/

/-- The session is between locking and closing. -/
def Phase.Holds : Phase → Prop
  | .idle => False
  | .opened _ => False
  | _ => True

/-- The numbers from `n0` on. -/
def nth (n0 : Int64) (k : Nat) : Int64 := n0 + Int64.ofNat k

/-- A session in the middle has the lock; the counter is one further than what has been returned while a session is about to return, else just
as far. -/
structure Inv (n0 : Int64) (st : State σ) : Prop where
  own : ∀ s, (st.phase s).Holds → st.holder = some s
  read : ∀ s n, st.phase s = .read n → st.file = n
  log : st.log = ((List.range st.log.length).map (nth n0)).reverse
  quiet : st.Quiet → st.file = nth n0 st.log.length
  written : ∀ s n, st.phase s = .written n → n = nth n0 st.log.length ∧ st.file = n + 1

theorem nth_succ (n0 : Int64) (k : Nat) : nth n0 k + 1 = nth n0 (k + 1) := by
  unfold nth
  rw [Int64.ofNat_add, Int64.add_assoc]
  rfl

variable {n0 : Int64} {st : State σ} {s t : σ} {p : Phase}

theorem phase_at (st : State σ) (s t : σ) (p : Phase) : (st.at_ s p).phase t = if t = s then p else st.phase t := by
  show Function.update st.phase s p t = _
  rw [Function.update_apply]

omit [DecidableEq σ] in
/-- Two sessions cannot both be in the middle. -/
theorem Inv.excl (h : Inv n0 st) (hs : (st.phase s).Holds) (ht : (st.phase t).Holds) : s = t :=
  Option.some.inj ((h.own s hs).symm.trans (h.own t ht))

omit [DecidableEq σ] in
/-- While a session holds the lock and has not written, nobody has. -/
theorem Inv.quiet_of (h : Inv n0 st) (hs : (st.phase s).Holds) (hw : ∀ n, st.phase s ≠ .written n) : st.Quiet := by
  intro t n ht
  have hst := h.excl hs (by rw [ht]; trivial : (st.phase t).Holds)
  subst hst
  exact hw n ht

/-- A call that neither writes nor returns. -/
theorem Inv.move (h : Inv n0 st) {holder : Option σ} (hown : p.Holds → holder = some s) (hothers : ∀ t, t ≠ s → (st.phase t).Holds → holder = some t)
    (hread : ∀ n, p = .read n → st.file = n) (hp : ∀ n, p ≠ .written n) (hs : ∀ n, st.phase s ≠ .written n) :
    Inv n0 ({ st with holder := holder }.at_ s p) := by
  constructor
  · intro t ht
    rw [phase_at] at ht
    split_ifs at ht with hts
    · exact hts ▸ hown ht
    · exact hothers t hts ht
  · intro t n ht
    rw [phase_at] at ht
    split_ifs at ht with hts
    · exact hread n ht
    · exact h.read t n ht
  · exact h.log
  · intro hq
    refine h.quiet fun t n ht => ?_
    have hqt := hq t n
    rw [phase_at] at hqt
    split_ifs at hqt with hts
    · exact hs n (hts ▸ ht)
    · exact hqt ht
  · intro t n ht
    rw [phase_at] at ht
    split_ifs at ht with hts
    · exact absurd ht (hp n)
    · exact h.written t n ht

/-- The number that has been read is the next one, and is counted in the file. -/
theorem Inv.write (h : Inv n0 st) {serial : Int64} (hs : st.phase s = .read serial) : Inv n0 ({ st with file := serial + 1 }.at_ s (.written serial)) := by
  have hholds : (st.phase s).Holds := by rw [hs]; trivial
  have hfile : st.file = nth n0 st.log.length := h.quiet (h.quiet_of hholds fun n hn => by rw [hs] at hn; cases hn)
  constructor
  · intro t ht
    rw [phase_at] at ht
    split_ifs at ht with hts
    · exact hts ▸ h.own s hholds
    · exact h.own t ht
  · intro t n ht
    rw [phase_at] at ht
    split_ifs at ht with hts
    exact absurd (h.excl (by rw [ht]; trivial) hholds) hts
  · exact h.log
  · intro hq
    exact absurd (by rw [phase_at, if_pos rfl]) (hq s serial)
  · intro t n ht
    rw [phase_at] at ht
    split_ifs at ht with hts
    · obtain rfl := Phase.written.inj ht
      exact ⟨(h.read s serial hs).symm.trans hfile, rfl⟩
    · exact absurd (h.excl (by rw [ht]; trivial) hholds) hts

/-- The number is returned, and the lock goes. -/
theorem Inv.ret (h : Inv n0 st) {serial : Int64} (hs : st.phase s = .written serial) :
    Inv n0 ({ st.close s with log := serial :: st.log }.at_ s .idle) := by
  have hholds : (st.phase s).Holds := by rw [hs]; trivial
  obtain ⟨hnext, hfile⟩ := h.written s serial hs
  have hnobody : ∀ t, ((st.at_ s .idle).phase t).Holds → False := by
    intro t ht
    rw [phase_at] at ht
    split_ifs at ht with hts
    · exact ht
    · exact hts (h.excl ht hholds)
  constructor
  · intro t ht
    exact (hnobody t ht).elim
  · intro t n ht
    have ht' : (st.at_ s .idle).phase t = .read n := ht
    exact (hnobody t (by rw [ht']; trivial)).elim
  · show serial :: st.log = ((List.range (st.log.length + 1)).map (nth n0)).reverse
    rw [List.range_succ, List.map_append, List.reverse_append, ← h.log, hnext]
    rfl
  · intro _
    show st.file = nth n0 (st.log.length + 1)
    rw [hfile, hnext, nth_succ]
  · intro t n ht
    have ht' : (st.at_ s .idle).phase t = .written n := ht
    exact (hnobody t (by rw [ht']; trivial)).elim

omit [DecidableEq σ] in
theorem inv_start (n0 : Int64) : Inv n0 (start n0 : State σ) := by
  constructor
  · exact fun _ h => h.elim
  · intro _ _ h
    cases h
  · rfl
  · intro _
    show n0 = n0 + Int64.ofNat 0
    simp
  · intro _ _ h
    cases h

/-- Every call keeps the invariant. -/
theorem Inv.step (h : Inv n0 st) (e : Event σ) : Inv n0 (step st e) := by
  obtain ⟨s, ok⟩ := e
  have hothers : ∀ t, t ≠ s → (st.phase t).Holds → st.holder = some t := fun t _ ht => h.own t ht
  unfold Serial.step
  dsimp only
  cases hs : st.phase s with
  | idle =>
    dsimp only
    split_ifs
    · exact h.move (fun hh => hh.elim) hothers (by simp) (by simp) (by simp [hs])
    · exact h
  | opened i =>
    dsimp only
    split_ifs with hi hok
    · cases hl : st.rlock s with
      | none => exact h.move (fun hh => hh.elim) hothers (by simp) (by simp) (by simp [hs])
      | some st' =>
        unfold State.rlock at hl
        split_ifs at hl with hfree
        obtain rfl := Option.some.inj hl
        refine h.move (fun _ => rfl) (fun t hts ht => ?_) (by simp) (by simp) (by simp [hs])
        -- nobody else is in the middle, as the lock was free or the session's
        have hown := h.own t ht
        rcases hfree with hnone | hmine
        · rw [hnone] at hown
          cases hown
        · exact absurd (Option.some.inj (hown.symm.trans hmine)) hts
    · exact h.move (fun hh => hh.elim) hothers (by simp) (by simp) (by simp [hs])
    · -- the lock of another session is not touched
      refine h.move (fun hh => hh.elim) (fun t hts ht => ?_) (by simp) (by simp) (by simp [hs])
      rw [if_neg]
      · exact h.own t ht
      · rw [h.own t ht]
        exact fun heq => hts (Option.some.inj heq)
  | locked =>
    dsimp only
    have hmine := h.own s (by rw [hs]; trivial)
    split_ifs
    · exact h.move (fun _ => hmine) hothers (fun n hn => Phase.read.inj hn) (by simp) (by simp [hs])
    · exact h.move (fun hh => hh.elim) hothers (by simp) (by simp) (by simp [hs])
  | read serial =>
    dsimp only
    split_ifs
    · exact h.write hs
    · exact h.move (fun hh => hh.elim) hothers (by simp) (by simp) (by simp [hs])
  | written serial => exact h.ret hs

theorem inv_run (n0 : Int64) (es : List (Event σ)) : Inv n0 (run (start n0) es) := by
  induction es using List.reverseRecOn with
  | nil => exact inv_start n0
  | append_singleton es e ih =>
    unfold run at ih ⊢
    rw [List.foldl_append]
    exact ih.step e

/-! ## The numbers -/

theorem toInt_nth {k : Nat} (h : n0.toInt + k < 2 ^ 63) : (nth n0 k).toInt = n0.toInt + k := by
  have hlow := n0.le_toInt
  unfold nth
  rw [Int64.toInt_add, Int64.toInt_ofNat', show Int64.size = 2 ^ 64 from rfl, Int.add_bmod_bmod, Int.bmod_eq_emod]
  split <;> omega

/-- As long as the counter does not come to the end of a `long`, no number is handed out twice, whatever the order of the calls. -/
theorem serial_right (es : List (Event σ)) (hlong : n0.toInt + (run (start n0) es).log.length < 2 ^ 63) : SerialRight n0 (run (start n0) es) := by
  have h := inv_run n0 es
  constructor
  · rw [h.log, List.nodup_reverse]
    refine List.Nodup.map_on (fun a ha b hb hab => ?_) List.nodup_range
    have ha' := List.mem_range.mp ha
    have hb' := List.mem_range.mp hb
    have heq := congrArg Int64.toInt hab
    rw [toInt_nth (by omega), toInt_nth (by omega)] at heq
    omega
  · intro hq
    rw [h.quiet hq, toInt_nth hlong]

/-- Two sessions, and a lock that is asked for while it is held. -/
theorem serial_right_two : SerialRight 7 (run (start 7) [((false : Bool), true), (true, true), (false, true), (true, true), (false, true), (false, true), (false, true)]) :=
  serial_right _ (by decide)

/-- At the largest `long` the counter wraps. -/
theorem serial_wraps : ∃ es : List (Event Bool), ¬SerialRight Int64.maxValue (run (start Int64.maxValue) es) := by
  refine ⟨[(true, true), (true, true), (true, true), (true, true), (true, true)], fun h => ?_⟩
  have hidle : ∀ s, (run (start Int64.maxValue) [(true, true), (true, true), (true, true), (true, true), (true, true)]).phase s = .idle := by decide
  have hcount := h.2 fun s n hs => by
    rw [hidle s] at hs
    cases hs
  exact absurd hcount (by decide)

end Model

end Db3w.Serial
