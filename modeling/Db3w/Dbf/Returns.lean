/-
`go_rel` comes to its end. It calls itself for the related table only, through `find` and `go`, so the chain of
contexts bounds the calls. What is left is the loop of `find` over records that are taken out: every turn leaves
the values of a key on the stack, so in the last table of a chain the stack bounds it. In a table with a relation
of its own the loop calls `next`, which calls itself for ever at the end of such a table; there no record may be
taken out.
-/
import Db3w.Dbf.Navigate
import Db3w.Lib.Outcome

namespace Db3w.Nav

open Outcome

/-! ## The parts of a step -/

section Rules

variable {α : Type} {E : Fault → Prop} {env : Env} {w : World} {Q : α → World → Prop}

theorem ensures_onStack {f : Hb.Stack → Except Hb.HbErr (α × Hb.Stack)} (hE : ∀ e, e ≠ .outOfFuel → E e)
    (h : ∀ a st, f w.stack = .ok (a, st) → Q a { w with stack := st }) : Ensures E (onStack f) w Q := by
  unfold Ensures onStack
  cases hf : f w.stack with
  | ok r => exact h r.1 r.2 hf
  | error e => exact hE _ Fault.noConfusion

theorem ensures_onIndex {f : Cfg → NdxM α} (hE : ∀ e, e ≠ .outOfFuel → E e)
    (h : ∀ a st st', w.cur.order = some st → f (env.cfg w.cur) st = .ok a st' → Q a { w with cur := { w.cur with order := some st' } }) :
    Ensures E (onIndex env f) w Q := by
  unfold Ensures onIndex
  dsimp only
  cases ho : w.cur.order with
  | none => exact hE _ Fault.noConfusion
  | some st =>
    dsimp only
    cases hf : f (env.cfg w.cur) st with
    | ok a st' => exact h a st st' ho hf
    | error e st' => exact hE _ Fault.noConfusion

theorem ensures_inRela {f : NavM α} (hE : E .outOfRange)
    (h : ∀ a as, w.rela = a :: as → Ensures E f ⟨a, as, w.stack⟩ fun r v => Q r ⟨w.cur, v.cur :: v.rela, v.stack⟩) :
    Ensures E (inRela f) w Q := by
  unfold Ensures inRela
  cases hr : w.rela with
  | nil => exact hE
  | cons a as =>
    have hf := h a as hr
    unfold Ensures at hf
    dsimp only
    cases hx : f ⟨a, as, w.stack⟩ with
    | ok r v =>
      rw [hx] at hf
      exact hf
    | error e v =>
      rw [hx] at hf
      exact hf

end Rules

/-! ## What no call changes -/

/-- Of a context: whether it has an active index, which records are taken out, and the values of the keys. -/
structure Kind where
  ordered : Bool
  hidden : Recno → Bool
  keyVals : Recno → List Hb.HbVal

def Area.kind (a : Area) : Kind := ⟨a.order.isSome, a.hidden, a.keyVals⟩

def World.kinds (w : World) : List Kind := (w.cur :: w.rela).map Area.kind

/-- A table with an active index leaves values of its keys, and takes out no record if it has a relation of its own. -/
def Calm : List Kind → Prop
  | [] => True
  | k :: ks => (k.ordered = true → (∀ r, k.keyVals r ≠ []) ∧ (ks ≠ [] → ∀ r, k.hidden r = false)) ∧ Calm ks

@[simp] theorem Area.clretof_kind (a : Area) (d : Option Dir) : (a.clretof d).kind = a.kind := by
  rcases d with _ | _ | _ <;> rfl

@[simp] theorem Area.mark_kind (a : Area) (d : Option Dir) : (a.mark d).kind = a.kind := by
  rcases d with _ | _ | _ <;> rfl

@[simp] theorem Area.gorec_kind (a : Area) (recno : Recno) : (a.gorec recno).kind = a.kind := by
  unfold Area.gorec
  split <;> rfl

theorem World.setetof_kinds (w : World) (d : Option Dir) : (w.setetof d).kinds = w.kinds := by
  simp [World.kinds, World.setetof]

/-! ## Coming to an end -/

/-- A program comes to its end, with a result or an error of its own. -/
abbrev Returns {α : Type} (f : NavM α) (w : World) (Q : α → World → Prop) : Prop := Ensures (· ≠ .outOfFuel) f w Q

section Returns

variable {α : Type} {env : Env} {w : World} {K : List Kind} {k : Kind} {fuel m : Nat} {dir : Dir}

/-- A step that leaves the contexts as they are. -/
theorem returns_onStack {f : Hb.Stack → Except Hb.HbErr (α × Hb.Stack)} (hw : w.kinds = K) : Returns (onStack f) w fun _ w' => w'.kinds = K :=
  ensures_onStack (fun _ => id) fun _ _ _ => hw

theorem kinds_cur {a : Area} (hw : w.kinds = K) (h : a.kind = w.cur.kind) : ({ w with cur := a } : World).kinds = K := by
  rw [← hw]
  exact congrArg (· :: w.rela.map Area.kind) h

theorem returns_onIndex {f : Cfg → NdxM α} (hw : w.kinds = K) :
    Returns (onIndex env f) w fun _ w' => w'.kinds = K ∧ w'.stack = w.stack ∧ w'.cur.eof = w.cur.eof ∧ w'.cur.tof = w.cur.tof :=
  ensures_onIndex (fun _ => id) fun _ _ _ ho _ => ⟨kinds_cur hw (by simp [Area.kind, ho]), rfl, rfl, rfl⟩

theorem returns_validChk (hw : w.kinds = K) : Returns validChk w fun _ w' => w'.kinds = K := by
  unfold validChk
  apply Ensures.bind
  apply ensures_get
  apply ensures_ite
  · intro _
    exact ensures_throw Fault.noConfusion
  · intro _
    exact ensures_pure hw

theorem popRecno_returns (hw : w.kinds = K) : Returns popRecno w fun _ w' => w'.kinds = K := by
  unfold popRecno
  apply Ensures.bind
  refine (returns_onStack hw).mono fun n w1 h1 => ?_
  split
  · exact ensures_pure h1
  · exact ensures_throw Fault.noConfusion

/-! ### A table without a relation -/

theorem rela_alone (hw : w.kinds = [k]) : w.rela = [] := by
  have hlen := congrArg List.length hw
  simpa [World.kinds] using hlen

theorem goRel_returns_alone (hw : w.kinds = [k]) (hf : 1 ≤ fuel) : Returns (goRel env fuel) w fun b w' => b = true ∧ w' = w := by
  obtain ⟨fuel, rfl⟩ : ∃ n, fuel = n + 1 := ⟨fuel - 1, by omega⟩
  rw [goRel]
  apply Ensures.bind
  apply ensures_get
  rw [rela_alone hw]
  exact ⟨rfl, rfl⟩

theorem nextRecno_returns (hw : w.kinds = K) : Returns (nextRecno env dir) w fun _ w' => w'.kinds = K ∧ w'.stack = w.stack := by
  unfold nextRecno
  apply Ensures.bind
  apply ensures_get
  apply ensures_ite
  · intro _
    apply ensures_ite
    · intro _
      exact ensures_pure ⟨hw, rfl⟩
    · intro _
      exact (returns_onIndex hw).mono fun _ _ h => ⟨h.1, h.2.1⟩
  · intro _
    exact ensures_pure ⟨hw, rfl⟩

theorem goNext_kinds (w : World) (dir : Dir) (crntr : Recno) : (w.goNext dir crntr).kinds = w.kinds ∧ (w.goNext dir crntr).stack = w.stack := by
  have hin : ∀ v : World, v.kinds = w.kinds ∧ v.stack = w.stack →
      (⟨{ (if v.cur.etof (some dir) then v.cur else (v.cur.gorec crntr).clretof (some (if dir = .forward then .backward else .forward)))
        with crntrec := crntr }, v.rela, v.stack⟩ : World).kinds = w.kinds ∧ v.stack = w.stack := by
    rintro v ⟨hv, hs⟩
    refine ⟨kinds_cur hv ?_, hs⟩
    split
    · rfl
    · exact (Area.clretof_kind _ _).trans (Area.gorec_kind _ _)
  unfold World.goNext
  refine hin _ ?_
  split
  · exact ⟨w.setetof_kinds _, rfl⟩
  · split
    · exact ⟨w.setetof_kinds _, rfl⟩
    · exact ⟨rfl, rfl⟩

theorem next_returns_alone (hw : w.kinds = [k]) (hf : 3 ≤ fuel) :
    Returns (next env fuel dir) w fun _ w' => w'.kinds = [k] ∧ w'.stack = w.stack := by
  obtain ⟨fuel, rfl⟩ : ∃ n, fuel = n + 2 := ⟨fuel - 2, by omega⟩
  rw [next]
  apply Ensures.bind
  apply ensures_modify
  have h0 := kinds_cur (a := ({ w.cur with recFound := false } : Area).clretof (some dir)) hw (Area.clretof_kind _ _)
  apply Ensures.bind
  refine (nextRecno_returns h0).mono fun crntr w1 h1 => ?_
  apply Ensures.bind
  apply ensures_modify
  obtain ⟨h2, h3⟩ := goNext_kinds w1 dir crntr
  rw [nextRel]
  apply Ensures.bind
  refine (goRel_returns_alone (h2.trans h1.1) (by omega)).mono ?_
  rintro _ _ ⟨rfl, rfl⟩
  exact ensures_pure ⟨h2.trans h1.1, h3.trans h1.2⟩

/-! ### The loop of `find` -/

theorem returns_pushVal (v : Hb.HbVal) (hw : w.kinds = K) :
    Returns (pushVal env v) w fun _ w' => w'.kinds = K ∧ w'.stack.bytes = w.stack.bytes + v.size ∧ w'.stack.bytes ≤ env.cap := by
  refine ensures_onStack (fun _ => id) fun a st h => ⟨hw, ?_⟩
  unfold Hb.push at h
  split at h
  · cases h
  · rename_i hroom
    cases h
    have hbytes : Hb.Stack.bytes (v :: w.stack) = w.stack.bytes + v.size := Nat.add_comm _ _
    exact ⟨hbytes, hbytes.trans_le (not_lt.1 hroom)⟩

/-- The values of a key take room on the stack. -/
theorem returns_pushVals {vs : List Hb.HbVal} (hvs : vs ≠ []) (hw : w.kinds = K) :
    Returns (vs.forM (pushVal env)) w fun _ w' => w'.kinds = K ∧ w.stack.bytes < w'.stack.bytes ∧ w'.stack.bytes ≤ env.cap := by
  have h0 : w.kinds = K ∧ w.stack.bytes + 0 ≤ w.stack.bytes ∧ (0 < 0 → w.stack.bytes ≤ env.cap) := ⟨hw, le_rfl, fun h => absurd h (Nat.lt_irrefl 0)⟩
  refine (ensures_forM (J := fun n v => v.kinds = K ∧ w.stack.bytes + n ≤ v.stack.bytes ∧ (0 < n → v.stack.bytes ≤ env.cap))
    (fun n v s hs => ?_) vs h0).mono fun _ v hv => ?_
  · refine (returns_pushVal v hs.1).mono fun _ s' hs' => ⟨hs'.1, ?_, fun _ => hs'.2.2⟩
    have hsize := v.size_pos
    have hbytes := hs'.2.1
    have hle := hs.2.1
    omega
  · have hpos := List.length_pos_of_ne_nil hvs
    exact ⟨hv.1, by omega, hv.2.2 (by omega)⟩

/-- In a table without a relation every turn takes room on the stack. -/
theorem findShown_returns_alone (hk : ∀ r, k.keyVals r ≠ []) (hw : w.kinds = [k]) (hf : env.cap + 5 ≤ fuel + w.stack.bytes) (h4 : 4 ≤ fuel) :
    Returns (findShown env fuel) w fun _ w' => w'.kinds = [k] := by
  induction fuel generalizing w with
  | zero => omega
  | succ fuel ih =>
    rw [findShown]
    apply Ensures.bind
    apply ensures_get
    apply ensures_ite
    · intro _
      apply Ensures.bind
      refine (next_returns_alone hw (by omega)).mono fun _ w1 h1 => ?_
      apply Ensures.bind
      apply ensures_get
      apply ensures_ite
      · intro _
        exact ensures_pure h1.1
      intro _
      apply Ensures.bind
      have hvals : w1.cur.keyVals w1.cur.buf ≠ [] := by
        have hkind : w1.cur.kind = k := (List.cons_eq_cons.1 h1.1).1
        have := hk w1.cur.buf
        rwa [← hkind] at this
      refine (returns_pushVals hvals h1.1).mono fun _ w2 h2 => ?_
      apply Ensures.bind
      refine (returns_onIndex h2.1).mono fun same w3 h3 => ?_
      apply ensures_ite
      · intro _
        exact ensures_pure h3.1
      · intro _
        have hbytes : w3.stack.bytes = w2.stack.bytes := by rw [h3.2.1]
        have hstack : w1.stack.bytes = w.stack.bytes := by rw [h1.2]
        exact ih h3.1 (by omega) (by omega)
    · intro _
      exact ensures_pure hw

theorem findShown_returns {ks : List Kind} (hK : Calm (k :: ks)) (ho : k.ordered = true) (hw : w.kinds = k :: ks) (hf : env.cap + 5 ≤ fuel) :
    Returns (findShown env fuel) w fun _ w' => w'.kinds = k :: ks := by
  obtain ⟨hvals, hshown⟩ := hK.1 ho
  by_cases hks : ks = []
  · subst hks
    exact findShown_returns_alone hvals hw (by omega) (by omega)
  · -- no record is taken out
    obtain ⟨fuel, rfl⟩ : ∃ n, fuel = n + 1 := ⟨fuel - 1, by omega⟩
    have hkind : w.cur.kind = k := (List.cons_eq_cons.1 hw).1
    have hhid : w.cur.hidden w.cur.buf = false := by
      have := hshown hks w.cur.buf
      rwa [← hkind] at this
    rw [findShown]
    apply Ensures.bind
    apply ensures_get
    dsimp only
    rw [hhid, Bool.and_false]
    exact ensures_pure hw

/-! ### Along the chain -/

/-- `go_rel` comes to its end in the contexts of these kinds. -/
def RelReturns (env : Env) (K : List Kind) (m : Nat) : Prop :=
  ∀ w fuel, w.kinds = K → m ≤ fuel → Returns (goRel env fuel) w fun _ w' => w'.kinds = K

theorem RelReturns.noFind (h : RelReturns env K m) (hw : w.kinds = K) (hf : m + 1 ≤ fuel) :
    Returns (noFind env fuel) w fun _ w' => w'.kinds = K := by
  obtain ⟨fuel, rfl⟩ : ∃ n, fuel = n + 1 := ⟨fuel - 1, by omega⟩
  rw [Nav.noFind]
  apply Ensures.bind
  apply ensures_modify
  apply Ensures.bind
  exact (h _ fuel (kinds_cur (a := { w.cur with eof := true }) hw rfl) (by omega)).mono fun _ _ h' => ensures_pure h'

theorem RelReturns.go (h : RelReturns env K m) (recno : Recno) (hw : w.kinds = K) (hf : m + 1 ≤ fuel) :
    Returns (go env fuel recno) w fun _ w' => w'.kinds = K := by
  obtain ⟨fuel, rfl⟩ : ∃ n, fuel = n + 1 := ⟨fuel - 1, by omega⟩
  have hend : ∀ d v, v.kinds = K → Returns (do setetof d; return false : NavM Bool) v fun _ w' => w'.kinds = K := by
    intro d v hv
    apply Ensures.bind
    apply ensures_modify
    exact ensures_pure ((v.setetof_kinds d).trans hv)
  rw [Nav.go]
  apply Ensures.bind
  apply ensures_modify
  have h0 := kinds_cur (a := { w.cur with recFound := false }) hw rfl
  apply ensures_ite
  · intro _
    exact hend _ _ h0
  intro _
  apply Ensures.bind
  apply ensures_get
  apply ensures_ite
  · intro _
    exact hend _ _ h0
  intro _
  apply Ensures.bind
  apply ensures_modify
  have h1 := kinds_cur (a := (({ w.cur with recFound := false } : Area).clretof none).gorec recno) h0 (by simp)
  apply Ensures.bind
  apply ensures_get
  apply ensures_ite
  · intro _
    exact hend _ _ h1
  intro _
  apply ensures_ite
  · intro _
    apply Ensures.bind
    exact (returns_onIndex h1).mono fun _ w2 h2 => h _ fuel h2.1 (by omega)
  · intro _
    exact h _ fuel h1 (by omega)

theorem RelReturns.find {ks : List Kind} (h : RelReturns env (k :: ks) m) (hK : Calm (k :: ks)) (ho : k.ordered = true) (hw : w.kinds = k :: ks)
    (hf : m + env.cap + 7 ≤ fuel) : Returns (find env fuel) w fun _ w' => w'.kinds = k :: ks := by
  obtain ⟨fuel, rfl⟩ : ∃ n, fuel = n + 1 := ⟨fuel - 1, by omega⟩
  rw [Nav.find]
  apply Ensures.bind
  refine (returns_validChk hw).mono fun _ w1 h1 => ?_
  apply Ensures.bind
  refine (returns_onIndex h1).mono fun _ w2 h2 => ?_
  apply Ensures.bind
  apply ensures_modify
  apply Ensures.bind
  refine (returns_onStack (kinds_cur (a := { w2.cur with recFound := false }) h2.1 rfl)).mono fun _ w3 h3 => ?_
  apply Ensures.bind
  refine (returns_onIndex h3).mono fun hd w4 h4 => ?_
  apply Ensures.bind
  refine (returns_onStack h4.1).mono fun v w5 h5 => ?_
  cases relKey env hd v with
  | none => exact h.noFind h5 (by omega)
  | some key =>
    dsimp only
    apply Ensures.bind
    apply ensures_modify
    apply Ensures.bind
    refine (returns_onIndex (kinds_cur (a := w5.cur.clretof none) h5 (Area.clretof_kind _ _))).mono fun recno w6 h6 => ?_
    apply ensures_ite
    · intro _
      exact h.noFind h6.1 (by omega)
    intro _
    apply Ensures.bind
    apply ensures_modify
    apply Ensures.bind
    refine (findShown_returns hK ho (kinds_cur (a := w6.cur.gorec recno) h6.1 (Area.gorec_kind _ _)) (by omega)).mono fun shown w7 h7 => ?_
    apply ensures_ite
    · intro _
      apply Ensures.bind
      refine (h _ fuel h7 (by omega)).mono fun b w8 h8 => ?_
      apply ensures_ite
      · intro _
        exact ensures_modify (kinds_cur (a := { w8.cur with recFound := true }) h8 rfl)
      · intro _
        exact ensures_pure h8
    · intro _
      exact h.noFind h7 (by omega)

theorem RelReturns.cons (h : RelReturns env K m) (hK : Calm K) (k : Kind) : RelReturns env (k :: K) (m + env.cap + 8) := by
  intro w fuel hw hf
  obtain ⟨fuel, rfl⟩ : ∃ n, fuel = n + 1 := ⟨fuel - 1, by omega⟩
  -- the contexts related to keep their kinds
  have hrela : ∀ {α : Type} {f : NavM α} {v : World}, v.kinds = k :: K →
      (∀ u : World, u.kinds = K → Returns f u fun _ u' => u'.kinds = K) → Returns (inRela f) v fun _ v' => v'.kinds = k :: K := by
    intro α f v hv hf
    obtain ⟨hcur, has⟩ := List.cons_eq_cons.1 hv
    refine ensures_inRela Fault.noConfusion fun a as hr => (hf ⟨a, as, v.stack⟩ ?_).mono fun _ u hu => ?_
    · rw [← has, hr]
      rfl
    · exact List.cons_eq_cons.2 ⟨hcur, hu⟩
  rw [goRel]
  apply Ensures.bind
  apply ensures_get
  apply ensures_ite
  · intro _
    exact ensures_pure hw
  intro _
  apply ensures_ite
  · intro _
    apply Ensures.bind
    exact (hrela hw fun u hu => ensures_modify ((u.setetof_kinds _).trans hu)).mono fun _ _ h' => ensures_pure h'
  intro _
  apply Ensures.bind
  refine (returns_pushVal _ hw).mono fun _ w1 h1 => hrela h1.1 fun u hu => ?_
  apply Ensures.bind
  refine (returns_onStack hu).mono fun v u1 hu1 => ?_
  apply ensures_ite
  · intro _
    apply Ensures.bind
    refine (returns_onStack hu1).mono fun _ u2 hu2 => ?_
    apply Ensures.bind
    apply ensures_modify
    apply Ensures.bind
    exact (h _ fuel (kinds_cur (a := { u2.cur with eof := true }) hu2 rfl) (by omega)).mono fun _ _ h' => ensures_pure h'
  intro _
  apply Ensures.bind
  apply ensures_get
  apply ensures_ite
  · intro hord
    apply Ensures.bind
    refine (returns_pushVal _ hu1).mono fun _ u2 hu2 => ?_
    cases K with
    | nil => exact absurd hu1 (List.cons_ne_nil _ _)
    | cons k1 ks =>
      have hkind : u1.cur.kind = k1 := (List.cons_eq_cons.1 hu1).1
      apply Ensures.bind
      refine (h.find hK (by rw [← hkind]; exact hord) hu2.1 (by omega)).mono fun _ u3 hu3 => ?_
      apply Ensures.bind
      apply ensures_get
      exact ensures_pure hu3
  · intro _
    apply Ensures.bind
    refine (popRecno_returns hu1).mono fun recno u2 hu2 => ?_
    apply Ensures.bind
    refine (h.go recno hu2 (by omega)).mono fun _ u3 hu3 => ?_
    apply Ensures.bind
    apply ensures_get
    exact ensures_pure hu3

/-- `go_rel` comes to its end in a chain that is calm. -/
theorem calm_returns (env : Env) (k : Kind) (hK : Calm K) : RelReturns env (k :: K) (K.length * (env.cap + 8) + 1) := by
  induction K generalizing k with
  | nil =>
    intro w fuel hw hf
    refine (goRel_returns_alone hw (by omega)).mono ?_
    rintro _ _ ⟨-, rfl⟩
    exact hw
  | cons k1 ks ih =>
    have h := (ih k1 hK.2).cons hK k
    rw [List.length_cons, Nat.succ_mul]
    exact fun w fuel hw hf => h w fuel hw (by omega)

end Returns

end Db3w.Nav
