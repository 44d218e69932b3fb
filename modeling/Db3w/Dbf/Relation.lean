/-
The tables that a table is related to (`RELA_TO` of setto.c, `cyclic` and `setetof` of db.c, `go_rel` of
rec.c). A relation is refused when the chain of relations from its target leads back, and the functions
that follow relations rely on that. But a target is only checked to be below MAXCTX: the chain from a
negative number is looked for outside the table of contexts, and the number is then stored.
-/
import Db3w.Dbf.Returns
import Db3w.Dbf.Texts
import Db3w.Lib.Chase

namespace Db3w

open Chase Outcome
open Nav (Area)

/-- The errors of SET RELATION; `moving` is one of those that moving the cursors ends with. -/
inductive RelErr where
  | notInUse | outOfRange | invalidType | noSuchAlias | badAlias | cyclicRel | expression | illSelect | fault | moving
  deriving DecidableEq, Repr

abbrev Areas := CtxId → Area

/-- The contexts. `rela` is -1 when there is no relation, and `relation` says whether its expression is set. -/
structure Relas where
  cur : CtxId
  rela : CtxId → Int
  relation : CtxId → Bool
  aliases : CtxId → List UInt8
  inUse : CtxId → Bool
  area : Areas
  stack : Hb.Stack

/-- The context with a number. -/
def ctxOf (i : Int) : Option CtxId := if h : 0 ≤ i ∧ i ≤ MAXCTX then some ⟨i.toNat, by omega⟩ else none

namespace Relas

variable (st : Relas)

/-- A closed table is at both of its ends when it is selected. -/
def selected (areas : Areas) (c : CtxId) : Area := if st.inUse c then areas c else (areas c).mark none

/-- `ctx_select`. -/
def select (areas : Areas) (i : Int) : Except RelErr (CtxId × Areas) :=
  match ctxOf i with
  | none => .error .illSelect
  | some c => .ok (c, Function.update areas c (st.selected areas c))

/-- `valid_chk`. -/
def validChk : Option RelErr :=
  let a := st.area st.cur
  if !st.inUse st.cur then some .notInUse
  else if !a.etof none && a.reccnt ≠ 0 && a.crntrec = 0 then some .outOfRange
  else none

/-- `relation_isset`. -/
def relationIsset (c : CtxId) : Bool := st.rela c ≠ -1 && st.relation c

/-- `unset_relation`. The pointer to the expression stays. -/
def unsetRelation : Relas := { st with rela := Function.update st.rela st.cur (-1) }

/-- `cleandb`. -/
def cleandb (c : CtxId) : Relas :=
  if st.inUse c then
    { st with
      inUse := Function.update st.inUse c false
      rela := Function.update st.rela c (-1)
      aliases := Function.update st.aliases c []
      area := Function.update st.area c
        ({ st.area c with crntrec := 0, order := none, nextrec := 0, exclusive := false, hidden := fun _ => false }.mark none) }
  else st

section Lookup

-- whether an alias is the one that is asked for
variable (namecmp : List UInt8 → List UInt8 → Bool)

def toUpper (c : UInt8) : UInt8 := if 97 ≤ c && c ≤ 122 then c - 32 else c

/-- `alias2ctx`. A letter is the number of a context. -/
def alias2ctx (v : List UInt8) : Except RelErr Int :=
  let byName : Except RelErr Int := match (List.finRange MAXCTX).find? fun i => namecmp (st.aliases i.castSucc) v with
    | some i => .ok i
    | none => .error .noSuchAlias
  match v with
  | [c] => if 65 ≤ toUpper c && toUpper c ≤ 90 then .ok ((toUpper c).toNat - 65 : Nat) else byName
  | _ => byName

/-- What a command gives as the table related to. -/
inductive Target where
  | name (v : List UInt8)
  | number (n : Int64)
  | other

/-- The number of the context, cut to an `int`. -/
def target : Target → Except RelErr Int
  | .name v => st.alias2ctx namecmp v
  | .number n => .ok n.toInt32.toInt
  | .other => .error .invalidType

end Lookup

section Outside

-- what is found as a relation at an index that is none of the table of contexts
variable (outside : Int → Int)

def relaAt (i : Int) : Int := match ctxOf i with
  | some c => st.rela c
  | none => outside i

/-- `cyclic`, `none` when it does not return within so many calls. -/
def cyclic : Nat → Int → Option Bool
  | 0, _ => none
  | fuel + 1, i => if i = -1 then some false else if i = st.cur.val then some true else cyclic fuel (st.relaAt outside i)

/-- The contexts related to one after the other; `none` when there are more than so many. -/
def chain : Nat → CtxId → Option (Except RelErr (List CtxId))
  | 0, _ => none
  | n + 1, c =>
    if !st.relationIsset c then some (.ok [])
    else
      match ctxOf (st.rela c) with
      | none => some (.error .illSelect)
      | some t => (chain n t).map (·.map (t :: ·))

/-- The chain of contexts as the functions that follow relations find it. -/
def world (areas : Areas) (stack : Hb.Stack) (c : CtxId) (ts : List CtxId) : Nav.World := ⟨areas c, ts.map (st.selected areas), stack⟩

/-- What they leave behind. -/
def store (cs : List CtxId) (w : Nav.World) : Relas :=
  { st with
    area := (cs.zip (w.cur :: w.rela)).foldl (fun areas p => Function.update areas p.1 p.2) st.area
    stack := w.stack }

section Moving

variable (env : Nav.Env)

/-- `gotop` in the current context. A chain that leads to no context ends in an error; where the cursors are then is left to the steps that follow. -/
def gotop (fuel : Nat) : Option (Relas × Option RelErr) :=
  match st.chain fuel st.cur with
  | none => none
  | some (.error e) => some (st, some e)
  | some (.ok ts) =>
    match Nav.gotop env fuel (st.world st.area st.stack st.cur ts) with
    | .ok _ w => some (st.store (st.cur :: ts) w, none)
    | .error .outOfFuel _ => none
    | .error _ w => some (st.store (st.cur :: ts) w, some .moving)

/-- `go_rel` in the context `c`. -/
def goRel (fuel : Nat) (areas : Areas) (stack : Hb.Stack) (c : CtxId) : Option (Except RelErr (Bool × Nav.World)) :=
  match st.chain fuel c with
  | none => none
  | some (.error e) => some (.error e)
  | some (.ok ts) =>
    match Nav.goRel env fuel (st.world areas stack c ts) with
    | .ok b w => some (.ok (b, w))
    | .error .outOfFuel _ => none
    | .error _ _ => some (.error .moving)

end Moving

/-- What `add_exp` makes of an expression: the values it has on the records. -/
inductive AddExp where
  | empty | failed
  | done (value : Recno → Hb.HbVal)

variable (namecmp : List UInt8 → List UInt8 → Bool)

/-- `SET RELATION TO`; `none` when it does not return within so many calls. -/
def setRelation (env : Nav.Env) (fuel : Nat) (arg : Option (Target × AddExp)) : Option (Relas × Option RelErr) :=
  match st.validChk with
  | some e => some (st, some e)
  | none =>
    let st := st.unsetRelation
    match arg with
    | none => some (st, none)
    | some (t, exp) =>
      match st.target namecmp t with
      | .error e => some (st, some e)
      | .ok i =>
        if i ≥ MAXCTX then some (st, some .badAlias)
        else
          match st.cyclic outside fuel i with
          | none => none
          | some true => some (st, some .cyclicRel)
          | some false =>
            -- the target is set before the expression is looked at
            let st := { st with rela := Function.update st.rela st.cur i }
            match exp with
            | .empty => some (st, none)
            | .failed => some (st, some .expression)
            | .done value =>
              gotop { st with
                relation := Function.update st.relation st.cur true
                area := Function.update st.area st.cur { st.area st.cur with relation := value } } env fuel

end Outside

/-! ## Following relations -/

/-- The flags that `setetof` sets in one context. Without a header there is no number of records to be read. -/
def setEnd (dir : Option Dir) (areas : Areas) (c : CtxId) : Except RelErr Area :=
  if dir = some .forward ∧ st.inUse c = false then .error .fault else .ok ((areas c).mark dir)

/-- `setetof`, in the context `c`. -/
def setetof (dir : Option Dir) : Nat → Areas → CtxId → Option (Except RelErr Areas)
  | 0, _, _ => none
  | fuel + 1, areas, c =>
    match st.setEnd dir areas c with
    | .error e => some (.error e)
    | .ok a =>
      let areas := Function.update areas c a
      if (areas c).etof none && st.rela c ≠ -1 then
        match st.select areas (st.rela c) with
        | .error e => some (.error e)
        | .ok (t, areas) => setetof dir fuel areas t
      else some (.ok areas)

/-! ## Runs -/

/-- The commands that concern relations, and all that moves cursors. -/
inductive Op where
  | select (i : Int)
  | use (table : Option (List UInt8 × Option Area))
  | closeAll
  | setRelation (arg : Option (Target × AddExp))
  | cursors (areas : Areas) (stack : Hb.Stack)

/-- `use`: the table is closed, and another one opened unless that fails. -/
def use (table : Option (List UInt8 × Option Area)) : Relas :=
  let st := st.cleandb st.cur
  match table with
  | none => st
  | some (name, opened) =>
    { st with
      aliases := Function.update st.aliases st.cur name
      inUse := Function.update st.inUse st.cur opened.isSome
      area := Function.update st.area st.cur (opened.getD (st.area st.cur)) }

/-- `cleardb`. -/
def cleardb : Relas := (List.finRange MAXCTX).foldl (fun st i => st.cleandb i.castSucc) st

def step (namecmp : List UInt8 → List UInt8 → Bool) (outside : Int → Int) (env : Nav.Env) (fuel : Nat) : Op → Option Relas
  | .select i => some (match st.select st.area i with
    | .ok (c, areas) => { st with cur := c, area := areas }
    | .error _ => st)
  | .use table => some (st.use table)
  | .closeAll => some st.cleardb
  | .setRelation arg => (st.setRelation outside namecmp env fuel arg).map Prod.fst
  | .cursors areas stack => some { st with area := areas, stack }

/-- A context without a table. -/
def closed : Area where
  reccnt := 0
  crntrec := 0
  buf := 0
  eof := true
  tof := true
  recFound := false
  order := none
  nextrec := 0
  exclusive := false
  denywrite := false
  hidden _ := false
  keyVals _ := []
  keyOf _ := none
  relation _ := .logic none

/-- No table is open. -/
def fresh : Relas := ⟨⟨0, Nat.succ_pos MAXCTX⟩, fun _ => -1, fun _ => false, fun _ => [], fun _ => false, fun _ => closed, []⟩

/-- The states that steps of some kind lead to. -/
inductive Reach (namecmp : List UInt8 → List UInt8 → Bool) (outside : Int → Int) (env : Nav.Env) (P : Op → Prop) : Relas → Prop
  | fresh : Reach namecmp outside env P Relas.fresh
  | step {st st' : Relas} {op : Op} {fuel : Nat} :
      Reach namecmp outside env P st → P op → st.step namecmp outside env fuel op = some st' → Reach namecmp outside env P st'

/-- The table related to. -/
def next (c : CtxId) : Option CtxId := ctxOf (st.rela c)

/-- No table from `c` on that is looked up in an index and has a relation of its own has records that are taken out. -/
def Calm (areas : Areas) (c : CtxId) : Prop := ∀ n ts, st.chain n c = some (.ok ts) → Nav.Calm (ts.map fun t => (areas t).kind)

/-- Every target is a context, every chain of relations ends, and so do the recursions along it. -/
structure Right (outside : Int → Int) : Prop where
  valid : ∀ c, st.rela c = -1 ∨ (0 ≤ st.rela c ∧ st.rela c < MAXCTX)
  ends : ∀ c, Ends st.next c
  cyclic : ∀ c, ∃ fuel b, st.cyclic outside fuel (st.rela c) = some b
  setetof : ∀ dir areas c, ∃ fuel r, st.setetof dir fuel areas c = some r
  goRel : ∀ env areas stack c, st.Calm areas c → ∃ fuel r, st.goRel env fuel areas stack c = some r

/-- A number that is given as the table related to is not below -1. -/
def Op.Ok : Op → Prop
  | .setRelation (some (.number n, _)) => -1 ≤ n.toInt32.toInt
  | _ => True

/-! ## Chains of relations -/

/-- Every target is a context, and every chain of relations ends. -/
structure Sound : Prop where
  valid : ∀ c, st.rela c = -1 ∨ (0 ≤ st.rela c ∧ st.rela c < MAXCTX)
  ends : ∀ c, Ends st.next c

variable {st} {st' : Relas} {outside : Int → Int} {namecmp : List UInt8 → List UInt8 → Bool} {c t : CtxId} {i : Int}

theorem ctxOf_val (c : CtxId) : ctxOf (c.val : Int) = some c := by
  have := c.isLt
  unfold ctxOf
  rw [dif_pos (by omega)]
  rfl

theorem ctxOf_eq_some (h : 0 ≤ i) (h' : i < MAXCTX) : ∃ t : CtxId, ctxOf i = some t ∧ (t.val : Int) = i := by
  refine ⟨⟨i.toNat, by omega⟩, ?_, by simp; omega⟩
  unfold ctxOf
  rw [dif_pos (by omega)]

/-- Setting the table related to sets the next one. -/
theorem next_of_update {rela : CtxId → Int} (h : st'.rela = Function.update rela c i) (hr : rela = st.rela) :
    st'.next = Function.update st.next c (ctxOf i) := by
  funext a
  unfold next
  rw [h, hr]
  by_cases hac : a = c
  · rw [hac, Function.update_self, Function.update_self]
  · rw [Function.update_of_ne hac, Function.update_of_ne hac]

theorem Sound.congr (h : st.Sound) (hr : st'.rela = st.rela) : st'.Sound := by
  have hnext : st'.next = st.next := by
    unfold next
    rw [hr]
  exact ⟨hr ▸ h.valid, hnext ▸ h.ends⟩

/-- Without its relation a context ends all chains that come to it. -/
theorem Sound.cut (h : st.Sound) (hr : st'.rela = Function.update st.rela c (-1)) : st'.Sound := by
  constructor
  · intro a
    rw [hr]
    by_cases hac : a = c
    · rw [hac, Function.update_self]
      exact .inl rfl
    · rw [Function.update_of_ne hac]
      exact h.valid a
  · intro a
    rw [next_of_update hr rfl]
    exact ends_cut h.ends c a

theorem Sound.link (h : st.Sound) (hr : st'.rela = Function.update st.rela c i) (h0 : 0 ≤ i) (hi : i < MAXCTX)
    (hc : ∀ t, ctxOf i = some t → ¬Reaches st.next t c) : st'.Sound := by
  obtain ⟨t, ht, -⟩ := ctxOf_eq_some h0 hi
  constructor
  · intro a
    rw [hr]
    by_cases hac : a = c
    · rw [hac, Function.update_self]
      exact .inr ⟨h0, hi⟩
    · rw [Function.update_of_ne hac]
      exact h.valid a
  · intro a
    rw [next_of_update hr rfl, ht]
    exact ends_link h.ends (hc t ht) a

/-! ### The functions along a chain -/

/-- A relation is not set, or leads to the next context. -/
theorem Sound.rela_cases (h : st.Sound) (c : CtxId) : st.rela c = -1 ∨ ∃ t, st.next c = some t ∧ st.rela c = t.val := by
  rcases h.valid c with hv | ⟨h0, hlt⟩
  · exact .inl hv
  · obtain ⟨t, ht, hval⟩ := ctxOf_eq_some h0 hlt
    exact .inr ⟨t, ht, hval.symm⟩

theorem cyclic_val (st : Relas) (outside : Int → Int) (fuel : Nat) (c : CtxId) :
    st.cyclic outside (fuel + 1) c.val = if c = st.cur then some true else st.cyclic outside fuel (st.rela c) := by
  have hne : (c.val : Int) ≠ -1 := by omega
  have hcur : (c.val : Int) = st.cur.val ↔ c = st.cur := by
    rw [Fin.ext_iff]
    omega
  rw [cyclic, if_neg hne, if_congr hcur rfl rfl]
  unfold relaAt
  rw [ctxOf_val]

theorem Sound.cyclic_val_returns (h : st.Sound) (outside : Int → Int) (c : CtxId) : ∃ fuel b, st.cyclic outside fuel c.val = some b := by
  refine (h.ends c).rec_on (P := fun c => ∃ fuel b, st.cyclic outside fuel c.val = some b) fun c ih => ?_
  by_cases hc : c = st.cur
  · refine ⟨1, true, ?_⟩
    rw [cyclic_val, if_pos hc]
  rcases h.rela_cases c with hr | ⟨t, ht, hr⟩
  · refine ⟨2, false, ?_⟩
    rw [cyclic_val, if_neg hc, hr]
    rfl
  · obtain ⟨fuel, b, hb⟩ := ih t ht
    refine ⟨fuel + 1, b, ?_⟩
    rw [cyclic_val, if_neg hc, hr]
    exact hb

theorem Sound.cyclic_returns (h : st.Sound) (outside : Int → Int) (hi : i = -1 ∨ (0 ≤ i ∧ i < MAXCTX)) :
    ∃ fuel b, st.cyclic outside fuel i = some b := by
  rcases hi with rfl | ⟨h0, hlt⟩
  · exact ⟨1, false, rfl⟩
  · obtain ⟨t, -, rfl⟩ := ctxOf_eq_some h0 hlt
    exact h.cyclic_val_returns outside t

/-- Where `cyclic` finds no cycle, the chain does not come to the current context. -/
theorem Sound.not_reaches (h : st.Sound) {fuel : Nat} (hc : st.cyclic outside fuel c.val = some false) : ¬Reaches st.next c st.cur := by
  rintro ⟨n, hn⟩
  induction n generalizing c fuel with
  | zero =>
    have heq : c = st.cur := Option.some.inj hn
    cases fuel with
    | zero => exact absurd hc (Option.some_ne_none false).symm
    | succ fuel =>
      rw [cyclic_val, if_pos heq] at hc
      exact absurd hc (by simp)
  | succ n ih =>
    cases fuel with
    | zero => exact absurd hc (Option.some_ne_none false).symm
    | succ fuel =>
      by_cases heq : c = st.cur
      · rw [cyclic_val, if_pos heq] at hc
        exact absurd hc (by simp)
      rw [cyclic_val, if_neg heq] at hc
      rcases h.rela_cases c with hr | ⟨t, ht, hr⟩
      · have hnext : st.next c = none := by
          unfold next
          rw [hr]
          rfl
        rw [chase, hnext] at hn
        exact absurd hn (Option.some_ne_none st.cur).symm
      · rw [chase, ht] at hn
        rw [hr] at hc
        exact ih hc hn

/-- `ctx_select` of a target goes to the next context. -/
theorem select_of_next (areas : Areas) (ht : st.next c = some t) : ∃ areas', st.select areas (st.rela c) = .ok (t, areas') := by
  unfold select
  rw [show ctxOf (st.rela c) = some t from ht]
  exact ⟨_, rfl⟩

theorem Sound.setetof_returns (h : st.Sound) (dir : Option Dir) (areas : Areas) (c : CtxId) :
    ∃ fuel r, st.setetof dir fuel areas c = some r := by
  refine (h.ends c).rec_on (P := fun c => ∀ areas, ∃ fuel r, st.setetof dir fuel areas c = some r) (fun c ih areas => ?_) areas
  rcases hk : st.setEnd dir areas c with e | a
  · refine ⟨1, .error e, ?_⟩
    rw [setetof, hk]
  rcases h.rela_cases c with hr | ⟨t, ht, -⟩
  · refine ⟨1, .ok (Function.update areas c a), ?_⟩
    rw [setetof, hk]
    simp [hr]
  · obtain ⟨areas', hsel⟩ := select_of_next (Function.update areas c a) ht
    obtain ⟨fuel, r, hr⟩ := ih t ht areas'
    by_cases hgo : ((Function.update areas c a) c).etof none && st.rela c ≠ -1
    · refine ⟨fuel + 1, r, ?_⟩
      rw [setetof, hk]
      dsimp only
      rw [if_pos hgo, hsel]
      exact hr
    · refine ⟨1, .ok (Function.update areas c a), ?_⟩
      rw [setetof, hk]
      exact if_neg hgo

/-- The contexts along a chain do not depend on the number that is allowed. -/
theorem chain_mono {r : Except RelErr (List CtxId)} {n m : Nat} (h : st.chain n c = some r) (hle : n ≤ m) : st.chain m c = some r := by
  induction n generalizing c m r with
  | zero => cases h
  | succ n ih =>
    obtain ⟨m, rfl⟩ : ∃ k, m = k + 1 := ⟨m - 1, by omega⟩
    rw [chain] at h ⊢
    split_ifs at h ⊢ with hset
    · exact h
    · cases ht : ctxOf (st.rela c) with
      | none =>
        rw [ht] at h
        exact h
      | some t =>
        rw [ht] at h
        dsimp only at h ⊢
        obtain ⟨r', hr', heq⟩ := Option.map_eq_some_iff.1 h
        rw [ih hr' (by omega)]
        exact congrArg some heq

theorem Sound.chain_ends (h : st.Sound) (c : CtxId) : ∃ n ts, st.chain n c = some (.ok ts) := by
  refine (h.ends c).rec_on (P := fun c => ∃ n ts, st.chain n c = some (.ok ts)) fun c ih => ?_
  by_cases hset : !st.relationIsset c
  · refine ⟨1, [], ?_⟩
    rw [chain, if_pos hset]
  rcases h.rela_cases c with hr | ⟨t, ht, -⟩
  · exact absurd (by simp [relationIsset, hr]) hset
  · obtain ⟨n, ts, hts⟩ := ih t ht
    refine ⟨n + 1, t :: ts, ?_⟩
    rw [chain, if_neg hset, show ctxOf (st.rela c) = some t from ht]
    dsimp only
    rw [hts]
    rfl

theorem selected_kind (areas : Areas) (c : CtxId) : (st.selected areas c).kind = (areas c).kind := by
  unfold selected
  split
  · rfl
  · exact Area.mark_kind _ _

theorem Sound.goRel_returns (h : st.Sound) (env : Nav.Env) {areas : Areas} (stack : Hb.Stack) (hcalm : st.Calm areas c) :
    ∃ fuel r, st.goRel env fuel areas stack c = some r := by
  obtain ⟨n, ts, hts⟩ := h.chain_ends c
  have hkinds : (st.world areas stack c ts).kinds = (areas c).kind :: ts.map fun t => (areas t).kind := by
    simp [Nav.World.kinds, world, selected_kind, Function.comp_def]
  obtain ⟨fuel, hn, hm⟩ : ∃ fuel, n ≤ fuel ∧ (ts.map fun t => (areas t).kind).length * (env.cap + 8) + 1 ≤ fuel :=
    ⟨_, le_max_left _ _, le_max_right _ _⟩
  obtain ⟨-, herr⟩ := ensures_iff.1 (Nav.calm_returns env (areas c).kind (hcalm n ts hts) _ _ hkinds hm)
  refine ⟨fuel, ?_⟩
  unfold goRel
  rw [chain_mono hts hn]
  dsimp only
  split
  · exact ⟨_, rfl⟩
  · rename_i hout
    exact absurd rfl (herr _ _ hout)
  · exact ⟨_, rfl⟩

theorem Sound.right (h : st.Sound) (outside : Int → Int) : st.Right outside :=
  ⟨h.valid, h.ends, fun c => h.cyclic_returns outside (h.valid c), h.setetof_returns, fun env _ stack _ => h.goRel_returns env stack⟩

/-! ### Steps -/

theorem Sound.cleandb (h : st.Sound) (c : CtxId) : (st.cleandb c).Sound := by
  unfold Relas.cleandb
  split
  · exact h.cut rfl
  · exact h

theorem Sound.use (h : st.Sound) (table : Option (List UInt8 × Option Area)) : (st.use table).Sound := by
  unfold Relas.use
  rcases table with _ | ⟨name, opened⟩
  · exact h.cleandb _
  · exact (h.cleandb _).congr rfl

theorem Sound.cleardb (h : st.Sound) : st.cleardb.Sound := by
  unfold Relas.cleardb
  refine List.foldlRecOn (List.finRange MAXCTX) _ h fun st hst i _ => ?_
  exact hst.cleandb _

/-- An alias is the name of a context. -/
theorem alias2ctx_range {v : List UInt8} (h : st.alias2ctx namecmp v = .ok i) : 0 ≤ i ∧ i < MAXCTX := by
  have hname : ∀ r : Except RelErr Int, (match (List.finRange MAXCTX).find? fun i => namecmp (st.aliases i.castSucc) v with
      | some i => .ok (i.val : Int)
      | none => .error .noSuchAlias) = r → r = .ok i → 0 ≤ i ∧ i < MAXCTX := by
    intro r hr hri
    subst hr
    split at hri
    · rename_i j _
      have hj : (j.val : Int) = i := Except.ok.inj hri
      have := j.isLt
      omega
    · cases hri
  unfold alias2ctx at h
  dsimp only at h
  split at h
  · rename_i c
    split at h
    · rename_i hc
      have hmax : MAXCTX = 100 := rfl
      have hi : ((toUpper c).toNat - 65 : Nat) = i := Except.ok.inj h
      rw [Bool.and_eq_true, decide_eq_true_iff, decide_eq_true_iff, UInt8.le_iff_toNat_le, UInt8.le_iff_toNat_le] at hc
      have h90 : (90 : UInt8).toNat = 90 := rfl
      omega
    · exact hname _ rfl h
  · exact hname _ rfl h

/-- Moving the cursors leaves the relations as they are. -/
theorem gotop_rela {env : Nav.Env} {fuel : Nat} {e : Option RelErr} (h : st.gotop env fuel = some (st', e)) : st'.rela = st.rela := by
  unfold gotop at h
  split at h
  · cases h
  · exact congrArg (fun r : Relas × Option RelErr => r.1.rela) (Option.some.inj h).symm
  · split at h
    · exact congrArg (fun r : Relas × Option RelErr => r.1.rela) (Option.some.inj h).symm
    · cases h
    · exact congrArg (fun r : Relas × Option RelErr => r.1.rela) (Option.some.inj h).symm

/-- What `setRelation` leaves: no relation of the current context, or a target that has passed the checks. -/
theorem setRelation_cases {env : Nav.Env} {fuel : Nat} {arg : Option (Target × AddExp)} {e : Option RelErr}
    (h : st.setRelation outside namecmp env fuel arg = some (st', e)) :
    st' = st ∨ st' = st.unsetRelation ∨ ∃ t exp i, arg = some (t, exp) ∧ st.unsetRelation.target namecmp t = .ok i ∧ i < MAXCTX ∧
      st.unsetRelation.cyclic outside fuel i = some false ∧ st'.rela = Function.update st.unsetRelation.rela st.cur i := by
  unfold setRelation at h
  split at h
  · exact .inl (Prod.ext_iff.mp (Option.some.inj h)).1.symm
  refine .inr ?_
  dsimp only at h
  split at h
  · exact .inl (Prod.ext_iff.mp (Option.some.inj h)).1.symm
  · rename_i t exp
    split at h
    · exact .inl (Prod.ext_iff.mp (Option.some.inj h)).1.symm
    · rename_i i hi
      split at h
      · exact .inl (Prod.ext_iff.mp (Option.some.inj h)).1.symm
      · rename_i hlt
        split at h
        · exact absurd h (by simp)
        · exact .inl (Prod.ext_iff.mp (Option.some.inj h)).1.symm
        · rename_i hcyc
          refine .inr ⟨t, exp, i, rfl, hi, by omega, hcyc, ?_⟩
          split at h
          · exact congrArg Relas.rela (Prod.ext_iff.mp (Option.some.inj h)).1.symm
          · exact congrArg Relas.rela (Prod.ext_iff.mp (Option.some.inj h)).1.symm
          · exact gotop_rela h

/-- A target is -1 or the number of a context, when it is not a number below -1. -/
theorem target_range {t : Target} {exp : AddExp} (hop : Op.Ok (.setRelation (some (t, exp)))) (ht : st.target namecmp t = .ok i)
    (hlt : i < MAXCTX) : i = -1 ∨ (0 ≤ i ∧ i < MAXCTX) := by
  cases t with
  | name v => exact .inr (alias2ctx_range ht)
  | number n =>
    have hn : n.toInt32.toInt = i := Except.ok.inj ht
    have hok : -1 ≤ n.toInt32.toInt := hop
    omega
  | other => cases ht

theorem Sound.setRelation (h : st.Sound) {env : Nav.Env} {fuel : Nat} {arg : Option (Target × AddExp)} {e : Option RelErr}
    (hop : Op.Ok (.setRelation arg)) (hs : st.setRelation outside namecmp env fuel arg = some (st', e)) : st'.Sound := by
  have hunset : st.unsetRelation.Sound := h.cut rfl
  rcases setRelation_cases hs with rfl | rfl | ⟨t, exp, i, rfl, ht, hlt, hcyc, hr⟩
  · exact h
  · exact hunset
  · rcases target_range hop ht hlt with rfl | ⟨h0, -⟩
    · exact hunset.cut hr
    · refine hunset.link hr h0 hlt fun t ht => ?_
      obtain ⟨t', ht', hval⟩ := ctxOf_eq_some h0 hlt
      rw [ht', Option.some_inj] at ht
      subst ht
      rw [← hval] at hcyc
      exact hunset.not_reaches hcyc

theorem Sound.step (h : st.Sound) {env : Nav.Env} {op : Op} {fuel : Nat} (hop : op.Ok) (hs : st.step namecmp outside env fuel op = some st') :
    st'.Sound := by
  cases op with
  | select i =>
    rw [← Option.some.inj hs]
    split
    · exact h.congr rfl
    · exact h
  | use table =>
    rw [← Option.some.inj hs]
    exact h.use table
  | closeAll =>
    rw [← Option.some.inj hs]
    exact h.cleardb
  | setRelation arg =>
    obtain ⟨⟨st'', e⟩, hrun, rfl⟩ := Option.map_eq_some_iff.mp hs
    exact h.setRelation hop hrun
  | cursors areas stack =>
    rw [← Option.some.inj hs]
    exact h.congr rfl

theorem fresh_sound : fresh.Sound := ⟨fun _ => .inl rfl, fun _ => ends_of_none rfl⟩

/-- In a run in which no number below -1 is given as a table to relate to, relations never form a cycle: targets are contexts, chains end, and the
functions that follow them return, `go_rel` where no record of a table with a relation of its own is taken out. -/
theorem relations_end (namecmp : List UInt8 → List UInt8 → Bool) (outside : Int → Int) (env : Nav.Env) {st : Relas}
    (h : Reach namecmp outside env Op.Ok st) : st.Right outside := by
  have hsound : st.Sound := by
    induction h with
    | fresh => exact fresh_sound
    | step _ hop hs ih => exact ih.step hop hs
  exact hsound.right outside

/-- A table of one record, related by its number. -/
def oneRec : Area := { closed with reccnt := 1, relation := fun _ => .number (.fixed 1 0) }

/-- Two tables are opened, and the second one related to what `t` says. -/
def twoTables (t : Target) : List Op :=
  [.use (some ([65], some oneRec)), .select 1, .use (some ([66], some oneRec)), .setRelation (some (t, .done fun _ => .number (.fixed 1 0)))]

def plainEnv : Nav.Env := ⟨⟨false, false⟩, false, 64, 4, fun _ => 0, [], 0⟩

/-- The state behind a list of steps. -/
def runOps (ops : List Op) : Option Relas := ops.foldlM (fun st op => st.step (fun a b => a == b) (fun _ => 0) plainEnv 6 op) fresh

theorem reach_runOps {P : Op → Prop} {ops : List Op} (hops : ∀ op ∈ ops, P op) (h : runOps ops = some st) :
    Reach (fun a b => a == b) (fun _ => 0) plainEnv P st := by
  induction ops using List.reverseRecOn generalizing st with
  | nil =>
    rw [← Option.some.inj h]
    exact .fresh
  | append_singleton ops op ih =>
    unfold runOps at h ih
    rw [List.foldlM_append] at h
    obtain ⟨st₁, h₁, h₂⟩ := Option.bind_eq_some_iff.mp h
    rw [List.foldlM_cons] at h₂
    obtain ⟨st₂, hs, h₃⟩ := Option.bind_eq_some_iff.mp h₂
    rw [← Option.some.inj h₃]
    exact .step (ih (fun op hop => hops op (List.mem_append_left _ hop)) h₁) (hops op (List.mem_append_right _ List.mem_cons_self)) hs

/-- The second table is related to the first one, which shows the record it is related by. -/
theorem relations_end_two : ∃ st, (runOps (twoTables (.name [65]))).map (fun st => (st.rela 1, st.relation 1, (st.area 0).crntrec)) = some (0, true, 1) ∧
    runOps (twoTables (.name [65])) = some st ∧ st.Right fun _ => 0 := by
  have hrun : (runOps (twoTables (.name [65]))).map (fun st => (st.rela 1, st.relation 1, (st.area 0).crntrec)) = some (0, true, 1) := by
    decide +kernel
  obtain ⟨st, hst, -⟩ := Option.map_eq_some_iff.mp hrun
  refine ⟨st, hrun, hst, relations_end (fun a b => a == b) (fun _ => 0) plainEnv (reach_runOps ?_ hst)⟩
  simp [twoTables, Op.Ok]

/-- A relation to the table -2 is stored. -/
theorem relation_fails : ¬∀ st, Reach (fun a b => a == b) (fun _ => 0) plainEnv (fun _ => True) st → st.Right fun _ => 0 := by
  intro h
  have hrun : (runOps (twoTables (.number (-2)))).map (fun st => st.rela 1) = some (-2) := by decide +kernel
  obtain ⟨st, hst, hrela⟩ := Option.map_eq_some_iff.mp hrun
  have hvalid := (h st (reach_runOps (fun _ _ => trivial) hst)).valid 1
  rw [hrela] at hvalid
  omega

end Relas

end Db3w
