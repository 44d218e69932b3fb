/-
Evaluation at once and compilation. The parser takes the same decisions in both modes, since it looks at
the tokens alone. While the session executes, it carries out the instructions that compilation puts
into the block, in their order, and between them the checks of arguments, which compilation leaves out.
-/
import Db3w.Hb.Compile
import Db3w.Hb.ParmChk

namespace Db3w.Hb

/-! ## Instructions and checks -/

/-- What the parser carries out: an instruction, or the check of an argument of a function. -/
inductive Item where
  | op (i : PCode)
  | chk (fcn : Option Nat) (cnt : Nat)

/-- The instructions among them. -/
def codeOf (items : List Item) : List PCode :=
  items.filterMap fun
    | .op i => some i
    | .chk _ _ => none

section Items

variable {σ : Type} (m : Machine σ) (lx : Lexicon)

def runItem (data : List HbVal) : Item → World σ → Res σ (World σ)
  | .op i, w => hbint m i.opcode i.opnd data w
  | .chk fcn cnt, w => w.onStack (lx.parmVal fcn cnt)

def runItems (data : List HbVal) : List Item → World σ → Res σ (World σ)
  | [], w => .ok w
  | i :: is, w => (runItem m lx data i w).bind (runItems data is)

/-- The checks that are met let the arguments pass as they are. -/
def ChecksPass (data : List HbVal) : List Item → World σ → Prop
  | [], _ => True
  | .chk fcn cnt :: is, w => lx.parmVal fcn cnt w.stack = .ok w.stack ∧ ChecksPass data is w
  | .op i :: is, w => ∀ w', hbint m i.opcode i.opnd data w = .ok w' → ChecksPass data is w'

variable {m lx}

@[simp] theorem codeOf_append (a b : List Item) : codeOf (a ++ b) = codeOf a ++ codeOf b := List.filterMap_append

theorem runItems_append (data : List HbVal) (a b : List Item) (w : World σ) :
    runItems m lx data (a ++ b) w = (runItems m lx data a w).bind (runItems m lx data b) := by
  induction a generalizing w with
  | nil => rfl
  | cons i a ih =>
    rw [List.cons_append]
    unfold runItems
    cases runItem m lx data i w with
    | error e => rfl
    | ok w' => exact ih w'

/-- Where the checks let everything pass, only the instructions count. -/
theorem ChecksPass.runItems {data : List HbVal} {items : List Item} {w : World σ} (h : ChecksPass m lx data items w) :
    runItems m lx data items w = runCode m data (codeOf items) w := by
  induction items generalizing w with
  | nil => rfl
  | cons item items ih =>
    cases item with
    | op i =>
      show (hbint m i.opcode i.opnd data w).bind _ = (hbint m i.opcode i.opnd data w).bind _
      cases hi : hbint m i.opcode i.opnd data w with
      | error e => rfl
      | ok w' => exact ih (h w' hi)
    | chk fcn cnt =>
      show (w.onStack (lx.parmVal fcn cnt)).bind _ = runCode m data (codeOf items) w
      unfold World.onStack
      rw [h.1]
      exact ih h.2

end Items

/-! ## The two modes -/

/-- `TTOK`, `TEOF`: the kinds that are not bytes, apart from that of a macro. -/
abbrev TTOK : Nat := 0x1001
abbrev TEOF : Nat := 0x7fff

/-- A token as the scanner makes it, and no macro. -/
def Token.Lexed (t : Token) : Prop := t.kind < 256 ∨ t.kind = TTOK ∨ t.kind = TEOF

instance (t : Token) : Decidable t.Lexed := inferInstanceAs (Decidable (_ ∨ _))

/-- What the parser relies on: functions have numbers in the table of functions, and a date is read from the tokens ahead. -/
structure Lexicon.Lawful (lx : Lexicon) : Prop where
  functionId : ∀ s no, lx.functionId s = some no → no < 256
  processDate : ∀ ts d ts', lx.processDate ts = .ok (d, ts') → ∀ t ∈ ts', t ∈ ts

theorem lexed_op {t : Token} (h : t.Lexed) {k : Nat} (hop : isOpAt k t.kind = true) : t.kind < 256 := by
  rcases h with h | h | h
  · exact h
  all_goals
    rw [h] at hop
    match k with
    | 0 | 1 | 2 | 3 | 4 | 5 => exact absurd hop (by decide)
    | k + 6 => cases hop

namespace PSt

variable {σ : Type}

def withExe (ps : PSt σ) (w : World σ) : PSt σ := { ps with exe := some w }

theorem withExe_currText (ps : PSt σ) (w : World σ) : (ps.withExe w).currText = ps.currText := rfl

theorem withExe_toks (ps : PSt σ) (w : World σ) : (ps.withExe w).toks = ps.toks := rfl

end PSt

section Modes

variable {σ : Type} (m : Machine σ) (lx : Lexicon)

/-- A parser that compiles. -/
structure Good (ps : PSt σ) : Prop where
  exe : ps.exe = none
  code : ps.code.length ≤ CODE_LIMIT
  toks : ∀ t ∈ ps.toks, t.Lexed

def lift (ps : PSt σ) : Res σ (World σ) → PRes σ (PSt σ)
  | .ok w => .ok (ps.withExe w)
  | .error (e, s) => .error (e, some s)

def thenError (e : HbErr) : Res σ (World σ) → PRes σ (PSt σ)
  | .ok w => .error (e, some w.state)
  | .error (e', s) => .error (e', some s)

/-- What `x` emits from `ps` on, at least `n` instructions, is what `y` carries out, with some checks between. Where `x`
fails, so does `y`, if nothing it carries out before has failed. -/
def Emits (n : Nat) (ps : PSt σ) (x : PRes σ (PSt σ)) (y : World σ → PRes σ (PSt σ)) : Prop :=
  match x with
  | .ok ps' => Good ps' ∧ ∃ items, ps'.code = ps.code ++ codeOf items ∧ Straight (codeOf items) ∧ ps.data <+: ps'.data ∧
      n ≤ (codeOf items).length ∧ ∀ data, ps'.data <+: data → ∀ w, y w = lift ps' (runItems m lx data items w)
  | .error (e, _) => ∃ items data, ps.data <+: data ∧ ∀ w, y w = thenError e (runItems m lx data items w)

/-- The two modes of a part of the parser. -/
def Sim (n : Nat) (f : PSt σ → PRes σ (PSt σ)) : Prop := ∀ ps, Good ps → Emits m lx n ps (f ps) fun w => f (ps.withExe w)

variable {m lx} {n : Nat} {ps : PSt σ}

theorem Good.getToken (h : Good ps) : Good ps.getToken :=
  ⟨h.exe, h.code, fun t ht => h.toks t (List.mem_of_mem_tail ht)⟩

theorem emits_ok (h : Good ps) : Emits m lx 0 ps (.ok ps) fun w => .ok (ps.withExe w) :=
  ⟨h, [], (List.append_nil _).symm, fun _ hi => (by cases hi), List.prefix_rfl, le_rfl, fun _ _ _ => rfl⟩

theorem emits_synErr (e : HbErr) : Emits m lx n ps (ps.synErr e) fun w => (ps.withExe w).synErr e :=
  ⟨[], ps.data, List.prefix_rfl, fun _ => rfl⟩

/-- A decision that both modes take alike. -/
theorem emits_if {p : Prop} [Decidable p] {q : World σ → Prop} [∀ w, Decidable (q w)] {x x' : PRes σ (PSt σ)} {y y' : World σ → PRes σ (PSt σ)}
    (hq : ∀ w, q w ↔ p) (h : p → Emits m lx n ps x y) (h' : ¬p → Emits m lx n ps x' y') :
    Emits m lx n ps (if p then x else x') fun w => if q w then y w else y' w := by
  by_cases hp : p
  · rw [if_pos hp, show (fun w => if q w then y w else y' w) = y from funext fun w => if_pos ((hq w).2 hp)]
    exact h hp
  · rw [if_neg hp, show (fun w => if q w then y w else y' w) = y' from funext fun w => if_neg fun h => hp ((hq w).1 h)]
    exact h' hp

/-- One part after the other. -/
theorem Emits.bind {a b : Nat} {x : PRes σ (PSt σ)} {y : World σ → PRes σ (PSt σ)} {f : PSt σ → PRes σ (PSt σ)}
    (h : Emits m lx a ps x y) (hf : ∀ ps', Good ps' → ps.code.length + a ≤ ps'.code.length → ps.data <+: ps'.data →
      Emits m lx b ps' (f ps') fun w => f (ps'.withExe w)) (hn : n ≤ a + b) : Emits m lx n ps (x >>= f) fun w => y w >>= f := by
  cases x with
  | error e =>
    obtain ⟨items, data, hdata, hrun⟩ := h
    refine ⟨items, data, hdata, fun w => ?_⟩
    dsimp only
    rw [hrun]
    cases runItems m lx data items w <;> rfl
  | ok ps' =>
    obtain ⟨hg, items, hcode, hs, hdata, ha, hrun⟩ := h
    have hlen : ps.code.length + a ≤ ps'.code.length := by
      rw [hcode, List.length_append]
      omega
    have hnext := hf ps' hg hlen hdata
    show Emits m lx n ps (f ps') _
    cases hfp : f ps' with
    | error e =>
      rw [hfp] at hnext
      obtain ⟨items', data, hdata', hrun'⟩ := hnext
      refine ⟨items ++ items', data, hdata.trans hdata', fun w => ?_⟩
      dsimp only
      rw [hrun data hdata' w, runItems_append]
      cases runItems m lx data items w with
      | error e => rfl
      | ok w' => exact hrun' w'
    | ok ps'' =>
      rw [hfp] at hnext
      obtain ⟨hg', items', hcode', hs', hdata', hb, hrun'⟩ := hnext
      refine ⟨hg', items ++ items', ?_, ?_, hdata.trans hdata', ?_, fun data hd w => ?_⟩
      · rw [hcode', hcode, codeOf_append, List.append_assoc]
      · intro i hi
        rw [codeOf_append] at hi
        exact (List.mem_append.mp hi).elim (hs i) (hs' i)
      · rw [codeOf_append, List.length_append]
        omega
      · dsimp only
        rw [hrun data (hdata'.trans hd) w, runItems_append]
        cases runItems m lx data items w with
        | error e => rfl
        | ok w' => exact hrun' data hd w'

/-! ## Emission in the two modes -/

/-- The operand of the instruction does not depend on literals still to come. -/
def OpndOk (opcode opnd : Nat) (data : List HbVal) : Prop :=
  opcode ∈ [UOP, BOP, PUSH_N, FCN, DRETRV] ∨ (opcode = NRETRV ∧ opnd = OPND_ON_STACK) ∨ opnd < data.length

theorem hbint_ext {opcode opnd : Nat} {data data' : List HbVal} (h : OpndOk opcode opnd data) (hd : data <+: data') (w : World σ) :
    hbint m opcode opnd data' w = hbint m opcode opnd data w := by
  rcases h with h | ⟨rfl, rfl⟩ | h
  · simp only [List.mem_cons, List.not_mem_nil, or_false] at h
    rcases h with rfl | rfl | rfl | rfl | rfl <;> rfl
  · rfl
  · obtain ⟨more, rfl⟩ := hd
    unfold hbint retriev usrfcn arraychk
    rw [literal_append h]

theorem emits_codegen {opcode opnd : Nat} (hop : opcode < 0x80) (hopnd : opnd < 256) (hps : Good ps) (hok : OpndOk opcode opnd ps.data) :
    Emits m lx 1 ps (codegen m opcode opnd ps) fun w => codegen m opcode opnd (ps.withExe w) := by
  unfold codegen
  rw [hps.exe]
  by_cases hlen : ps.code.length = CODE_LIMIT
  · simp only [show ∀ w, (ps.withExe w).code = ps.code from fun _ => rfl, if_pos hlen]
    exact emits_synErr _
  simp only [show ∀ w, (ps.withExe w).code = ps.code from fun _ => rfl, if_neg hlen]
  have hmk : PCode.mk8 opcode opnd = ⟨opcode, opnd⟩ := by
    unfold PCode.mk8
    rw [Nat.mod_eq_of_lt (by omega), Nat.mod_eq_of_lt hopnd]
  have hgood : Good { ps with code := ps.code ++ [.mk8 opcode opnd] } := by
    refine ⟨hps.exe, ?_, hps.toks⟩
    have := hps.code
    simp only [List.length_append, List.length_singleton]
    omega
  refine ⟨?_, [.op ⟨opcode, opnd⟩], ?_, ?_, List.prefix_rfl, le_rfl, fun data hd w => ?_⟩
  · rw [hps.exe] at hgood
    exact hgood
  · rw [hmk]
    rfl
  · intro i hi
    rw [List.mem_singleton.mp hi]
    exact hop
  · have hrun : hbint m opcode opnd (ps.withExe w).data w = hbint m opcode opnd data w := (hbint_ext hok hd w).symm
    dsimp only [PSt.withExe, runItems, runItem] at hrun ⊢
    rw [hrun]
    cases hbint m opcode opnd data w with
    | error e => rfl
    | ok w' => rfl

/-- A literal is loaded, and its number used. -/
theorem emits_load {v : HbVal} {k : Nat → PSt σ → PRes σ (PSt σ)} (hps : Good ps)
    (hk : ∀ i ps', Good ps' → i < 256 → i < ps'.data.length → ps'.toks = ps.toks → ps'.code = ps.code → ps.data <+: ps'.data →
      Emits m lx n ps' (k i ps') fun w => k i (ps'.withExe w)) :
    Emits m lx n ps (load v ps >>= fun r => k r.1 r.2) fun w => load v (ps.withExe w) >>= fun r => k r.1 r.2 := by
  unfold load
  simp only [show ∀ w, (ps.withExe w).data = ps.data from fun _ => rfl]
  by_cases hlen : ps.data.length ≥ DATA_LIMIT
  · simp only [if_pos hlen]
    exact emits_synErr _
  simp only [if_neg hlen]
  by_cases hsize : cbDataOffset ps.data ps.data.length + v.size ≥ SIZE_LIMIT
  · simp only [if_pos hsize]
    exact emits_synErr _
  simp only [if_neg hsize]
  have hlim : DATA_LIMIT = 256 := rfl
  have hnext := hk ps.data.length { ps with data := ps.data ++ [v] } ⟨hps.exe, hps.code, hps.toks⟩ (by omega) (by simp) rfl rfl
    (List.prefix_append _ _)
  show Emits m lx n ps (k ps.data.length { ps with data := ps.data ++ [v] }) _
  cases hkp : k ps.data.length { ps with data := ps.data ++ [v] } with
  | error e =>
    rw [hkp] at hnext
    obtain ⟨items, data, hdata, hrun⟩ := hnext
    exact ⟨items, data, (List.prefix_append _ _).trans hdata, hrun⟩
  | ok ps' =>
    rw [hkp] at hnext
    obtain ⟨hg, items, hcode, hs, hdata, hn, hrun⟩ := hnext
    exact ⟨hg, items, hcode, hs, (List.prefix_append _ _).trans hdata, hn, hrun⟩

theorem sim_emitLit {opcode : Nat} (hop : opcode < 0x80) (v : HbVal) : Sim m lx 1 (emitLit m opcode v) := by
  intro ps hps
  exact emits_load hps fun i ps' hg hi hlen _ _ _ => emits_codegen hop hi hg (.inr (.inr hlen))

/-! ## Levels in the two modes -/

theorem Sim.getToken {f : PSt σ → PRes σ (PSt σ)} (hf : Sim m lx n f) (hps : Good ps) :
    Emits m lx n ps (f ps.getToken) fun w => f (ps.withExe w).getToken :=
  hf ps.getToken hps.getToken

/-- The operators that a level looks for are bytes. -/
def OpBytes (isOp : Nat → Bool) : Prop := ∀ t : Token, t.Lexed → isOp t.kind = true → t.kind < 256

theorem currTok_byte {isOp : Nat → Bool} (hop : OpBytes isOp) (hps : Good ps) (h : isOp ps.currTok = true) :
    ps.currTok < 256 := by
  unfold PSt.currTok at h ⊢
  cases htoks : ps.toks with
  | nil => decide
  | cons t ts =>
    rw [htoks] at h
    exact hop t (hps.toks t (by rw [htoks]; exact List.mem_cons_self)) h

theorem sim_binLoop {sub : PSt σ → PRes σ (PSt σ)} {isOp : Nat → Bool} (hsub : Sim m lx 1 sub) (hop : OpBytes isOp) (c : Nat) : Sim m lx 0 (binLoop m sub isOp c) := by
  induction c with
  | zero => exact fun ps hps => emits_ok hps
  | succ c ih =>
    intro ps hps
    unfold binLoop
    refine emits_if (fun _ => Iff.rfl) (fun h => ?_) fun _ => emits_ok hps
    have hbyte := currTok_byte hop hps h
    have hcode : ∀ ps', Good ps' → Emits m lx 1 ps' (codegen m BOP ps.currTok ps') fun w => codegen m BOP ps.currTok (ps'.withExe w) :=
      fun ps' hg => emits_codegen (by decide) hbyte hg (.inl (by decide))
    exact (hsub.getToken hps).bind (b := 0) (fun ps' hg _ _ => (hcode ps' hg).bind (fun ps'' hg' _ _ => ih ps'' hg') (Nat.zero_le _))
      (Nat.zero_le _)

theorem sim_level {sub : PSt σ → PRes σ (PSt σ)} {isOp : Nat → Bool} (hsub : Sim m lx 1 sub) (hop : OpBytes isOp) :
    Sim m lx 1 (level m isOp sub) := by
  intro ps hps
  exact (hsub ps hps).bind (fun ps' hg _ _ => sim_binLoop hsub hop ps'.toks.length ps' hg) le_rfl

theorem sim_expression {f : PSt σ → PRes σ (PSt σ)} (hf : Sim m lx 1 f) : Sim m lx 1 (expression m f) := by
  have hbytes : ∀ k, OpBytes (isOpAt k) := fun k t ht hop => lexed_op ht hop
  have hsimple : Sim m lx 1 (simpleExpr m f) := sim_level (sim_level (sim_level hf (hbytes 5)) (hbytes 4)) (hbytes 3)
  have hrel : Sim m lx 1 (relExpr1 m f) := by
    intro ps hps
    refine (hsimple ps hps).bind (b := 0) (fun ps' hg _ _ => ?_) le_rfl
    refine emits_if (fun _ => Iff.rfl) (fun h => ?_) fun _ => emits_ok hg
    have hbyte := currTok_byte (hbytes 2) hg h
    exact (hsimple.getToken hg).bind (fun ps'' hg' _ _ => emits_codegen (by decide) hbyte hg' (.inl (by decide))) (Nat.zero_le _)
  exact sim_level (sim_level hrel (hbytes 1)) (hbytes 0)

/-! ## Factors in the two modes -/

theorem emits_parmChk {final : Bool} {fcn : Option Nat} {cnt : Nat} (hps : Good ps) :
    Emits m lx 0 ps (parmChk lx final fcn cnt ps) fun w => parmChk lx final fcn cnt (ps.withExe w) := by
  unfold parmChk
  by_cases hcnt : lx.parmCnt final fcn cnt = false
  · simp only [if_pos hcnt]
    exact emits_synErr _
  simp only [if_neg hcnt]
  rw [hps.exe]
  by_cases hfinal : final = true
  · simp only [show ∀ w, (ps.withExe w).exe = some w from fun _ => rfl, if_pos hfinal]
    exact emits_ok hps
  · -- the check is carried out, but it is not an instruction
    refine ⟨hps, [.chk fcn cnt], (List.append_nil _).symm, fun _ hi => (by cases hi), List.prefix_rfl, le_rfl, fun data hd w => ?_⟩
    simp only [show ∀ w, (ps.withExe w).exe = some w from fun _ => rfl, if_neg hfinal]
    show _ = lift ps ((w.onStack (lx.parmVal fcn cnt)).bind _)
    unfold World.onStack
    cases lx.parmVal fcn cnt w.stack <;> rfl

theorem argLoop_bind {expr : PSt σ → PRes σ (PSt σ)} {fcn : Option Nat} (c cnt : Nat) (ps : PSt σ) (k : Nat × PSt σ → PRes σ (PSt σ)) :
    argLoop lx expr fcn (c + 1) cnt ps >>= k =
      if ps.getToken.currTok = TRPAREN ∧ cnt = 0 then k (cnt, ps.getToken)
      else expr ps.getToken >>= fun ps => parmChk lx false fcn (cnt + 1) ps >>= fun ps =>
        if ps.currTok = TCOMMA then argLoop lx expr fcn c (cnt + 1) ps >>= k else k (cnt + 1, ps) := by
  rw [argLoop]
  split_ifs with h
  · rfl
  · rw [bind_assoc]
    refine congrArg _ (funext fun ps1 => ?_)
    rw [bind_assoc]
    refine congrArg _ (funext fun ps2 => ?_)
    split_ifs <;> rfl

/-- The arguments of a function, and what is done with their number. -/
theorem emits_argLoop {expr : PSt σ → PRes σ (PSt σ)} (hexpr : Sim m lx 1 expr) {fcn : Option Nat} {k : Nat → PSt σ → PRes σ (PSt σ)}
    {data : List HbVal} (hk : ∀ cnt ps', Good ps' → cnt ≤ ps'.code.length → data <+: ps'.data →
      Emits m lx n ps' (k cnt ps') fun w => k cnt (ps'.withExe w)) (c : Nat) {cnt : Nat} (hps : Good ps) (hcnt : cnt ≤ ps.code.length)
    (hdata : data <+: ps.data) : Emits m lx n ps (argLoop lx expr fcn c cnt ps >>= fun r => k r.1 r.2)
      fun w => argLoop lx expr fcn c cnt (ps.withExe w) >>= fun r => k r.1 r.2 := by
  induction c generalizing cnt ps with
  | zero => exact hk cnt ps hps hcnt hdata
  | succ c ih =>
    simp only [argLoop_bind]
    refine emits_if (fun _ => Iff.rfl) (fun _ => hk cnt ps.getToken hps.getToken hcnt hdata) fun _ => ?_
    refine (hexpr.getToken hps).bind (b := n) (fun ps1 hg1 hlen1 hd1 => ?_) (Nat.le_add_left _ _)
    refine (emits_parmChk hg1).bind (b := n) (fun ps2 hg2 hlen2 hd2 => ?_) (Nat.le_add_left _ _)
    have hlen : ps.getToken.code.length = ps.code.length := rfl
    have hcnt2 : cnt + 1 ≤ ps2.code.length := by omega
    have hdata2 : data <+: ps2.data := hdata.trans (hd1.trans hd2)
    exact emits_if (fun _ => Iff.rfl) (fun _ => ih hg2 hcnt2 hdata2) fun _ => hk (cnt + 1) ps2 hg2 hcnt2 hdata2

theorem dimLoop_bind {expr : PSt σ → PRes σ (PSt σ)} (c dim : Nat) (ps : PSt σ) (k : Nat × PSt σ → PRes σ (PSt σ)) :
    dimLoop expr (c + 1) dim ps >>= k =
      expr ps.getToken >>= fun ps => if ps.currTok = TCOMMA then dimLoop expr c (dim + 1) ps >>= k else k (dim + 1, ps) := by
  rw [dimLoop, bind_assoc]
  refine congrArg _ (funext fun ps1 => ?_)
  split_ifs <;> rfl

theorem emits_dimLoop {expr : PSt σ → PRes σ (PSt σ)} (hexpr : Sim m lx 1 expr) {k : Nat → PSt σ → PRes σ (PSt σ)}
    {data : List HbVal} (hk : ∀ dim ps', Good ps' → dim ≤ ps'.code.length → data <+: ps'.data →
      Emits m lx n ps' (k dim ps') fun w => k dim (ps'.withExe w)) (c : Nat) {dim : Nat} (hps : Good ps) (hdim : dim ≤ ps.code.length)
    (hdata : data <+: ps.data) : Emits m lx n ps (dimLoop expr c dim ps >>= fun r => k r.1 r.2)
      fun w => dimLoop expr c dim (ps.withExe w) >>= fun r => k r.1 r.2 := by
  induction c generalizing dim ps with
  | zero => exact hk dim ps hps hdim hdata
  | succ c ih =>
    simp only [dimLoop_bind]
    refine (hexpr.getToken hps).bind (b := n) (fun ps1 hg1 hlen1 hd1 => ?_) (Nat.le_add_left _ _)
    have hlen : ps.getToken.code.length = ps.code.length := rfl
    have hdim1 : dim + 1 ≤ ps1.code.length := by omega
    exact emits_if (fun _ => Iff.rfl) (fun _ => ih hg1 hdim1 (hdata.trans hd1)) fun _ => hk (dim + 1) ps1 hg1 hdim1 (hdata.trans hd1)

/-- The end of a call, from the closing parenthesis on. -/
def callEnd (m : Machine σ) (lx : Lexicon) (fcn : Option Nat) (opcode opnd cnt : Nat) (ps : PSt σ) : PRes σ (PSt σ) :=
  if ps.currTok ≠ TRPAREN then ps.synErr .missingRparen
  else parmChk lx true fcn cnt ps >>= fun ps => codegen m PUSH_N cnt ps >>= codegen m opcode opnd

theorem callFactor_usr {expr : PSt σ → PRes σ (PSt σ)} (h : lx.functionId ps.currText = none) :
    callFactor m lx expr ps = load (.charctr (tokenStr ps.currText)) ps >>= fun r =>
      argLoop lx expr none r.2.getToken.toks.length 0 r.2.getToken >>= fun a => callEnd m lx none USRFCN r.1 a.1 a.2 := by
  unfold callFactor
  rw [h]
  rfl

theorem callFactor_fcn {expr : PSt σ → PRes σ (PSt σ)} {no : Nat} (h : lx.functionId ps.currText = some no) :
    callFactor m lx expr ps =
      argLoop lx expr (some no) ps.getToken.toks.length 0 ps.getToken >>= fun a => callEnd m lx (some no) FCN no a.1 a.2 := by
  unfold callFactor
  rw [h]
  rfl

theorem emits_callEnd {fcn : Option Nat} {opcode opnd cnt : Nat} (hop : opcode < 0x80) (hopnd : opnd < 256)
    (hok : OpndOk opcode opnd ps.data) (hps : Good ps) (hcnt : cnt ≤ ps.code.length) :
    Emits m lx 1 ps (callEnd m lx fcn opcode opnd cnt ps) fun w => callEnd m lx fcn opcode opnd cnt (ps.withExe w) := by
  refine emits_if (fun _ => Iff.rfl) (fun _ => emits_synErr _) fun _ => ?_
  refine (emits_parmChk hps).bind (b := 1) (fun ps2 hg2 hlen2 hd2 => ?_) (Nat.le_refl _)
  have hbyte : cnt < 256 := by
    have hlim : CODE_LIMIT < 256 := by decide
    have := hps.code
    omega
  refine (emits_codegen (by decide) hbyte hg2 (.inl (by decide))).bind (b := 1) (fun ps3 hg3 _ hd3 => ?_) (Nat.le_add_left _ _)
  refine emits_codegen hop hopnd hg3 ?_
  rcases hok with hok | hok | hok
  · exact .inl hok
  · exact .inr (.inl hok)
  · exact .inr (.inr (lt_of_lt_of_le hok (hd2.trans hd3).length_le))

theorem sim_callFactor {expr : PSt σ → PRes σ (PSt σ)} (hlx : lx.Lawful) (hexpr : Sim m lx 1 expr) : Sim m lx 1 (callFactor m lx expr) := by
  intro ps hps
  cases hfcn : lx.functionId ps.currText with
  | none =>
    have husr : ∀ w : World σ, _ := fun w => @callFactor_usr σ m lx (ps.withExe w) expr hfcn
    simp only [husr, callFactor_usr hfcn]
    refine emits_load (k := fun usr ps1 => argLoop lx expr none ps1.getToken.toks.length 0 ps1.getToken >>= fun a =>
      callEnd m lx none USRFCN usr a.1 a.2) hps fun usr ps1 hg1 husr hlen _ _ _ => ?_
    refine emits_argLoop (k := callEnd m lx none USRFCN usr) hexpr (fun cnt ps2 hg2 hcnt hd2 => ?_) ps1.getToken.toks.length hg1.getToken
      (Nat.zero_le _) (List.prefix_refl ps1.data)
    exact emits_callEnd (by decide) husr (.inr (.inr (lt_of_lt_of_le hlen hd2.length_le))) hg2 hcnt
  | some no =>
    have hcall : ∀ w : World σ, _ := fun w => @callFactor_fcn σ m lx (ps.withExe w) expr no hfcn
    simp only [hcall, callFactor_fcn hfcn]
    refine emits_argLoop (k := callEnd m lx (some no) FCN no) hexpr (fun cnt ps2 hg2 hcnt hd2 => ?_) ps.getToken.toks.length hps.getToken
      (Nat.zero_le _) (List.prefix_refl ps.data)
    exact emits_callEnd (by decide) (hlx.functionId _ _ hfcn) (.inl (by decide)) hg2 hcnt

theorem sim_aliasFactor : Sim m lx 1 (aliasFactor m) := by
  intro ps hps
  refine emits_load (k := fun a ps1 => emitLit m PUSH (.charctr (tokenStr ps1.getToken.getToken.currText)) ps1.getToken.getToken >>= fun ps2 =>
    codegen m PUSH a ps2 >>= codegen m DRETRV OPND_ON_STACK) hps fun a ps1 hg1 ha hlen _ _ _ => ?_
  refine (sim_emitLit (by decide) _ ps1.getToken.getToken hg1.getToken.getToken).bind (b := 1) (fun ps2 hg2 _ hd2 => ?_) (Nat.le_add_left _ _)
  have ha2 : a < ps2.data.length := lt_of_lt_of_le hlen hd2.length_le
  refine (emits_codegen (by decide) ha hg2 (.inr (.inr ha2))).bind (b := 1) (fun ps3 hg3 _ _ => ?_) (Nat.le_add_left _ _)
  exact emits_codegen (by decide) (by decide) hg3 (.inl (by decide))

/-- The end of an element of an array, from the closing bracket on. -/
def arrayEnd (m : Machine σ) (aname dim : Nat) (ps : PSt σ) : PRes σ (PSt σ) :=
  if ps.currTok ≠ TRBRKT then ps.synErr .missingRbrkt
  else codegen m PUSH_N dim ps >>= fun ps => codegen m ARRAYCHK aname ps >>= codegen m NRETRV OPND_ON_STACK

theorem sim_arrayFactor {expr : PSt σ → PRes σ (PSt σ)} (hexpr : Sim m lx 1 expr) : Sim m lx 1 (arrayFactor m expr) := by
  intro ps hps
  refine emits_load (k := fun aname ps1 => dimLoop expr ps1.getToken.toks.length 0 ps1.getToken >>= fun a => arrayEnd m aname a.1 a.2) hps
    fun aname ps1 hg1 ha hlen _ _ _ => ?_
  refine emits_dimLoop (k := arrayEnd m aname) hexpr (fun dim ps2 hg2 hdim hd2 => ?_) ps1.getToken.toks.length hg1.getToken (Nat.zero_le _)
    (List.prefix_refl ps1.data)
  refine emits_if (fun _ => Iff.rfl) (fun _ => emits_synErr _) fun _ => ?_
  have hbyte : dim < 256 := by
    have hlim : CODE_LIMIT < 256 := by decide
    have := hg2.code
    omega
  refine (emits_codegen (by decide) hbyte hg2 (.inl (by decide))).bind (b := 1) (fun ps3 hg3 _ hd3 => ?_) (Nat.le_add_left _ _)
  have ha3 : aname < ps3.data.length := lt_of_lt_of_le hlen (hd2.trans hd3).length_le
  refine (emits_codegen (by decide) ha hg3 (.inr (.inr ha3))).bind (b := 1) (fun ps4 hg4 _ _ => ?_) (Nat.le_add_left _ _)
  exact emits_codegen (by decide) (by decide) hg4 (.inr (.inl ⟨rfl, rfl⟩))

/-- The token behind is taken. -/
theorem emits_next {f : PSt σ → PRes σ (PSt σ)} {y : World σ → PRes σ (PSt σ)} (h : Emits m lx 1 ps (f ps) y) :
    Emits m lx 1 ps (f ps >>= fun ps => .ok ps.getToken) fun w => y w >>= fun ps => .ok ps.getToken :=
  h.bind (b := 0) (fun _ hg _ _ => emits_ok hg.getToken) le_rfl

theorem sim_factor (hlx : lx.Lawful) (fuel : Nat) : Sim m lx 1 (factor m lx fuel) := by
  induction fuel with
  | zero => exact fun ps _ => emits_synErr _
  | succ fuel ih =>
    intro ps hps
    have hexpr := sim_expression ih
    unfold factor
    refine emits_if (fun _ => Iff.rfl) (fun hop => ?_) fun _ => ?_
    · -- a prefix operator
      have hbyte : ps.currTok < 256 := by
        rcases hop with h | h | h <;> rw [h] <;> decide
      exact (ih.getToken hps).bind (fun ps1 hg1 _ _ => emits_codegen (by decide) hbyte hg1 (.inl (by decide))) (Nat.le_add_left _ _)
    refine emits_if (fun _ => Iff.rfl) (fun _ => ?_) fun _ => ?_
    · exact emits_next (sim_emitLit (by decide) _ ps hps)
    refine emits_if (fun _ => Iff.rfl) (fun _ => ?_) fun _ => ?_
    · -- parentheses
      refine (hexpr.getToken hps).bind (b := 0) (fun ps1 hg1 _ _ => ?_) le_rfl
      exact emits_if (fun _ => Iff.rfl) (fun _ => emits_synErr _) fun _ => emits_ok hg1.getToken
    refine emits_if (fun _ => Iff.rfl) (fun _ => ?_) fun _ => ?_
    · simp only [PSt.withExe_currText]
      cases str2num lx ps.currText with
      | error e => exact emits_synErr _
      | ok num => exact emits_next (sim_emitLit (by decide) _ ps hps)
    refine emits_if (fun _ => Iff.rfl) (fun _ => ?_) fun _ => ?_
    · exact emits_next (sim_emitLit (by decide) _ ps hps)
    refine emits_if (fun _ => Iff.rfl) (fun _ => ?_) fun _ => ?_
    · -- a name: of a function, a table, an array or something else
      refine emits_if (fun _ => Iff.rfl) (fun _ => emits_next (sim_callFactor hlx hexpr ps hps)) fun _ => ?_
      refine emits_if (fun _ => Iff.rfl) (fun _ => emits_next (sim_aliasFactor ps hps)) fun _ => ?_
      refine emits_if (fun _ => Iff.rfl) (fun _ => emits_next (sim_arrayFactor hexpr ps hps)) fun _ => ?_
      exact emits_next (sim_emitLit (by decide) _ ps hps)
    refine emits_if (fun _ => Iff.rfl) (fun _ => ?_) fun _ => ?_
    · -- a date between brackets
      simp only [PSt.withExe_toks]
      cases hdate : lx.processDate ps.toks.tail with
      | error e => exact emits_synErr _
      | ok r =>
        obtain ⟨date, toks⟩ := r
        have hg : Good { ps with toks } :=
          ⟨hps.exe, hps.code, fun t ht => hps.toks t (List.mem_of_mem_tail (hlx.processDate _ _ _ hdate t ht))⟩
        refine (sim_emitLit (by decide) (.date date) { ps with toks } hg).bind (b := 0) (fun ps1 hg1 _ _ => ?_) le_rfl
        exact emits_if (fun _ => Iff.rfl) (fun _ => emits_synErr _) fun _ => emits_ok hg1.getToken
    · exact emits_synErr _

/-- The two modes of the parser. -/
theorem sim_parse (hlx : lx.Lawful) : Sim m lx 1 (parse m lx) := fun ps hps => sim_expression (sim_factor hlx _) ps hps

/-! ## Evaluation and blocks -/

theorem good_start {toks : List Token} (ht : ∀ t ∈ toks, t.Lexed) : Good (⟨toks, [], [], none⟩ : PSt σ) :=
  ⟨rfl, Nat.zero_le _, ht⟩

/-- What `evaluate` says of the token behind the expression. -/
def endCheck (tok : Nat) (w : World σ) : Res σ (World σ) :=
  if tok ≠ TNULLTOK ∧ tok ≠ TPOUND then .error (.excessSyntax, w.state) else .ok w

/-- Evaluation carries out the instructions that compilation emits, with some checks between them, and looks at the token behind. -/
theorem evaluate_items (hlx : lx.Lawful) {toks : List Token} (ht : ∀ t ∈ toks, t.Lexed) {ps : PSt σ}
    (hpar : parse m lx ⟨toks, [], [], none⟩ = .ok ps) :
    ∃ items, codeOf items = ps.code ∧ Straight ps.code ∧ ∀ w, evaluate m lx toks w = (runItems m lx ps.data items w).bind (endCheck ps.currTok) := by
  have hsim := sim_parse (m := m) hlx ⟨toks, [], [], none⟩ (good_start ht)
  rw [hpar] at hsim
  obtain ⟨hg, items, hcode, hs, -, -, hrun⟩ := hsim
  have hcode : ps.code = codeOf items := hcode
  refine ⟨items, hcode.symm, by rw [hcode]; exact hs, fun w => ?_⟩
  have hw : parse m lx ⟨toks, [], [], some w⟩ = lift ps (runItems m lx ps.data items w) := hrun ps.data List.prefix_rfl w
  unfold evaluate
  rw [hw]
  cases runItems m lx ps.data items w <;> rfl

/-- What a block is made of has been parsed to its end. -/
theorem putCond_ok {toks : List Token} {sizeMax : Nat} {b : CodeBlock} (hb : putCond m lx sizeMax toks = .ok b) :
    ∃ ps, parse m lx ⟨toks, [], [], none⟩ = .ok ps ∧ ps.currTok = TNULLTOK ∧ b = ⟨ps.code, ps.data⟩ := by
  unfold putCond at hb
  cases hpar : parse m lx (⟨toks, [], [], none⟩ : PSt σ) with
  | error e =>
    rw [hpar] at hb
    cases hb
  | ok ps =>
    rw [hpar] at hb
    dsimp only at hb
    split_ifs at hb with hsize htok
    cases hb
    exact ⟨ps, rfl, not_not.mp htok, rfl⟩

/-- Where an expression does not compile, evaluation ends with the same error, if nothing before that place fails. -/
theorem evaluate_error (hlx : lx.Lawful) {toks : List Token} (ht : ∀ t ∈ toks, t.Lexed) {e : HbErr} {s : Option σ}
    (hpar : parse m lx ⟨toks, [], [], none⟩ = .error (e, s)) : ∃ items data, ∀ w,
      evaluate m lx toks w = (runItems m lx data items w).bind fun w' => .error (e, w'.state) := by
  have hsim := sim_parse (m := m) hlx ⟨toks, [], [], none⟩ (good_start ht)
  rw [hpar] at hsim
  obtain ⟨items, data, -, hrun⟩ := hsim
  refine ⟨items, data, fun w => ?_⟩
  have hw : parse m lx ⟨toks, [], [], some w⟩ = thenError e (runItems m lx data items w) := hrun w
  unfold evaluate
  rw [hw]
  cases runItems m lx data items w <;> rfl

/-- An expression that compiles is evaluated by the instructions of its block, with some checks of arguments between them.
One that does not compile is not evaluated either: it ends with the same error, if nothing before that place fails. Where only the
block is too large, or a comment follows, it is evaluated, and where something else follows both end with the same error. -/
theorem evaluate_compiled (hlx : lx.Lawful) {toks : List Token} (ht : ∀ t ∈ toks, t.Lexed) :
    (∀ sizeMax b, putCond m lx sizeMax toks = .ok b → ∃ items, codeOf items = b.code ∧ ∀ w,
      evaluate m lx toks w = runItems m lx b.data items w ∧
      (ChecksPass m lx b.data items w → ∀ fuel, b.code.length < fuel → execute m fuel b w = some (evaluate m lx toks w))) ∧
    (∀ e s, parse m lx ⟨toks, [], [], none⟩ = .error (e, s) → ∃ items data, ∀ w,
      evaluate m lx toks w = (runItems m lx data items w).bind fun w' => .error (e, w'.state)) ∧
    ∀ ps, parse m lx ⟨toks, [], [], none⟩ = .ok ps → ∃ items, codeOf items = ps.code ∧
      (∀ w, evaluate m lx toks w = (runItems m lx ps.data items w).bind (endCheck ps.currTok)) ∧
      ∀ sizeMax e, putCond m lx sizeMax toks = .error e → e = .codeblockOverflow ∨ e = .excessSyntax ∧ ps.currTok ≠ TNULLTOK := by
  refine ⟨fun sizeMax b hb => ?_, fun e s hpar => evaluate_error hlx ht hpar, fun ps hpar => ?_⟩
  · obtain ⟨ps, hpar, htok, rfl⟩ := putCond_ok hb
    obtain ⟨items, hcode, hs, heval⟩ := evaluate_items hlx ht hpar
    have heval : ∀ w, evaluate m lx toks w = runItems m lx ps.data items w := fun w => by
      rw [heval w, htok]
      cases runItems m lx ps.data items w <;> rfl
    refine ⟨items, hcode, fun w => ⟨heval w, fun hpass fuel hfuel => ?_⟩⟩
    rw [execute_straight hs hfuel, heval w, hpass.runItems, hcode]
  · obtain ⟨items, hcode, -, heval⟩ := evaluate_items hlx ht hpar
    refine ⟨items, hcode, heval, fun sizeMax e he => ?_⟩
    unfold putCond at he
    rw [hpar] at he
    dsimp only at he
    split_ifs at he with hsize htok
    · cases he
      exact .inl rfl
    · cases he
      exact .inr ⟨rfl, htok⟩

end Modes

/-! ## Where the modes differ -/

/-- The claim of one meaning in both modes: the same outcome from the same session. -/
def Agree {σ : Type} (m : Machine σ) (lx : Lexicon) (sizeMax : Nat) (toks : List Token) (w : World σ) : Prop :=
  match putCond m lx sizeMax toks with
  | .ok b => ∃ n, ∀ fuel, n ≤ fuel → execute m fuel b w = some (evaluate m lx toks w)
  | .error e => evaluate m lx toks w = .error (e, w.state)

abbrev trueTok : Token := ⟨TLOGIC, [46, 84, 46]⟩

/-- `MOD("a", .T. + "b")`. -/
def modToks : List Token :=
  [⟨TID, [77, 79, 68]⟩, lparen, strTok [97], ⟨TCOMMA, [44]⟩, trueTok, ⟨TPLUS, [43]⟩, strTok [98], rparen]

/-- `.T. + .T. + ...`, with 65 operands. -/
def longToks : List Token := trueTok :: (List.replicate 64 [⟨TPLUS, [43]⟩, trueTok]).flatten

def errorOf {ε α : Type} : Except ε α → Option ε
  | .ok _ => none
  | .error e => some e

/-- The check of the first argument comes before the second one is evaluated, and limits are met before anything is. -/
theorem modes_differ : ¬Agree (Machine.bare ⟨false, false⟩ STACKSZ) Lexicon.bare CBLOCKSZ modToks ⟨[], ()⟩ ∧
    ¬Agree (Machine.bare ⟨false, false⟩ STACKSZ) Lexicon.bare CBLOCKSZ longToks ⟨[], ()⟩ := by
  constructor
  · let b : CodeBlock := ⟨[⟨PUSH, 0⟩, ⟨PUSH, 1⟩, ⟨PUSH, 2⟩, ⟨BOP, TPLUS⟩, ⟨PUSH_N, 2⟩, ⟨FCN, MOD_FCN⟩],
      [.charctr [97], .logic (some true), .charctr [98]]⟩
    have hput : putCond (Machine.bare ⟨false, false⟩ STACKSZ) Lexicon.bare CBLOCKSZ modToks = .ok b := rfl
    have heval : evaluate (Machine.bare ⟨false, false⟩ STACKSZ) Lexicon.bare modToks ⟨[], ()⟩ = .error (.invalidType, ()) := rfl
    have hrun : runCode (Machine.bare ⟨false, false⟩ STACKSZ) b.data b.code ⟨[], ()⟩ = .error (.typeMismatch, ()) := rfl
    unfold Agree
    rw [hput]
    rintro ⟨n, hn⟩
    have h := hn (n + 7) (Nat.le_add_right _ _)
    rw [execute_straight (by decide : Straight b.code) (by show 6 < n + 7; omega), hrun, heval] at h
    cases h
  · have hput : errorOf (putCond (Machine.bare ⟨false, false⟩ STACKSZ) Lexicon.bare CBLOCKSZ longToks) = some .expTooLong := by
      decide +kernel
    have heval : errorOf (evaluate (Machine.bare ⟨false, false⟩ STACKSZ) Lexicon.bare longToks ⟨[], ()⟩) = some (.invalidType, ()) := by
      decide +kernel
    unfold Agree
    cases hp : putCond (Machine.bare ⟨false, false⟩ STACKSZ) Lexicon.bare CBLOCKSZ longToks with
    | ok b =>
      rw [hp] at hput
      cases hput
    | error e =>
      rw [hp] at hput
      cases hput
      intro h
      rw [h] at heval
      cases heval

theorem bare_lawful : Lexicon.bare.Lawful := by
  refine ⟨fun s no h => ?_, fun ts d ts' h => (by cases h)⟩
  unfold Lexicon.bare at h
  dsimp only at h
  split at h
  · cases h
    decide
  · cases h

/-- The instructions of the call of `MOD`, as they are carried out at once. -/
theorem evaluate_compiled_mod : ∃ items,
    codeOf items = [⟨PUSH, 0⟩, ⟨PUSH, 1⟩, ⟨PUSH, 2⟩, ⟨BOP, TPLUS⟩, ⟨PUSH_N, 2⟩, ⟨FCN, MOD_FCN⟩] ∧
    ∀ w, evaluate (Machine.bare ⟨false, false⟩ STACKSZ) Lexicon.bare modToks w = runItems (Machine.bare ⟨false, false⟩ STACKSZ) Lexicon.bare
      [.charctr [97], .logic (some true), .charctr [98]] items w := by
  have h := (evaluate_compiled (m := Machine.bare ⟨false, false⟩ STACKSZ) bare_lawful (by decide : ∀ t ∈ modToks, t.Lexed)).1 CBLOCKSZ _ rfl
  obtain ⟨items, hcode, hrun⟩ := h
  exact ⟨items, hcode, fun w => (hrun w).1⟩

end Db3w.Hb
