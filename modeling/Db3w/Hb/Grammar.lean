/-
The grammar of expressions over literals, names and operators. An expression is a tree with its
parentheses; written out, it is a list of tokens. The levels of the parser are those of the grammar:
reading the tokens of a tree emits the instructions of the tree, operands first.
-/
import Db3w.Hb.Parse

namespace Db3w.Hb

/-! ## Trees -/

/-- An expression as it is written. A literal is one token, or a date in brackets. -/
inductive Expr where
  | lit (ts : List Token) (v : HbVal)
  | name (t : Token)
  | field (tbl name : Token)
  | un (t : Token) (e : Expr)
  | bin (t : Token) (l r : Expr)
  | paren (e : Expr)

abbrev lparen : Token := ⟨TLPAREN, [40]⟩
abbrev rparen : Token := ⟨TRPAREN, [41]⟩
abbrev arrow : Token := ⟨TARROW, [45, 62]⟩
abbrev lbrkt : Token := ⟨TLBRKT, [91]⟩
abbrev rbrkt : Token := ⟨TRBRKT, [93]⟩

namespace Expr

/-- The tokens of an expression. -/
def toks : Expr → List Token
  | lit ts _ => ts
  | name t => [t]
  | field tbl nm => [tbl, arrow, nm]
  | un t e => t :: e.toks
  | bin t l r => l.toks ++ t :: r.toks
  | paren e => lparen :: e.toks ++ [rparen]

end Expr

/-- The binary operators of a level, the loosest first. -/
def binOps : Nat → List Nat
  | 0 => [TOR]
  | 1 => [TAND]
  | 2 => [TEQUAL, TGTREQU, TGREATER, TLESSEQU, TNEQU, TLESS, TQUESTN]
  | 3 => [TPLUS, TMINUS]
  | 4 => [TMULT, TDIV]
  | 5 => [TPOWER]
  | _ => []

/-- The value of a literal. -/
def litVal (lx : Lexicon) (t : Token) : Option HbVal :=
  if t.kind = TLIT then some (.charctr (tokenStr t.text))
  else if t.kind = TINT ∨ t.kind = TNUMBER then
    match str2num lx t.text with
    | .ok num => some (.number num)
    | .error _ => none
  else if t.kind = TLOGIC then some (.logic (some (tokenLogic t.text)))
  else none

/-- The grammar, by level. Operators associate to the left, and of the relational ones there is one at most. -/
inductive Gram (lx : Lexicon) : Nat → Expr → Prop where
  | lit {n : Nat} {t : Token} {v : HbVal} : litVal lx t = some v → Gram lx n (.lit [t] v)
  | date {n : Nat} {ts : List Token} {d : Option UInt32} : (∀ t ∈ ts, t.kind < 256) →
      (∀ rest, lx.processDate (ts ++ rbrkt :: rest) = .ok (d, rbrkt :: rest)) → Gram lx n (.lit (lbrkt :: ts ++ [rbrkt]) (.date d))
  | name {n : Nat} {t : Token} : t.kind = TID → Gram lx n (.name t)
  | field {n : Nat} {tbl name : Token} : tbl.kind = TID → name.kind = TID → Gram lx n (.field tbl name)
  | un {n : Nat} {t : Token} {e : Expr} : t.kind ∈ [TPLUS, TMINUS, TNOT] → Gram lx 6 e → Gram lx n (.un t e)
  | bin {n k : Nat} {t : Token} {l r : Expr} : n ≤ k → k ≠ 2 → t.kind ∈ binOps k → Gram lx k l → Gram lx (k + 1) r →
      Gram lx n (.bin t l r)
  | rel {n : Nat} {t : Token} {l r : Expr} : n ≤ 2 → t.kind ∈ binOps 2 → Gram lx 3 l → Gram lx 3 r → Gram lx n (.bin t l r)
  | paren {n : Nat} {e : Expr} : Gram lx 0 e → Gram lx n (.paren e)

/-! ## What the parser emits for a tree -/

namespace PSt

variable {σ : Type}

def withToks (ps : PSt σ) (toks : List Token) : PSt σ := { ps with toks }

@[simp] theorem withToks_toks (ps : PSt σ) (ts : List Token) : (ps.withToks ts).toks = ts := rfl

@[simp] theorem withToks_withToks (ps : PSt σ) (ts ts' : List Token) : (ps.withToks ts).withToks ts' = ps.withToks ts' := rfl

@[simp] theorem withToks_getToken (ps : PSt σ) (t : Token) (ts : List Token) : (ps.withToks (t :: ts)).getToken = ps.withToks ts := rfl

@[simp] theorem withToks_currTok (ps : PSt σ) (t : Token) (ts : List Token) : (ps.withToks (t :: ts)).currTok = t.kind := rfl

@[simp] theorem withToks_currText (ps : PSt σ) (t : Token) (ts : List Token) : (ps.withToks (t :: ts)).currText = t.text := rfl

end PSt

section Gen

variable {σ : Type} (m : Machine σ)

/-- A function on parsers that does not look at the tokens. -/
def Blind (f : PSt σ → PRes σ (PSt σ)) : Prop :=
  ∀ ps ts, f (ps.withToks ts) = (f ps).map fun ps => ps.withToks ts

/-- The instructions of a tree are emitted, operands first. -/
def gen : Expr → PSt σ → PRes σ (PSt σ)
  | .lit _ v, ps => emitLit m PUSH v ps
  | .name t, ps => emitLit m NRETRV (.charctr (tokenStr t.text)) ps
  | .field tbl name, ps => do
    let (a, ps) ← load (.charctr (tokenStr tbl.text)) ps
    let ps ← emitLit m PUSH (.charctr (tokenStr name.text)) ps
    let ps ← codegen m PUSH a ps
    codegen m DRETRV OPND_ON_STACK ps
  | .un t e, ps => gen e ps >>= codegen m UOP t.kind
  | .bin t l r, ps => gen l ps >>= gen r >>= codegen m BOP t.kind
  | .paren e, ps => gen e ps

variable {m}

theorem Blind.bind {f g : PSt σ → PRes σ (PSt σ)} (hf : Blind f) (hg : Blind g) : Blind fun ps => f ps >>= g := by
  intro ps ts
  show f (ps.withToks ts) >>= g = (f ps >>= g).map fun ps => ps.withToks ts
  rw [hf]
  cases f ps with
  | error e => rfl
  | ok ps' => exact hg ps' ts

theorem blind_codegen (opcode opnd : Nat) : Blind (codegen m opcode opnd) := by
  intro ps ts
  unfold codegen
  by_cases hlen : ps.code.length = CODE_LIMIT
  · rw [if_pos hlen, show (ps.withToks ts).code = ps.code from rfl, if_pos hlen]
    rfl
  rw [if_neg hlen, show (ps.withToks ts).code = ps.code from rfl, if_neg hlen, show (ps.withToks ts).exe = ps.exe from rfl]
  cases ps.exe with
  | none => rfl
  | some w =>
    dsimp only
    rw [show (ps.withToks ts).data = ps.data from rfl]
    cases hbint m opcode opnd ps.data w with
    | error e => rfl
    | ok w' => rfl

theorem load_withToks (v : HbVal) (ps : PSt σ) (ts : List Token) :
    load v (ps.withToks ts) = (load v ps).map fun r => (r.1, r.2.withToks ts) := by
  unfold load
  rw [show (ps.withToks ts).data = ps.data from rfl]
  split
  · rfl
  · split <;> rfl

theorem blind_load {v : HbVal} {f : Nat → PSt σ → PRes σ (PSt σ)} (hf : ∀ i, Blind (f i)) :
    Blind fun ps => load v ps >>= fun r => f r.1 r.2 := by
  intro ps ts
  dsimp only
  rw [load_withToks]
  cases load v ps with
  | error e => rfl
  | ok r => exact hf r.1 r.2 ts

theorem blind_emitLit (opcode : Nat) (v : HbVal) : Blind (emitLit m opcode v) :=
  blind_load fun _ => blind_codegen _ _

end Gen

/-! ## The levels -/

/-- The operators a level looks for. -/
def isOpAt : Nat → Nat → Bool
  | 0 => (· = TOR)
  | 1 => (· = TAND)
  | 2 => isRelop
  | 3 => isAddop
  | 4 => isMulop
  | 5 => (· = TPOWER)
  | _ => fun _ => false

/-- The kind of the first token. -/
def headKind : List Token → Nat
  | [] => TNULLTOK
  | t :: _ => t.kind

/-- What follows does not belong to an expression of the level. -/
def Stops (n : Nat) (rest : List Token) : Prop :=
  (∀ k, n ≤ k → isOpAt k (headKind rest) = false) ∧ headKind rest ∉ [TLPAREN, TARROW, TLBRKT]

theorem Stops.mono {n k : Nat} {rest : List Token} (h : Stops n rest) (hle : n ≤ k) : Stops k rest :=
  ⟨fun j hj => h.1 j (hle.trans hj), h.2⟩

theorem stops_of_kind {n : Nat} {t : Token} {rest : List Token} {k : Nat} (hk : t.kind = k)
    (h : (∀ j ∈ [0, 1, 2, 3, 4, 5], n ≤ j → isOpAt j k = false) ∧ k ∉ [TLPAREN, TARROW, TLBRKT]) : Stops n (t :: rest) := by
  refine ⟨fun j hj => ?_, fun hmem => h.2 (hk ▸ hmem)⟩
  show isOpAt j t.kind = false
  rw [hk]
  by_cases hj5 : j ≤ 5
  · exact h.1 j (by simp; omega) hj
  · obtain ⟨j, rfl⟩ : ∃ i, j = i + 6 := ⟨j - 6, by omega⟩
    rfl

theorem stops_nil : Stops 0 [] := by
  have h : Stops 0 [(⟨TNULLTOK, []⟩ : Token)] := stops_of_kind rfl (by decide)
  exact h

theorem stops_rparen (rest : List Token) : Stops 0 (rparen :: rest) := stops_of_kind rfl (by decide)

/-- An operator does not belong to its right operand, nor to its left one as far as tighter levels go. -/
theorem stops_binOp {k : Nat} {t : Token} (h : t.kind ∈ binOps k) (rest : List Token) : Stops (k + 1) (t :: rest) := by
  refine stops_of_kind rfl ?_
  have hall : ∀ k ∈ [0, 1, 2, 3, 4, 5], ∀ op ∈ binOps k,
      (∀ j ∈ [0, 1, 2, 3, 4, 5], k + 1 ≤ j → isOpAt j op = false) ∧ op ∉ [TLPAREN, TARROW, TLBRKT] := by decide
  by_cases hk : k ≤ 5
  · exact hall k (by simp; omega) t.kind h
  · obtain ⟨j, rfl⟩ : ∃ i, k = i + 6 := ⟨k - 6, by omega⟩
    cases h

theorem isOpAt_binOp {k op : Nat} (h : op ∈ binOps k) : isOpAt k op = true := by
  have hall : ∀ k ∈ [0, 1, 2, 3, 4, 5], ∀ op ∈ binOps k, isOpAt k op = true := by decide
  by_cases hk : k ≤ 5
  · exact hall k (by simp; omega) op h
  · obtain ⟨j, rfl⟩ : ∃ i, k = i + 6 := ⟨k - 6, by omega⟩
    cases h

theorem binOps_level {k op : Nat} (h : op ∈ binOps k) : k ≤ 5 ∧ op < 256 := by
  have hall : ∀ k ∈ [0, 1, 2, 3, 4, 5], ∀ op ∈ binOps k, op < 256 := by decide
  by_cases hk : k ≤ 5
  · exact ⟨hk, hall k (by simp; omega) op h⟩
  · obtain ⟨j, rfl⟩ : ∃ i, k = i + 6 := ⟨k - 6, by omega⟩
    cases h

section Levels

variable {σ : Type} (m : Machine σ) (lx : Lexicon)

/-- The function of the parser for a level. -/
def parseAt (f : PSt σ → PRes σ (PSt σ)) : Nat → PSt σ → PRes σ (PSt σ)
  | 0 => expression m f
  | 1 => relExpr m f
  | 2 => relExpr1 m f
  | 3 => simpleExpr m f
  | 4 => term m f
  | 5 => term1 m f
  | _ => f

/-- The level reads the tokens of the expression, and emits its instructions. -/
def Parses (f : PSt σ → PRes σ (PSt σ)) (n : Nat) (e : Expr) : Prop :=
  ∀ rest, Stops n rest → ∀ ps, parseAt m f n (ps.withToks (e.toks ++ rest)) = (gen m e ps).map fun ps => ps.withToks rest

/-- The same where operators of the level may follow: its loop goes on with them. -/
def Extends (f : PSt σ → PRes σ (PSt σ)) (n : Nat) (e : Expr) : Prop :=
  ∀ rest, Stops (n + 1) rest → ∃ c, rest.length ≤ c ∧ ∀ ps, parseAt m f n (ps.withToks (e.toks ++ rest)) =
    (gen m e ps).map (fun ps => ps.withToks rest) >>= binLoop m (parseAt m f (n + 1)) (isOpAt n) c

variable {m lx} {f : PSt σ → PRes σ (PSt σ)} {n k : Nat} {e l r : Expr} {t : Token}

/-- All levels but two are loops. -/
theorem parseAt_level (h2 : n ≠ 2) (h6 : n < 6) : parseAt m f n = level m (isOpAt n) (parseAt m f (n + 1)) := by
  match n with
  | 0 | 1 | 3 | 4 | 5 => rfl
  | 2 => exact absurd rfl h2
  | n + 6 => omega

theorem binLoop_stop {sub : PSt σ → PRes σ (PSt σ)} {isOp : Nat → Bool} {ps : PSt σ} (h : isOp ps.currTok = false) (c : Nat) :
    binLoop m sub isOp c ps = .ok ps := by
  cases c with
  | zero => rfl
  | succ c =>
    unfold binLoop
    rw [h]
    rfl

theorem currTok_withToks (ps : PSt σ) (ts : List Token) : (ps.withToks ts).currTok = headKind ts := by
  cases ts <;> rfl

theorem Parses.extends (h : Parses m f (n + 1) e) (h2 : n ≠ 2) (h6 : n < 6) : Extends m f n e := by
  intro rest hrest
  refine ⟨rest.length, le_rfl, fun ps => ?_⟩
  rw [parseAt_level h2 h6]
  unfold level
  rw [h rest hrest]
  cases gen m e ps with
  | error e => rfl
  | ok ps' => rfl

theorem Extends.parses (h : Extends m f n e) : Parses m f n e := by
  intro rest hrest ps
  obtain ⟨c, -, hc⟩ := h rest (hrest.mono (Nat.le_succ n))
  rw [hc]
  cases gen m e ps with
  | error e => rfl
  | ok ps' =>
    refine binLoop_stop ?_ c
    rw [currTok_withToks]
    exact hrest.1 n le_rfl

/-- A relational operator may follow, but does not. -/
theorem Parses.rel (h : Parses m f 3 e) : Parses m f 2 e := by
  intro rest hrest ps
  show relExpr1 m f _ = _
  unfold relExpr1
  rw [show simpleExpr m f (ps.withToks (e.toks ++ rest)) = (gen m e ps).map fun ps => ps.withToks rest from
    h rest (hrest.mono (by decide)) ps]
  cases gen m e ps with
  | error e => rfl
  | ok ps' =>
    show (if isRelop (ps'.withToks rest).currTok = true then _ else _) = _
    rw [currTok_withToks, if_neg (by rw [show isRelop (headKind rest) = false from hrest.1 2 le_rfl]; decide)]
    rfl

/-- What a level knows about an expression of it. -/
def Reads (m : Machine σ) (f : PSt σ → PRes σ (PSt σ)) (n : Nat) (e : Expr) : Prop :=
  Parses m f n e ∧ (n ≠ 2 → n < 6 → Extends m f n e)

theorem Parses.down (h : Parses m f (n + 1) e) (h6 : n < 6) : Reads m f n e := by
  by_cases h2 : n = 2
  · subst h2
    exact ⟨h.rel, fun h => absurd rfl h⟩
  · have hext := h.extends h2 h6
    exact ⟨hext.parses, fun _ _ => hext⟩

/-- An expression of a level is one of every looser level. -/
theorem Reads.of_le (h : Reads m f k e) (hle : n ≤ k) (h6 : k ≤ 6) : Reads m f n e := by
  induction k, hle using Nat.le_induction with
  | base => exact h
  | succ k hle ih => exact ih (h.1.down (by omega)) (by omega)

/-- One more operator of the level. -/
theorem Extends.bin (hl : Extends m f k l) (hr : Parses m f (k + 1) r) (ht : t.kind ∈ binOps k) : Extends m f k (.bin t l r) := by
  intro rest hrest
  obtain ⟨c, hc, hpar⟩ := hl (t :: (r.toks ++ rest)) (stops_binOp ht _)
  obtain ⟨c, rfl⟩ : ∃ c', c = c' + 1 := ⟨c - 1, by simp only [List.length_cons] at hc; omega⟩
  refine ⟨c, ?_, fun ps => ?_⟩
  · simp only [List.length_cons, List.length_append] at hc
    omega
  rw [show (Expr.bin t l r).toks ++ rest = l.toks ++ t :: (r.toks ++ rest) by simp [Expr.toks], hpar]
  show _ = (gen m l ps >>= gen m r >>= codegen m BOP t.kind).map _ >>= _
  cases gen m l ps with
  | error e => rfl
  | ok ps1 =>
    show binLoop m _ _ (c + 1) (ps1.withToks (t :: (r.toks ++ rest))) = (gen m r ps1 >>= codegen m BOP t.kind).map _ >>= _
    rw [binLoop, PSt.withToks_currTok, if_pos (isOpAt_binOp ht)]
    dsimp only
    rw [PSt.withToks_getToken, hr rest hrest]
    cases gen m r ps1 with
    | error e => rfl
    | ok ps2 =>
      show codegen m BOP t.kind (ps2.withToks rest) >>= _ = (codegen m BOP t.kind ps2).map _ >>= _
      rw [blind_codegen]

theorem Parses.relOp (hl : Parses m f 3 l) (hr : Parses m f 3 r) (ht : t.kind ∈ binOps 2) : Parses m f 2 (.bin t l r) := by
  intro rest hrest ps
  rw [show (Expr.bin t l r).toks ++ rest = l.toks ++ t :: (r.toks ++ rest) by simp [Expr.toks]]
  show relExpr1 m f _ = (gen m l ps >>= gen m r >>= codegen m BOP t.kind).map _
  unfold relExpr1
  rw [show simpleExpr m f (ps.withToks (l.toks ++ t :: (r.toks ++ rest))) = (gen m l ps).map fun ps => ps.withToks (t :: (r.toks ++ rest))
    from hl _ (stops_binOp ht _) ps]
  cases gen m l ps with
  | error e => rfl
  | ok ps1 =>
    show (if isRelop t.kind = true then simpleExpr m f (ps1.withToks (r.toks ++ rest)) >>= codegen m BOP t.kind else _) =
      (gen m r ps1 >>= codegen m BOP t.kind).map _
    rw [if_pos (show isRelop t.kind = true from isOpAt_binOp ht),
      show simpleExpr m f (ps1.withToks (r.toks ++ rest)) = (gen m r ps1).map fun ps => ps.withToks rest from
        hr rest (hrest.mono (by decide)) ps1]
    cases gen m r ps1 with
    | error e => rfl
    | ok ps2 => exact blind_codegen BOP t.kind ps2 rest

end Levels

/-! ## Factors -/

section Factors

variable {σ : Type} {m : Machine σ} {lx : Lexicon} {fuel : Nat} {e : Expr}

theorem factor_lit {t : Token} {v : HbVal} (h : litVal lx t = some v) : Parses m (factor m lx (fuel + 1)) 6 (.lit [t] v) := by
  intro rest hrest ps
  show factor m lx (fuel + 1) (ps.withToks (t :: rest)) = (emitLit m PUSH v ps).map _
  unfold factor
  unfold litVal at h
  rw [PSt.withToks_currTok, PSt.withToks_currText]
  -- the three kinds of literals, in the order of the parser
  by_cases hlit : t.kind = TLIT
  · have hsign : ¬(t.kind = TPLUS ∨ t.kind = TMINUS ∨ t.kind = TNOT) := by
      rw [hlit]
      decide
    rw [if_pos hlit] at h
    cases h
    rw [if_neg hsign, if_pos hlit, blind_emitLit]
    cases emitLit m PUSH _ ps <;> rfl
  rw [if_neg hlit] at h
  by_cases hnum : t.kind = TINT ∨ t.kind = TNUMBER
  · have hno : ¬(t.kind = TPLUS ∨ t.kind = TMINUS ∨ t.kind = TNOT) ∧ t.kind ≠ TLPAREN := by
      rcases hnum with hk | hk <;> rw [hk] <;> decide
    rw [if_pos hnum] at h
    rw [if_neg hno.1, if_neg hlit, if_neg hno.2, if_pos hnum]
    cases hstr : str2num lx t.text with
    | error e =>
      rw [hstr] at h
      cases h
    | ok num =>
      rw [hstr] at h
      cases h
      dsimp only
      rw [blind_emitLit]
      cases emitLit m PUSH _ ps <;> rfl
  rw [if_neg hnum] at h
  by_cases hlog : t.kind = TLOGIC
  · have hno : ¬(t.kind = TPLUS ∨ t.kind = TMINUS ∨ t.kind = TNOT) ∧ t.kind ≠ TLPAREN := by
      rw [hlog]
      decide
    rw [if_pos hlog] at h
    cases h
    rw [if_neg hno.1, if_neg hlit, if_neg hno.2, if_neg hnum, if_pos hlog, blind_emitLit]
    cases emitLit m PUSH _ ps <;> rfl
  · rw [if_neg hlog] at h
    cases h

theorem factor_date {ts : List Token} {d : Option UInt32} (h : ∀ rest, lx.processDate (ts ++ rbrkt :: rest) = .ok (d, rbrkt :: rest)) :
    Parses m (factor m lx (fuel + 1)) 6 (.lit (lbrkt :: ts ++ [rbrkt]) (.date d)) := by
  intro rest hrest ps
  show factor m lx (fuel + 1) (ps.withToks (lbrkt :: ts ++ [rbrkt] ++ rest)) = (emitLit m PUSH (.date d) ps).map _
  rw [show lbrkt :: ts ++ [rbrkt] ++ rest = lbrkt :: (ts ++ rbrkt :: rest) by simp, factor, PSt.withToks_currTok, if_neg (by decide),
    if_neg (by decide), if_neg (by decide), if_neg (by decide), if_neg (by decide), if_neg (by decide), if_pos rfl, PSt.withToks_toks, List.tail_cons, h]
  dsimp only
  rw [show ({ ps.withToks (lbrkt :: (ts ++ rbrkt :: rest)) with toks := rbrkt :: rest } : PSt σ) = ps.withToks (rbrkt :: rest) from rfl, blind_emitLit]
  cases emitLit m PUSH (.date d) ps <;> rfl

theorem factor_id {t : Token} (h : t.kind = TID) (rest : List Token) (ps : PSt σ) :
    factor m lx (fuel + 1) (ps.withToks (t :: rest)) =
      (if headKind rest = TLPAREN then callFactor m lx (expression m (factor m lx fuel)) (ps.withToks (t :: rest))
        else if headKind rest = TARROW then aliasFactor m (ps.withToks (t :: rest))
        else if headKind rest = TLBRKT then arrayFactor m (expression m (factor m lx fuel)) (ps.withToks (t :: rest))
        else emitLit m NRETRV (.charctr (tokenStr t.text)) (ps.withToks (t :: rest))) >>= fun ps => .ok ps.getToken := by
  rw [factor, PSt.withToks_currTok, h, if_neg (by decide), if_neg (by decide), if_neg (by decide), if_neg (by decide), if_neg (by decide),
    if_pos rfl, PSt.withToks_getToken, currTok_withToks]
  split_ifs <;> rfl

theorem factor_name {t : Token} (h : t.kind = TID) : Parses m (factor m lx (fuel + 1)) 6 (.name t) := by
  intro rest hrest ps
  show factor m lx (fuel + 1) (ps.withToks (t :: rest)) = (emitLit m NRETRV _ ps).map _
  have hno := hrest.2
  simp only [List.mem_cons, List.not_mem_nil, or_false, not_or] at hno
  rw [factor_id h, if_neg hno.1, if_neg hno.2.1, if_neg hno.2.2, blind_emitLit]
  cases emitLit m NRETRV _ ps <;> rfl

theorem factor_field {tbl name : Token} (h : tbl.kind = TID) : Parses m (factor m lx (fuel + 1)) 6 (.field tbl name) := by
  intro rest hrest ps
  show factor m lx (fuel + 1) (ps.withToks (tbl :: arrow :: name :: rest)) = _
  rw [factor_id h, if_neg (show headKind (arrow :: name :: rest) ≠ TLPAREN from (by decide : TARROW ≠ TLPAREN)),
    if_pos (show headKind (arrow :: name :: rest) = TARROW from rfl)]
  show (load (.charctr (tokenStr tbl.text)) (ps.withToks (tbl :: arrow :: name :: rest)) >>= _) >>= _ = (load _ ps >>= _).map _
  rw [load_withToks]
  cases load (.charctr (tokenStr tbl.text)) ps with
  | error e => rfl
  | ok r =>
    -- behind the arrow all is emission
    have hb : Blind fun ps => emitLit m PUSH (.charctr (tokenStr name.text)) ps >>= fun ps => codegen m PUSH r.1 ps >>=
        codegen m DRETRV OPND_ON_STACK :=
      (blind_emitLit PUSH _).bind ((blind_codegen PUSH r.1).bind (blind_codegen DRETRV OPND_ON_STACK))
    have h := hb r.2 (name :: rest)
    dsimp only at h
    show (emitLit m PUSH (.charctr (tokenStr name.text)) (r.2.withToks (name :: rest)) >>= fun ps => codegen m PUSH r.1 ps >>=
      codegen m DRETRV OPND_ON_STACK) >>= _ = (emitLit m PUSH (.charctr (tokenStr name.text)) r.2 >>= fun ps => codegen m PUSH r.1 ps >>=
      codegen m DRETRV OPND_ON_STACK).map _
    rw [h]
    cases (emitLit m PUSH (.charctr (tokenStr name.text)) r.2 >>= fun ps => codegen m PUSH r.1 ps >>= codegen m DRETRV OPND_ON_STACK) <;> rfl

theorem factor_un {t : Token} (ht : t.kind ∈ [TPLUS, TMINUS, TNOT]) (h : Parses m (factor m lx fuel) 6 e) :
    Parses m (factor m lx (fuel + 1)) 6 (.un t e) := by
  intro rest hrest ps
  show factor m lx (fuel + 1) (ps.withToks (t :: (e.toks ++ rest))) = (gen m e ps >>= codegen m UOP t.kind).map _
  have hop : t.kind = TPLUS ∨ t.kind = TMINUS ∨ t.kind = TNOT := by simpa using ht
  unfold factor
  rw [PSt.withToks_currTok, if_pos hop]
  dsimp only
  rw [PSt.withToks_getToken,
    show factor m lx fuel (ps.withToks (e.toks ++ rest)) = (gen m e ps).map fun ps => ps.withToks rest from h rest hrest ps]
  cases gen m e ps with
  | error e => rfl
  | ok ps' => exact blind_codegen UOP t.kind ps' rest

theorem factor_paren (h : Parses m (factor m lx fuel) 0 e) : Parses m (factor m lx (fuel + 1)) 6 (.paren e) := by
  intro rest hrest ps
  show factor m lx (fuel + 1) (ps.withToks (lparen :: e.toks ++ [rparen] ++ rest)) = (gen m e ps).map _
  rw [show lparen :: e.toks ++ [rparen] ++ rest = lparen :: (e.toks ++ rparen :: rest) by simp]
  unfold factor
  rw [PSt.withToks_currTok, if_neg (by decide), if_neg (by decide), if_pos rfl]
  rw [PSt.withToks_getToken,
    show expression m (factor m lx fuel) (ps.withToks (e.toks ++ rparen :: rest)) = (gen m e ps).map fun ps => ps.withToks (rparen :: rest)
      from h _ (stops_rparen rest) ps]
  cases gen m e ps with
  | error e => rfl
  | ok ps' => rfl

end Factors

/-! ## The parser follows the grammar -/

theorem reads_gram {σ : Type} {m : Machine σ} {lx : Lexicon} {n : Nat} {e : Expr} (h : Gram lx n e) {fuel : Nat} (hfuel : e.toks.length ≤ fuel)
    (hn : n ≤ 6) : Reads m (factor m lx fuel) n e := by
  induction h generalizing fuel with
  | lit hv =>
    obtain ⟨fuel, rfl⟩ : ∃ i, fuel = i + 1 := ⟨fuel - 1, by simp only [Expr.toks, List.length_singleton] at hfuel; omega⟩
    exact Reads.of_le ⟨factor_lit hv, fun _ h => absurd h (by decide)⟩ hn le_rfl
  | date _ hd =>
    obtain ⟨fuel, rfl⟩ : ∃ i, fuel = i + 1 := ⟨fuel - 1, by simp only [Expr.toks, List.cons_append, List.length_cons] at hfuel; omega⟩
    exact Reads.of_le ⟨factor_date hd, fun _ h => absurd h (by decide)⟩ hn le_rfl
  | name ht =>
    obtain ⟨fuel, rfl⟩ : ∃ i, fuel = i + 1 := ⟨fuel - 1, by simp only [Expr.toks, List.length_singleton] at hfuel; omega⟩
    exact Reads.of_le ⟨factor_name ht, fun _ h => absurd h (by decide)⟩ hn le_rfl
  | field ht _ =>
    obtain ⟨fuel, rfl⟩ : ∃ i, fuel = i + 1 := ⟨fuel - 1, by simp only [Expr.toks, List.length_cons] at hfuel; omega⟩
    exact Reads.of_le ⟨factor_field ht, fun _ h => absurd h (by decide)⟩ hn le_rfl
  | un ht _ ih =>
    simp only [Expr.toks, List.length_cons] at hfuel
    obtain ⟨fuel, rfl⟩ : ∃ i, fuel = i + 1 := ⟨fuel - 1, by omega⟩
    exact Reads.of_le ⟨factor_un ht (ih (by omega) le_rfl).1, fun _ h => absurd h (by decide)⟩ hn le_rfl
  | @bin n k t l r hle h2 ht _ _ ihl ihr =>
    simp only [Expr.toks, List.length_append, List.length_cons] at hfuel
    have hk := (binOps_level ht).1
    have hext : Extends m (factor m lx fuel) k (.bin t l r) :=
      ((ihl (by omega) (by omega)).2 h2 (by omega)).bin (ihr (by omega) (by omega)).1 ht
    exact Reads.of_le ⟨hext.parses, fun _ _ => hext⟩ hle (by omega)
  | rel hle ht _ _ ihl ihr =>
    simp only [Expr.toks, List.length_append, List.length_cons] at hfuel
    exact Reads.of_le ⟨(ihl (by omega) (by decide)).1.relOp (ihr (by omega) (by decide)).1 ht, fun h => absurd rfl h⟩ hle (by decide)
  | paren _ ih =>
    simp only [Expr.toks, List.length_cons, List.length_append, List.length_nil] at hfuel
    obtain ⟨fuel, rfl⟩ : ∃ i, fuel = i + 1 := ⟨fuel - 1, by omega⟩
    exact Reads.of_le ⟨factor_paren (ih (by omega) (by decide)).1, fun _ h => absurd h (by decide)⟩ hn le_rfl

/-- Reading the tokens of an expression emits its instructions. -/
theorem parse_toks {σ : Type} {m : Machine σ} {lx : Lexicon} {e : Expr} (h : Gram lx 0 e) (ps : PSt σ) :
    parse m lx (ps.withToks e.toks) = (gen m e ps).map fun ps => ps.withToks [] := by
  have hread := (reads_gram (m := m) h (Nat.le_succ e.toks.length) (by decide)).1 [] stops_nil ps
  rw [List.append_nil] at hread
  exact hread

end Db3w.Hb
