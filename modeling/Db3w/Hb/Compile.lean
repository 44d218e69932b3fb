/-
Compiled expressions. The block that the parser makes of an expression runs as the operators of the
tree do, operands first. The value of the tree is made of values alone, with the room they take on the
stack; a block leaves that value and nothing else, unless a relational operator with NULL ON meets an
empty string.
-/
import Db3w.Hb.Grammar

namespace Db3w.Hb

/-! ## The code of a tree -/

/-- The bytes that literals take. -/
def dataSize (data : List HbVal) : Nat := (data.map HbVal.size).sum

namespace Expr

/-- The literals of an expression, names among them. -/
def data : Expr → List HbVal
  | lit _ v => [v]
  | name t => [.charctr (tokenStr t.text)]
  | field tbl nm => [.charctr (tokenStr tbl.text), .charctr (tokenStr nm.text)]
  | un _ e => e.data
  | bin _ l r => l.data ++ r.data
  | paren e => e.data

/-- The instructions of an expression whose literals begin with the number `d`. -/
def code (d : Nat) : Expr → List PCode
  | lit _ _ => [.mk8 PUSH d]
  | name _ => [.mk8 NRETRV d]
  | field _ _ => [.mk8 PUSH (d + 1), .mk8 PUSH d, .mk8 DRETRV OPND_ON_STACK]
  | un t e => e.code d ++ [.mk8 UOP t.kind]
  | bin t l r => l.code d ++ r.code (d + l.data.length) ++ [.mk8 BOP t.kind]
  | paren e => e.code d

/-- The expression and those it is made of. -/
def subs : Expr → List Expr
  | un t e => un t e :: e.subs
  | bin t l r => bin t l r :: (l.subs ++ r.subs)
  | paren e => paren e :: e.subs
  | e => [e]

/-- The expression is within the limits on code and literals, and fits into a block of `sizeMax` bytes. -/
def Fits (sizeMax : Nat) (e : Expr) : Prop :=
  (e.code 0).length ≤ CODE_LIMIT ∧ dataSize e.data < SIZE_LIMIT ∧ 2 * (e.code 0).length + dataSize e.data + BLOCK_HEAD ≤ sizeMax

instance (sizeMax : Nat) (e : Expr) : Decidable (e.Fits sizeMax) := inferInstanceAs (Decidable (_ ∧ _))

theorem code_length (e : Expr) (d : Nat) : (e.code d).length = (e.code 0).length := by
  induction e generalizing d with
  | un t e ih => simp [code, ih d]
  | bin t l r ihl ihr => simp [code, ihl d, ihr (d + l.data.length), ihr l.data.length]
  | paren e ih => exact ih d
  | _ => rfl

theorem data_le_code (e : Expr) : e.data.length ≤ (e.code 0).length := by
  induction e with
  | un t e ih =>
    simp only [data, code, List.length_append]
    omega
  | bin t l r ihl ihr =>
    simp only [data, code, List.length_append, code_length r (0 + _)]
    omega
  | paren e ih => exact ih
  | _ => simp [data, code]

theorem mem_subs (e : Expr) : e ∈ e.subs := by
  cases e <;> simp [subs]

end Expr

theorem dataSize_append (a b : List HbVal) : dataSize (a ++ b) = dataSize a + dataSize b := by
  simp [dataSize]

theorem cbDataOffset_length (data : List HbVal) : cbDataOffset data data.length = dataSize data := by
  unfold cbDataOffset
  rw [List.take_length]
  rfl

/-! ## Emission -/

section Emission

variable {σ : Type} {m : Machine σ}

theorem codegen_compile {ps : PSt σ} (hexe : ps.exe = none) (hlen : ps.code.length < CODE_LIMIT) (opcode opnd : Nat) :
    codegen m opcode opnd ps = .ok { ps with code := ps.code ++ [.mk8 opcode opnd] } := by
  unfold codegen
  rw [if_neg (by omega), hexe]

theorem codegen_bind {ps : PSt σ} (hexe : ps.exe = none) (hlen : ps.code.length < CODE_LIMIT) (opcode opnd : Nat)
    (f : PSt σ → PRes σ (PSt σ)) : codegen m opcode opnd ps >>= f = f { ps with code := ps.code ++ [.mk8 opcode opnd] } := by
  rw [codegen_compile hexe hlen]
  rfl

theorem load_ok {ps : PSt σ} {v : HbVal} (hlen : ps.data.length < DATA_LIMIT) (hsize : dataSize ps.data + v.size < SIZE_LIMIT) :
    load v ps = .ok (ps.data.length, { ps with data := ps.data ++ [v] }) := by
  unfold load
  rw [if_neg (by omega), cbDataOffset_length, if_neg (by omega)]

theorem emitLit_compile {ps : PSt σ} {v : HbVal} (hexe : ps.exe = none) (hcode : ps.code.length < CODE_LIMIT)
    (hlen : ps.data.length < DATA_LIMIT) (hsize : dataSize ps.data + v.size < SIZE_LIMIT) (opcode : Nat) :
    emitLit m opcode v ps = .ok { ps with code := ps.code ++ [.mk8 opcode ps.data.length], data := ps.data ++ [v] } := by
  unfold emitLit
  rw [load_ok hlen hsize]
  have hexe' : ({ ps with data := ps.data ++ [v] } : PSt σ).exe = none := hexe
  exact codegen_compile hexe' hcode opcode ps.data.length

/-- There is room for what the expression emits. -/
structure Room (e : Expr) (ps : PSt σ) : Prop where
  exe : ps.exe = none
  code : ps.code.length + (e.code 0).length ≤ CODE_LIMIT
  data : ps.data.length + e.data.length ≤ DATA_LIMIT
  size : dataSize ps.data + dataSize e.data < SIZE_LIMIT

/-- While it compiles, the parser puts the code and the literals of the expression behind those it has. -/
theorem gen_compile {e : Expr} {ps : PSt σ} (h : Room e ps) :
    gen m e ps = .ok { ps with code := ps.code ++ e.code ps.data.length, data := ps.data ++ e.data } := by
  induction e generalizing ps with
  | lit t v =>
    have hcode : ps.code.length + 1 ≤ CODE_LIMIT := h.code
    have hdata : ps.data.length + 1 ≤ DATA_LIMIT := h.data
    have hsize : dataSize ps.data + (v.size + 0) < SIZE_LIMIT := h.size
    exact emitLit_compile h.exe (by omega) (by omega) (by omega) PUSH
  | name t =>
    have hcode : ps.code.length + 1 ≤ CODE_LIMIT := h.code
    have hdata : ps.data.length + 1 ≤ DATA_LIMIT := h.data
    have hsize : dataSize ps.data + ((HbVal.charctr (tokenStr t.text)).size + 0) < SIZE_LIMIT := h.size
    exact emitLit_compile h.exe (by omega) (by omega) (by omega) NRETRV
  | field tbl nm =>
    have hcode : ps.code.length + 3 ≤ CODE_LIMIT := h.code
    have hdata : ps.data.length + 2 ≤ DATA_LIMIT := h.data
    have hsize : dataSize ps.data + ((HbVal.charctr (tokenStr tbl.text)).size + ((HbVal.charctr (tokenStr nm.text)).size + 0)) < SIZE_LIMIT :=
      h.size
    have hsize1 : dataSize (ps.data ++ [.charctr (tokenStr tbl.text)]) = dataSize ps.data + (HbVal.charctr (tokenStr tbl.text)).size :=
      dataSize_append _ _
    unfold gen
    rw [load_ok (by omega) (by omega)]
    show emitLit m PUSH _ { ps with data := ps.data ++ [.charctr (tokenStr tbl.text)] } >>= _ = _
    rw [emitLit_compile]
    case hexe => exact h.exe
    case hcode => exact (by omega : ps.code.length < CODE_LIMIT)
    case hlen =>
      rw [List.length_append]
      exact (by omega : ps.data.length + 1 < DATA_LIMIT)
    case hsize =>
      rw [hsize1]
      omega
    show codegen m PUSH ps.data.length _ >>= _ = _
    rw [codegen_bind]
    case hexe => exact h.exe
    case hlen =>
      rw [List.length_append]
      exact (by omega : ps.code.length + 1 < CODE_LIMIT)
    rw [codegen_compile]
    case hexe => exact h.exe
    case hlen =>
      rw [List.length_append, List.length_append]
      exact (by omega : ps.code.length + 1 + 1 < CODE_LIMIT)
    simp [Expr.code, Expr.data]
  | un t e ih =>
    have hcode := h.code
    simp only [Expr.code, List.length_append, List.length_singleton] at hcode
    show gen m e ps >>= codegen m UOP t.kind = _
    rw [ih ⟨h.exe, by omega, h.data, h.size⟩]
    show codegen m UOP t.kind _ = _
    rw [codegen_compile]
    case hexe => exact h.exe
    case hlen =>
      rw [List.length_append, e.code_length]
      omega
    simp [Expr.code, Expr.data]
  | bin t l r ihl ihr =>
    have hcode := h.code
    have hdata := h.data
    have hsize := h.size
    simp only [Expr.code, List.length_append, List.length_singleton, r.code_length (0 + _)] at hcode
    simp only [Expr.data, List.length_append, dataSize_append] at hdata hsize
    show gen m l ps >>= gen m r >>= codegen m BOP t.kind = _
    rw [ihl ⟨h.exe, by omega, by omega, by omega⟩]
    show gen m r _ >>= codegen m BOP t.kind = _
    have hroom : Room r { ps with code := ps.code ++ l.code ps.data.length, data := ps.data ++ l.data } := by
      refine ⟨h.exe, ?_, ?_, ?_⟩
      · rw [List.length_append, l.code_length]
        omega
      · rw [List.length_append]
        omega
      · rw [dataSize_append]
        omega
    rw [ihr hroom]
    show codegen m BOP t.kind _ = _
    rw [codegen_compile]
    case hexe => exact h.exe
    case hlen =>
      rw [List.length_append, List.length_append, l.code_length, r.code_length]
      omega
    simp [Expr.code, Expr.data]
  | paren e ih => exact ih ⟨h.exe, h.code, h.data, h.size⟩

/-- An expression within the limits compiles, into its code and its literals. -/
theorem putCond_toks {lx : Lexicon} {e : Expr} (h : Gram lx 0 e) {sizeMax : Nat} (hfit : e.Fits sizeMax) :
    putCond m lx sizeMax e.toks = .ok ⟨e.code 0, e.data⟩ := by
  obtain ⟨hcode, hdata, hblock⟩ := hfit
  have hroom : Room e (⟨[], [], [], none⟩ : PSt σ) := by
    refine ⟨rfl, ?_, ?_, ?_⟩
    · show 0 + _ ≤ _
      omega
    · have hle := e.data_le_code
      have hlim : CODE_LIMIT ≤ DATA_LIMIT := by decide
      show 0 + _ ≤ DATA_LIMIT
      omega
    · show 0 + _ < SIZE_LIMIT
      omega
  have hpar : parse m lx (⟨e.toks, [], [], none⟩ : PSt σ) = .ok ⟨[], e.code 0, e.data, none⟩ := by
    have hp := parse_toks (m := m) h ⟨[], [], [], none⟩
    rw [gen_compile hroom] at hp
    exact hp
  unfold putCond
  rw [hpar]
  dsimp only
  rw [cbDataOffset_length, if_neg (by omega)]
  rfl

end Emission

/-! ## Execution -/

section Execution

variable {σ : Type} {m : Machine σ}

/-- Instructions that only the table `hbint` knows. -/
def Straight (code : List PCode) : Prop := ∀ i ∈ code, i.opcode < 0x80

instance (code : List PCode) : Decidable (Straight code) := List.decidableBAll (fun i : PCode => i.opcode < 0x80) code

/-- Straight code runs from the first to the last instruction. -/
theorem executeFrom_straight {code : List PCode} (hs : Straight code) (data : List HbVal) (rest : List PCode) (pre : List PCode)
    (hc : code = pre ++ rest) {fuel : Nat} (hfuel : rest.length < fuel) (w : World σ) :
    executeFrom m code data code.length fuel pre.length w = some (runCode m data rest w) := by
  induction rest generalizing pre fuel w with
  | nil =>
    obtain ⟨fuel, rfl⟩ : ∃ n, fuel = n + 1 := ⟨fuel - 1, by simp only [List.length_nil] at hfuel; omega⟩
    rw [executeFrom, if_pos (by simp [hc])]
    rfl
  | cons i rest ih =>
    obtain ⟨fuel, rfl⟩ : ∃ n, fuel = n + 1 := ⟨fuel - 1, by omega⟩
    have hi : i.opcode < 0x80 := hs i (by simp [hc])
    have hget : code[pre.length]? = some i := by simp [hc]
    have hlen : ¬code.length ≤ pre.length := by
      simp only [hc, List.length_append, List.length_cons]
      omega
    have hne : ∀ n, 0x80 ≤ n → i.opcode ≠ n := fun n hn => by omega
    rw [executeFrom, if_neg hlen, hget]
    dsimp only
    rw [if_neg (hne _ (by decide)), if_neg (hne _ (by decide)), if_neg (hne _ (by decide)), if_neg (hne _ (by decide)),
      if_neg (hne _ (by decide)), if_neg (hne _ (by decide))]
    unfold runCode
    cases hbint m i.opcode i.opnd data w with
    | error e => rfl
    | ok w' =>
      have hlt : rest.length < fuel := by
        simp only [List.length_cons] at hfuel
        omega
      have hrest := ih (pre ++ [i]) (by simp [hc]) hlt w'
      rw [List.length_append] at hrest
      exact hrest

theorem execute_straight {b : CodeBlock} (hs : Straight b.code) {fuel : Nat} (hfuel : b.code.length < fuel) (w : World σ) :
    execute m fuel b w = some (runCode m b.data b.code w) :=
  executeFrom_straight hs b.data b.code [] rfl hfuel w

theorem runCode_append (data : List HbVal) (a b : List PCode) (w : World σ) :
    runCode m data (a ++ b) w = (runCode m data a w).bind (runCode m data b) := by
  induction a generalizing w with
  | nil => rfl
  | cons i a ih =>
    rw [List.cons_append]
    unfold runCode
    cases hbint m i.opcode i.opnd data w with
    | error e => rfl
    | ok w' => exact ih w'

theorem straight_code {e : Expr} {lx : Lexicon} {n : Nat} (h : Gram lx n e) (d : Nat) : Straight (e.code d) := by
  intro i hi
  induction h generalizing d with
  | lit _ | date _ _ =>
    rw [List.mem_singleton.mp hi]
    exact (by decide : PUSH % 256 < 0x80)
  | name _ =>
    rw [List.mem_singleton.mp hi]
    exact (by decide : NRETRV % 256 < 0x80)
  | field _ _ =>
    simp only [Expr.code, List.mem_cons, List.not_mem_nil, or_false] at hi
    rcases hi with rfl | rfl | rfl
    · exact (by decide : PUSH % 256 < 0x80)
    · exact (by decide : PUSH % 256 < 0x80)
    · exact (by decide : DRETRV % 256 < 0x80)
  | un _ _ ih =>
    rcases List.mem_append.mp hi with hi | hi
    · exact ih d hi
    · rw [List.mem_singleton.mp hi]
      exact (by decide : UOP % 256 < 0x80)
  | bin _ _ _ _ _ ihl ihr | rel _ _ _ _ ihl ihr =>
    rcases List.mem_append.mp hi with hi | hi
    · rcases List.mem_append.mp hi with hi | hi
      · exact ihl _ hi
      · exact ihr _ hi
    · rw [List.mem_singleton.mp hi]
      exact (by decide : BOP % 256 < 0x80)
  | paren _ ih => exact ih d hi

end Execution

/-! ## The operators of a tree, on the stack -/

section OnStack

variable {σ : Type} (m : Machine σ) (s : σ)

/-- A name on the stack is replaced by its value. -/
def runName (v : HbVal) (st : Stack) : Except HbErr Stack := do
  let st ← push m.cap v st
  let (n, st) ← popAny st
  push m.cap (← m.lookup s n) st

def runField (tbl nm : HbVal) (st : Stack) : Except HbErr Stack := do
  let st ← push m.cap nm st
  let st ← push m.cap tbl st
  let (a, st) ← popStack CHARCTR st
  let (n, st) ← popAny st
  push m.cap (← m.aliasLookup s a n) st

/-- What the code of a tree does to the stack. -/
def Expr.run : Expr → Stack → Except HbErr Stack
  | .lit _ v, st => push m.cap v st
  | .name t, st => runName m s (.charctr (tokenStr t.text)) st
  | .field tbl nm, st => runField m s (.charctr (tokenStr tbl.text)) (.charctr (tokenStr nm.text)) st
  | .un t e, st => (e.run st).bind (uop m.cap t.kind)
  | .bin t l r, st => ((l.run st).bind r.run).bind (bop m.set m.cap t.kind)
  | .paren e, st => e.run st

variable {m s}

/-- Something on the stack, and then something that only works on the stack. -/
theorem onStack_then {w : World σ} {f g : Stack → Except HbErr Stack} {k : World σ → Res σ (World σ)}
    (h : ∀ st, k ⟨st, w.state⟩ = World.onStack ⟨st, w.state⟩ g) : (w.onStack f).bind k = w.onStack fun st => (f st).bind g := by
  unfold World.onStack
  cases hf : f w.stack with
  | error e =>
    simp only [hf]
    rfl
  | ok st =>
    simp only [hf]
    exact h st

theorem runCode_single (data : List HbVal) (i : PCode) (w : World σ) : runCode m data [i] w = hbint m i.opcode i.opnd data w := by
  unfold runCode
  cases hbint m i.opcode i.opnd data w <;> rfl

/-- The literals of an expression lie among all of them from the number `d` on. -/
def Among (d : Nat) (part all : List HbVal) : Prop := ∀ i (v : HbVal), part[i]? = some v → all[d + i]? = some v

theorem Among.left {d : Nat} {a b all : List HbVal} (h : Among d (a ++ b) all) : Among d a all := by
  intro i v hv
  obtain ⟨hi, -⟩ := List.getElem?_eq_some_iff.mp hv
  refine h i v ?_
  rwa [List.getElem?_append_left hi]

theorem Among.right {d : Nat} {a b all : List HbVal} (h : Among d (a ++ b) all) : Among (d + a.length) b all := by
  intro i v hv
  rw [Nat.add_assoc]
  refine h (a.length + i) v ?_
  rwa [List.getElem?_append_right (Nat.le_add_right _ _), Nat.add_sub_cancel_left]

theorem Among.literal {d : Nat} {part all : List HbVal} (h : Among d part all) {i : Nat} {v : HbVal} (hv : part[i]? = some v) :
    literal all (d + i) = .ok v :=
  literal_eq (h i v hv)

theorem mk8_run {data : List HbVal} {op n : Nat} (hop : op < 256) (hn : n < 256) (w : World σ) :
    runCode m data [.mk8 op n] w = hbint m op n data w := by
  rw [runCode_single]
  show hbint m (op % 256) (n % 256) data w = _
  rw [Nat.mod_eq_of_lt hop, Nat.mod_eq_of_lt hn]

theorem run_push {data : List HbVal} {n : Nat} {v : HbVal} (hn : n < 256) (h : literal data n = .ok v) (w : World σ) :
    runCode m data [.mk8 PUSH n] w = w.onStack fun st => push m.cap v st := by
  rw [mk8_run (by decide) hn]
  unfold hbint
  rw [if_pos rfl, h]
  rfl

theorem run_nretrv {data : List HbVal} {n : Nat} {v : HbVal} (hn : n < OPND_ON_STACK) (h : literal data n = .ok v) (w : World σ) :
    runCode m data [.mk8 NRETRV n] w = w.onStack (runName m w.state v) := by
  rw [mk8_run (by decide) (Nat.lt_succ_of_lt hn)]
  unfold hbint
  rw [if_neg (by decide), if_neg (by decide), if_neg (by decide), if_pos rfl]
  unfold retriev
  rw [if_neg hn.ne, h]
  rfl

theorem run_uop {data : List HbVal} {op : Nat} (hop : op < 256) (w : World σ) :
    runCode m data [.mk8 UOP op] w = w.onStack (uop m.cap op) := by
  rw [mk8_run (by decide) hop]
  rfl

theorem run_bop {data : List HbVal} {op : Nat} (hop : op < 256) (w : World σ) :
    runCode m data [.mk8 BOP op] w = w.onStack (bop m.set m.cap op) := by
  rw [mk8_run (by decide) hop]
  rfl

/-- The code of a tree, with its literals among the others, does what the operators of the tree do. -/
theorem runCode_code {lx : Lexicon} {n : Nat} {e : Expr} (h : Gram lx n e) {d : Nat} {data : List HbVal} (hd : Among d e.data data)
    (hlen : d + e.data.length ≤ 255) (w : World σ) : runCode m data (e.code d) w = w.onStack (e.run m w.state) := by
  -- two operands and their operator
  have hbin : ∀ {t : Token} {k : Nat} {l r : Expr} {d : Nat} {w : World σ}, t.kind ∈ binOps k →
      runCode m data (l.code d) w = w.onStack (l.run m w.state) →
      (∀ st, runCode m data (r.code (d + l.data.length)) ⟨st, w.state⟩ = World.onStack ⟨st, w.state⟩ (r.run m w.state)) →
      runCode m data ((Expr.bin t l r).code d) w = w.onStack ((Expr.bin t l r).run m w.state) := by
    intro t k l r d w ht hl hr
    show runCode m data (l.code d ++ r.code (d + l.data.length) ++ [.mk8 BOP t.kind]) w = _
    rw [runCode_append, runCode_append, hl, onStack_then hr]
    exact onStack_then fun st => run_bop (binOps_level ht).2 _
  induction h generalizing d w with
  | lit _ | date _ _ =>
    have hlen' : d + 1 ≤ 255 := hlen
    exact run_push (by omega) (hd.literal (i := 0) rfl) w
  | name _ =>
    have hlen' : d + 1 ≤ 255 := hlen
    exact run_nretrv (by omega : d < 255) (hd.literal (i := 0) rfl) w
  | @field _ tbl nm _ _ =>
    have hlen' : d + 2 ≤ 255 := hlen
    have hlit : literal data d = .ok (.charctr (tokenStr tbl.text)) := hd.literal (i := 0) rfl
    show runCode m data ([.mk8 PUSH (d + 1)] ++ ([.mk8 PUSH d] ++ [.mk8 DRETRV OPND_ON_STACK])) w = _
    rw [runCode_append, run_push (by omega) (hd.literal (i := 1) rfl)]
    refine onStack_then fun st => ?_
    rw [runCode_append, run_push (by omega) hlit]
    refine onStack_then fun st => ?_
    rw [mk8_run (by decide) (by decide)]
    rfl
  | @un _ t e ht _ ih =>
    have hop : t.kind < 256 := by
      have hall : ∀ op ∈ [TPLUS, TMINUS, TNOT], op < 256 := by decide
      exact hall _ ht
    show runCode m data (e.code d ++ [.mk8 UOP t.kind]) w = _
    rw [runCode_append, ih hd hlen w]
    exact onStack_then fun st => run_uop hop _
  | bin _ _ ht _ _ ihl ihr | rel _ ht _ _ ihl ihr =>
    simp only [Expr.data, List.length_append] at hlen
    exact hbin ht (ihl hd.left (by omega) w) fun st => ihr hd.right (by omega) ⟨st, w.state⟩
  | paren _ ih => exact ih hd hlen w

end OnStack

end Db3w.Hb
