/-
The code of a structured procedure: where each jump goes, and how the file comes to hold it. The
address of a jump out of a loop is that of the next such jump, which leads on to the end of the loop;
the end of a branch goes to the end of the next branch. Names and call addresses are tied together by
the chains of the calls not yet linked.
-/
import Db3w.Hb.Control
import Db3w.Lib.Structured

namespace Db3w.Hb

open Bytes Structured

/-! ## Structured procedures -/

/-- A line that is not part of a control structure. -/
inductive Act where
  | blank (comment : Bool)
  | other (b : LineBlock)
  | doProc (name : Str) (args : LineBlock)
  | ret (value : Option (Bool × LineBlock))
  | exit
  | loop

abbrev Prog := Body Act LineBlock
abbrev Cases := Branches Act LineBlock

def Act.cmd : Act → Cmd
  | .blank comment => if comment then .comment else .null
  | .other b => .other b
  | .doProc name args => .doProc name args
  | .ret value => .return_ value
  | .exit => .exit
  | .loop => .loop

/-- The line in front of a branch of an IF or a CASE. -/
def nextCmd (isCase : Bool) (c : LineBlock) : Cmd := if isCase then .case_ c else .elseif c

def elseCmd (isCase : Bool) : Cmd := if isCase then .otherwise else .else_

def endCmd (isCase : Bool) : Cmd := if isCase then .endcase else .endif

mutual

/-- The lines of a procedure. -/
def bodyLines : Prog → List Cmd
  | .nil => []
  | .act a rest => a.cmd :: bodyLines rest
  | .loop c body rest => .doWhile c :: (bodyLines body ++ .enddo :: bodyLines rest)
  | .if_ c body more rest => .if_ c :: (bodyLines body ++ (casesLines false more ++ endCmd false :: bodyLines rest))
  | .case_ pre cases rest => .doCase :: (bodyLines pre ++ (casesLines true cases ++ endCmd true :: bodyLines rest))

def casesLines (isCase : Bool) : Cases → List Cmd
  | .none => []
  | .else_ body => elseCmd isCase :: bodyLines body
  | .cond c body more => nextCmd isCase c :: (bodyLines body ++ casesLines isCase more)

end

/-! ## The code -/

/-- A piece of code; a call is known by the name. -/
inductive Chunk where
  | code (i : CodeItem)
  | call (name : Str)

abbrev blk (b : LineBlock) : Chunk := .code (.block b.e b.lineno)

/-- A jump to an address, or a return. -/
def jmp (jcode : Nat) (v : Int) : Chunk := .code (.ljmp (UInt8.ofNat jcode) (cposWord v))

section Gen

variable (dbg : Bool)

def Chunk.size : Chunk → Nat
  | .code (.block e _) => e.sizeWith dbg
  | .code (.ljmp jcode _) => jsize jcode.toNat
  | .call _ => JBLOCKSZ

def chunksSize (is : List Chunk) : Nat := (is.map (Chunk.size dbg)).sum

def LineBlock.size (b : LineBlock) : Nat := b.e.sizeWith dbg

def Act.size : Act → Nat
  | .blank _ => 0
  | .other b => b.size dbg
  | .doProc _ args => args.size dbg + JBLOCKSZ
  | .ret none => 2
  | .ret (some (_, b)) => b.size dbg + 2
  | .exit | .loop => JBLOCKSZ

/-- The jump to the end between a branch and the next. -/
def skipSize (more : Cases) : Nat := if more.isNone then 0 else JBLOCKSZ

mutual

def bodySize : Prog → Nat
  | .nil => 0
  | .act a rest => a.size dbg + bodySize rest
  | .loop c body rest => c.size dbg + JBLOCKSZ + bodySize body + JBLOCKSZ + bodySize rest
  | .if_ c body more rest => c.size dbg + JBLOCKSZ + bodySize body + skipSize more + casesSize more + bodySize rest
  | .case_ pre cases rest => bodySize pre + casesSize cases + bodySize rest

def casesSize : Cases → Nat
  | .none => 0
  | .else_ body => bodySize body
  | .cond c body more => c.size dbg + JBLOCKSZ + bodySize body + skipSize more + casesSize more

end

/-- Where a line at `a` is left by the jump of an EXIT in front of it, and otherwise at `k`. -/
def Act.brk (a : Nat) (k : Int) : Act → Int
  | .exit | .loop => a
  | _ => k

mutual

/-- Where code at `a` is left by the jump of an EXIT in front of it: at its first EXIT, or else at `k`. -/
def bodyBrk (a : Nat) (k : Int) : Prog → Int
  | .nil => k
  | .act act rest => act.brk a (bodyBrk (a + act.size dbg) k rest)
  | .loop c body rest => bodyBrk (a + (c.size dbg + JBLOCKSZ + bodySize dbg body + JBLOCKSZ)) k rest
  | .if_ c body more rest =>
    let s := a + (c.size dbg + JBLOCKSZ)
    let n := s + bodySize dbg body + skipSize more
    bodyBrk s (casesBrk n (bodyBrk (n + casesSize dbg more) k rest) more) body
  | .case_ pre cases rest =>
    let s := a + bodySize dbg pre
    bodyBrk a (casesBrk s (bodyBrk (s + casesSize dbg cases) k rest) cases) pre

def casesBrk (a : Nat) (k : Int) : Cases → Int
  | .none => k
  | .else_ body => bodyBrk a k body
  | .cond c body more =>
    let s := a + (c.size dbg + JBLOCKSZ)
    bodyBrk s (casesBrk (s + bodySize dbg body + skipSize more) k more) body

end

/-- Where the jump behind the branch in front of `more`, whose code is at `n`, goes to: the jump behind the next branch, or the end. -/
def linkTo (n : Nat) : Cases → Int
  | .none => n
  | .else_ body => ↑(n + bodySize dbg body)
  | .cond c body _ => ↑(n + (c.size dbg + JBLOCKSZ) + bodySize dbg body)

/-- The jump behind a branch at `a`. -/
def link (a : Nat) (more : Cases) : List Chunk := if more.isNone then [] else [jmp JUMP (linkTo dbg (a + JBLOCKSZ) more)]

/-- The code of a line at `a`, where `k` is the address for an EXIT. -/
def Act.gen (k : Int) : Act → List Chunk
  | .blank _ => []
  | .other b => [blk b]
  | .doProc name args => [blk args, .call (name.take Db3w.VNAMELEN)]
  | .ret none => [jmp RETURN 0]
  | .ret (some (_, b)) => [blk b, jmp FCNRTN 0]
  | .exit | .loop => [jmp JUMP k]

mutual

/-- The code of a procedure at `a`; its last EXIT goes to `k`. -/
def bodyGen (a : Nat) (k : Int) : Prog → List Chunk
  | .nil => []
  | .act act rest => act.gen (bodyBrk dbg (a + act.size dbg) k rest) ++ bodyGen (a + act.size dbg) k rest
  | .loop c body rest =>
    let s := a + (c.size dbg + JBLOCKSZ)
    let e := s + bodySize dbg body + JBLOCKSZ
    [blk c, jmp JMP_FALSE (bodyBrk dbg s e body)] ++ bodyGen s e body ++ [jmp JUMP a] ++ bodyGen e k rest
  | .if_ c body more rest =>
    let s := a + (c.size dbg + JBLOCKSZ)
    let t := s + bodySize dbg body
    let n := t + skipSize more
    let k' := bodyBrk dbg (n + casesSize dbg more) k rest
    [blk c, jmp JMP_FALSE n] ++ bodyGen s (casesBrk dbg n k' more) body ++ link dbg t more ++ casesGen n k' more ++ bodyGen (n + casesSize dbg more) k rest
  | .case_ pre cases rest =>
    let s := a + bodySize dbg pre
    let k' := bodyBrk dbg (s + casesSize dbg cases) k rest
    bodyGen a (casesBrk dbg s k' cases) pre ++ casesGen s k' cases ++ bodyGen (s + casesSize dbg cases) k rest

def casesGen (a : Nat) (k : Int) : Cases → List Chunk
  | .none => []
  | .else_ body => bodyGen a k body
  | .cond c body more =>
    let s := a + (c.size dbg + JBLOCKSZ)
    let t := s + bodySize dbg body
    let n := t + skipSize more
    [blk c, jmp JMP_FALSE n] ++ bodyGen s (casesBrk dbg n k more) body ++ link dbg t more ++ casesGen n k more

end

/-! ## Bytes -/

/-- The bytes of code at `a`; `ca` is what the address fields of calls hold. -/
def bytesAt (ca : Nat → Int) : Nat → List Chunk → List UInt8
  | _, [] => []
  | a, .code i :: is => i.bytes dbg ++ bytesAt ca (a + (Chunk.code i).size dbg) is
  | a, .call name :: is => cgenLjmp CALL (cposWord (ca (a + 2))) ++ bytesAt ca (a + (Chunk.call name).size dbg) is

/-- The calls in code at `a`, by the position of their address fields. -/
def callsAt : Nat → List Chunk → List (Nat × Str)
  | _, [] => []
  | a, .code i :: is => callsAt (a + (Chunk.code i).size dbg) is
  | a, .call name :: is => (a + 2, name) :: callsAt (a + (Chunk.call name).size dbg) is

end Gen

section Bytes

variable {dbg : Bool} {ca ca' : Nat → Int} {a : Nat} {A B : List Chunk} {i : Chunk} {c : Nat} {v w : Int} {b : LineBlock}

@[simp] theorem chunksSize_nil : chunksSize dbg [] = 0 := rfl

@[simp] theorem chunksSize_cons : chunksSize dbg (i :: A) = i.size dbg + chunksSize dbg A := by simp [chunksSize]

@[simp] theorem chunksSize_append : chunksSize dbg (A ++ B) = chunksSize dbg A + chunksSize dbg B := by simp [chunksSize]

@[simp] theorem size_blk : (blk b).size dbg = b.size dbg := rfl

@[simp] theorem size_jump : (jmp JUMP v).size dbg = JBLOCKSZ := rfl

@[simp] theorem size_jmpFalse : (jmp JMP_FALSE v).size dbg = JBLOCKSZ := rfl

@[simp] theorem size_rtn : (jmp RETURN v).size dbg = 2 := rfl

@[simp] theorem size_fcnrtn : (jmp FCNRTN v).size dbg = 2 := rfl

@[simp] theorem size_call {name : Str} : (Chunk.call name).size dbg = JBLOCKSZ := rfl

theorem length_bytes (i : CodeItem) : (i.bytes dbg).length = (Chunk.code i).size dbg := by
  cases i with
  | block e lineno => exact length_writeBlock dbg lineno e
  | ljmp jcode pos => exact length_cgenLjmp _ pos

@[simp] theorem length_bytesAt : (bytesAt dbg ca a A).length = chunksSize dbg A := by
  induction A generalizing a with
  | nil => rfl
  | cons i A ih =>
    cases i with
    | code i => rw [bytesAt, List.length_append, length_bytes, ih, chunksSize_cons]
    | call name =>
      rw [bytesAt, List.length_append, length_cgenLjmp, ih, chunksSize_cons]
      rfl

theorem bytesAt_append : bytesAt dbg ca a (A ++ B) = bytesAt dbg ca a A ++ bytesAt dbg ca (a + chunksSize dbg A) B := by
  induction A generalizing a with
  | nil => rfl
  | cons i A ih =>
    rw [chunksSize_cons, ← Nat.add_assoc]
    cases i with
    | code i => rw [List.cons_append, bytesAt, bytesAt, ih, List.append_assoc]
    | call name => rw [List.cons_append, bytesAt, bytesAt, ih, List.append_assoc]

theorem callsAt_append : callsAt dbg a (A ++ B) = callsAt dbg a A ++ callsAt dbg (a + chunksSize dbg A) B := by
  induction A generalizing a with
  | nil => rfl
  | cons i A ih =>
    rw [chunksSize_cons, ← Nat.add_assoc]
    cases i with
    | code i => rw [List.cons_append, callsAt, callsAt, ih]
    | call name => rw [List.cons_append, callsAt, callsAt, ih, List.cons_append]

/-- Address fields lie inside the code. -/
theorem callsAt_range {f : Nat} {name : Str} (h : (f, name) ∈ callsAt dbg a A) : a + 2 ≤ f ∧ f + 4 ≤ a + chunksSize dbg A := by
  induction A generalizing a with
  | nil => cases h
  | cons i A ih =>
    rw [chunksSize_cons]
    cases i with
    | code i =>
      have := ih h
      omega
    | call nm =>
      rw [size_call]
      rcases List.mem_cons.1 h with heq | h
      · obtain ⟨rfl, -⟩ := Prod.mk.inj heq
        unfold JBLOCKSZ
        omega
      · have := ih h
        rw [size_call] at this
        omega

/-- They do not overlap. -/
theorem callsAt_sorted : (callsAt dbg a A).Pairwise fun c d => c.1 + 4 ≤ d.1 := by
  induction A generalizing a with
  | nil => exact .nil
  | cons i A ih =>
    cases i with
    | code i => exact ih
    | call nm =>
      refine .cons (fun d hd => ?_) ih
      have := callsAt_range (f := d.1) hd
      rw [size_call] at this
      unfold JBLOCKSZ at this
      show a + 2 + 4 ≤ d.1
      omega

/-- The bytes depend on what the fields of its calls hold. -/
theorem bytesAt_congr (h : ∀ c ∈ callsAt dbg a A, ca c.1 = ca' c.1) : bytesAt dbg ca a A = bytesAt dbg ca' a A := by
  induction A generalizing a with
  | nil => rfl
  | cons i A ih =>
    cases i with
    | code i => rw [bytesAt, bytesAt, ih h]
    | call nm =>
      rw [bytesAt, bytesAt, ih fun c hc => h c (List.mem_cons_of_mem _ hc), h (a + 2, nm) List.mem_cons_self]

theorem writeAt_mid {X old bs Y : List UInt8} {off : Nat} (hoff : X.length = off) (hlen : old.length = bs.length) :
    writeAt off bs (X ++ (old ++ Y)) = X ++ (bs ++ Y) := by
  subst hoff
  rw [writeAt, Bytes.padTo, List.take_left' rfl, Nat.sub_self, List.replicate_zero, List.append_nil, ← List.append_assoc X old Y,
    ← List.drop_drop, List.append_assoc X old Y, List.drop_left' rfl, ← hlen, List.drop_left' rfl]

/-- A jump of six bytes. -/
def Long (c : Nat) : Prop := jsize (UInt8.ofNat c).toNat = JBLOCKSZ

theorem cgenLjmp_long {c : Nat} (h : jsize c = JBLOCKSZ) (pos : Nat) : cgenLjmp c pos = 0 :: UInt8.ofNat c :: word CPOSSZ pos := by
  rw [cgenLjmp, h]
  exact List.take_of_length_le (by rw [List.length_cons, List.length_cons, length_word])

/-- An address is filled in. -/
theorem bytesAt_patch (hc : Long c) (hoff : chunksSize dbg A + 2 = a) :
    writeAt a (word CPOSSZ (cposWord w)) (bytesAt dbg ca 0 (A ++ jmp c v :: B)) = bytesAt dbg ca 0 (A ++ jmp c w :: B) := by
  have hsplit : ∀ v, bytesAt dbg ca 0 (A ++ jmp c v :: B) =
      (bytesAt dbg ca 0 A ++ [0, UInt8.ofNat c]) ++ (word CPOSSZ (cposWord v) ++ bytesAt dbg ca (0 + chunksSize dbg A + JBLOCKSZ) B) := by
    intro v
    have hb : (CodeItem.ljmp (UInt8.ofNat c) (cposWord v)).bytes dbg = 0 :: UInt8.ofNat c :: word CPOSSZ (cposWord v) := by
      show cgenLjmp (UInt8.ofNat c).toNat (cposWord v) = _
      rw [cgenLjmp_long hc, UInt8.ofNat_toNat]
    have hs : (Chunk.code (.ljmp (UInt8.ofNat c) (cposWord v))).size dbg = JBLOCKSZ := hc
    rw [bytesAt_append, jmp, bytesAt, hb, hs]
    simp
  rw [hsplit, hsplit]
  refine writeAt_mid ?_ (by rw [length_word, length_word])
  rw [List.length_append, length_bytesAt]
  exact hoff

/-- The address of a call is filled in. -/
theorem bytesAt_update {f : Nat} {name : Str} (hf : (f, name) ∈ callsAt dbg 0 A) (w : Int) :
    writeAt f (word CPOSSZ (cposWord w)) (bytesAt dbg ca 0 A) = bytesAt dbg (Function.update ca f w) 0 A := by
  have hmem : ∀ {a : Nat} {A : List Chunk}, (f, name) ∈ callsAt dbg a A → ∃ X Y, A = X ++ .call name :: Y ∧ f = a + chunksSize dbg X + 2 := by
    intro a A
    induction A generalizing a with
    | nil => intro h; cases h
    | cons i A ih =>
      intro h
      have hrest : (f, name) ∈ callsAt dbg (a + i.size dbg) A → ∃ X Y, i :: A = X ++ .call name :: Y ∧ f = a + chunksSize dbg X + 2 := by
        intro h
        obtain ⟨X, Y, rfl, rfl⟩ := ih h
        exact ⟨i :: X, Y, rfl, by rw [chunksSize_cons]; omega⟩
      cases i with
      | code i => exact hrest h
      | call nm =>
        rcases List.mem_cons.1 h with heq | h
        · obtain ⟨rfl, rfl⟩ := Prod.mk.inj heq
          exact ⟨[], A, rfl, rfl⟩
        · exact hrest h
  obtain ⟨X, Y, rfl, hfe⟩ := hmem hf
  have hX : ∀ ca', (∀ g ≠ f, ca' g = ca g) → bytesAt dbg ca' 0 X = bytesAt dbg ca 0 X ∧
      bytesAt dbg ca' (0 + chunksSize dbg X + JBLOCKSZ) Y = bytesAt dbg ca (0 + chunksSize dbg X + JBLOCKSZ) Y := by
    intro ca' h
    refine ⟨bytesAt_congr fun d hd => h _ ?_, bytesAt_congr fun d hd => h _ ?_⟩
    · have := callsAt_range (f := d.1) hd
      omega
    · have := callsAt_range (f := d.1) hd
      unfold JBLOCKSZ at this
      omega
  have hsplit : ∀ ca', (∀ g ≠ f, ca' g = ca g) → bytesAt dbg ca' 0 (X ++ .call name :: Y) =
      (bytesAt dbg ca 0 X ++ [0, UInt8.ofNat CALL]) ++ (word CPOSSZ (cposWord (ca' f)) ++ bytesAt dbg ca (0 + chunksSize dbg X + JBLOCKSZ) Y) := by
    intro ca' h
    obtain ⟨h1, h2⟩ := hX ca' h
    rw [bytesAt_append, h1, bytesAt, size_call, h2, hfe, cgenLjmp_long (by rfl)]
    simp
  rw [hsplit ca fun _ _ => rfl, hsplit _ fun g hg => Function.update_of_ne hg _ _, Function.update_self]
  refine writeAt_mid ?_ (by rw [length_word, length_word])
  rw [List.length_append, length_bytesAt, hfe]
  simp only [List.length_cons, List.length_nil]
  omega

end Bytes

end Db3w.Hb
