/-
Compiled procedures do what they mean. Code that lies somewhere in the file takes the machine from its
beginning to its end, or to where an EXIT leads, as the lines say; this is shown for all lines, branches and loops
at once, for procedures that call each other to any depth.
-/
import Db3w.Hb.ExecProc

namespace Db3w.Hb

open Bytes Structured Stepping

/-! ## Code in the file -/

/-- Code lies at an address in the whole code. -/
def Lies (dbg : Bool) (G : List Chunk) (a : Nat) (I : List Chunk) : Prop := ∃ A B, G = A ++ (I ++ B) ∧ chunksSize dbg A = a

/-- A block that is not as long as some number of times 256 bytes, or a jump. -/
def Chunk.Told (dbg : Bool) : Chunk → Prop
  | .code (.block e _) => e.sizeWith dbg % 256 ≠ 0
  | _ => True

instance (dbg : Bool) : (i : Chunk) → Decidable (i.Told dbg)
  | .code (.block e _) => inferInstanceAs (Decidable (e.sizeWith dbg % 256 ≠ 0))
  | .code (.ljmp _ _) | .call _ => inferInstanceAs (Decidable True)

/-- The machine tells blocks from jumps. -/
def AllTold (dbg : Bool) (G : List Chunk) : Prop := ∀ i ∈ G, i.Told dbg

section Fetch

variable {σ : Type} {x : Executor σ} {dbg : Bool} {G I I1 I2 : List Chunk} {ca : Nat → Int} {a b c : Nat} {i : Chunk} {v : Int} {f : Calls} {w : World σ}
  {name : Str} {bl : LineBlock}

theorem Lies.left (h : Lies dbg G a (I1 ++ I2)) : Lies dbg G a I1 := by
  obtain ⟨A, B, rfl, ha⟩ := h
  exact ⟨A, I2 ++ B, by rw [List.append_assoc], ha⟩

theorem Lies.right (h : Lies dbg G a (I1 ++ I2)) (hb : a + chunksSize dbg I1 = b) : Lies dbg G b I2 := by
  obtain ⟨A, B, rfl, ha⟩ := h
  refine ⟨A ++ I1, B, ?_, ?_⟩
  · rw [List.append_assoc, List.append_assoc]
  · rw [chunksSize_append, ha, hb]

theorem Lies.tail (h : Lies dbg G a (i :: I)) (hb : a + i.size dbg = b) : Lies dbg G b I :=
  @Lies.right _ _ [i] _ _ _ h (by rw [chunksSize_cons, chunksSize_nil, Nat.add_zero, hb])

theorem Lies.le (h : Lies dbg G a I) : a + chunksSize dbg I ≤ chunksSize dbg G := by
  obtain ⟨A, B, rfl, rfl⟩ := h
  rw [chunksSize_append, chunksSize_append]
  omega

theorem Lies.mem (h : Lies dbg G a (i :: I)) : i ∈ G := by
  obtain ⟨A, B, rfl, -⟩ := h
  simp

/-- The bytes from the address on. -/
theorem Lies.drop (ca : Nat → Int) (h : Lies dbg G a I) : ∃ rest, (bytesAt dbg ca 0 G).drop a = bytesAt dbg ca a I ++ rest := by
  obtain ⟨A, B, rfl, rfl⟩ := h
  refine ⟨bytesAt dbg ca (chunksSize dbg A + chunksSize dbg I) B, ?_⟩
  rw [bytesAt_append, bytesAt_append, List.drop_left' (length_bytesAt ..), Nat.zero_add]

theorem Lies.callsAt (h : Lies dbg G a (.call name :: I)) : (a + 2, name) ∈ callsAt dbg 0 G := by
  obtain ⟨A, B, rfl, rfl⟩ := h
  rw [callsAt_append, Nat.zero_add]
  exact List.mem_append_right _ List.mem_cons_self

/-- The code of a jump is read back. -/
theorem readWord_code (hc' : c < 256) (bs : List UInt8) : Bytes.readWord 1 (UInt8.ofNat c :: bs) = c := by
  show (UInt8.ofNat c).toNat + 256 * 0 = c
  rw [UInt8.toNat_ofNat', Nat.mod_eq_of_lt hc']
  omega

/-- The fields of a long jump. -/
theorem ljmp_fields (hc : Long c) (hc' : c < 256) (hv : -2 ^ 31 ≤ v ∧ v < 2 ^ 31) :
    Bytes.readWord 1 ((cgenLjmp (UInt8.ofNat c).toNat (cposWord v)).drop 1) = c ∧ getCpos ((cgenLjmp (UInt8.ofNat c).toNat (cposWord v)).drop 2) = v := by
  rw [cgenLjmp_long hc, UInt8.ofNat_toNat]
  exact ⟨readWord_code hc' _, getCpos_word hv.1 hv.2⟩

/-- What the machine finds at a jump. -/
theorem fetch_jmp (h : Lies dbg G a (jmp c v :: I)) : (readPiece ((bytesAt dbg ca 0 G).drop a)).1 = .ljmp (cgenLjmp (UInt8.ofNat c).toNat (cposWord v)) := by
  obtain ⟨rest, hrest⟩ := h.drop ca
  rw [hrest, jmp, bytesAt, List.append_assoc]
  exact congrArg Prod.fst (readPiece_ljmp (UInt8.ofNat c) (cposWord v) _)

theorem fetch_call (h : Lies dbg G a (.call name :: I)) :
    (readPiece ((bytesAt dbg ca 0 G).drop a)).1 = .ljmp (cgenLjmp (UInt8.ofNat CALL).toNat (cposWord (ca (a + 2)))) := by
  obtain ⟨rest, hrest⟩ := h.drop ca
  rw [hrest, bytesAt, List.append_assoc]
  exact congrArg Prod.fst (readPiece_ljmp (UInt8.ofNat CALL) (cposWord (ca (a + 2))) _)

theorem fetch_block (ht : AllTold dbg G) (h : Lies dbg G a (blk bl :: I)) :
    (readPiece ((bytesAt dbg ca 0 G).drop a)).1 = .block (writeBlock dbg bl.lineno bl.e) := by
  obtain ⟨rest, hrest⟩ := h.drop ca
  rw [hrest, bytesAt, List.append_assoc]
  exact congrArg Prod.fst (readPiece_block (ht _ h.mem) bl.lineno _)

theorem step_block (x : Executor σ) (ca : Nat → Int) (f : Calls) (w : World σ) (ht : AllTold dbg G) (h : Lies dbg G a (blk bl :: I)) :
    step x (bytesAt dbg ca 0 G) ⟨a, f, w⟩ =
      match x.execute f.depth (writeBlock dbg bl.lineno bl.e) w with
      | .error e => .inr (.failed e)
      | .ok w => .inl ⟨a + bl.size dbg, f, w⟩ := by
  have hsize : Bytes.readWord 2 (writeBlock dbg bl.lineno bl.e) = bl.size dbg := by
    have := readWord_block dbg bl.lineno bl.e []
    rwa [List.append_nil] at this
  unfold step
  rw [fetch_block ht h]
  dsimp only
  cases x.execute f.depth (writeBlock dbg bl.lineno bl.e) w with
  | error e => rfl
  | ok w => exact congrArg (fun n => (Sum.inl ⟨a + n, f, w⟩ : Exec σ ⊕ Done σ)) hsize

theorem step_jump (h : Lies dbg G a (jmp JUMP v :: I)) (hv : -2 ^ 31 ≤ v ∧ v < 2 ^ 31) : step x (bytesAt dbg ca 0 G) ⟨a, f, w⟩ = jump x v ⟨a, f, w⟩ := by
  obtain ⟨h1, h2⟩ := ljmp_fields (c := JUMP) rfl (by decide) hv
  unfold step
  rw [fetch_jmp h]
  dsimp only
  rw [h1, h2, if_neg (by decide), if_pos rfl]

theorem step_jmpFalse (x : Executor σ) (ca : Nat → Int) (f : Calls) (w : World σ) (h : Lies dbg G a (jmp JMP_FALSE v :: I)) (hv : -2 ^ 31 ≤ v ∧ v < 2 ^ 31) :
    step x (bytesAt dbg ca 0 G) ⟨a, f, w⟩ =
      match istrue w with
      | .error e => .inr (.failed e)
      | .ok (true, w) => .inl ⟨a + JBLOCKSZ, f, w⟩
      | .ok (false, w) => jump x v ⟨a, f, w⟩ := by
  obtain ⟨h1, h2⟩ := ljmp_fields (c := JMP_FALSE) rfl (by decide) hv
  unfold step
  rw [fetch_jmp h]
  dsimp only
  rw [h1, h2]
  exact if_pos rfl

theorem step_call (h : Lies dbg G a (.call name :: I)) (hv : -2 ^ 31 ≤ ca (a + 2) ∧ ca (a + 2) < 2 ^ 31) :
    step x (bytesAt dbg ca 0 G) ⟨a, f, w⟩ = call x (ca (a + 2)) ⟨a, f, w⟩ := by
  obtain ⟨h1, h2⟩ := ljmp_fields (c := CALL) rfl (by decide) hv
  unfold step
  rw [fetch_call h]
  dsimp only
  rw [h1, h2, if_neg (by decide), if_neg (by decide), if_pos rfl]

theorem short_code (hc : jsize (UInt8.ofNat c).toNat = 2) (hc' : c < 256) : Bytes.readWord 1 ((cgenLjmp (UInt8.ofNat c).toNat (cposWord v)).drop 1) = c := by
  rw [cgenLjmp, hc, UInt8.ofNat_toNat]
  exact readWord_code hc' _

theorem step_return (h : Lies dbg G a (jmp RETURN v :: I)) : step x (bytesAt dbg ca 0 G) ⟨a, f, w⟩ = ret x none ⟨a, f, w⟩ := by
  have h1 := short_code (c := RETURN) (v := v) rfl (by decide)
  unfold step
  rw [fetch_jmp h]
  dsimp only
  rw [h1, if_neg (by decide), if_neg (by decide), if_neg (by decide), if_pos rfl]

theorem step_fcnrtn (x : Executor σ) (ca : Nat → Int) (f : Calls) (w : World σ) (h : Lies dbg G a (jmp FCNRTN v :: I)) :
    step x (bytesAt dbg ca 0 G) ⟨a, f, w⟩ =
      match takeValue w with
      | .error r => .inr r
      | .ok (rtv, w) => ret x (some rtv) ⟨a, f, w⟩ := by
  have h1 := short_code (c := FCNRTN) (v := v) rfl (by decide)
  unfold step
  rw [fetch_jmp h]
  dsimp only
  rw [h1, if_neg (by decide), if_neg (by decide), if_neg (by decide), if_neg (by decide)]
  exact if_pos rfl

end Fetch

/-! ## Outcomes -/

/-- A procedure has been called. -/
structure InProc (f : Calls) : Prop where
  jmpAddr : f.jmpAddr ≠ []
  pcount : f.pcount ≠ []
  callAddr : f.callAddr ≠ []

section Outcomes

variable {σ : Type} (x : Executor σ) (code : List UInt8)

/-- The machine ends as a procedure does; a RETURN goes back to where the procedure was called. -/
def Finishes (f : Calls) (s : Exec σ) : Done σ → Prop
  | .returned w =>
    match f.jmpAddr with
    | [] => False
    | newpos :: jmpAddr =>
      if newpos = -1 then Halts (step x code) s (.returned w) else Gets (step x code) s ⟨newpos.toNat, ⟨jmpAddr, f.pcount.tail, f.callAddr.tail⟩, w⟩
  | r => Halts (step x code) s r

/-- The machine does what statements do: it gets to `b`, or for an EXIT to `e`; as long as they take more rounds, it takes more steps than `n`. -/
def Does (n : Nat) (f : Calls) (s : Exec σ) (b : Nat) (e : Option Nat) : Out (World σ) (Done σ) → Prop
  | .next w => Gets (step x code) s ⟨b, f, w⟩
  | .exit w => ∃ e', e = some e' ∧ Gets (step x code) s ⟨e', f, w⟩
  | .stop r => Finishes x code f s r
  | .more => Going (step x code) n s

/-- The address `k` leads to `e` by jumps alone. -/
def Leads (k : Int) (e : Nat) : Prop :=
  ∃ j : Nat, k = j ∧ j < 2 ^ 31 ∧ ∀ f w, x.escape w.state = false → Gets (step x code) ⟨j, f, w⟩ ⟨e, f, w⟩

variable {x code} {n m : Nat} {f : Calls} {s s' : Exec σ} {b mid e' : Nat} {e : Option Nat} {o : Out (World σ) (Done σ)} {r : Done σ} {k : Int} {w : World σ}

theorem Finishes.before (h : Gets (step x code) s s') (h' : Finishes x code f s' r) : Finishes x code f s r := by
  cases r with
  | returned w =>
    unfold Finishes at h' ⊢
    cases hj : f.jmpAddr with
    | nil =>
      rw [hj] at h'
      exact h'.elim
    | cons newpos jmpAddr =>
      rw [hj] at h'
      dsimp only at h' ⊢
      by_cases hback : newpos = -1
      · rw [if_pos hback] at h' ⊢
        exact h.halts h'
      · rw [if_neg hback] at h' ⊢
        exact h.trans h'
  | _ => exact Gets.halts h h'

theorem Does.before (h : Gets (step x code) s s') (h' : Does x code n f s' b e o) : Does x code n f s b e o := by
  cases o with
  | next w => exact h.trans h'
  | exit w =>
    obtain ⟨e', he, h'⟩ := h'
    exact ⟨e', he, h.trans h'⟩
  | stop r => exact Finishes.before h h'
  | more => exact h.going h'

/-- A step in front. -/
theorem Does.head (h : step x code s = .inl s') (h' : Does x code n f s' b e o) : Does x code (n + 1) f s b e o := by
  cases o with
  | more => exact Going.head h h'
  | next w => exact Gets.head h h'
  | exit w =>
    obtain ⟨e', he, h'⟩ := h'
    exact ⟨e', he, Gets.head h h'⟩
  | stop r => exact Finishes.before (Gets.one h) h'

theorem Does.mono (h : Does x code n f s b e o) (hm : m ≤ n) : Does x code m f s b e o := by
  cases o with
  | more => exact Going.mono h hm
  | next w => exact h
  | exit w => exact h
  | stop r => exact h

theorem Does.bind {g : World σ → Out (World σ) (Done σ)} (h : Does x code n f s mid e o)
    (hg : ∀ w, Does x code n f ⟨mid, f, w⟩ b e (g w)) : Does x code n f s b e (o.bind g) := by
  cases o with
  | next w => exact (hg w).before h
  | exit w => exact h
  | stop r => exact h
  | more => exact h

/-- An end that is no RETURN. -/
theorem Finishes.stopped (hr : ∀ w, r ≠ .returned w) (h : step x code s = .inr r) : Finishes x code f s r := by
  cases r with
  | returned w => exact absurd rfl (hr w)
  | _ => exact Halts.one h

/-- A value that is not taken does not return. -/
theorem takeValue_error (h : takeValue w = .error r) (w' : World σ) : r ≠ .returned w' := by
  rintro rfl
  unfold takeValue at h
  split at h
  · cases h
  · split at h <;> cases h

theorem Leads.refl (h : e' < 2 ^ 31) : Leads x code ↑e' e' := ⟨e', rfl, h, fun _ _ _ => .refl⟩

theorem Leads.range (h : Leads x code k e') : -2 ^ 31 ≤ k ∧ k < 2 ^ 31 := by
  obtain ⟨j, rfl, hj, -⟩ := h
  omega

/-- A jump without an escape. -/
theorem Leads.jump (h : Leads x code k e') (hesc : x.escape w.state = false) {a : Nat} (hstep : step x code s = Hb.jump x k ⟨a, f, w⟩) :
    Gets (step x code) s ⟨e', f, w⟩ := by
  obtain ⟨j, rfl, hj, hlead⟩ := h
  refine Gets.head (hstep.trans ?_) (hlead f w hesc)
  unfold Hb.jump
  rw [if_neg (by rw [hesc]; exact Bool.false_ne_true), if_neg (by omega)]
  rfl

/-- A jump with one. -/
theorem jump_escape {a : Nat} (hesc : x.escape w.state = true) (hstep : step x code s = Hb.jump x k ⟨a, f, w⟩) :
    Halts (step x code) s (.escaped f.depth w) := by
  refine Halts.one (hstep.trans ?_)
  unfold Hb.jump
  rw [if_pos hesc]

end Outcomes

/-! ## Jumps -/

section Jumps

variable {σ : Type} {x : Executor σ} {dbg : Bool} {G I : List Chunk} {ca : Nat → Int} {a b e : Nat} {k v : Int} {f : Calls} {w : World σ} {n : Nat}
  {eo : Option Nat}

theorem Leads.step (hsize : chunksSize dbg G < 2 ^ 31) (h : Lies dbg G a (jmp JUMP v :: I)) (h' : Leads x (bytesAt dbg ca 0 G) v e) :
    Leads x (bytesAt dbg ca 0 G) ↑a e := by
  have hle := h.le
  exact ⟨a, rfl, by omega, fun f w hesc => h'.jump hesc (step_jump h h'.range)⟩

theorem Lies.leads (hsize : chunksSize dbg G < 2 ^ 31) (h : Lies dbg G a I) : Leads x (bytesAt dbg ca 0 G) ↑a a := by
  have hle := h.le
  exact .refl (by omega)

mutual

/-- Where code is left by an EXIT in front of it leads to where its last EXIT goes to. -/
theorem body_leads (hsize : chunksSize dbg G < 2 ^ 31) : (p : Prog) → ∀ {a : Nat} {k : Int}, Lies dbg G a (bodyGen dbg a k p) →
    Leads x (bytesAt dbg ca 0 G) k e → Leads x (bytesAt dbg ca 0 G) (bodyBrk dbg a k p) e
  | .nil, _, _, _, hk => hk
  | .act act rest, a, k, h, hk => by
    have hrest := body_leads hsize rest (h.right (by rw [size_gen])) hk
    cases act with
    | exit => exact Leads.step hsize h.left hrest
    | loop => exact Leads.step hsize h.left hrest
    | _ => exact hrest
  | .loop c body rest, a, k, h, hk => by
    rw [bodyGen] at h
    refine body_leads hsize rest (a := a + (c.size dbg + JBLOCKSZ + bodySize dbg body + JBLOCKSZ)) ?_ hk
    have hr := h.right (b := a + (c.size dbg + JBLOCKSZ) + bodySize dbg body + JBLOCKSZ) (by simp; omega)
    rwa [show a + (c.size dbg + JBLOCKSZ) + bodySize dbg body + JBLOCKSZ = a + (c.size dbg + JBLOCKSZ + bodySize dbg body + JBLOCKSZ) by omega] at hr
  | .if_ c body more rest, a, k, h, hk => by
    rw [bodyGen] at h
    have hrest := body_leads hsize rest (h.right (by simp; omega)) hk
    have hmore := cases_leads hsize more (h.left.right (by simp; omega)) hrest
    exact body_leads hsize body (h.left.left.left.right (by simp)) hmore
  | .case_ pre cases rest, a, k, h, hk => by
    rw [bodyGen] at h
    have hrest := body_leads hsize rest (h.right (by simp; omega)) hk
    have hcases := cases_leads hsize cases (h.left.right (by simp)) hrest
    exact body_leads hsize pre h.left.left hcases

theorem cases_leads (hsize : chunksSize dbg G < 2 ^ 31) : (brs : Cases) → ∀ {a : Nat} {k : Int}, Lies dbg G a (casesGen dbg a k brs) →
    Leads x (bytesAt dbg ca 0 G) k e → Leads x (bytesAt dbg ca 0 G) (casesBrk dbg a k brs) e
  | .none, _, _, _, hk => hk
  | .else_ body, _, _, h, hk => body_leads hsize body h hk
  | .cond c body more, a, k, h, hk => by
    rw [casesGen] at h
    have hmore := cases_leads hsize more (h.right (by simp; omega)) hk
    exact body_leads hsize body (h.left.left.right (by simp)) hmore

end

/-- The jump behind a branch leads to the end. -/
theorem link_leads (hsize : chunksSize dbg G < 2 ^ 31) (more : Cases) {a : Nat} {k : Int} (h : Lies dbg G a (casesGen dbg a k more)) :
    Leads x (bytesAt dbg ca 0 G) (linkTo dbg a more) (a + casesSize dbg more) := by
  have hend := h.le
  rw [size_casesGen] at hend
  cases more with
  | none => exact .refl (by omega)
  | else_ body => exact .refl (by rw [casesSize] at hend; omega)
  | cond c body more =>
    rw [casesGen] at h
    rw [casesSize] at hend ⊢
    cases hnone : more.isNone with
    | true =>
      obtain rfl : more = .none := by
        cases more with
        | none => rfl
        | else_ body => cases hnone
        | cond c body more => cases hnone
      rw [show a + (c.size dbg + JBLOCKSZ + bodySize dbg body + skipSize .none + casesSize dbg .none) = a + (c.size dbg + JBLOCKSZ) + bodySize dbg body by
        simp [skipSize, Branches.isNone, casesSize, Nat.add_assoc]]
      exact .refl (by omega)
    | false =>
      have hskip : skipSize more = JBLOCKSZ := by rw [skipSize, hnone]; rfl
      have hlink := h.left.right (b := a + (c.size dbg + JBLOCKSZ) + bodySize dbg body) (by simp; omega)
      rw [link, hnone] at hlink
      have hmore := link_leads hsize more (h.right (b := a + (c.size dbg + JBLOCKSZ) + bodySize dbg body + skipSize more) (by simp; omega))
      rw [hskip] at hmore ⊢
      rw [show a + (c.size dbg + JBLOCKSZ + bodySize dbg body + JBLOCKSZ + casesSize dbg more) =
        a + (c.size dbg + JBLOCKSZ) + bodySize dbg body + JBLOCKSZ + casesSize dbg more by omega]
      exact Leads.step hsize hlink hmore

end Jumps

/-! ## Lines, branches and loops -/

/-- The whole code: each call holds the address of the procedure of its name. -/
structure Image (dbg : Bool) (ps : List ProcDef) (G : List Chunk) (ca : Nat → Int) : Prop where
  size : chunksSize dbg G < 2 ^ 31
  told : AllTold dbg G
  calls : ∀ c ∈ callsAt dbg 0 G, ∃ p ad, (p, ad) ∈ libDefs dbg JBLOCKSZ ps ∧ (ps.find? fun p => sameName p.name c.2) = some p ∧ ca c.1 = ↑ad ∧ ad < 2 ^ 31

section Runs

variable {σ : Type} {x : Executor σ} {dbg : Bool} {ps : List ProcDef} {G I : List Chunk} {ca : Nat → Int} {a b : Nat} {k v : Int} {f : Calls} {w : World σ} {n : Nat}
  {eo : Option Nat} {run : Depth → ProcDef → World σ → Out (World σ) (Done σ)} {c bl : LineBlock} {name : Str} {isfcn inLoop : Bool}

/-- The machine does what a procedure does. -/
def Runs (x : Executor σ) (code : List UInt8) (n : Nat) (f : Calls) (s : Exec σ) : Out (World σ) (Done σ) → Prop
  | .stop r => Finishes x code f s r
  | .more => Going (step x code) n s
  | _ => False

/-- The procedures at their addresses do what `run` says. -/
def RunsAll (x : Executor σ) (dbg : Bool) (ps : List ProcDef) (code : List UInt8) (n : Nat) (run : Depth → ProcDef → World σ → Out (World σ) (Done σ)) : Prop :=
  ∀ p ad, (p, ad) ∈ libDefs dbg JBLOCKSZ ps → ∀ f w, InProc f → Runs x code n f ⟨ad, f, w⟩ (run f.depth p w)

theorem ret_finishes (hf : InProc f) {s : Exec σ} {rtv : Option HbVal} (h : step x (bytesAt dbg ca 0 G) s = ret x rtv ⟨a, f, w⟩) :
    Finishes x (bytesAt dbg ca 0 G) f s (leaves x f.depth rtv w) := by
  obtain ⟨jmpAddr, pcount, callAddr⟩ := f
  obtain ⟨newpos, jmpAddr, rfl⟩ := List.exists_cons_of_ne_nil hf.jmpAddr
  obtain ⟨cnt, pcount, rfl⟩ := List.exists_cons_of_ne_nil hf.pcount
  obtain ⟨caller, callAddr, rfl⟩ := List.exists_cons_of_ne_nil hf.callAddr
  unfold ret at h
  dsimp only at h
  unfold leaves
  have hd : (Calls.depth ⟨newpos :: jmpAddr, cnt :: pcount, caller :: callAddr⟩).pcount = cnt :: pcount := rfl
  rw [hd, List.length_cons, List.headD_cons]
  cases hl : leave x (pcount.length + 1) cnt rtv w with
  | error e =>
    rw [hl] at h
    exact Halts.one h
  | ok w' =>
    rw [hl] at h
    dsimp only at h ⊢
    unfold Finishes
    dsimp only
    by_cases hback : newpos = -1
    · rw [if_pos hback] at h ⊢
      exact Halts.one h
    · rw [if_neg hback] at h ⊢
      exact Gets.one h

theorem poll_true (hesc : x.escape w.state = true) : pollEscape x f.depth w = some (.escaped f.depth w) := if_pos hesc

theorem poll_false (hesc : x.escape w.state = false) : pollEscape x f.depth w = none := if_neg (by rw [hesc]; exact Bool.false_ne_true)

theorem sem_jump_true (hesc : x.escape w.state = true) : (procSem x dbg ps run f.depth).jump w = .stop (.escaped f.depth w) := by
  unfold Sem.jump
  rw [show (procSem x dbg ps run f.depth).poll w = some (.escaped f.depth w) from poll_true hesc]

theorem sem_jump_false (hesc : x.escape w.state = false) : (procSem x dbg ps run f.depth).jump w = .next w := by
  unfold Sem.jump
  rw [show (procSem x dbg ps run f.depth).poll w = none from poll_false hesc]

/-- What a condition says. -/
theorem sem_cond {w1 : World σ} (hx : x.execute f.depth (writeBlock dbg c.lineno c.e) w = .ok w1) :
    (procSem x dbg ps run f.depth).cond c w = (istrue w1).mapError Done.failed := by
  simp only [procSem, hx]
  rfl

/-- A jump to where `v` leads. -/
theorem jump_runs (h : Lies dbg G a (jmp JUMP v :: I)) (hv : Leads x (bytesAt dbg ca 0 G) v b) :
    Does x (bytesAt dbg ca 0 G) n f ⟨a, f, w⟩ b eo ((procSem x dbg ps run f.depth).jump w) := by
  have hstep : step x (bytesAt dbg ca 0 G) ⟨a, f, w⟩ = Hb.jump x v ⟨a, f, w⟩ := step_jump h hv.range
  cases hesc : x.escape w.state with
  | true =>
    rw [sem_jump_true hesc]
    exact jump_escape hesc hstep
  | false =>
    rw [sem_jump_false hesc]
    exact hv.jump hesc hstep

/-- EXIT. -/
theorem exit_runs (h : Lies dbg G a (jmp JUMP v :: I)) {e : Nat} (hv : Leads x (bytesAt dbg ca 0 G) v e) :
    Does x (bytesAt dbg ca 0 G) n f ⟨a, f, w⟩ b (some e) (match pollEscape x f.depth w with
      | some r => .stop r
      | none => .exit w) := by
  have hstep : step x (bytesAt dbg ca 0 G) ⟨a, f, w⟩ = Hb.jump x v ⟨a, f, w⟩ := step_jump h hv.range
  cases hesc : x.escape w.state with
  | true =>
    rw [poll_true hesc]
    exact jump_escape hesc hstep
  | false =>
    rw [poll_false hesc]
    exact ⟨e, rfl, hv.jump hesc hstep⟩

theorem block_runs (ht : AllTold dbg G) (h : Lies dbg G a (blk bl :: I)) : Does x (bytesAt dbg ca 0 G) n f ⟨a, f, w⟩ (a + bl.size dbg) eo (runBlock x dbg f.depth bl w) := by
  have hstep := step_block x ca f w ht h
  unfold runBlock
  cases hx : x.execute f.depth (writeBlock dbg bl.lineno bl.e) w with
  | error e =>
    rw [hx] at hstep
    exact Halts.one hstep
  | ok w' =>
    rw [hx] at hstep
    exact Gets.one hstep

/-- A condition: what comes behind it, and where a false one leads. -/
theorem test_runs (ht : AllTold dbg G) (h : Lies dbg G a (blk c :: jmp JMP_FALSE v :: I)) {b0 : Nat} (hv : Leads x (bytesAt dbg ca 0 G) v b0)
    {yes no : World σ → Out (World σ) (Done σ)}
    (hyes : ∀ w, Does x (bytesAt dbg ca 0 G) n f ⟨a + (c.size dbg + JBLOCKSZ), f, w⟩ b eo (yes w))
    (hno : ∀ w, Does x (bytesAt dbg ca 0 G) n f ⟨b0, f, w⟩ b eo (no w)) :
    Does x (bytesAt dbg ca 0 G) (n + 1) f ⟨a, f, w⟩ b eo ((procSem x dbg ps run f.depth).test c yes no w) := by
  have hstep := step_block x ca f w ht h
  unfold Sem.test
  cases hx : x.execute f.depth (writeBlock dbg c.lineno c.e) w with
  | error e =>
    rw [hx] at hstep
    rw [show (procSem x dbg ps run f.depth).cond c w = .error (.failed e) by simp only [procSem, hx]; rfl]
    exact Halts.one hstep
  | ok w1 =>
    rw [hx] at hstep
    have hfalse := step_jmpFalse x ca f w1 (h.tail rfl) hv.range
    cases hi : istrue w1 with
    | error e =>
      rw [sem_cond hx, hi]
      rw [hi] at hfalse
      exact (Gets.one hstep).halts (Halts.one hfalse)
    | ok r =>
      obtain ⟨tf, w2⟩ := r
      rw [sem_cond hx, hi]
      rw [hi] at hfalse
      refine Does.head hstep ?_
      cases tf with
      | true => exact (hyes w2).before (by rw [← Nat.add_assoc]; exact Gets.one hfalse)
      | false =>
        refine Does.bind (?_ : Does _ _ _ _ _ b0 _ _) hno
        cases hesc : x.escape w2.state with
        | true =>
          rw [sem_jump_true hesc]
          exact jump_escape hesc hfalse
        | false =>
          rw [sem_jump_false hesc]
          exact hv.jump hesc hfalse

/-- At most `m` rounds of a loop. -/
theorem loop_runs {B : List Chunk} {t e' : Nat} (hG : Image dbg ps G ca) (h : Lies dbg G a ([blk c, jmp JMP_FALSE v] ++ B ++ [jmp JUMP a]))
    (hv : Leads x (bytesAt dbg ca 0 G) v e') (ht : a + (c.size dbg + JBLOCKSZ) + chunksSize dbg B = t) {body : World σ → Out (World σ) (Done σ)}
    (hbody : ∀ w, Does x (bytesAt dbg ca 0 G) n f ⟨a + (c.size dbg + JBLOCKSZ), f, w⟩ t (some e') (body w)) {m : Nat} (hm : m ≤ n) :
    Does x (bytesAt dbg ca 0 G) m f ⟨a, f, w⟩ e' eo ((procSem x dbg ps run f.depth).loop c body m w) := by
  induction m generalizing w with
  | zero => exact ⟨0, ⟨a, f, w⟩, le_rfl, rfl⟩
  | succ m ih =>
    rw [Sem.loop]
    refine test_runs hG.told h.left.left hv (fun w1 => ?_) fun w1 => Gets.refl
    have hround := hbody w1
    cases hb : body w1 with
    | next w2 =>
      rw [hb] at hround
      have hjump := h.right (b := t) (by rw [chunksSize_append, ← Nat.add_assoc, ← ht]; simp)
      exact Does.before hround ((jump_runs hjump (h.leads hG.size)).bind fun w3 => ih (Nat.le_of_succ_le hm))
    | exit w2 =>
      rw [hb] at hround
      obtain ⟨e2, heq, hget⟩ := hround
      obtain rfl := Option.some.inj heq
      exact hget
    | stop r =>
      rw [hb] at hround
      exact hround
    | more =>
      rw [hb] at hround
      exact Going.mono hround (Nat.le_of_succ_le hm)

/-- A call: the procedure runs, and the machine comes back behind it. -/
theorem call_runs (hG : Image dbg ps G ca) (hrun : RunsAll x dbg ps (bytesAt dbg ca 0 G) n run) (h : Lies dbg G a (.call name :: I)) :
    Does x (bytesAt dbg ca 0 G) (n + 1) f ⟨a, f, w⟩ (a + JBLOCKSZ) eo (callBy x ps run f.depth name w) := by
  obtain ⟨p, ad, hd, hfind, hca, had⟩ := hG.calls _ h.callsAt
  dsimp only at hfind hca
  have hstep : step x (bytesAt dbg ca 0 G) ⟨a, f, w⟩ = call x (ca (a + 2)) ⟨a, f, w⟩ := step_call h (by omega)
  rw [hca] at hstep
  unfold call at hstep
  unfold callBy
  cases hesc : x.escape w.state with
  | true =>
    rw [if_pos hesc] at hstep
    exact Halts.one hstep
  | false =>
    rw [if_neg (by rw [hesc]; exact Bool.false_ne_true)] at hstep
    rw [if_neg Bool.false_ne_true]
    cases hent : enter f.depth w with
    | error e =>
      rw [hent] at hstep
      exact Halts.one hstep
    | ok r =>
      obtain ⟨cnt, w1⟩ := r
      rw [hent] at hstep
      dsimp only at hstep ⊢
      rw [if_neg (by omega), Int.toNat_natCast] at hstep
      rw [hfind]
      have hr := hrun p ad hd ⟨↑(a + JBLOCKSZ) :: f.jmpAddr, cnt :: f.pcount, ↑ad :: f.callAddr⟩ w1
        ⟨List.cons_ne_nil _ _, List.cons_ne_nil _ _, List.cons_ne_nil _ _⟩
      change Runs _ _ _ _ _ (run ⟨f.depth.addrs + 1, f.depth.callers + 1, cnt :: f.depth.pcount⟩ p w1) at hr
      dsimp only
      cases ho : run ⟨f.depth.addrs + 1, f.depth.callers + 1, cnt :: f.depth.pcount⟩ p w1 with
      | next w2 =>
        rw [ho] at hr
        exact hr.elim
      | exit w2 =>
        rw [ho] at hr
        exact hr.elim
      | more =>
        rw [ho] at hr
        exact Going.head hstep hr
      | stop r =>
        rw [ho] at hr
        cases r with
        | returned w2 =>
          unfold Runs Finishes at hr
          dsimp only at hr
          rw [if_neg (by omega), Int.toNat_natCast] at hr
          exact Gets.head hstep hr
        | _ => exact (Gets.one hstep).halts hr

theorem act_runs (hG : Image dbg ps G ca) (hrun : RunsAll x dbg ps (bytesAt dbg ca 0 G) n run) (hf : InProc f) (act : Act) (h : Lies dbg G a (act.gen k))
    (hfit : act.Fits isfcn inLoop) (hk : inLoop = true → ∃ e, eo = some e ∧ Leads x (bytesAt dbg ca 0 G) k e) :
    Does x (bytesAt dbg ca 0 G) (n + 1) f ⟨a, f, w⟩ (a + act.size dbg) eo ((procSem x dbg ps run f.depth).act act w) := by
  cases act with
  | blank comment => exact Gets.refl
  | other b => exact block_runs hG.told h
  | doProc name args =>
    rw [Act.size, ← Nat.add_assoc]
    exact (block_runs hG.told h).bind fun w1 => call_runs hG hrun (h.tail rfl)
  | ret value =>
    rcases value with _ | ⟨pound, b⟩
    · exact ret_finishes hf (step_return h)
    · refine (block_runs hG.told h).bind fun w1 => ?_
      have hstep := step_fcnrtn x ca f w1 (h.tail (b := a + b.size dbg) rfl)
      cases hp : takeValue w1 with
      | error r =>
        rw [hp] at hstep
        exact Finishes.stopped (takeValue_error hp) hstep
      | ok r =>
        rw [hp] at hstep
        exact ret_finishes hf hstep
  | exit =>
    obtain ⟨e, rfl, hlead⟩ := hk hfit
    exact exit_runs h hlead
  | loop =>
    obtain ⟨e, rfl, hlead⟩ := hk hfit
    exact exit_runs h hlead

section Structured

mutual

/-- **Lines, branches and loops** run as they mean. -/
theorem body_runs (hG : Image dbg ps G ca) (hrun : RunsAll x dbg ps (bytesAt dbg ca 0 G) n run) (hf : InProc f) :
    (p : Prog) → ∀ {inLoop : Bool} {a : Nat} {k : Int} {w : World σ} {eo : Option Nat}, Lies dbg G a (bodyGen dbg a k p) →
    BodyFits isfcn inLoop p → (inLoop = true → ∃ e, eo = some e ∧ Leads x (bytesAt dbg ca 0 G) k e) →
    Does x (bytesAt dbg ca 0 G) (n + 1) f ⟨a, f, w⟩ (a + bodySize dbg p) eo (p.run (procSem x dbg ps run f.depth) (n + 1) w)
  | .nil, _, _, _, _, _, _, _, _ => Gets.refl
  | .act act rest, _, a, k, w, eo, h, hfit, hk => by
    rw [bodyGen] at h
    have hrest := h.right (b := a + act.size dbg) (by rw [size_gen])
    rw [bodySize, ← Nat.add_assoc]
    refine (act_runs hG hrun hf act h.left hfit.1 fun hl => ?_).bind fun w1 => body_runs hG hrun hf rest hrest hfit.2 hk
    obtain ⟨e, rfl, hlead⟩ := hk hl
    exact ⟨e, rfl, body_leads hG.size rest hrest hlead⟩
  | .loop c body rest, _, a, k, w, eo, h, hfit, hk => by
    rw [bodyGen] at h
    have hrest := h.right (b := a + (c.size dbg + JBLOCKSZ) + bodySize dbg body + JBLOCKSZ) (by simp; omega)
    have hbody := h.left.left.right (b := a + (c.size dbg + JBLOCKSZ)) (by simp)
    have hend : Leads x (bytesAt dbg ca 0 G) ↑(a + (c.size dbg + JBLOCKSZ) + bodySize dbg body + JBLOCKSZ) _ := hrest.leads hG.size
    rw [bodySize, show a + (c.size dbg + JBLOCKSZ + bodySize dbg body + JBLOCKSZ + bodySize dbg rest) =
      a + (c.size dbg + JBLOCKSZ) + bodySize dbg body + JBLOCKSZ + bodySize dbg rest by omega]
    refine Does.bind ?_ fun w1 => body_runs hG hrun hf rest hrest hfit.2 hk
    exact loop_runs hG h.left (body_leads hG.size body hbody hend) (by rw [size_bodyGen])
      (fun w1 => body_runs hG hrun hf body hbody hfit.1 fun _ => ⟨_, rfl, hend⟩) le_rfl
  | .if_ c body more rest, _, a, k, w, eo, h, hfit, hk => by
    rw [bodyGen] at h
    have hrest := h.right (b := a + (c.size dbg + JBLOCKSZ) + bodySize dbg body + skipSize more + casesSize dbg more) (by simp; omega)
    rw [bodySize, show a + (c.size dbg + JBLOCKSZ + bodySize dbg body + skipSize more + casesSize dbg more + bodySize dbg rest) =
      a + (c.size dbg + JBLOCKSZ) + bodySize dbg body + skipSize more + casesSize dbg more + bodySize dbg rest by omega]
    refine Does.bind ?_ fun w1 => body_runs hG hrun hf rest hrest hfit.2.2 hk
    refine branch_runs hG hrun hf c body more h.left hfit.1 hfit.2.1 fun hl => ?_
    obtain ⟨e, rfl, hlead⟩ := hk hl
    exact ⟨e, rfl, body_leads hG.size rest hrest hlead⟩
  | .case_ pre cases rest, _, a, k, w, eo, h, hfit, hk => by
    rw [bodyGen] at h
    have hrest := h.right (b := a + bodySize dbg pre + casesSize dbg cases) (by simp; omega)
    have hcases := h.left.right (b := a + bodySize dbg pre) (by simp)
    have hk' : ∀ hl : _ = true, ∃ e, eo = some e ∧ Leads x (bytesAt dbg ca 0 G) (bodyBrk dbg (a + bodySize dbg pre + casesSize dbg cases) k rest) e := fun hl => by
      obtain ⟨e, rfl, hlead⟩ := hk hl
      exact ⟨e, rfl, body_leads hG.size rest hrest hlead⟩
    rw [bodySize, ← Nat.add_assoc, ← Nat.add_assoc]
    refine Does.bind (Does.bind (body_runs hG hrun hf pre h.left.left hfit.1 fun hl => ?_) fun w1 => cases_runs hG hrun hf cases hcases hfit.2.1 hk') fun w1 =>
      body_runs hG hrun hf rest hrest hfit.2.2 hk
    obtain ⟨e, rfl, hlead⟩ := hk' hl
    exact ⟨e, rfl, cases_leads hG.size cases hcases hlead⟩
termination_by p => (sizeOf p, 0)

/-- A branch, and the others. -/
theorem branch_runs (hG : Image dbg ps G ca) (hrun : RunsAll x dbg ps (bytesAt dbg ca 0 G) n run) (hf : InProc f) (c : LineBlock) :
    (body : Prog) → (more : Cases) → ∀ {inLoop : Bool} {a : Nat} {k : Int} {w : World σ} {eo : Option Nat},
    Lies dbg G a (casesGen dbg a k (.cond c body more)) → BodyFits isfcn inLoop body → CasesFit isfcn inLoop more →
    (inLoop = true → ∃ e, eo = some e ∧ Leads x (bytesAt dbg ca 0 G) k e) →
    Does x (bytesAt dbg ca 0 G) (n + 1) f ⟨a, f, w⟩ (a + (c.size dbg + JBLOCKSZ) + bodySize dbg body + skipSize more + casesSize dbg more) eo
      ((procSem x dbg ps run f.depth).test c
        (fun s => if more.isNone then body.run (procSem x dbg ps run f.depth) (n + 1) s
          else (body.run (procSem x dbg ps run f.depth) (n + 1) s).bind (procSem x dbg ps run f.depth).jump)
        (more.run (procSem x dbg ps run f.depth) (n + 1)) w)
  | body, more, _, a, k, w, eo, h, hfit, hfits, hk => by
    rw [casesGen] at h
    have hmore := h.right (b := a + (c.size dbg + JBLOCKSZ) + bodySize dbg body + skipSize more) (by simp; omega)
    have hlink := h.left.right (b := a + (c.size dbg + JBLOCKSZ) + bodySize dbg body) (by simp; omega)
    have hbody := h.left.left.right (b := a + (c.size dbg + JBLOCKSZ)) (by simp)
    refine (test_runs hG.told h.left.left.left (hmore.leads hG.size) (fun w1 => ?_) fun w1 => cases_runs hG hrun hf more hmore hfits hk).mono (Nat.le_succ _)
    have hrun1 := @body_runs hG hrun hf body _ _ _ w1 eo hbody hfit fun hl => by
      obtain ⟨e, rfl, hlead⟩ := hk hl
      exact ⟨e, rfl, cases_leads hG.size more hmore hlead⟩
    cases hnone : more.isNone with
    | true =>
      obtain rfl : more = .none := by
        cases more with
        | none => rfl
        | else_ body => cases hnone
        | cond c body more => cases hnone
      exact hrun1
    | false =>
      have hskip : skipSize more = JBLOCKSZ := by rw [skipSize, hnone]; rfl
      rw [link, hnone] at hlink
      have hlead : Leads x (bytesAt dbg ca 0 G) (linkTo dbg _ more) _ := link_leads hG.size more hmore
      rw [hskip] at hlead ⊢
      exact hrun1.bind fun w2 => jump_runs hlink hlead
termination_by body more => (sizeOf body + sizeOf more, 1)
decreasing_by
  · exact Prod.Lex.right' _ (Nat.le_add_right _ _) Nat.zero_lt_one
  · exact Prod.Lex.right' _ (Nat.le_add_left _ _) Nat.zero_lt_one

theorem cases_runs (hG : Image dbg ps G ca) (hrun : RunsAll x dbg ps (bytesAt dbg ca 0 G) n run) (hf : InProc f) :
    (brs : Cases) → ∀ {inLoop : Bool} {a : Nat} {k : Int} {w : World σ} {eo : Option Nat}, Lies dbg G a (casesGen dbg a k brs) →
    CasesFit isfcn inLoop brs → (inLoop = true → ∃ e, eo = some e ∧ Leads x (bytesAt dbg ca 0 G) k e) →
    Does x (bytesAt dbg ca 0 G) (n + 1) f ⟨a, f, w⟩ (a + casesSize dbg brs) eo (brs.run (procSem x dbg ps run f.depth) (n + 1) w)
  | .none, _, _, _, _, _, _, _, _ => Gets.refl
  | .else_ body, _, _, _, _, _, h, hfit, hk => body_runs hG hrun hf body h hfit hk
  | .cond c body more, _, a, k, w, eo, h, hfit, hk => by
    rw [casesSize, show a + (c.size dbg + JBLOCKSZ + bodySize dbg body + skipSize more + casesSize dbg more) =
      a + (c.size dbg + JBLOCKSZ) + bodySize dbg body + skipSize more + casesSize dbg more by omega]
    exact branch_runs hG hrun hf c body more h hfit.1 hfit.2 hk
termination_by brs => (sizeOf brs, 0)

end

end Structured

/-! ## Procedures -/

/-- Procedures do what they mean, whatever they call. -/
theorem procRun_runs (hG : Image dbg ps G ca) (hfit : ∀ p ∈ ps, BodyFits p.isfcn false p.body)
    (hlies : ∀ p ad, (p, ad) ∈ libDefs dbg JBLOCKSZ ps → Lies dbg G ad (p.gen dbg ad)) (n : Nat) :
    RunsAll x dbg ps (bytesAt dbg ca 0 G) n (procRun x dbg ps n) := by
  induction n with
  | zero => exact fun p ad hd f w hf => ⟨0, ⟨ad, f, w⟩, le_rfl, rfl⟩
  | succ n ih =>
    intro p ad hd f w hf
    have h := hlies p ad hd
    have hbody := @body_runs σ x dbg ps G ca f n _ p.isfcn hG ih hf p.body false ad _ w none h.left (hfit p (mem_libDefs hd)) fun hl => by cases hl
    rw [procRun]
    cases ho : p.body.run (procSem x dbg ps (procRun x dbg ps n) f.depth) (n + 1) w with
    | next w1 =>
      rw [ho] at hbody
      exact Finishes.before hbody (ret_finishes hf (step_return (h.right (by rw [size_bodyGen]))))
    | exit w1 =>
      rw [ho] at hbody
      obtain ⟨e, he, -⟩ := hbody
      cases he
    | stop r =>
      rw [ho] at hbody
      exact hbody
    | more =>
      rw [ho] at hbody
      exact hbody

/-- Where a procedure was started by the session, the machine ends as the procedure does. -/
theorem finishes_top {s : Exec σ} {code : List UInt8} {r : Done σ} {jmpAddr : List Int} {pcount : List Nat} {callAddr : List Int} :
    Finishes x code ⟨-1 :: jmpAddr, pcount, callAddr⟩ s r ↔ Halts (step x code) s r := by
  cases r with
  | returned w =>
    unfold Finishes
    dsimp only
    rw [if_pos rfl]
  | _ => exact Iff.rfl

theorem halts_iff {code : List UInt8} (h : ∀ n, RunsAll x dbg ps code n (procRun x dbg ps n)) {p : ProcDef} {ad : Nat} (hd : (p, ad) ∈ libDefs dbg JBLOCKSZ ps)
    {jmpAddr callAddr : List Int} {cnt : Nat} {pcount : List Nat} {caller : Int} {r : Done σ} :
    Halts (step x code) ⟨ad, ⟨-1 :: jmpAddr, cnt :: pcount, caller :: callAddr⟩, w⟩ r ↔
      ∃ n, procRun x dbg ps n ⟨jmpAddr.length + 1, callAddr.length + 1, cnt :: pcount⟩ p w = .stop r := by
  have hrun : ∀ n, Runs x code n ⟨-1 :: jmpAddr, cnt :: pcount, caller :: callAddr⟩ ⟨ad, ⟨-1 :: jmpAddr, cnt :: pcount, caller :: callAddr⟩, w⟩
      (procRun x dbg ps n ⟨jmpAddr.length + 1, callAddr.length + 1, cnt :: pcount⟩ p w) :=
    fun n => h n p ad hd _ w ⟨List.cons_ne_nil _ _, List.cons_ne_nil _ _, List.cons_ne_nil _ _⟩
  constructor
  · intro hhalt
    obtain ⟨n, hn⟩ := hhalt.not_going
    have hr := hrun n
    refine ⟨n, ?_⟩
    cases ho : procRun x dbg ps n ⟨jmpAddr.length + 1, callAddr.length + 1, cnt :: pcount⟩ p w with
    | next w1 =>
      rw [ho] at hr
      exact hr.elim
    | exit w1 =>
      rw [ho] at hr
      exact hr.elim
    | more =>
      rw [ho] at hr
      exact absurd hr hn
    | stop r' =>
      rw [ho] at hr
      rw [hhalt.unique (finishes_top.1 hr)]
  · rintro ⟨n, hn⟩
    have hr := hrun n
    rw [hn] at hr
    exact finishes_top.1 hr

end Runs

/-! ## Files of procedures -/

section Files

variable {dbg : Bool} {ps : List ProcDef} {G : List Chunk} {ca : Nat → Int} {a ad : Nat} {p : ProcDef} {J : List Nat}

theorem lies_libGen (h : Lies dbg G a (libGen dbg a ps)) (hd : (p, ad) ∈ libDefs dbg a ps) : Lies dbg G ad (p.gen dbg ad) := by
  induction ps generalizing a with
  | nil => cases hd
  | cons q ps ih =>
    rw [libGen] at h
    rcases List.mem_cons.1 hd with heq | hd
    · obtain ⟨rfl, rfl⟩ := Prod.mk.inj heq
      exact h.left
    · refine ih (h.right ?_) hd
      rw [ProcDef.gen, chunksSize_append, size_bodyGen]
      rfl

theorem lies_file (hd : (p, ad) ∈ libDefs dbg JBLOCKSZ ps) : Lies dbg (fileGen dbg ps) ad (p.gen dbg ad) :=
  lies_libGen ⟨[jmp OBJ_LIB ↑(JBLOCKSZ + (ps.map (ProcDef.size dbg)).sum)], [], by rw [List.append_nil]; rfl, rfl⟩ hd

/-- The first procedure of a name that is called. -/
theorem Closed.find {name : Str} (h : Closed ps) (hn : name ∈ ps.flatMap fun p => bodyCalls p.body) :
    ∃ p ∈ ps, (ps.find? fun p => sameName p.name name) = some p ∧ lowerName p.name = lowerName name := by
  obtain ⟨q, hq, heq⟩ := h name hn
  have hsome : (ps.find? fun p => sameName p.name name).isSome := List.find?_isSome.2 ⟨q, hq, sameName_iff.2 heq⟩
  obtain ⟨p, hp⟩ := Option.isSome_iff_exists.1 hsome
  have hname : sameName p.name name = true := (List.find?_eq_some_iff_append.1 hp).1
  exact ⟨p, List.mem_of_find?_eq_some hp, hp, sameName_iff.1 hname⟩

theorem LibFits.image (h : LibFits dbg J.length ps) (hclosed : Closed ps) (htold : AllTold dbg (fileGen dbg ps))
    (hca : ∀ c ∈ callsAt dbg 0 (fileGen dbg ps), ∀ d ∈ libDefs dbg JBLOCKSZ ps, lowerName d.1.name = lowerName c.2 → ca c.1 = d.2) :
    Image dbg ps (fileGen dbg ps) ca := by
  refine ⟨h.size_file _, htold, fun c hc => ?_⟩
  have hn : c.2 ∈ ps.flatMap fun p => bodyCalls p.body := by
    rw [← @libCalls dbg JBLOCKSZ ps]
    exact calls_mem (I := fileGen dbg ps) hc
  obtain ⟨p, hp, hfind, heq⟩ := hclosed.find hn
  obtain ⟨ad, hd⟩ := @libDefs_mem dbg p JBLOCKSZ ps hp
  have hle := (lies_file hd).le
  have hsize : chunksSize dbg (fileGen dbg ps) < 2 ^ 31 := h.size_file _
  exact ⟨p, ad, hd, hfind, hca c hc (p, ad) hd heq, by omega⟩

/-- **A compiled file of procedures runs as it means.** From the address of a name the machine ends, and how it ends, exactly as the procedure of
that name does: its loops and branches run as they are written, and its calls run the procedures they name. -/
theorem compiled_runs (h : LibFits dbg J.length ps) (hclosed : Closed ps) (htold : AllTold dbg (fileGen dbg ps)) :
    ∃ o, compileProc dbg (libLines ps) J = .ok (.file o) ∧
      ∀ e ∈ o.procs, ∃ p ∈ ps, lowerName e.procName = lowerName p.name ∧ e.type = p.type ∧
        ∀ {σ : Type} (x : Executor σ) (jmpAddr callAddr : List Int) (cnt : Nat) (pcount : List Nat) (w : World σ) (r : Done σ),
          Halts (step x o.code) ⟨e.faddr.toNat, ⟨-1 :: jmpAddr, cnt :: pcount, e.faddr :: callAddr⟩, w⟩ r ↔
            ∃ n, procRun x dbg ps n ⟨jmpAddr.length + 1, callAddr.length + 1, cnt :: pcount⟩ p w = .stop r := by
  obtain ⟨st, hmade, hlib⟩ := h.compiled
  obtain ⟨ca, hcode, hca⟩ := h.linkedCode hlib
  refine ⟨writeRtable dbg st, hmade, fun e he => ?_⟩
  have hpos := hlib.closed.2 hclosed e he
  obtain ⟨d, hd, hname⟩ := hlib.only e he hpos
  obtain ⟨-, e', he', hname', htype, hfaddr⟩ := hlib.defined d hd
  obtain ⟨ca0, -, hl⟩ := hlib.code
  obtain rfl := List.inj_on_of_nodup_map hl.nodup he he' (hname.trans hname'.symm)
  refine ⟨d.1, mem_libDefs hd, hname, htype, fun x jmpAddr callAddr cnt pcount w r => ?_⟩
  rw [hcode, hfaddr, Int.toNat_natCast]
  exact halts_iff (procRun_runs (h.image hclosed htold hca) (fun p hp => (h.fits p hp).body) fun p ad hd => lies_file hd) hd

end Files

theorem twoProcs_closed : Closed twoProcs := by
  unfold Closed
  decide

theorem twoProcs_told : AllTold false (fileGen false twoProcs) := by
  unfold AllTold
  decide

theorem compiled_runs_two :
    LibFits false 0 twoProcs ∧ Closed twoProcs ∧ AllTold false (fileGen false twoProcs) ∧
      ∃ o, compileProc false (libLines twoProcs) [] = .ok (.file o) ∧
        ∀ e ∈ o.procs, ∃ p ∈ twoProcs, lowerName e.procName = lowerName p.name ∧ e.type = p.type ∧
          ∀ {σ : Type} (x : Executor σ) (jmpAddr callAddr : List Int) (cnt : Nat) (pcount : List Nat) (w : World σ) (r : Done σ),
            Halts (step x o.code) ⟨e.faddr.toNat, ⟨-1 :: jmpAddr, cnt :: pcount, e.faddr :: callAddr⟩, w⟩ r ↔
              ∃ n, procRun x false twoProcs n ⟨jmpAddr.length + 1, callAddr.length + 1, cnt :: pcount⟩ p w = .stop r :=
  ⟨twoProcs_fits, twoProcs_closed, twoProcs_told, compiled_runs (J := []) twoProcs_fits twoProcs_closed twoProcs_told⟩

end Db3w.Hb
