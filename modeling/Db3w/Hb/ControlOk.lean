/-
The compiler of control structures on structured procedures. The jumps of the open levels lie on the
stack, each with its address still to be filled in; code that is left by an EXIT depends on where the
next EXIT is. Each line keeps this, so that at the end of a procedure the file holds its code.
-/
import Db3w.Hb.Linking

namespace Db3w.Hb

open Bytes Structured

/-! ## What the compiler holds -/

/-- The file holds the code `I`, and no name was defined since the names were `D`. -/
structure Written (dbg : Bool) (D : List DoEntry) (I : List Chunk) (outfp : List UInt8) (doList : List DoEntry) : Prop where
  code : ∃ ca, outfp = bytesAt dbg ca 0 I ∧ Linked ca doList (callsAt dbg 0 I)
  keep : ∀ e ∈ D, 0 < e.faddr → e ∈ doList
  only : ∀ e ∈ doList, 0 < e.faddr → e ∈ D

/-- The code, the open levels, the addresses to be filled in, and whether there was a RETURN. -/
structure Is (dbg : Bool) (D : List DoEntry) (st : Ec) (I : List Chunk) (L : List Level) (J : List Nat) (seen : Bool) : Prop where
  written : Written dbg D I st.outfp st.doList
  nest : st.neststack = L
  jmpAddr : st.jmpAddr = J
  seenRet : st.seenRet = seen

section Ops

variable {dbg isfcn : Bool} {D : List DoEntry} {st : Ec} {I A B : List Chunk} {L : List Level} {J : List Nat} {l l' : Level} {seen : Bool} {a c : Nat}
  {v w : Int} {b : LineBlock}

theorem Is.pos (h : Is dbg D st I L J seen) : st.pos = chunksSize dbg I := by
  obtain ⟨ca, hout, -⟩ := h.written.code
  rw [Ec.pos, hout, length_bytesAt]

/-- Code without calls is written. -/
theorem Is.write (h : Is dbg D st I L J seen) {i : CodeItem} {bs : List UInt8} (hbs : bs = i.bytes dbg) : Is dbg D (st.write bs) (I ++ [.code i]) L J seen := by
  obtain ⟨ca, hout, hl⟩ := h.written.code
  refine ⟨⟨⟨ca, ?_, ?_⟩, h.written.keep, h.written.only⟩, h.nest, h.jmpAddr, h.seenRet⟩
  · show st.outfp ++ bs = _
    rw [bytesAt_append, hout, hbs, bytesAt, bytesAt, List.append_nil]
  · rw [callsAt_append]
    show Linked ca st.doList (_ ++ [])
    rwa [List.append_nil]

theorem Is.block (h : Is dbg D st I L J seen) (b : LineBlock) : Is dbg D (st.block dbg b) (I ++ [blk b]) L J seen := h.write rfl

theorem Is.ljmp (h : Is dbg D st I L J seen) (hc : c < 256) (v : Int) : Is dbg D (st.ljmp c v) (I ++ [jmp c v]) L J seen := by
  refine h.write ?_
  show cgenLjmp c (cposWord v) = cgenLjmp (UInt8.ofNat c).toNat (cposWord v)
  rw [UInt8.toNat_ofNat', Nat.mod_eq_of_lt hc]

theorem size_long (hc : Long c) : (jmp c v).size dbg = JBLOCKSZ := hc

theorem callsAt_jmp : callsAt dbg 0 (A ++ jmp c v :: B) = callsAt dbg 0 (A ++ jmp c w :: B) := by
  rw [callsAt_append, callsAt_append]
  rfl

theorem Is.patch (h : Is dbg D st (A ++ jmp c v :: B) L J seen) (hc : Long c) (ha : chunksSize dbg A + 2 = a) (w : Int) :
    Is dbg D (st.patch a w) (A ++ jmp c w :: B) L J seen := by
  obtain ⟨ca, hout, hl⟩ := h.written.code
  refine ⟨⟨⟨ca, ?_, ?_⟩, h.written.keep, h.written.only⟩, h.nest, h.jmpAddr, h.seenRet⟩
  · show writeAt a _ st.outfp = _
    rw [hout, bytesAt_patch hc ha]
  · rw [callsAt_jmp (w := v)]
    exact hl

/-- A call is written, and tied to its name. -/
theorem Is.call (h : Is dbg D st I L J seen) (name : Str) :
    Is dbg D (addCall name ((st.ljmp CALL PLACE_HOLDER).pos - CPOSSZ) (st.ljmp CALL PLACE_HOLDER)) (I ++ [.call name]) L J seen := by
  obtain ⟨ca, hout, hl⟩ := h.written.code
  have hf : (st.ljmp CALL PLACE_HOLDER).pos - CPOSSZ = chunksSize dbg I + 2 := by
    show (st.outfp ++ cgenLjmp CALL _).length - 4 = _
    rw [List.length_append, length_cgenLjmp, hout, length_bytesAt]
    show chunksSize dbg I + 6 - 4 = _
    omega
  rw [hf]
  have hmem : (chunksSize dbg I + 2, name) ∈ callsAt dbg 0 (I ++ [.call name]) := by
    rw [callsAt_append, Nat.zero_add]
    exact List.mem_append_right _ (List.mem_singleton_self _)
  have hcalls : callsAt dbg 0 (I ++ [.call name]) = callsAt dbg 0 I ++ [(chunksSize dbg I + 2, name)] := by
    rw [callsAt_append, Nat.zero_add]
    rfl
  have hnew : ∀ d ∈ callsAt dbg 0 I, d.1 ≠ chunksSize dbg I + 2 := fun d hd => by
    have := callsAt_range (f := d.1) hd
    omega
  have hpatch : ∀ v, ((st.ljmp CALL PLACE_HOLDER).patch (chunksSize dbg I + 2) v).outfp =
      bytesAt dbg (Function.update ca (chunksSize dbg I + 2) v) 0 (I ++ [.call name]) := by
    intro v
    have hplace : (st.ljmp CALL PLACE_HOLDER).outfp = bytesAt dbg (Function.update ca (chunksSize dbg I + 2) PLACE_HOLDER) 0 (I ++ [.call name]) := by
      show st.outfp ++ _ = _
      rw [bytesAt_append, bytesAt, bytesAt, List.append_nil, hout, Nat.zero_add, Function.update_self]
      refine congrArg (· ++ _) (bytesAt_congr fun d hd => ?_)
      rw [Function.update_of_ne (hnew d hd)]
    show writeAt _ _ (st.ljmp CALL PLACE_HOLDER).outfp = _
    rw [hplace, bytesAt_update hmem, Function.update_idem]
  obtain ⟨hnone, hsome⟩ := @Linked.addCall _ _ _ name _ hl (Nat.succ_pos _) hnew
  unfold addCall
  cases hfind : findEntry name (st.ljmp CALL PLACE_HOLDER).doList with
  | none =>
    refine ⟨⟨⟨_, hpatch 0, ?_⟩, fun e he hp => List.mem_append_left _ (h.written.keep e he hp), fun e he hp => ?_⟩, h.nest, h.jmpAddr, h.seenRet⟩
    · rw [hcalls]
      exact hnone hfind
    · rcases List.mem_append.1 he with he | he
      · exact h.written.only e he hp
      · rw [List.mem_singleton.1 he] at hp
        dsimp only at hp
        omega
  | some de =>
    have hlink := hsome de hfind
    rw [← hcalls] at hlink
    obtain ⟨hde, hname⟩ := findEntry_some hfind
    dsimp only
    by_cases hneg : de.faddr < 0
    · rw [if_pos hneg] at hlink ⊢
      have hm := mem_setFaddr (-(↑(chunksSize dbg I + 2) : Int)) hl.nodup hde hname
      refine ⟨⟨⟨_, hpatch de.faddr, hlink⟩, fun e he hp => ?_, fun e he hp => ?_⟩, h.nest, h.jmpAddr, h.seenRet⟩
      · refine (hm e).2 (Or.inr ⟨h.written.keep e he hp, fun heq => ?_⟩)
        have := List.inj_on_of_nodup_map hl.nodup (h.written.keep e he hp) hde (heq.trans hname.symm)
        rw [this] at hp
        omega
      · rcases (hm e).1 he with rfl | ⟨he, -⟩
        · dsimp only at hp
          omega
        · exact h.written.only e he hp
    · rw [if_neg hneg] at hlink ⊢
      exact ⟨⟨⟨_, hpatch de.faddr, hlink⟩, h.written.keep, h.written.only⟩, h.nest, h.jmpAddr, h.seenRet⟩

theorem Is.pushAddr (h : Is dbg D st I L J seen) (hlen : J.length + 1 < MAXLEVELS) (a : Nat) :
    ∃ st', st.pushAddr a = .ok st' ∧ Is dbg D st' I L (a :: J) seen := by
  refine ⟨{ st with jmpAddr := a :: st.jmpAddr }, ?_, h.written, h.nest, congrArg (a :: ·) h.jmpAddr, h.seenRet⟩
  rw [Ec.pushAddr, h.jmpAddr, if_neg (by omega)]

theorem Is.popAddr (h : Is dbg D st I L (a :: J) seen) : ∃ st', st.popAddr = .ok (a, st') ∧ Is dbg D st' I L J seen := by
  refine ⟨{ st with jmpAddr := J }, ?_, h.written, h.nest, rfl, h.seenRet⟩
  rw [Ec.popAddr, h.jmpAddr]

theorem Is.pushLevel (h : Is dbg D st I L J seen) (hlen : L.length + 1 < MAXLEVELS) (l : Level) :
    ∃ st', st.pushLevel l = .ok st' ∧ Is dbg D st' I (l :: L) J seen := by
  refine ⟨{ st with neststack := l :: st.neststack }, ?_, h.written, congrArg (l :: ·) h.nest, h.jmpAddr, h.seenRet⟩
  rw [Ec.pushLevel, h.nest, if_neg (by omega)]

theorem Is.chgLevel (h : Is dbg D st I (l :: L) J seen) (l' : Level) : Is dbg D (st.chgLevel l') I (l' :: L) J seen := by
  refine ⟨h.written, ?_, h.jmpAddr, h.seenRet⟩
  show l' :: st.neststack.tail = _
  rw [h.nest]
  rfl

theorem Is.popLevel (h : Is dbg D st I (l :: L) J seen) : Is dbg D st.popLevel I L J seen := by
  refine ⟨h.written, ?_, h.jmpAddr, h.seenRet⟩
  show st.neststack.tail = _
  rw [h.nest]
  rfl

/-- The innermost jump goes here. -/
theorem Is.modAddr (h : Is dbg D st (A ++ jmp c v :: B) L (a :: J) seen) (hc : Long c) (ha : chunksSize dbg A + 2 = a) :
    ∃ st', st.modAddr = .ok st' ∧ Is dbg D st' (A ++ jmp c (chunksSize dbg (A ++ jmp c v :: B)) :: B) L J seen := by
  obtain ⟨st1, hpop, h1⟩ := h.popAddr
  refine ⟨st1.patch a st1.pos, ?_, ?_⟩
  · rw [Ec.modAddr, hpop]
    rfl
  · rw [h1.pos]
    exact h1.patch hc ha _

/-- The jump below the innermost goes here. -/
theorem Is.modJmp {e : Nat} (h : Is dbg D st (A ++ jmp c v :: B) L (e :: a :: J) seen) (hc : Long c) (ha : chunksSize dbg A + 2 = a)
    (hlen : J.length + 1 < MAXLEVELS) :
    ∃ st', st.modJmp = .ok st' ∧ Is dbg D st' (A ++ jmp c (chunksSize dbg (A ++ jmp c v :: B)) :: B) L (e :: J) seen := by
  obtain ⟨st1, hpop, h1⟩ := h.popAddr
  obtain ⟨st2, hmod, h2⟩ := h1.modAddr hc ha
  obtain ⟨st3, hpush, h3⟩ := h2.pushAddr hlen e
  refine ⟨st3, ?_, h3⟩
  rw [Ec.modJmp, hpop]
  show (st1.modAddr).bind (fun st => st.pushAddr e) = _
  rw [hmod]
  exact hpush

/-- A jump to the end, behind which the innermost jump goes. -/
theorem Is.jmpCodegen (h : Is dbg D st (A ++ jmp c v :: B) L (a :: J) seen) (hc : Long c) (ha : chunksSize dbg A + 2 = a)
    (hlen : J.length + 1 < MAXLEVELS) {n : Nat} (hn : chunksSize dbg (A ++ jmp c v :: B) = n) :
    ∃ st', st.jmpCodegen = .ok st' ∧ Is dbg D st' (A ++ jmp c ↑(n + JBLOCKSZ) :: B ++ [jmp JUMP PLACE_HOLDER]) L ((n + 2) :: J) seen := by
  have h1 := h.ljmp (c := JUMP) (by decide) PLACE_HOLDER
  rw [List.append_assoc, List.cons_append] at h1
  obtain ⟨st2, hmod, h2⟩ := h1.modAddr hc ha
  have hpos : st2.pos - CPOSSZ = n + 2 := by
    rw [h2.pos]
    simp only [chunksSize_append, chunksSize_cons, size_long hc, size_jump, chunksSize_nil] at hn ⊢
    unfold JBLOCKSZ CPOSSZ at *
    omega
  have hall : chunksSize dbg (A ++ jmp c v :: (B ++ [jmp JUMP PLACE_HOLDER])) = n + JBLOCKSZ := by
    simp only [chunksSize_append, chunksSize_cons, size_long hc, size_jump, chunksSize_nil] at hn ⊢
    omega
  rw [hall] at h2
  obtain ⟨st3, hpush, h3⟩ := h2.pushAddr hlen (n + 2)
  refine ⟨st3, ?_, by rwa [List.append_assoc, List.cons_append]⟩
  rw [Ec.jmpCodegen, hmod]
  show st2.pushAddr (st2.pos - CPOSSZ) = _
  rw [hpos]
  exact hpush

/-- A condition, with a jump that is taken if it is false. -/
theorem Is.condCodegen (h : Is dbg D st I L J seen) (b : LineBlock) (hlen : J.length + 1 < MAXLEVELS) :
    ∃ st', st.condCodegen dbg b = .ok st' ∧
      Is dbg D st' (I ++ [blk b, jmp JMP_FALSE PLACE_HOLDER]) L ((chunksSize dbg I + b.size dbg + 2) :: J) seen := by
  have h1 := (h.block b).ljmp (c := JMP_FALSE) (by decide) PLACE_HOLDER
  rw [List.append_assoc] at h1
  have hpos : ((st.block dbg b).ljmp JMP_FALSE PLACE_HOLDER).pos - CPOSSZ = chunksSize dbg I + b.size dbg + 2 := by
    rw [h1.pos]
    simp only [List.cons_append, List.nil_append, chunksSize_append, chunksSize_cons, size_blk, size_jmpFalse, chunksSize_nil]
    unfold JBLOCKSZ CPOSSZ
    omega
  obtain ⟨st2, hpush, h2⟩ := h1.pushAddr hlen (chunksSize dbg I + b.size dbg + 2)
  refine ⟨st2, ?_, h2⟩
  show ((st.block dbg b).ljmp JMP_FALSE PLACE_HOLDER).pushAddr (((st.block dbg b).ljmp JMP_FALSE PLACE_HOLDER).pos - CPOSSZ) = _
  rw [hpos]
  exact hpush

end Ops

/-! ## Jumps out of loops -/

section Breaks

variable {dbg : Bool} {L : List Level} {J J1 J2 : List Nat} {l : Level} {G H : Int → List Chunk} {M N : List Chunk} {a b n : Nat}
  {β β1 β2 : Int → Int} {γ γ1 γ2 : Int → List Chunk}

/-- In code with the address `x` for leaving the innermost loop, the stack says where this address belongs. -/
def AtBreak (dbg : Bool) (L : List Level) (J : List Nat) (G : Int → List Chunk) : Prop :=
  ∀ i, exitSlot L = some i → ∃ A c B, Long c ∧ (∀ x, G x = A ++ jmp c x :: B) ∧ J[i]? = some (chunksSize dbg A + 2)

/-- The stack changes only where the jump out of the innermost loop is. -/
def SameBut (L : List Level) (J J' : List Nat) : Prop := J' = J ∨ ∃ i h, exitSlot L = some i ∧ J' = J.set i h

/-- The code `γ` at `a`, with `β` for the first way out of it, moves the address of a loop from the code in front of it to its own last EXIT. -/
def Exits (dbg : Bool) (L : List Level) (J J' : List Nat) (a : Nat) (β : Int → Int) (γ : Int → List Chunk) : Prop :=
  ∀ G M N, (∀ x, chunksSize dbg (G x) + chunksSize dbg M = a) → AtBreak dbg L J G → AtBreak dbg L J' fun x => G (β x) ++ M ++ γ x ++ N

theorem AtBreak.append (h : AtBreak dbg L J G) (N : List Chunk) : AtBreak dbg L J fun x => G x ++ N := by
  intro i hi
  obtain ⟨A, c, B, hc, hG, hJ⟩ := h i hi
  exact ⟨A, c, B ++ N, hc, fun x => by simp [hG], hJ⟩

theorem AtBreak.congr (h : AtBreak dbg L J G) (heq : ∀ x, H x = G x) : AtBreak dbg L J H := by
  rwa [show H = G from funext heq]

theorem SameBut.refl : SameBut L J J := Or.inl rfl

theorem SameBut.trans (h1 : SameBut L J J1) (h2 : SameBut L J1 J2) : SameBut L J J2 := by
  rcases h1 with rfl | ⟨i, h, hi, rfl⟩
  · exact h2
  · rcases h2 with rfl | ⟨j, h', hj, rfl⟩
    · exact Or.inr ⟨i, h, hi, rfl⟩
    · obtain rfl : i = j := Option.some.inj (hi.symm.trans hj)
      exact Or.inr ⟨i, h', hi, List.set_set ..⟩

theorem SameBut.length (h : SameBut L J J1) : J1.length = J.length := by
  rcases h with rfl | ⟨i, h, -, rfl⟩
  · rfl
  · rw [List.length_set]

/-- Levels without a loop of their own only lie on top. -/
theorem exitSlot_cons (hl : l.ctl ≠ .while_) : exitSlot (l :: L) = (exitSlot L).map (· + l.entries) := if_neg hl

theorem AtBreak.push (h : AtBreak dbg L J G) (hl : l.ctl ≠ .while_) {K : List Nat} (hK : K.length = l.entries) : AtBreak dbg (l :: L) (K ++ J) G := by
  intro i hi
  rw [exitSlot_cons hl] at hi
  obtain ⟨j, hj, rfl⟩ := Option.map_eq_some_iff.1 hi
  obtain ⟨A, c, B, hc, hG, hJ⟩ := h j hj
  refine ⟨A, c, B, hc, hG, ?_⟩
  rw [List.getElem?_append_right (by omega), hK, Nat.add_sub_cancel, hJ]

theorem SameBut.pop (hl : l.ctl ≠ .while_) {K : List Nat} (hK : K.length = l.entries) (h : SameBut (l :: L) (K ++ J) J1) :
    ∃ J', J1 = K ++ J' ∧ SameBut L J J' := by
  rcases h with rfl | ⟨i, h, hi, rfl⟩
  · exact ⟨J, rfl, .refl⟩
  · rw [exitSlot_cons hl] at hi
    obtain ⟨j, hj, rfl⟩ := Option.map_eq_some_iff.1 hi
    exact ⟨J.set j h, by rw [List.set_append_right _ _ (by omega), hK, Nat.add_sub_cancel], Or.inr ⟨j, h, hj, rfl⟩⟩

theorem AtBreak.pop (hl : l.ctl ≠ .while_) {K : List Nat} (hK : K.length = l.entries) (h : AtBreak dbg (l :: L) (K ++ J) G) : AtBreak dbg L J G := by
  intro i hi
  obtain ⟨A, c, B, hc, hG, hJ⟩ := h (i + l.entries) (by rw [exitSlot_cons hl, hi]; rfl)
  refine ⟨A, c, B, hc, hG, ?_⟩
  rwa [List.getElem?_append_right (by omega), hK, Nat.add_sub_cancel] at hJ

/-- The same on the levels below. -/
theorem Exits.pop (hl : l.ctl ≠ .while_) {K : List Nat} (hK : K.length = l.entries) (h : Exits dbg (l :: L) (K ++ J) (K ++ J1) a β γ) :
    Exits dbg L J J1 a β γ := by
  intro G M N hsz hG
  exact (h G M N hsz (hG.push hl hK)).pop hl hK

/-- Code without an EXIT. -/
theorem Exits.const (γ : List Chunk) : Exits dbg L J J a (fun x => x) fun _ => γ := by
  intro G M N _ hG
  exact (hG.append (M ++ γ ++ N)).congr fun x => by simp

theorem Exits.congr (h : Exits dbg L J J1 a β γ) (hβ : ∀ x, β1 x = β x) (hγ : ∀ x, γ1 x = γ x) : Exits dbg L J J1 a β1 γ1 := by
  rwa [show β1 = β from funext hβ, show γ1 = γ from funext hγ]

/-- One piece of code behind the other. -/
theorem Exits.seq (h1 : Exits dbg L J J1 a β1 γ1) (h2 : Exits dbg L J1 J2 b β2 γ2) (hγ : ∀ x, a + chunksSize dbg (γ1 x) + chunksSize dbg M = b) :
    Exits dbg L J J2 a (fun x => β1 (β2 x)) fun x => γ1 (β2 x) ++ M ++ γ2 x := by
  intro G M0 N hsz hG
  refine (h2 _ M N (fun x => ?_) (h1 G M0 [] hsz hG)).congr fun x => by simp
  have h1 := hγ x
  have h2 := hsz (β1 x)
  simp only [chunksSize_append, chunksSize_nil]
  omega

/-- The same with fixed code in front. -/
theorem Exits.behind (h : Exits dbg L J J1 b β γ) (hM : a + chunksSize dbg M = b) : Exits dbg L J J1 a β fun x => M ++ γ x := by
  intro G M0 N hsz hG
  refine (h G (M0 ++ M) N (fun x => ?_) hG).congr fun x => by simp
  have := hsz x
  rw [chunksSize_append]
  omega

end Breaks

/-! ## Sizes -/

section Sizes

variable {dbg : Bool} {a : Nat} {k : Int}

theorem size_gen (act : Act) (k : Int) : chunksSize dbg (act.gen k) = act.size dbg := by
  cases act with
  | ret value =>
    cases value with
    | none => rfl
    | some v => simp [Act.gen, Act.size]
  | _ => simp [Act.gen, Act.size]

@[simp] theorem size_link (t : Nat) (more : Cases) : chunksSize dbg (link dbg t more) = skipSize more := by
  unfold link skipSize
  split <;> simp

mutual

@[simp] theorem size_bodyGen (a : Nat) (k : Int) : (p : Prog) → chunksSize dbg (bodyGen dbg a k p) = bodySize dbg p
  | .nil => rfl
  | .act act rest => by
    rw [bodyGen, bodySize, chunksSize_append, size_gen, size_bodyGen]
  | .loop c body rest => by
    simp only [bodyGen, bodySize, chunksSize_append, chunksSize_cons, chunksSize_nil, size_blk, size_jmpFalse, size_jump, size_bodyGen _ _ body,
      size_bodyGen _ _ rest]
  | .if_ c body more rest => by
    simp only [bodyGen, bodySize, chunksSize_append, chunksSize_cons, chunksSize_nil, size_blk, size_jmpFalse, size_link, size_bodyGen _ _ body,
      size_bodyGen _ _ rest, size_casesGen _ _ more]
  | .case_ pre cases rest => by
    rw [bodyGen, bodySize]
    simp only [chunksSize_append, size_bodyGen _ _ pre, size_bodyGen _ _ rest, size_casesGen _ _ cases]

@[simp] theorem size_casesGen (a : Nat) (k : Int) : (brs : Cases) → chunksSize dbg (casesGen dbg a k brs) = casesSize dbg brs
  | .none => rfl
  | .else_ body => by rw [casesGen, casesSize, size_bodyGen]
  | .cond c body more => by
    simp only [casesGen, casesSize, chunksSize_append, chunksSize_cons, chunksSize_nil, size_blk, size_jmpFalse, size_link, size_bodyGen _ _ body,
      size_casesGen _ _ more]

end

end Sizes

/-! ## Limits -/

mutual

/-- How many levels a procedure opens at once. -/
def bodyLevels : Prog → Nat
  | .nil => 0
  | .act _ rest => bodyLevels rest
  | .loop _ body rest => max (1 + bodyLevels body) (bodyLevels rest)
  | .if_ _ body more rest => max (1 + max (bodyLevels body) (casesLevels more)) (bodyLevels rest)
  | .case_ pre cases rest => max (1 + max (bodyLevels pre) (casesLevels cases)) (bodyLevels rest)

def casesLevels : Cases → Nat
  | .none => 0
  | .else_ body => bodyLevels body
  | .cond _ body more => max (bodyLevels body) (casesLevels more)

end

mutual

/-- How many addresses it has on the stack at once. -/
def bodyAddrs : Prog → Nat
  | .nil => 0
  | .act _ rest => bodyAddrs rest
  | .loop _ body rest => max (2 + bodyAddrs body) (bodyAddrs rest)
  | .if_ _ body more rest => max (max (1 + bodyAddrs body) (moreAddrs more)) (bodyAddrs rest)
  | .case_ pre cases rest => max (max (bodyAddrs pre) (casesAddrs cases)) (bodyAddrs rest)

/-- Behind DO CASE. -/
def casesAddrs : Cases → Nat
  | .none => 0
  | .else_ body => bodyAddrs body
  | .cond _ body more => max (1 + bodyAddrs body) (moreAddrs more)

/-- Behind another branch. -/
def moreAddrs : Cases → Nat
  | .none => 0
  | .else_ body => 1 + bodyAddrs body
  | .cond _ body more => max (2 + bodyAddrs body) (moreAddrs more)

end

/-- EXIT and LOOP stand in a loop, a function returns a value, and a procedure none but after `#`. -/
def Act.Fits (isfcn inLoop : Bool) : Act → Prop
  | .exit | .loop => inLoop = true
  | .ret none => isfcn = false
  | .ret (some (pound, _)) => isfcn = true ∨ pound = true
  | _ => True

mutual

def BodyFits (isfcn inLoop : Bool) : Prog → Prop
  | .nil => True
  | .act act rest => act.Fits isfcn inLoop ∧ BodyFits isfcn inLoop rest
  | .loop _ body rest => BodyFits isfcn true body ∧ BodyFits isfcn inLoop rest
  | .if_ _ body more rest => BodyFits isfcn inLoop body ∧ CasesFit isfcn inLoop more ∧ BodyFits isfcn inLoop rest
  | .case_ pre cases rest => BodyFits isfcn inLoop pre ∧ CasesFit isfcn inLoop cases ∧ BodyFits isfcn inLoop rest

def CasesFit (isfcn inLoop : Bool) : Cases → Prop
  | .none => True
  | .else_ body => BodyFits isfcn inLoop body
  | .cond _ body more => BodyFits isfcn inLoop body ∧ CasesFit isfcn inLoop more

end

/-- A RETURN. -/
def Act.isRet : Act → Bool
  | .ret _ => true
  | _ => false

mutual

/-- There is a RETURN in it. -/
def bodyRets : Prog → Bool
  | .nil => false
  | .act act rest => act.isRet || bodyRets rest
  | .loop _ body rest => bodyRets body || bodyRets rest
  | .if_ _ body more rest => bodyRets body || casesRets more || bodyRets rest
  | .case_ pre cases rest => bodyRets pre || casesRets cases || bodyRets rest

def casesRets : Cases → Bool
  | .none => false
  | .else_ body => bodyRets body
  | .cond _ body more => bodyRets body || casesRets more

end

/-! ## Lines one after another -/

/-- Lines that are not the beginning of the next procedure. -/
def ecRun (dbg isfcn : Bool) : List Cmd → Ec → Except CtlErr Ec
  | [], st => .ok st
  | cmd :: cmds, st => (ecCmd dbg isfcn cmd st).bind (ecRun dbg isfcn cmds)

section Run

variable {dbg isfcn : Bool} {D : List DoEntry} {st st' st'' : Ec} {F : Int → List Chunk} {L : List Level} {J J' : List Nat} {a b : Nat} {seen seen' seen'' : Bool}
  {cmd : Cmd} {cmds cmds' : List Cmd} {β β1 β2 : Int → Int} {γ γ1 γ2 : Int → List Chunk}

theorem ecRun_cons (h : ecCmd dbg isfcn cmd st = .ok st') : ecRun dbg isfcn (cmd :: cmds) st = ecRun dbg isfcn cmds st' := by
  rw [ecRun, h]
  rfl

theorem ecRun_append (h : ecRun dbg isfcn cmds st = .ok st') : ecRun dbg isfcn (cmds ++ cmds') st = ecRun dbg isfcn cmds' st' := by
  induction cmds generalizing st with
  | nil =>
    obtain ⟨⟩ := h
    rfl
  | cons cmd cmds ih =>
    rw [ecRun] at h
    cases hc : ecCmd dbg isfcn cmd st with
    | error e =>
      rw [hc] at h
      cases h
    | ok st1 =>
      rw [hc] at h
      rw [List.cons_append, ecRun_cons hc]
      exact ih h

/-- The compiler in front of some lines: the code that is left by an EXIT at the address `x` is `F x`. -/
structure Ready (dbg : Bool) (D : List DoEntry) (st : Ec) (F : Int → List Chunk) (L : List Level) (J : List Nat) (a : Nat) (seen : Bool) : Prop where
  is : Is dbg D st (F PLACE_HOLDER) L J seen
  size : ∀ x, chunksSize dbg (F x) = a
  atBreak : AtBreak dbg L J F

/-- Lines leave the code `I` at the levels `L`; of it `γ` is new and ends it, with `β` for the first way out. -/
def Leaves (dbg isfcn : Bool) (D : List DoEntry) (cmds : List Cmd) (st : Ec) (I : List Chunk) (L : List Level) (J : List Nat) (a : Nat)
    (β : Int → Int) (γ : Int → List Chunk) (seen : Bool) : Prop :=
  ∃ st' J', ecRun dbg isfcn cmds st = .ok st' ∧ Is dbg D st' I L J' seen ∧ SameBut L J J' ∧ Exits dbg L J J' a β γ

/-- Lines add the code `γ`, with `β` for the first way out of it. -/
def Adds (dbg isfcn : Bool) (D : List DoEntry) (cmds : List Cmd) (st : Ec) (F : Int → List Chunk) (L : List Level) (J : List Nat) (a : Nat)
    (β : Int → Int) (γ : Int → List Chunk) (seen : Bool) : Prop :=
  Leaves dbg isfcn D cmds st (F (β PLACE_HOLDER) ++ γ PLACE_HOLDER) L J a β γ seen

theorem Adds.nil (h : Ready dbg D st F L J a seen) : Adds dbg isfcn D [] st F L J a (fun x => x) (fun _ => []) seen := by
  refine ⟨st, J, rfl, ?_, .refl, .const []⟩
  rw [List.append_nil]
  exact h.is

/-- Lines that add fixed code. -/
theorem Adds.const {st' : Ec} {I : List Chunk} (hrun : ecRun dbg isfcn cmds st = .ok st') (his : Is dbg D st' (F PLACE_HOLDER ++ I) L J seen') :
    Adds dbg isfcn D cmds st F L J a (fun x => x) (fun _ => I) seen' := ⟨st', J, hrun, his, .refl, .const I⟩

theorem Adds.congr (h : Adds dbg isfcn D cmds st F L J a β γ seen) (hβ : ∀ x, β1 x = β x) (hγ : ∀ x, γ1 x = γ x) (hc : cmds' = cmds) (hs : seen' = seen) :
    Adds dbg isfcn D cmds' st F L J a β1 γ1 seen' := by
  rw [show β1 = β from funext hβ, show γ1 = γ from funext hγ, hc, hs]
  exact h

/-- The compiler behind some lines. -/
theorem Ready.after (h : Ready dbg D st F L J a seen) (his : Is dbg D st' (F (β PLACE_HOLDER) ++ γ PLACE_HOLDER) L J' seen')
    (hex : Exits dbg L J J' a β γ) (hb : ∀ x, a + chunksSize dbg (γ x) = b) : Ready dbg D st' (fun x => F (β x) ++ γ x) L J' b seen' := by
  refine ⟨his, fun x => ?_, (hex F [] [] h.size h.atBreak).congr fun x => by simp⟩
  rw [chunksSize_append, h.size, hb]

/-- Lines behind others. -/
theorem Adds.seq (h : Ready dbg D st F L J a seen) (h1 : Adds dbg isfcn D cmds st F L J a β1 γ1 seen') (hb : ∀ x, a + chunksSize dbg (γ1 x) = b)
    (h2 : ∀ st' J', Ready dbg D st' (fun x => F (β1 x) ++ γ1 x) L J' b seen' → J'.length = J.length →
      Adds dbg isfcn D cmds' st' (fun x => F (β1 x) ++ γ1 x) L J' b β2 γ2 seen'') :
    Adds dbg isfcn D (cmds ++ cmds') st F L J a (fun x => β1 (β2 x)) (fun x => γ1 (β2 x) ++ γ2 x) seen'' := by
  obtain ⟨st1, J1, hrun, his, hsame, hex⟩ := h1
  obtain ⟨st2, J2, hrun2, his2, hsame2, hex2⟩ := h2 st1 J1 (h.after his hex hb) hsame.length
  refine ⟨st2, J2, (ecRun_append hrun).trans hrun2, ?_, hsame.trans hsame2, (hex.seq (M := []) hex2 fun x => hb x).congr (fun _ => rfl) fun x => by simp⟩
  rw [← List.append_assoc]
  exact his2

end Run

/-! ## Structured procedures are compiled to their code -/

section Compile

variable {dbg isfcn inLoop : Bool} {D : List DoEntry} {st : Ec} {F : Int → List Chunk} {L : List Level} {J : List Nat} {a : Nat} {seen : Bool}

/-- A jump out of the innermost loop. -/
theorem exit_ok (cmd : Nat) (h : Ready dbg D st F L J a seen) (hslot : exitSlot L ≠ none) (hcmd : cmd ≠ LOOP) :
    ∃ st' J', exitCodegen cmd st = .ok st' ∧ Is dbg D st' (F a ++ [jmp JUMP PLACE_HOLDER]) L J' seen ∧ SameBut L J J' ∧
      Exits dbg L J J' a (fun _ => a) fun x => [jmp JUMP x] := by
  obtain ⟨i, hi⟩ := Option.ne_none_iff_exists'.1 hslot
  obtain ⟨A, c, B, hc, hF, hJ⟩ := h.atBreak i hi
  have his := h.is
  rw [hF] at his
  have hpos : st.pos = a := by rw [h.is.pos, h.size]
  have h1 := ((his.patch hc rfl a).ljmp (c := JUMP) (by decide) PLACE_HOLDER)
  rw [← hF] at h1
  have hpos1 : ((st.patch (chunksSize dbg A + 2) a).ljmp JUMP PLACE_HOLDER).pos - CPOSSZ = a + 2 := by
    rw [h1.pos, chunksSize_append, h.size, chunksSize_cons, size_jump, chunksSize_nil]
    unfold JBLOCKSZ CPOSSZ
    omega
  refine ⟨{ ((st.patch (chunksSize dbg A + 2) a).ljmp JUMP PLACE_HOLDER) with jmpAddr := J.set i (a + 2) }, J.set i (a + 2), ?_,
    ⟨h1.written, h1.nest, rfl, h1.seenRet⟩, Or.inr ⟨i, _, hi, rfl⟩, ?_⟩
  · unfold exitCodegen
    rw [h.is.nest, hi]
    dsimp only
    rw [if_neg hcmd, h.is.jmpAddr, List.getD_eq_getElem?_getD, hJ, Option.getD_some, hpos, hpos1]
    exact congrArg (fun J => Except.ok { ((st.patch (chunksSize dbg A + 2) a).ljmp JUMP PLACE_HOLDER) with jmpAddr := List.set J i (a + 2) }) h1.jmpAddr
  · intro G M N hsz hG i' hi'
    obtain rfl : i = i' := Option.some.inj (hi.symm.trans hi')
    have hlen := (List.getElem?_eq_some_iff.1 hJ).1
    refine ⟨G a ++ M, JUMP, N, rfl, fun x => by simp, ?_⟩
    rw [List.getElem?_set_self hlen, chunksSize_append, hsz]

theorem act_ok (act : Act) (h : Ready dbg D st F L J a seen) (hfit : act.Fits isfcn inLoop) (hin : inLoop = true → exitSlot L ≠ none) :
    Adds dbg isfcn D [act.cmd] st F L J a (fun x => act.brk a x) (fun x => act.gen x) (seen || act.isRet) := by
  have hone : ∀ {st'}, ecCmd dbg isfcn act.cmd st = .ok st' → ecRun dbg isfcn [act.cmd] st = .ok st' := fun hrun => by
    rw [ecRun, hrun]
    rfl
  cases act with
  | blank comment =>
    refine (Adds.const (hone ?_) (?_ : Is dbg D st (F PLACE_HOLDER ++ []) L J (seen || false))).congr (fun _ => rfl) (fun _ => rfl) rfl rfl
    · cases comment <;> rfl
    · rw [List.append_nil, Bool.or_false]
      exact h.is
  | other b =>
    refine Adds.const (hone rfl) ?_
    rw [show (seen || (Act.other b).isRet) = seen from Bool.or_false seen]
    exact h.is.block b
  | doProc name args =>
    refine Adds.const (hone rfl) ?_
    rw [show (seen || (Act.doProc name args).isRet) = seen from Bool.or_false seen]
    have := (h.is.block args).call (name.take Db3w.VNAMELEN)
    rwa [List.append_assoc] at this
  | ret value =>
    rcases value with _ | ⟨pound, b⟩
    · have hf : isfcn = false := hfit
      refine Adds.const (hone (?_ : ecCmd dbg isfcn (.return_ none) st = .ok { st.ljmp RETURN 0 with seenRet := true })) ?_
      · rw [ecCmd, hf]
        rfl
      · have h1 := h.is.ljmp (c := RETURN) (by decide) 0
        exact ⟨h1.written, h1.nest, h1.jmpAddr, (Bool.or_true seen).symm⟩
    · have hf : isfcn = true ∨ pound = true := hfit
      refine Adds.const (hone (?_ : ecCmd dbg isfcn (.return_ (some (pound, b))) st = .ok { (st.block dbg b).ljmp FCNRTN 0 with seenRet := true })) ?_
      · rw [ecCmd, if_neg]
        rcases hf with rfl | rfl <;> simp
      · have h1 := (h.is.block b).ljmp (c := FCNRTN) (by decide) 0
        rw [List.append_assoc] at h1
        exact ⟨h1.written, h1.nest, h1.jmpAddr, (Bool.or_true seen).symm⟩
  | exit =>
    obtain ⟨st', J', hrun, his, hsame, hex⟩ := exit_ok EXIT_CTL h (hin hfit) (by decide)
    rw [show (seen || Act.exit.isRet) = seen from Bool.or_false seen]
    exact ⟨st', J', hone hrun, his, hsame, hex⟩
  | loop =>
    obtain ⟨st', J', hrun, his, hsame, hex⟩ := exit_ok LOOP_CTL h (hin hfit) (by decide)
    rw [show (seen || Act.loop.isRet) = seen from Bool.or_false seen]
    exact ⟨st', J', hone hrun, his, hsame, hex⟩

/-- The level of an IF or CASE behind its first condition, and behind a later one. -/
def branchLevel (isCase later : Bool) : Level := if isCase then ⟨.case_, true, later⟩ else ⟨if later then .elseif else .if_, false, false⟩

/-- The level behind ELSE or OTHERWISE. -/
def elseLevel (isCase : Bool) : Level := if isCase then ⟨.otherwise, true, false⟩ else ⟨.else_, false, false⟩

/-- The jump behind the branch before, if there is one. -/
def prior (later : Bool) (v : Int) : List Chunk := if later then [jmp JUMP v] else []

theorem size_prior (later : Bool) (v w : Int) : chunksSize dbg (prior later v) = chunksSize dbg (prior later w) := by cases later <;> rfl

theorem branchLevel_ctl (isCase later : Bool) : (branchLevel isCase later).ctl ≠ .while_ := by cases isCase <;> cases later <;> decide

theorem branchLevel_entries (isCase later : Bool) : (branchLevel isCase later).entries = 1 + later.toNat := by cases isCase <;> cases later <;> decide

theorem elseLevel_ctl (isCase : Bool) : (elseLevel isCase).ctl ≠ .while_ := by cases isCase <;> decide

theorem elseLevel_entries (isCase : Bool) : (elseLevel isCase).entries = 1 := by cases isCase <;> decide

variable {isCase later : Bool} {P Q : List Chunk} {c c2 : LineBlock} {t : Nat} {l : Level}

/-- The addresses of an open branch. -/
def branchAddrs (dbg later : Bool) (P : List Chunk) (c : LineBlock) : List Nat :=
  (chunksSize dbg P + chunksSize dbg (prior later PLACE_HOLDER) + c.size dbg + 2) :: if later then [chunksSize dbg P + 2] else []

/-- The jump behind the branch before goes here. -/
theorem prior_ok (his : Is dbg D st (P ++ prior true PLACE_HOLDER ++ [blk c, jmp JMP_FALSE PLACE_HOLDER] ++ Q) (l :: L) (branchAddrs dbg true P c ++ J) seen)
    (ht : chunksSize dbg (P ++ prior true PLACE_HOLDER ++ [blk c, jmp JMP_FALSE PLACE_HOLDER] ++ Q) = t) (hlen : J.length + 2 < MAXLEVELS) :
    ∃ st', st.modJmp = .ok st' ∧ Is dbg D st' (P ++ prior true t ++ [blk c, jmp JMP_FALSE PLACE_HOLDER] ++ Q) (l :: L)
      ((chunksSize dbg P + chunksSize dbg (prior true t) + c.size dbg + 2) :: J) seen := by
  have heq : ∀ v, P ++ prior true v ++ [blk c, jmp JMP_FALSE PLACE_HOLDER] ++ Q = P ++ jmp JUMP v :: ([blk c, jmp JMP_FALSE PLACE_HOLDER] ++ Q) := fun v => by
    simp [prior]
  rw [heq] at his ht
  obtain ⟨st', hrun, h'⟩ := his.modJmp (J := J) rfl rfl (by omega)
  rw [ht] at h'
  refine ⟨st', hrun, ?_⟩
  rw [heq, size_prior true _ PLACE_HOLDER]
  exact h'

/-- The end of a branch in front of another: a jump to the end. -/
theorem link_ok (his : Is dbg D st (P ++ prior later PLACE_HOLDER ++ [blk c, jmp JMP_FALSE PLACE_HOLDER] ++ Q) (l :: L) (branchAddrs dbg later P c ++ J) seen)
    (ht : chunksSize dbg (P ++ prior later PLACE_HOLDER ++ [blk c, jmp JMP_FALSE PLACE_HOLDER] ++ Q) = t) (hlen : J.length + 1 + later.toNat < MAXLEVELS) :
    ∃ st', (if later then st.modJmp.bind Ec.jmpCodegen else st.jmpCodegen) = .ok st' ∧
      Is dbg D st' (P ++ prior later t ++ [blk c, jmp JMP_FALSE ↑(t + JBLOCKSZ)] ++ Q ++ [jmp JUMP PLACE_HOLDER]) (l :: L) ((t + 2) :: J) seen := by
  have heq : ∀ v w, P ++ prior later v ++ [blk c, jmp JMP_FALSE w] ++ Q = (P ++ prior later v ++ [blk c]) ++ jmp JMP_FALSE w :: Q := fun v w => by simp
  have hsz : ∀ v, chunksSize dbg (P ++ prior later v ++ [blk c]) + 2 = chunksSize dbg P + chunksSize dbg (prior later PLACE_HOLDER) + c.size dbg + 2 := fun v => by
    simp only [chunksSize_append, chunksSize_cons, chunksSize_nil, size_blk, size_prior later v PLACE_HOLDER]
    omega
  have hall : ∀ v, chunksSize dbg ((P ++ prior later v ++ [blk c]) ++ jmp JMP_FALSE PLACE_HOLDER :: Q) = t := fun v => by
    rw [← ht, heq]
    simp only [chunksSize_append, size_prior later v PLACE_HOLDER]
  cases later with
  | false =>
    rw [heq] at his
    obtain ⟨st', hrun, h'⟩ := his.jmpCodegen (n := t) rfl (hsz _) (by simpa using hlen) (hall _)
    refine ⟨st', hrun, ?_⟩
    rw [heq]
    exact h'
  | true =>
    obtain ⟨st1, hrun1, h1⟩ := prior_ok his ht hlen
    rw [heq] at h1
    obtain ⟨st', hrun, h'⟩ := h1.jmpCodegen (n := t) rfl (by rw [hsz, size_prior true t PLACE_HOLDER]) (by simp at hlen; omega) (hall _)
    refine ⟨st', ?_, ?_⟩
    · rw [if_pos rfl, hrun1]
      exact hrun
    · rw [heq]
      exact h'

/-- The end of the last branch. -/
theorem close_ok (his : Is dbg D st (P ++ prior later PLACE_HOLDER ++ [blk c, jmp JMP_FALSE PLACE_HOLDER] ++ Q) (l :: L) (branchAddrs dbg later P c ++ J) seen)
    (ht : chunksSize dbg (P ++ prior later PLACE_HOLDER ++ [blk c, jmp JMP_FALSE PLACE_HOLDER] ++ Q) = t) (hlen : J.length + 1 + later.toNat < MAXLEVELS) :
    ∃ st', (if later then st.modJmp.bind Ec.modAddr else st.modAddr) = .ok st' ∧
      Is dbg D st' (P ++ prior later t ++ [blk c, jmp JMP_FALSE t] ++ Q) (l :: L) J seen := by
  have heq : ∀ v w, P ++ prior later v ++ [blk c, jmp JMP_FALSE w] ++ Q = (P ++ prior later v ++ [blk c]) ++ jmp JMP_FALSE w :: Q := fun v w => by simp
  have hsz : ∀ v, chunksSize dbg (P ++ prior later v ++ [blk c]) + 2 = chunksSize dbg P + chunksSize dbg (prior later PLACE_HOLDER) + c.size dbg + 2 := fun v => by
    simp only [chunksSize_append, chunksSize_cons, chunksSize_nil, size_blk, size_prior later v PLACE_HOLDER]
    omega
  have hall : ∀ v, chunksSize dbg ((P ++ prior later v ++ [blk c]) ++ jmp JMP_FALSE PLACE_HOLDER :: Q) = t := fun v => by
    rw [← ht, heq]
    simp only [chunksSize_append, size_prior later v PLACE_HOLDER]
  cases later with
  | false =>
    rw [heq] at his
    obtain ⟨st', hrun, h'⟩ := his.modAddr rfl (hsz _)
    rw [hall] at h'
    refine ⟨st', hrun, ?_⟩
    rw [heq]
    exact h'
  | true =>
    obtain ⟨st1, hrun1, h1⟩ := prior_ok his ht hlen
    rw [heq] at h1
    obtain ⟨st', hrun, h'⟩ := h1.modAddr rfl (by rw [hsz, size_prior true t PLACE_HOLDER])
    rw [hall] at h'
    refine ⟨st', ?_, ?_⟩
    · rw [if_pos rfl, hrun1]
      exact hrun
    · rw [heq]
      exact h'

/-- Steps of which the first two make one. -/
theorem bind_link {α β γ ε : Type} {x : Except ε α} {f : α → Except ε β} {g : β → Except ε γ} {y : β} {z : Except ε γ} (h : x.bind f = .ok y) (hg : g y = z) :
    (x.bind fun a => (f a).bind g) = z := by
  rw [← hg]
  cases x with
  | error e => cases h
  | ok a =>
    show (f a).bind g = g y
    rw [show f a = .ok y from h]
    rfl

theorem bind_step {α β ε : Type} {x : Except ε α} {f : α → Except ε β} {y : α} {z : Except ε β} (h : x = .ok y) (hf : f y = z) : x.bind f = z := by
  rw [h]
  exact hf

theorem size_linked (ht : chunksSize dbg (P ++ prior later PLACE_HOLDER ++ [blk c, jmp JMP_FALSE PLACE_HOLDER] ++ Q) = t) (v w : Int) :
    chunksSize dbg (P ++ prior later v ++ [blk c, jmp JMP_FALSE w] ++ Q) = t := by
  have hp : chunksSize dbg (prior later v) = chunksSize dbg (prior later PLACE_HOLDER) := size_prior later v PLACE_HOLDER
  simp only [chunksSize_append, chunksSize_cons, chunksSize_nil, size_blk, size_jmpFalse] at ht ⊢
  omega

/-- The line in front of another branch. -/
theorem next_ok (isfcn : Bool) (c2 : LineBlock) (his : Is dbg D st (P ++ prior later PLACE_HOLDER ++ [blk c, jmp JMP_FALSE PLACE_HOLDER] ++ Q) (branchLevel isCase later :: L)
      (branchAddrs dbg later P c ++ J) seen)
    (ht : chunksSize dbg (P ++ prior later PLACE_HOLDER ++ [blk c, jmp JMP_FALSE PLACE_HOLDER] ++ Q) = t) (hlen : J.length + 2 < MAXLEVELS) :
    ∃ st', ecCmd dbg isfcn (nextCmd isCase c2) st = .ok st' ∧
      Is dbg D st' (P ++ prior later t ++ [blk c, jmp JMP_FALSE ↑(t + JBLOCKSZ)] ++ Q ++ [jmp JUMP PLACE_HOLDER] ++ [blk c2, jmp JMP_FALSE PLACE_HOLDER])
        (branchLevel isCase true :: L) ((t + JBLOCKSZ + c2.size dbg + 2) :: (t + 2) :: J) seen := by
  have hlen' : J.length + 1 + later.toNat < MAXLEVELS := by cases later <;> simp <;> omega
  have hpos : chunksSize dbg (P ++ prior later t ++ [blk c, jmp JMP_FALSE ↑(t + JBLOCKSZ)] ++ Q ++ [jmp JUMP PLACE_HOLDER]) = t + JBLOCKSZ := by
    rw [chunksSize_append, size_linked ht]
    rfl
  have hnest := his.nest
  -- the level is changed before or after the jump
  obtain ⟨st1, h1, his1⟩ := link_ok (his.chgLevel (branchLevel isCase true)) ht hlen'
  obtain ⟨st2, h2, his2⟩ := his1.condCodegen c2 (by rw [List.length_cons]; omega)
  obtain ⟨st3, h3, his3⟩ := link_ok his ht hlen'
  obtain ⟨st4, h4, his4⟩ := (his3.chgLevel (branchLevel isCase true)).condCodegen c2 (by rw [List.length_cons]; omega)
  obtain ⟨st5, h5, his5⟩ := his3.condCodegen c2 (by rw [List.length_cons]; omega)
  rw [hpos] at his2 his4 his5
  rcases isCase with _ | _ <;> rcases later with _ | _
  all_goals
    simp only [branchLevel, Bool.false_eq_true, if_true, if_false] at hnest
    simp only [nextCmd, Bool.false_eq_true, if_true, if_false, ecCmd, hnest]
  · exact ⟨st4, bind_step h3 h4, his4⟩
  · exact ⟨st5, bind_link h3 h5, his5⟩
  · exact ⟨st2, bind_step h1 h2, his2⟩
  · exact ⟨st5, bind_link h3 h5, his5⟩

/-- ELSE or OTHERWISE. -/
theorem else_ok (isfcn : Bool) (his : Is dbg D st (P ++ prior later PLACE_HOLDER ++ [blk c, jmp JMP_FALSE PLACE_HOLDER] ++ Q) (branchLevel isCase later :: L)
      (branchAddrs dbg later P c ++ J) seen)
    (ht : chunksSize dbg (P ++ prior later PLACE_HOLDER ++ [blk c, jmp JMP_FALSE PLACE_HOLDER] ++ Q) = t) (hlen : J.length + 1 + later.toNat < MAXLEVELS) :
    ∃ st', ecCmd dbg isfcn (elseCmd isCase) st = .ok st' ∧
      Is dbg D st' (P ++ prior later t ++ [blk c, jmp JMP_FALSE ↑(t + JBLOCKSZ)] ++ Q ++ [jmp JUMP PLACE_HOLDER]) (elseLevel isCase :: L) ((t + 2) :: J) seen := by
  have hnest := his.nest
  obtain ⟨st1, h1, his1⟩ := link_ok his ht hlen
  refine ⟨st1.chgLevel (elseLevel isCase), ?_, his1.chgLevel _⟩
  rcases isCase with _ | _ <;> rcases later with _ | _
  all_goals
    simp only [branchLevel, Bool.false_eq_true, if_true, if_false] at hnest
    simp only [elseCmd, Bool.false_eq_true, if_true, if_false, ecCmd, hnest]
  · exact bind_step h1 rfl
  · exact bind_link h1 rfl
  · exact bind_step h1 rfl
  · exact bind_link h1 rfl

/-- ENDIF or ENDCASE behind a branch with a condition. -/
theorem end_ok (isfcn : Bool) (his : Is dbg D st (P ++ prior later PLACE_HOLDER ++ [blk c, jmp JMP_FALSE PLACE_HOLDER] ++ Q) (branchLevel isCase later :: L)
      (branchAddrs dbg later P c ++ J) seen)
    (ht : chunksSize dbg (P ++ prior later PLACE_HOLDER ++ [blk c, jmp JMP_FALSE PLACE_HOLDER] ++ Q) = t) (hlen : J.length + 1 + later.toNat < MAXLEVELS) :
    ∃ st', ecCmd dbg isfcn (endCmd isCase) st = .ok st' ∧ Is dbg D st' (P ++ prior later t ++ [blk c, jmp JMP_FALSE t] ++ Q) L J seen := by
  have hnest := his.nest
  obtain ⟨st1, h1, his1⟩ := close_ok his ht hlen
  refine ⟨st1.popLevel, ?_, his1.popLevel⟩
  rcases isCase with _ | _ <;> rcases later with _ | _
  all_goals
    simp only [branchLevel, Bool.false_eq_true, if_true, if_false] at hnest
    simp only [endCmd, Bool.false_eq_true, if_true, if_false, ecCmd, hnest]
  · exact bind_step h1 rfl
  · exact bind_link h1 rfl
  · exact bind_step h1 rfl
  · exact bind_link h1 rfl

/-- ENDIF or ENDCASE behind ELSE or OTHERWISE. -/
theorem endElse_ok (isfcn : Bool) {A B : List Chunk} (his : Is dbg D st (A ++ jmp JUMP PLACE_HOLDER :: B) (elseLevel isCase :: L) (a :: J) seen)
    (ha : chunksSize dbg A + 2 = a) :
    ∃ st', ecCmd dbg isfcn (endCmd isCase) st = .ok st' ∧ Is dbg D st' (A ++ jmp JUMP (chunksSize dbg (A ++ jmp JUMP PLACE_HOLDER :: B)) :: B) L J seen := by
  have hnest := his.nest
  obtain ⟨st1, h1, his1⟩ := his.modAddr rfl ha
  refine ⟨st1.popLevel, ?_, his1.popLevel⟩
  rcases isCase with _ | _
  all_goals
    simp only [elseLevel, Bool.false_eq_true, if_true, if_false] at hnest
    simp only [endCmd, Bool.false_eq_true, if_true, if_false, ecCmd, hnest]
    exact bind_step h1 rfl

/-- DO WHILE. -/
theorem while_ok (isfcn : Bool) (c : LineBlock) (h : Ready dbg D st F L J a seen) (hL : L.length + 1 < MAXLEVELS) (hJ : J.length + 2 < MAXLEVELS) :
    ∃ st', ecCmd dbg isfcn (.doWhile c) st = .ok st' ∧
      Ready dbg D st' (fun x => F PLACE_HOLDER ++ [blk c, jmp JMP_FALSE x]) (⟨.while_, false, false⟩ :: L) ((a + c.size dbg + 2) :: a :: J)
        (a + (c.size dbg + JBLOCKSZ)) seen := by
  obtain ⟨st1, h1, his1⟩ := h.is.pushLevel hL ⟨.while_, false, false⟩
  obtain ⟨st2, h2, his2⟩ := his1.pushAddr (by omega) st1.pos
  obtain ⟨st3, h3, his3⟩ := his2.condCodegen c (by rw [List.length_cons]; omega)
  rw [his1.pos, h.size] at his3
  refine ⟨st3, bind_step h1 (bind_step h2 h3), his3, fun x => ?_, ?_⟩
  · simp [h.size]
  · intro i hi
    obtain rfl : 0 = i := Option.some.inj hi
    refine ⟨F PLACE_HOLDER ++ [blk c], JMP_FALSE, [], rfl, fun x => by simp, ?_⟩
    rw [chunksSize_append, h.size]
    rfl

/-- ENDDO. -/
theorem enddo_ok (isfcn : Bool) {J' : List Nat} {b : Nat} (his : Is dbg D st (F PLACE_HOLDER) (⟨.while_, false, false⟩ :: L) J' seen)
    (hat : AtBreak dbg (⟨.while_, false, false⟩ :: L) J' F) (hsame : SameBut (⟨.while_, false, false⟩ :: L) (b :: a :: J) J') (hJ : J.length + 2 < MAXLEVELS)
    {t : Nat} (ht : ∀ x, chunksSize dbg (F x) = t) :
    ∃ st', ecCmd dbg isfcn .enddo st = .ok st' ∧ Is dbg D st' (F ↑(t + JBLOCKSZ) ++ [jmp JUMP a]) L J seen := by
  obtain ⟨A, c, B, hc, hF, hJ'⟩ := hat 0 rfl
  obtain ⟨h0, rfl⟩ : ∃ h0, J' = h0 :: a :: J := by
    rcases hsame with rfl | ⟨i, h, hi, rfl⟩
    · exact ⟨b, rfl⟩
    · obtain rfl : 0 = i := Option.some.inj hi
      exact ⟨h, rfl⟩
  obtain rfl : h0 = chunksSize dbg A + 2 := Option.some.inj hJ'
  have hnest := his.nest
  obtain ⟨st1, h1, his1⟩ := his.popLevel.popAddr
  obtain ⟨st2, h2, his2⟩ := his1.popAddr
  obtain ⟨st3, h3, his3⟩ := (his2.ljmp (c := JUMP) (by decide) a).pushAddr (by omega) (chunksSize dbg A + 2)
  rw [hF, List.append_assoc, List.cons_append] at his3
  obtain ⟨st4, h4, his4⟩ := his3.modAddr hc rfl
  have hall : chunksSize dbg (A ++ jmp c PLACE_HOLDER :: (B ++ [jmp JUMP a])) = t + JBLOCKSZ := by
    rw [← List.cons_append, ← List.append_assoc, ← hF, chunksSize_append, ht]
    rfl
  rw [hall] at his4
  refine ⟨st4, ?_, ?_⟩
  · simp only [ecCmd, hnest]
    exact bind_step h1 (bind_step h2 (bind_step h3 h4))
  · rw [hF, List.append_assoc, List.cons_append]
    exact his4

/-- The first condition of an IF or CASE. -/
theorem first_ok (isCase : Bool) (c : LineBlock) (hsize : ∀ x, chunksSize dbg (F x) = a) (hat : AtBreak dbg L J F) (his : Is dbg D st (F PLACE_HOLDER) (branchLevel isCase false :: L) J seen)
    (hJ : J.length + 1 < MAXLEVELS) :
    ∃ st', st.condCodegen dbg c = .ok st' ∧
      Ready dbg D st' (fun x => F x ++ [blk c, jmp JMP_FALSE PLACE_HOLDER]) (branchLevel isCase false :: L) ((a + c.size dbg + 2) :: J)
        (a + (c.size dbg + JBLOCKSZ)) seen := by
  obtain ⟨st', hrun, h'⟩ := his.condCodegen c hJ
  rw [hsize] at h'
  refine ⟨st', hrun, h', fun x => ?_, ?_⟩
  · rw [chunksSize_append, hsize]
    rfl
  · exact (hat.append _).push (K := [a + c.size dbg + 2]) (branchLevel_ctl _ _) (branchLevel_entries isCase false).symm

/-- IF. -/
theorem if_ok (isfcn : Bool) (c : LineBlock) (h : Ready dbg D st F L J a seen) (hL : L.length + 1 < MAXLEVELS) (hJ : J.length + 1 < MAXLEVELS) :
    ∃ st', ecCmd dbg isfcn (.if_ c) st = .ok st' ∧
      Ready dbg D st' (fun x => F x ++ [blk c, jmp JMP_FALSE PLACE_HOLDER]) (branchLevel false false :: L) ((a + c.size dbg + 2) :: J)
        (a + (c.size dbg + JBLOCKSZ)) seen := by
  obtain ⟨st1, h1, his1⟩ := h.is.pushLevel hL ⟨.if_, false, false⟩
  obtain ⟨st2, h2, hr2⟩ := first_ok false c h.size h.atBreak his1 hJ
  exact ⟨st2, bind_step h1 h2, hr2⟩

/-- A level without addresses lies on top. -/
theorem Ready.above (h : Ready dbg D st F L J a seen) {st' : Ec} (his : Is dbg D st' (F PLACE_HOLDER) (l :: L) J seen) (hl : l.ctl ≠ .while_)
    (hent : l.entries = 0) : Ready dbg D st' F (l :: L) J a seen := ⟨his, h.size, h.atBreak.push (K := []) hl hent.symm⟩

theorem link_cond {body : Prog} {more : Cases} :
    link dbg t (.cond c body more) = [jmp JUMP ↑(t + JBLOCKSZ + (c.size dbg + JBLOCKSZ) + bodySize dbg body)] := rfl

mutual

/-- **The lines of a structured procedure** add its code. -/
theorem body_ok : (p : Prog) → ∀ {inLoop : Bool} {st : Ec} {F : Int → List Chunk} {L : List Level} {J : List Nat} {a : Nat} {seen : Bool},
    Ready dbg D st F L J a seen → BodyFits isfcn inLoop p → (inLoop = true → exitSlot L ≠ none) → L.length + bodyLevels p < MAXLEVELS →
    J.length + bodyAddrs p < MAXLEVELS →
    Adds dbg isfcn D (bodyLines p) st F L J a (fun x => bodyBrk dbg a x p) (fun x => bodyGen dbg a x p) (seen || bodyRets p)
  | .nil, _, st, F, L, J, a, seen, h, _, _, _, _ => (Adds.nil h).congr (fun _ => rfl) (fun _ => rfl) rfl (Bool.or_false seen)
  | .act act rest, _, st, F, L, J, a, seen, h, hfit, hin, hL, hJ => by
    refine ((act_ok act h hfit.1 hin).seq h (b := a + act.size dbg) (fun x => by rw [size_gen]) fun st' J' h' hJ' =>
      body_ok rest h' hfit.2 hin hL (by rw [hJ']; exact hJ)).congr (fun _ => rfl) (fun _ => rfl) rfl ?_
    rw [bodyRets, Bool.or_assoc]
  | .loop c body rest, _, st, F, L, J, a, seen, h, hfit, hin, hL, hJ => by
    rw [bodyLevels] at hL
    rw [bodyAddrs] at hJ
    obtain ⟨st1, h1, hr1⟩ := while_ok isfcn c h (by omega) (by omega)
    obtain ⟨st2, J2, h2, his2, hsame, hex⟩ := body_ok body hr1 hfit.1 (fun _ => by simp [exitSlot]) (by rw [List.length_cons]; omega)
      (by rw [List.length_cons, List.length_cons]; omega)
    have hr2 := hr1.after his2 hex fun x => by rw [size_bodyGen]
    obtain ⟨st3, h3, his3⟩ := enddo_ok isfcn his2 hr2.atBreak hsame (by omega) hr2.size
    have hloop : Adds dbg isfcn D (.doWhile c :: (bodyLines body ++ [.enddo])) st F L J a (fun x => x)
        (fun _ => [blk c, jmp JMP_FALSE (bodyBrk dbg (a + (c.size dbg + JBLOCKSZ)) ↑(a + (c.size dbg + JBLOCKSZ) + bodySize dbg body + JBLOCKSZ) body)] ++
          bodyGen dbg (a + (c.size dbg + JBLOCKSZ)) ↑(a + (c.size dbg + JBLOCKSZ) + bodySize dbg body + JBLOCKSZ) body ++ [jmp JUMP a]) (seen || bodyRets body) := by
      refine Adds.const (?_ : _ = Except.ok st3) ?_
      · rw [ecRun_cons h1, ecRun_append h2, ecRun_cons h3]
        rfl
      · simpa only [List.append_assoc] using his3
    refine (hloop.seq h (b := a + (c.size dbg + JBLOCKSZ) + bodySize dbg body + JBLOCKSZ) (fun x => ?_) fun st' J' h' hJ' =>
      body_ok rest h' hfit.2 hin (by omega) (by rw [hJ']; omega)).congr (fun x => ?_) (fun x => ?_) ?_ ?_
    · simp
      omega
    · rw [bodyBrk]
      congr 1
      omega
    · simp only [bodyGen]
    · simp [bodyLines]
    · rw [bodyRets, Bool.or_assoc]
  | .if_ c body more rest, _, st, F, L, J, a, seen, h, hfit, hin, hL, hJ => by
    rw [bodyLevels] at hL
    rw [bodyAddrs] at hJ
    obtain ⟨st1, h1, hr1⟩ := if_ok isfcn c h (by omega) (by omega)
    obtain ⟨st2, J2, h2, his2, hsame, hex⟩ := cond_ok false c body more hr1 h.size h.atBreak hfit.1 hfit.2.1 hin (by omega) (by omega)
    have hif : Adds dbg isfcn D (.if_ c :: (bodyLines body ++ (casesLines false more ++ [endCmd false]))) st F L J a
        (fun x => casesBrk dbg a x (.cond c body more)) (fun x => casesGen dbg a x (.cond c body more)) (seen || bodyRets body || casesRets more) :=
      ⟨st2, J2, (ecRun_cons h1).trans h2, his2, hsame, hex⟩
    refine (hif.seq h (b := a + (c.size dbg + JBLOCKSZ) + bodySize dbg body + skipSize more + casesSize dbg more) (fun x => ?_) fun st' J' h' hJ' =>
      body_ok rest h' hfit.2.2 hin (by omega) (by rw [hJ']; omega)).congr (fun x => ?_) (fun x => ?_) ?_ ?_
    · simp [casesSize]
      omega
    · simp only [bodyBrk, casesBrk]
    · simp only [bodyGen, casesGen]
    · simp [bodyLines]
    · simp [bodyRets, Bool.or_assoc]
  | .case_ pre cases rest, _, st, F, L, J, a, seen, h, hfit, hin, hL, hJ => by
    rw [bodyLevels] at hL
    rw [bodyAddrs] at hJ
    obtain ⟨st1, h1, his1⟩ := h.is.pushLevel (by omega) ⟨.case_, false, false⟩
    have hr1 := h.above his1 (by decide) rfl
    obtain ⟨st2, J2, h2, his2, hsame, hex⟩ := body_ok pre hr1 hfit.1 (fun hl => by simpa [exitSlot_cons] using hin hl) (by rw [List.length_cons]; omega) (by omega)
    obtain ⟨J2, rfl, hsame'⟩ := hsame.pop (K := []) (J := J) (by decide) rfl
    have hex' := @Exits.pop _ _ _ _ _ _ _ _ (by decide) [] rfl hex
    have hr2 := hr1.after his2 hex (b := a + bodySize dbg pre) fun x => by rw [size_bodyGen]
    obtain ⟨st3, J3, h3, his3, hsame3, hex3⟩ := cases_ok cases hr2 hfit.2.1 hin (by omega) (by rw [hsame'.length]; omega)
    have hcase : Adds dbg isfcn D (.doCase :: (bodyLines pre ++ (casesLines true cases ++ [endCmd true]))) st F L J a
        (fun x => bodyBrk dbg a (casesBrk dbg (a + bodySize dbg pre) x cases) pre)
        (fun x => bodyGen dbg a (casesBrk dbg (a + bodySize dbg pre) x cases) pre ++ casesGen dbg (a + bodySize dbg pre) x cases)
        (seen || bodyRets pre || casesRets cases) := by
      refine ⟨st3, J3, ?_, ?_, hsame'.trans hsame3, (hex'.seq (M := []) hex3 fun x => by simp).congr (fun _ => rfl) fun x => by simp⟩
      · rw [ecRun_cons (show ecCmd dbg isfcn .doCase st = _ from h1), ecRun_append h2, h3]
      · rw [← List.append_assoc]
        exact his3
    refine (hcase.seq h (b := a + bodySize dbg pre + casesSize dbg cases) (fun x => ?_) fun st' J' h' hJ' =>
      body_ok rest h' hfit.2.2 hin (by omega) (by rw [hJ']; omega)).congr (fun x => ?_) (fun x => ?_) ?_ ?_
    · simp
      omega
    · simp only [bodyBrk]
    · simp only [bodyGen]
    · simp [bodyLines]
    · simp [bodyRets, Bool.or_assoc]
termination_by p => (sizeOf p, 0)

/-- The first branch of an IF or CASE, from behind its condition, and the others. -/
theorem cond_ok (isCase : Bool) (c : LineBlock) : (body : Prog) → (more : Cases) → ∀ {inLoop : Bool} {st : Ec} {F : Int → List Chunk} {L : List Level} {J : List Nat} {a : Nat} {seen : Bool},
    Ready dbg D st (fun x => F x ++ [blk c, jmp JMP_FALSE PLACE_HOLDER]) (branchLevel isCase false :: L) ((a + c.size dbg + 2) :: J) (a + (c.size dbg + JBLOCKSZ)) seen →
    (∀ x, chunksSize dbg (F x) = a) → AtBreak dbg L J F → BodyFits isfcn inLoop body → CasesFit isfcn inLoop more → (inLoop = true → exitSlot L ≠ none) →
    L.length + 1 + max (bodyLevels body) (casesLevels more) < MAXLEVELS → J.length + max (1 + bodyAddrs body) (moreAddrs more) < MAXLEVELS →
    Leaves dbg isfcn D (bodyLines body ++ (casesLines isCase more ++ [endCmd isCase])) st
      (F (casesBrk dbg a PLACE_HOLDER (.cond c body more)) ++ casesGen dbg a PLACE_HOLDER (.cond c body more)) L J a
      (fun x => casesBrk dbg a x (.cond c body more)) (fun x => casesGen dbg a x (.cond c body more)) (seen || bodyRets body || casesRets more)
  | body, more, _, st, F, L, J, a, seen, h, hF, hat, hfit, hfits, hin, hL, hJ => by
    obtain ⟨st2, J2, h2, his2, hsame, hex⟩ := body_ok body h hfit (fun hl => by simpa [exitSlot_cons (branchLevel_ctl isCase false)] using hin hl)
      (by rw [List.length_cons]; omega) (by rw [List.length_cons]; omega)
    obtain ⟨J1, rfl, hsame'⟩ := hsame.pop (K := [a + c.size dbg + 2]) (J := J) (branchLevel_ctl _ _) (branchLevel_entries isCase false).symm
    have hex' := hex.pop (K := [a + c.size dbg + 2]) (J := J) (branchLevel_ctl _ _) (branchLevel_entries isCase false).symm
    let s := a + (c.size dbg + JBLOCKSZ)
    let P : Int → List Chunk := fun x => F (bodyBrk dbg s x body)
    let Q : Int → List Chunk := fun x => bodyGen dbg s x body
    have hJ2 : branchAddrs dbg false (P PLACE_HOLDER) c = [a + c.size dbg + 2] := by
      rw [branchAddrs, hF]
      rfl
    have hmore := more_ok isCase more false c (P := P) (Q := Q) (J := J1) (t := s + bodySize dbg body)
      (by
        rw [hJ2]
        simpa [prior, P, Q, s] using his2)
      (fun x => by
        simp only [chunksSize_append, P, hF, Q, size_bodyGen]
        rfl)
      (fun M N hM => (hex' F M N (fun x => by rw [hF, hM]; rfl) hat).congr fun x => by simp [P, Q, s])
      hfits hin (by omega) (by rw [hsame'.length]; omega) (by rw [hsame'.length]; simp; omega)
    obtain ⟨st3, J3, h3, his3, hsame3, hex3⟩ := hmore
    refine ⟨st3, J3, (ecRun_append h2).trans h3, ?_, hsame'.trans hsame3, ?_⟩
    · rw [casesBrk, casesGen]
      simpa [P, Q, prior, s] using his3
    · exact (((hex'.seq (M := link dbg (s + bodySize dbg body) more) hex3 fun x => by rw [size_bodyGen, size_link]).behind
        (M := [blk c, jmp JMP_FALSE ↑(s + bodySize dbg body + skipSize more)]) rfl).congr (fun x => rfl) fun x => by
          rw [casesGen]
          simp [s])
termination_by body more => (sizeOf body + sizeOf more, 1)
decreasing_by
  · exact Prod.Lex.right' _ (Nat.le_add_right _ _) Nat.zero_lt_one
  · exact Prod.Lex.right' _ (Nat.le_add_left _ _) Nat.zero_lt_one

/-- The branches behind DO CASE. -/
theorem cases_ok : (cases : Cases) → ∀ {inLoop : Bool} {st : Ec} {F : Int → List Chunk} {L : List Level} {J : List Nat} {a : Nat} {seen : Bool},
    Ready dbg D st F (⟨.case_, false, false⟩ :: L) J a seen → CasesFit isfcn inLoop cases → (inLoop = true → exitSlot L ≠ none) →
    L.length + 1 + casesLevels cases < MAXLEVELS → J.length + casesAddrs cases < MAXLEVELS →
    Leaves dbg isfcn D (casesLines true cases ++ [endCmd true]) st (F (casesBrk dbg a PLACE_HOLDER cases) ++ casesGen dbg a PLACE_HOLDER cases) L J a
      (fun x => casesBrk dbg a x cases) (fun x => casesGen dbg a x cases) (seen || casesRets cases)
  | .none, _, st, F, L, J, a, seen, h, hfit, hin, hL, hJ => by
    have hnest := h.is.nest
    refine ⟨st.popLevel, J, ?_, ?_, .refl, .const []⟩
    · refine ecRun_cons (?_ : ecCmd dbg isfcn .endcase st = _)
      simp only [ecCmd, hnest]
    · rw [show casesRets .none = false from rfl, Bool.or_false, casesGen, List.append_nil]
      exact h.is.popLevel
  | .else_ body, _, st, F, L, J, a, seen, h, hfit, hin, hL, hJ => by
    have hnest := h.is.nest
    have hat : AtBreak dbg L J F := h.atBreak.pop (K := []) (by decide) rfl
    have hr1 : Ready dbg D (st.chgLevel ⟨.otherwise, false, false⟩) F (⟨.otherwise, false, false⟩ :: L) J a seen :=
      ⟨h.is.chgLevel _, h.size, hat.push (K := []) (by decide) rfl⟩
    obtain ⟨st2, J2, h2, his2, hsame, hex⟩ := body_ok body hr1 hfit (fun hl => by simpa [exitSlot_cons] using hin hl) (by rw [List.length_cons]; exact hL) hJ
    obtain ⟨J2, rfl, hsame'⟩ := hsame.pop (K := []) (J := J) (by decide) rfl
    have hnest2 := his2.nest
    refine ⟨st2.popLevel, J2, ?_, his2.popLevel, hsame', @Exits.pop _ _ _ _ _ _ _ _ (by decide) [] rfl hex⟩
    show ecRun dbg isfcn (.otherwise :: (bodyLines body ++ [.endcase])) st = _
    rw [ecRun_cons (show ecCmd dbg isfcn .otherwise st = .ok (st.chgLevel ⟨.otherwise, false, false⟩) by simp only [ecCmd, hnest]), ecRun_append h2,
      ecRun_cons (show ecCmd dbg isfcn .endcase st2 = .ok st2.popLevel by simp only [ecCmd, hnest2])]
    rfl
  | .cond c body more, _, st, F, L, J, a, seen, h, hfit, hin, hL, hJ => by
    rw [casesLevels] at hL
    rw [casesAddrs] at hJ
    have hnest := h.is.nest
    have hat : AtBreak dbg L J F := h.atBreak.pop (K := []) (by decide) rfl
    obtain ⟨st1, h1, hr1⟩ := first_ok true c h.size hat (h.is.chgLevel _) (by omega)
    obtain ⟨st2, J2, h2, his2, hsame, hex⟩ := cond_ok true c body more hr1 h.size hat hfit.1 hfit.2 hin hL hJ
    refine ⟨st2, J2, ?_, ?_, hsame, hex⟩
    · have hcase : ecCmd dbg isfcn (.case_ c) st = .ok st1 := by
        simp only [ecCmd, hnest]
        exact h1
      rw [casesLines, List.cons_append, List.append_assoc]
      exact (ecRun_cons hcase).trans h2
    · rw [casesRets, ← Bool.or_assoc]
      exact his2
termination_by cases => (sizeOf cases, 0)

/-- The branches behind another one. -/
theorem more_ok (isCase : Bool) : (more : Cases) → ∀ (later : Bool) (c : LineBlock) {inLoop : Bool} {st : Ec} {P Q : Int → List Chunk} {L : List Level} {J : List Nat} {t : Nat} {seen : Bool},
    Is dbg D st (P PLACE_HOLDER ++ prior later PLACE_HOLDER ++ [blk c, jmp JMP_FALSE PLACE_HOLDER] ++ Q PLACE_HOLDER) (branchLevel isCase later :: L)
      (branchAddrs dbg later (P PLACE_HOLDER) c ++ J) seen →
    (∀ x, chunksSize dbg (P x ++ prior later PLACE_HOLDER ++ [blk c, jmp JMP_FALSE PLACE_HOLDER] ++ Q x) = t) →
    (∀ M N, chunksSize dbg M = chunksSize dbg (prior later PLACE_HOLDER ++ [blk c, jmp JMP_FALSE PLACE_HOLDER]) → AtBreak dbg L J fun x => P x ++ M ++ Q x ++ N) →
    CasesFit isfcn inLoop more → (inLoop = true → exitSlot L ≠ none) → L.length + 1 + casesLevels more < MAXLEVELS →
    J.length + moreAddrs more < MAXLEVELS → J.length + 1 + later.toNat < MAXLEVELS →
    Leaves dbg isfcn D (casesLines isCase more ++ [endCmd isCase]) st
      (P (casesBrk dbg (t + skipSize more) PLACE_HOLDER more) ++ prior later t ++ [blk c, jmp JMP_FALSE ↑(t + skipSize more)] ++
        Q (casesBrk dbg (t + skipSize more) PLACE_HOLDER more) ++ link dbg t more ++ casesGen dbg (t + skipSize more) PLACE_HOLDER more) L J (t + skipSize more)
      (fun x => casesBrk dbg (t + skipSize more) x more) (fun x => casesGen dbg (t + skipSize more) x more) (seen || casesRets more)
  | .none, later, c, _, st, P, Q, L, J, t, seen, his, ht, hat, hfit, hin, hL, hJ, hJ' => by
    obtain ⟨st', h', his'⟩ := end_ok isfcn his (ht _) hJ'
    refine ⟨st', J, ?_, ?_, .refl, .const []⟩
    · show ecRun dbg isfcn [endCmd isCase] st = _
      rw [ecRun_cons h']
      rfl
    · rw [show casesRets .none = false from rfl, Bool.or_false]
      simpa [casesGen, casesBrk, link, skipSize, Branches.isNone] using his'
  | .else_ body, later, c, _, st, P, Q, L, J, t, seen, his, ht, hat, hfit, hin, hL, hJ, hJ' => by
    rw [moreAddrs] at hJ
    obtain ⟨st1, h1, his1⟩ := else_ok isfcn his (ht _) hJ'
    have hr1 : Ready dbg D st1 (fun x => P x ++ prior later t ++ [blk c, jmp JMP_FALSE ↑(t + JBLOCKSZ)] ++ Q x ++ [jmp JUMP PLACE_HOLDER])
        (elseLevel isCase :: L) ([t + 2] ++ J) (t + JBLOCKSZ) seen := by
      refine ⟨his1, fun x => ?_, ?_⟩
      · rw [chunksSize_append, size_linked (ht x)]
        rfl
      · refine ((hat (prior later t ++ [blk c, jmp JMP_FALSE ↑(t + JBLOCKSZ)]) [jmp JUMP PLACE_HOLDER] ?_).congr fun x => by simp).push (elseLevel_ctl _)
          (elseLevel_entries _).symm
        rw [chunksSize_append, chunksSize_append, size_prior later t PLACE_HOLDER]
        rfl
    obtain ⟨st2, J2, h2, his2, hsame, hex⟩ := body_ok body hr1 hfit (fun hl => by simpa [exitSlot_cons (elseLevel_ctl isCase)] using hin hl)
      (by rw [List.length_cons]; exact hL) (by rw [List.length_append, List.length_singleton]; omega)
    obtain ⟨J1, rfl, hsame'⟩ := hsame.pop (K := [t + 2]) (elseLevel_ctl _) (elseLevel_entries _).symm
    have hex' := hex.pop (K := [t + 2]) (elseLevel_ctl _) (elseLevel_entries _).symm
    have hA := size_linked (ht (bodyBrk dbg (t + JBLOCKSZ) PLACE_HOLDER body)) t ↑(t + JBLOCKSZ)
    dsimp only at his2
    rw [List.append_assoc, List.singleton_append, List.singleton_append] at his2
    obtain ⟨st3, h3, his3⟩ := endElse_ok isfcn his2 (congrArg (· + 2) hA)
    rw [chunksSize_append, hA, chunksSize_cons, size_bodyGen, size_jump, ← Nat.add_assoc] at his3
    refine ⟨st3, J1, ?_, ?_, hsame', hex'⟩
    · show ecRun dbg isfcn (elseCmd isCase :: (bodyLines body ++ [endCmd isCase])) st = _
      rw [ecRun_cons h1, ecRun_append h2, ecRun_cons h3]
      rfl
    · simpa [casesGen, casesBrk, link, linkTo, skipSize, Branches.isNone, casesRets] using his3
  | .cond c2 body more, later, c, _, st, P, Q, L, J, t, seen, his, ht, hat, hfit, hin, hL, hJ, hJ' => by
    rw [moreAddrs] at hJ
    rw [casesLevels] at hL
    obtain ⟨st1, h1, his1⟩ := next_ok isfcn c2 his (ht _) (by omega)
    have hsz : ∀ x, chunksSize dbg (P x ++ prior later t ++ [blk c, jmp JMP_FALSE ↑(t + JBLOCKSZ)] ++ Q x) = t := fun x => size_linked (ht x) _ _
    have hM : chunksSize dbg (prior later t ++ [blk c, jmp JMP_FALSE ↑(t + JBLOCKSZ)]) =
        chunksSize dbg (prior later PLACE_HOLDER ++ [blk c, jmp JMP_FALSE PLACE_HOLDER]) := by
      rw [chunksSize_append, chunksSize_append, size_prior later t PLACE_HOLDER]
      rfl
    have hr1 : Ready dbg D st1 (fun x => P x ++ prior later t ++ [blk c, jmp JMP_FALSE ↑(t + JBLOCKSZ)] ++ Q x ++ [jmp JUMP PLACE_HOLDER] ++
        [blk c2, jmp JMP_FALSE PLACE_HOLDER]) (branchLevel isCase true :: L) ([t + JBLOCKSZ + c2.size dbg + 2, t + 2] ++ J)
        (t + JBLOCKSZ + (c2.size dbg + JBLOCKSZ)) seen := by
      refine ⟨his1, fun x => ?_, ?_⟩
      · rw [chunksSize_append, chunksSize_append, hsz]
        rfl
      · exact ((hat _ [jmp JUMP PLACE_HOLDER, blk c2, jmp JMP_FALSE PLACE_HOLDER] hM).congr fun x => by simp).push (branchLevel_ctl _ _)
          (branchLevel_entries isCase true).symm
    obtain ⟨st2, J2, h2, his2, hsame, hex⟩ := body_ok body hr1 hfit.1 (fun hl => by simpa [exitSlot_cons (branchLevel_ctl isCase true)] using hin hl)
      (by rw [List.length_cons]; omega) (by rw [List.length_append, List.length_cons, List.length_singleton]; omega)
    obtain ⟨J1, rfl, hsame'⟩ := hsame.pop (K := [t + JBLOCKSZ + c2.size dbg + 2, t + 2]) (branchLevel_ctl _ _) (branchLevel_entries isCase true).symm
    have hex' := hex.pop (K := [t + JBLOCKSZ + c2.size dbg + 2, t + 2]) (branchLevel_ctl _ _) (branchLevel_entries isCase true).symm
    -- the next branch is now the one behind which the others come
    let s2 := t + JBLOCKSZ + (c2.size dbg + JBLOCKSZ)
    let P2 : Int → List Chunk := fun x => P (bodyBrk dbg s2 x body) ++ prior later t ++ [blk c, jmp JMP_FALSE ↑(t + JBLOCKSZ)] ++ Q (bodyBrk dbg s2 x body)
    let Q2 : Int → List Chunk := fun x => bodyGen dbg s2 x body
    have hP2 : ∀ x, chunksSize dbg (P2 x) = t := fun x => hsz _
    have hJ2 : branchAddrs dbg true (P2 PLACE_HOLDER) c2 = [t + JBLOCKSZ + c2.size dbg + 2, t + 2] := by
      rw [branchAddrs, hP2]
      rfl
    have hmore := more_ok isCase more true c2 (P := P2) (Q := Q2) (J := J1) (t := s2 + bodySize dbg body) (by rw [hJ2]; exact his2)
      (fun x => by
        simp only [chunksSize_append, hP2, Q2, size_bodyGen]
        rfl)
      (fun M N hM2 => (hex' (fun x => P x ++ (prior later t ++ [blk c, jmp JMP_FALSE ↑(t + JBLOCKSZ)]) ++ Q x ++ []) M N
        (fun x => by
          rw [List.append_nil, ← List.append_assoc, hsz, hM2]
          exact (Nat.add_assoc t JBLOCKSZ _).symm) (hat _ [] hM)).congr fun x => by simp [P2, Q2, s2])
      hfit.2 hin (by omega) (by rw [hsame'.length]; omega) (by rw [hsame'.length]; simp; omega)
    obtain ⟨st3, J3, h3, his3, hsame3, hex3⟩ := hmore
    refine ⟨st3, J3, ?_, ?_, hsame'.trans hsame3, ?_⟩
    · show ecRun dbg isfcn (nextCmd isCase c2 :: (bodyLines body ++ casesLines isCase more) ++ [endCmd isCase]) st = _
      rw [List.cons_append, ecRun_cons h1, List.append_assoc, ecRun_append h2]
      exact h3
    · rw [show skipSize (.cond c2 body more) = JBLOCKSZ from rfl, link_cond, casesBrk, casesGen, casesRets, ← Bool.or_assoc]
      simpa [P2, Q2, prior, s2] using his3
    · rw [show skipSize (.cond c2 body more) = JBLOCKSZ from rfl]
      exact (((hex'.seq (M := link dbg (s2 + bodySize dbg body) more) hex3 fun x => by rw [size_bodyGen, size_link]).behind
        (M := [blk c2, jmp JMP_FALSE ↑(s2 + bodySize dbg body + skipSize more)]) rfl).congr (fun x => rfl) fun x => by
          rw [casesGen]
          simp [s2])
termination_by more => (sizeOf more, 0)

end

end Compile

end Db3w.Hb
