/-
Dates as text (`datefmt`, `number_to_date` of date.c, `process_date` of parse.c, `dtoc` and `ctod` of
fcn.c). What is written in a format is read back in it, except when a component ends in a point: the
lexer takes two numbers with a point between them for one.
-/
import Mathlib.Data.List.ReduceOption
import Db3w.Hb.Calendar
import Db3w.Hb.Lex

namespace Db3w.Hb

open Decimal

/-- `m`, `d` and `y`. -/
inductive DateComp where
  | month | day | year
  deriving DecidableEq, Repr

/-- `%d`, `%02d` and `%04d`. -/
inductive DigitFmt where
  | plain | two | four
  deriving DecidableEq, Repr

def DigitFmt.print (f : DigitFmt) (n : Nat) : List UInt8 :=
  match f with
  | .plain => decimal n
  | .two => padZero 2 n
  | .four => padZero 4 n

/-- One part of a format: what the last letter of it stands for, and how it is written. -/
abbrev DatePart := DateComp × DigitFmt

/-- What `datefmt` has found: the parts before the current one, the current one, the separators, and the digits of the year. -/
structure FmtState where
  parts : List (Option DatePart)
  cur : Option DatePart
  seps : List UInt8
  y : Nat
  deriving DecidableEq, Repr

def dateSeparator (c : UInt8) : Bool := c = 47 || c = 46 || c = 45 || c = 44

/-- The first letter of a part, and the second one. -/
def FmtState.letter (st : FmtState) (c : DateComp) : Option FmtState :=
  match st.cur with
  | none => some { st with cur := some (c, .plain) }
  | some (_, .plain) => some { st with cur := some (c, .two), y := if c = .year then 2 else st.y }
  | some _ => none

/-- One character of a format, with the one behind it; the fourth letter of a year is taken with the third. -/
def FmtState.char (st : FmtState) (c : UInt8) (next : Option UInt8) : Option (FmtState × Bool) :=
  if upper c = 77 then (st.letter .month).map fun st => (st, false)
  else if upper c = 68 then (st.letter .day).map fun st => (st, false)
  else if upper c = 89 then
    match st.cur with
    | some (_, .two) => if next.map upper = some 89 then some ({ st with cur := some (.year, .four), y := 4 }, true) else none
    | _ => (st.letter .year).map fun st => (st, false)
  else if dateSeparator c then
    if st.seps.length < 2 then some ({ st with parts := st.parts ++ [st.cur], cur := none, seps := st.seps ++ [c] }, false) else none
  else none

/-- The loop of `datefmt`; `none` is an error. -/
def datefmtLoop : List UInt8 → FmtState → Option FmtState
  | [], st => some st
  | c :: r, st =>
    match st.char c r.head? with
    | none => none
    | some (st, false) => datefmtLoop r st
    | some (st, true) =>
      match r with
      | [] => some st
      | _ :: r => datefmtLoop r st

/-- A format: its parts, the separators, and 2 for years of two digits. -/
structure DateFmt where
  parts : List DatePart
  seps : List UInt8
  y : Nat
  deriving DecidableEq, Repr

/-- `datefmt`. Behind a part without a letter no other one is seen. -/
def datefmt (spec : List UInt8) : Option DateFmt :=
  (datefmtLoop spec ⟨[], none, [], 0⟩).bind fun st =>
    let parts := ((st.parts ++ [st.cur]).takeWhile Option.isSome).reduceOption
    if .month ∈ parts.map Prod.fst ∧ .day ∈ parts.map Prod.fst ∧ .year ∈ parts.map Prod.fst then some ⟨parts, st.seps, st.y⟩ else none

/-- The components of a date. -/
structure Mdy where
  month : Nat
  day : Nat
  year : Nat
  deriving DecidableEq, Repr

def Mdy.get (d : Mdy) : DateComp → Nat
  | .month => d.month
  | .day => d.day
  | .year => d.year

def Mdy.set (d : Mdy) (c : DateComp) (n : Nat) : Mdy :=
  match c with
  | .month => { d with month := n }
  | .day => { d with day := n }
  | .year => { d with year := n }

/-- The text of a date: its parts with the separators between them. -/
def printParts (d : Mdy) : List DatePart → List UInt8 → List UInt8
  | [], _ => []
  | p :: ps, [] => p.2.print (d.get p.1) ++ printParts d ps []
  | p :: ps, c :: seps => p.2.print (d.get p.1) ++ c :: printParts d ps seps

/-- `number_to_date`, in the format that is set. -/
def numberToDate (spec : List UInt8) (n : Nat) : Option (List UInt8) :=
  (nToMdy n).bind fun (month, day, year) =>
    (datefmt spec).map fun f => printParts ⟨month, day, if f.y = 2 then year % 100 else year⟩ f.parts f.seps

/-- `dtoc`. -/
def dtoc (century : Bool) (spec : List UInt8) (n : Nat) : Option (List UInt8) :=
  if n = 0 then some (List.replicate (if century then 10 else 8) 32) else numberToDate spec n

/-- `is_separator`, of a token. -/
def tokSeparator (t : Nat) : Bool := t = TDIV || t = TPERIOD || t = TMINUS || t = TCOMMA

/-- `atoi` of digits. -/
def atoi (s : List UInt8) : Nat := value (s.takeWhile Decimal.isDigit)

/-- The loop of `process_date` over the components, from the token of one on. -/
def dateLoop : List DateComp → Lexeme → Mdy → Except LexErr Mdy
  | [], _, d => .ok d
  | c :: cs, l, d =>
    if c = .year ∧ l.len > 4 then .error .badDate
    else
      let d := d.set c (atoi (if c = .year then l.text.take l.len else l.text))
      match getToken l.rest with
      | .error e => .error e
      | .ok l =>
        if l.tok = TRBRKT then .ok d
        else if tokSeparator l.tok then
          match getToken l.rest with
          | .error e => .error e
          | .ok l => if l.tok ≠ TINT then .error .badDate else dateLoop cs l d
        else .error .badDate

/-- `process_date`; `none` is a NULL. -/
def processDate (epoch : Nat) (spec : List UInt8) (s : List UInt8) : Except LexErr (Option Nat) :=
  match getToken s with
  | .error e => .error e
  | .ok l =>
    if l.tok = TRBRKT then .ok none
    else if l.tok ≠ TINT then .error .badDate
    else
      match datefmt spec with
      | none => .error .badDate
      | some f =>
        match dateLoop (f.parts.map Prod.fst) l ⟨0, 0, 0⟩ with
        | .error e => .error e
        | .ok d => if verifyDate epoch d.year d.month d.day then .ok (some (dateToNumber epoch d.day d.month d.year)) else .error .badDate

/-- `ctod`: the text is put between brackets. -/
def ctod (epoch : Nat) (spec : List UInt8) (s : List UInt8) : Except LexErr (Option Nat) := processDate epoch spec (s ++ [93])

/-- The date is read back from its text. -/
def RoundTrip (epoch : Nat) (century : Bool) (spec : List UInt8) (n : Nat) : Prop :=
  ∃ s, dtoc century spec n = some s ∧ ctod epoch spec s = .ok (some n)

instance (epoch : Nat) (century : Bool) (spec : List UInt8) (n : Nat) : Decidable (RoundTrip epoch century spec n) :=
  match h : dtoc century spec n with
  | none => isFalse (by rintro ⟨s, hs, -⟩; rw [h] at hs; cases hs)
  | some s =>
    if hc : ctod epoch spec s = .ok (some n) then isTrue ⟨s, h, hc⟩
    else isFalse (by rintro ⟨t, ht, hct⟩; rw [h] at ht; cases ht; exact hc hct)

/-! ## Formats -/

/-- The year that the format has been found to have, part by part. -/
def yearDigits : List DatePart → Nat
  | [] => 0
  | (.year, .two) :: _ => 2
  | (.year, .four) :: _ => 4
  | _ :: ps => yearDigits ps

/-- What holds while the format is looked through, `parts` read from the last one on. -/
structure FmtState.Ok (st : FmtState) (pre : List UInt8) : Prop where
  seps : ∀ c ∈ st.seps, dateSeparator c = true
  point : POINT ∈ st.seps ↔ POINT ∈ pre
  length : st.parts.length = st.seps.length ∧ st.seps.length ≤ 2
  four : ∀ p, some p ∈ st.cur :: st.parts → p.2 = .four → p.1 = .year
  digits : st.y = yearDigits (st.cur :: st.parts.reverse).reduceOption

theorem point_of_upper {c : UInt8} (h : upper c ∈ [77, 68, 89]) : c ≠ POINT := by
  rintro rfl
  revert h
  decide

theorem FmtState.Ok.letter {st st' : FmtState} {pre : List UInt8} {c : UInt8} {k : DateComp} (h : st.Ok pre) (hc : c ≠ POINT)
    (hl : st.letter k = some st') : st'.Ok (pre ++ [c]) := by
  have hpoint : POINT ∈ pre ↔ POINT ∈ pre ++ [c] := by
    rw [List.mem_append, List.mem_singleton]
    exact ⟨.inl, fun h => h.resolve_right (Ne.symm hc)⟩
  unfold FmtState.letter at hl
  obtain ⟨hs, hp, hlen, hfour, hy⟩ := h
  split at hl
  · rename_i hcur
    obtain rfl := Option.some.inj hl
    refine ⟨hs, hp.trans hpoint, hlen, ?_, ?_⟩
    · rintro p hp hf
      rcases List.mem_cons.mp hp with heq | hmem
      · obtain rfl := Option.some.inj heq
        cases hf
      · exact hfour p (List.mem_cons_of_mem _ hmem) hf
    · rw [hy, hcur]
      cases k <;> rfl
  · rename_i k' hcur
    obtain rfl := Option.some.inj hl
    refine ⟨hs, hp.trans hpoint, hlen, ?_, ?_⟩
    · rintro p hp hf
      rcases List.mem_cons.mp hp with heq | hmem
      · obtain rfl := Option.some.inj heq
        cases hf
      · exact hfour p (List.mem_cons_of_mem _ hmem) hf
    · dsimp only
      rw [hy, hcur]
      cases k <;> cases k' <;> rfl
  · cases hl

theorem FmtState.Ok.char {st st' : FmtState} {pre : List UInt8} {c : UInt8} {next : Option UInt8} {skip : Bool} (h : st.Ok pre)
    (hc : st.char c next = some (st', skip)) : st'.Ok (pre ++ [c]) ∧ (skip = true → next.map upper = some 89) := by
  unfold FmtState.char at hc
  have hletter : ∀ k, (st.letter k).map (fun st => (st, false)) = some (st', skip) → upper c ∈ [77, 68, 89] →
      st'.Ok (pre ++ [c]) ∧ (skip = true → next.map upper = some 89) := by
    intro k hk hu
    obtain ⟨st₁, hl, heq⟩ := Option.map_eq_some_iff.mp hk
    obtain ⟨rfl, rfl⟩ := Prod.ext_iff.mp heq
    exact ⟨h.letter (point_of_upper hu) hl, fun hf => by cases hf⟩
  split at hc
  · rename_i hu
    exact hletter .month hc (by simp [hu])
  split at hc
  · rename_i hu
    exact hletter .day hc (by simp [hu])
  split at hc
  · rename_i hu
    split at hc
    · rename_i k hcur
      split at hc
      · rename_i hnext
        obtain ⟨rfl, rfl⟩ := Prod.ext_iff.mp (Option.some.inj hc)
        have hne := point_of_upper (c := c) (by simp [hu])
        obtain ⟨hs, hp, hlen, hfour, hy⟩ := h
        refine ⟨⟨hs, ?_, hlen, ?_, ?_⟩, fun _ => hnext⟩
        · rw [List.mem_append, List.mem_singleton]
          exact hp.trans ⟨.inl, fun h => h.resolve_right (Ne.symm hne)⟩
        · rintro p hp hf
          rcases List.mem_cons.mp hp with heq | hmem
          · rw [Option.some.inj heq]
          · exact hfour p (List.mem_cons_of_mem _ hmem) hf
        · rfl
      · cases hc
    · exact hletter .year hc (by simp [hu])
  split at hc
  · rename_i hsep
    split at hc
    · rename_i hlen2
      obtain ⟨rfl, rfl⟩ := Prod.ext_iff.mp (Option.some.inj hc)
      obtain ⟨hs, hp, hlen, hfour, hy⟩ := h
      refine ⟨⟨?_, ?_, ?_, ?_, ?_⟩, fun hf => by cases hf⟩
      · intro d hd
        rcases List.mem_append.mp hd with hd | hd
        · exact hs d hd
        · rw [List.mem_singleton.mp hd]
          exact hsep
      · dsimp only
        rw [List.mem_append, List.mem_append, hp]
      · dsimp only
        rw [List.length_append, List.length_append, List.length_singleton, List.length_singleton]
        omega
      · rintro p hp hf
        refine hfour p ?_ hf
        simpa [or_comm] using hp
      · dsimp only
        rw [hy, List.reverse_append]
        rfl
    · cases hc
  · cases hc

theorem FmtState.Ok.skip {st : FmtState} {pre : List UInt8} {c : UInt8} (h : st.Ok pre) (hc : c ≠ POINT) : st.Ok (pre ++ [c]) := by
  refine { h with point := h.point.trans ?_ }
  rw [List.mem_append, List.mem_singleton]
  exact ⟨.inl, fun h => h.resolve_right (Ne.symm hc)⟩

theorem FmtState.Ok.loop {spec pre : List UInt8} {st st' : FmtState} (h : st.Ok pre) (hl : datefmtLoop spec st = some st') : st'.Ok (pre ++ spec) := by
  induction hn : spec.length using Nat.strong_induction_on generalizing spec pre st with
  | _ n ih =>
    cases spec with
    | nil =>
      obtain rfl := Option.some.inj hl
      rwa [List.append_nil]
    | cons c r =>
      rw [List.length_cons] at hn
      rw [List.append_cons]
      unfold datefmtLoop at hl
      split at hl
      · cases hl
      · rename_i st₁ hc
        exact ih r.length (by omega) (h.char hc).1 hl rfl
      · rename_i st₁ hc
        obtain ⟨h₁, hnext⟩ := h.char hc
        cases r with
        | nil =>
          obtain rfl := Option.some.inj hl
          rwa [List.append_nil]
        | cons c' r =>
          have hu : upper c' = 89 := Option.some.inj (hnext rfl)
          rw [List.length_cons] at hn
          rw [List.append_cons]
          exact ih r.length (by omega) (h₁.skip (point_of_upper (by simp [hu]))) hl rfl

/-- A format has three parts, one for each component, and two separators between them. -/
structure DateFmt.Ok (f : DateFmt) (spec : List UInt8) : Prop where
  parts : ∃ p q r, f.parts = [p, q, r]
  comps : ∀ c, c ∈ f.parts.map Prod.fst
  seps : ∃ s₁ s₂, f.seps = [s₁, s₂] ∧ dateSeparator s₁ = true ∧ dateSeparator s₂ = true ∧ (s₁ = POINT ∨ s₂ = POINT ↔ POINT ∈ spec)
  four : ∀ p ∈ f.parts, p.2 = .four → p.1 = .year
  two : f.y = 2 ↔ (.year, .two) ∈ f.parts

theorem perm_of_comps {l : List DateComp} (h : ∀ c, c ∈ l) : 3 ≤ l.length ∧ (l.length ≤ 3 → l.Nodup) := by
  have hsub : List.Subperm [DateComp.month, .day, .year] l := List.subperm_of_subset (by decide) fun c _ => h c
  exact ⟨hsub.length_le, fun hle => (hsub.perm_of_length_le hle).nodup_iff.mp (by decide)⟩

/-- With one year only, the digits are those of its part. -/
theorem yearDigits_eq_two_iff {ps : List DatePart} (h : (ps.map Prod.fst).Nodup) : yearDigits ps = 2 ↔ (.year, .two) ∈ ps := by
  induction ps with
  | nil => simp [yearDigits]
  | cons p ps ih =>
    obtain ⟨c, f⟩ := p
    rw [List.map_cons, List.nodup_cons] at h
    have hcons : yearDigits ps = 2 ↔ (DateComp.year, DigitFmt.two) ∈ ps := ih h.2
    cases c with
    | year =>
      have hnot : (DateComp.year, DigitFmt.two) ∉ ps := fun hm => h.1 (List.mem_map.mpr ⟨_, hm, rfl⟩)
      cases f with
      | plain => simpa [yearDigits] using hcons
      | two => simp [yearDigits]
      | four => simp [yearDigits, hnot]
    | month => simpa [yearDigits] using hcons
    | day => simpa [yearDigits] using hcons

theorem datefmt_ok {spec : List UInt8} {f : DateFmt} (h : datefmt spec = some f) : f.Ok spec := by
  obtain ⟨st, hloop, hf⟩ := Option.bind_eq_some_iff.mp h
  have hok : st.Ok ([] ++ spec) := @FmtState.Ok.loop _ _ ⟨[], none, [], 0⟩ _ ⟨by simp, by simp, by simp, by simp, rfl⟩ hloop
  rw [List.nil_append] at hok
  dsimp only at hf
  split at hf
  swap
  · cases hf
  rename_i hmem
  obtain rfl := Option.some.inj hf
  obtain ⟨hs, hp, ⟨hlen, hle⟩, hfour, hy⟩ := hok
  have hcomps : ∀ c, c ∈ (((st.parts ++ [st.cur]).takeWhile Option.isSome).reduceOption).map Prod.fst := by
    rintro (_ | _ | _)
    · exact hmem.1
    · exact hmem.2.1
    · exact hmem.2.2
  obtain ⟨h3, hnodup⟩ := perm_of_comps hcomps
  rw [List.length_map] at h3 hnodup
  -- there are no more than three parts, so that every one has a letter
  have hshape : ∃ p q r, st.parts = [some p, some q] ∧ st.cur = some r := by
    rcases hparts : st.parts with _ | ⟨a, _ | ⟨b, _ | ⟨c, t⟩⟩⟩
    · rw [hparts] at h3
      cases hcur : st.cur <;> simp [hcur, List.reduceOption] at h3
    · rw [hparts] at h3
      cases a <;> cases hcur : st.cur <;> simp [hcur, List.reduceOption] at h3
    · rw [hparts] at h3
      cases a with
      | none => simp [List.reduceOption] at h3
      | some p =>
        cases b with
        | none => simp [List.reduceOption] at h3
        | some q =>
          cases hcur : st.cur with
          | none => simp [hcur, List.reduceOption] at h3
          | some r => exact ⟨p, q, r, rfl, rfl⟩
    · rw [hparts] at hlen
      simp at hlen
      omega
  obtain ⟨p, q, r, hparts, hcur⟩ := hshape
  have hps : ((st.parts ++ [st.cur]).takeWhile Option.isSome).reduceOption = [p, q, r] := by
    rw [hparts, hcur]
    rfl
  rw [hps] at hcomps hnodup ⊢
  obtain ⟨s₁, s₂, hseps⟩ : ∃ s₁ s₂, st.seps = [s₁, s₂] := by
    rw [hparts] at hlen
    exact List.length_eq_two.mp hlen.symm
  constructor
  · exact ⟨p, q, r, rfl⟩
  · exact hcomps
  · refine ⟨s₁, s₂, hseps, hs s₁ (by simp [hseps]), hs s₂ (by simp [hseps]), ?_⟩
    rw [← hp, hseps]
    simp [eq_comm]
  · intro x hx
    refine hfour x ?_
    rw [hparts, hcur]
    simpa [or_comm, or_left_comm] using hx
  · dsimp only
    rw [hy, hparts, hcur]
    have hrev : (some r :: [some p, some q].reverse).reduceOption = [p, q, r].reverse := rfl
    rw [hrev, yearDigits_eq_two_iff, List.mem_reverse]
    rw [List.map_reverse, List.nodup_reverse]
    exact hnodup le_rfl

/-! ## Printed parts -/

section Print

variable {f : DigitFmt} {n : Nat} {d : Mdy} {p q : DatePart} {ps : List DatePart} {seps : List UInt8} {c : UInt8}

theorem print_digits : ∀ c ∈ f.print n, Decimal.isDigit c = true := by
  intro c hc
  cases f with
  | plain => exact isDigit_decimal hc
  | two => exact isDigit_padZero hc
  | four => exact isDigit_padZero hc

theorem print_value : value (f.print n) = n := by
  cases f with
  | plain => exact value_decimal n
  | two => exact value_padZero 2 n
  | four => exact value_padZero 4 n

theorem print_ne_nil : f.print n ≠ [] := by
  have hpos := length_decimal_pos n
  refine List.ne_nil_of_length_pos ?_
  cases f with
  | plain => exact hpos
  | two =>
    show 0 < (padZero 2 n).length
    rw [length_padZero]
    omega
  | four =>
    show 0 < (padZero 4 n).length
    rw [length_padZero]
    omega

theorem print_length (h : n < 10 ^ 4) : (f.print n).length ≤ 4 := by
  have hle : (decimal n).length ≤ 4 := (length_decimal_le (by omega)).mpr h
  cases f with
  | plain => exact hle
  | two =>
    show (padZero 2 n).length ≤ 4
    rw [length_padZero]
    omega
  | four =>
    show (padZero 4 n).length ≤ 4
    rw [length_padZero]
    omega

/-- What follows the first part: the bracket, or a separator and the other parts. -/
def behind (d : Mdy) (ps : List DatePart) (seps : List UInt8) : List UInt8 :=
  match ps, seps with
  | [], _ => [93]
  | ps, [] => printParts d ps [] ++ [93]
  | ps, c :: seps => c :: (printParts d ps seps ++ [93])

theorem printParts_cons (h : seps.length = ps.length) :
    printParts d (p :: ps) seps ++ [93] = p.2.print (d.get p.1) ++ behind d ps seps := by
  cases ps with
  | nil =>
    rw [List.length_eq_zero_iff.mp h]
    simp [printParts, behind]
  | cons q ps =>
    obtain ⟨c, seps, rfl⟩ := List.exists_cons_of_length_eq_add_one h
    simp [printParts, behind]

/-- No macro is in a date. -/
theorem plainly_printParts (hs : ∀ c ∈ seps, dateSeparator c = true) : Plainly (printParts d ps seps ++ [93]) := by
  have hdig : ∀ c, Decimal.isDigit c = true → c ≠ 38 := by
    rintro c hc rfl
    cases hc
  have hsep : ∀ c, dateSeparator c = true → c ≠ 38 := by
    rintro c hc rfl
    cases hc
  have hparts : ∀ ps seps, (∀ c ∈ seps, dateSeparator c = true) → ∀ c ∈ printParts d ps seps, c ≠ 38 := by
    intro ps
    induction ps with
    | nil => exact fun _ _ c hc => absurd hc List.not_mem_nil
    | cons p ps ih =>
      rintro (_ | ⟨s, seps⟩) hs c hc
      · rcases List.mem_append.mp hc with hc | hc
        · exact hdig c (print_digits c hc)
        · exact ih [] hs c hc
      · rcases List.mem_append.mp hc with hc | hc
        · exact hdig c (print_digits c hc)
        · rcases List.mem_cons.mp hc with rfl | hc
          · exact hsep c (hs c List.mem_cons_self)
          · exact ih seps (fun x hx => hs x (List.mem_cons_of_mem _ hx)) c hc
  intro c hc
  rcases List.mem_append.mp hc with hc | hc
  · exact hparts ps seps hs c hc
  · rw [List.mem_singleton.mp hc]
    decide

end Print

/-! ## Reading back -/

section Read

variable {d acc : Mdy} {p q : DatePart} {ps : List DatePart} {seps : List UInt8} {c : UInt8}

/-- The token that a part begins with. -/
def partLexeme (d : Mdy) (p : DatePart) (ps : List DatePart) (seps : List UInt8) : Lexeme :=
  ⟨TINT, printParts d (p :: ps) seps ++ [93], (p.2.print (d.get p.1)).length⟩

theorem head_behind (h : seps.length = ps.length) : (behind d ps seps).head? = some (seps.headD 93) := by
  cases ps with
  | nil =>
    rw [List.length_eq_zero_iff.mp h]
    rfl
  | cons q ps =>
    obtain ⟨c, seps, rfl⟩ := List.exists_cons_of_length_eq_add_one h
    rfl

theorem getToken_part (h : seps.length = ps.length) (hs : ∀ c ∈ seps, dateSeparator c = true) (hp : seps.headD 93 ≠ POINT) :
    getToken (printParts d (p :: ps) seps ++ [93]) = .ok (partLexeme d p ps seps) := by
  have hplain := @plainly_printParts d (p :: ps) _ hs
  unfold partLexeme
  rw [printParts_cons h] at hplain ⊢
  refine getToken_int print_ne_nil print_digits ?_ hplain
  rw [head_behind h]
  rintro c hc
  obtain rfl := Option.some.inj hc
  refine ⟨?_, hp⟩
  cases seps with
  | nil => rfl
  | cons c seps =>
    have hc := hs c List.mem_cons_self
    unfold dateSeparator at hc
    show Decimal.isDigit c = false
    by_contra hd
    have := isDigit_iff.mp (by simpa using hd)
    simp only [Bool.or_eq_true, decide_eq_true_iff] at hc
    rcases hc with ((rfl | rfl) | rfl) | rfl <;> simp at this

/-- A separator that is no point is a token. -/
theorem getToken_separator {x : List UInt8} (hc : dateSeparator c = true) (hne : c ≠ POINT) (hx : ∀ e ∈ x.head?, Decimal.isDigit e = true) (h : Plainly (c :: x)) :
    ∃ t, getToken (c :: x) = .ok ⟨t, c :: x, 1⟩ ∧ tokSeparator t = true ∧ t ≠ TRBRKT := by
  unfold dateSeparator at hc
  simp only [Bool.or_eq_true, decide_eq_true_iff] at hc
  rcases hc with ((rfl | rfl) | rfl) | rfl
  · exact ⟨TDIV, getToken_symbol (by decide) (by decide) (by decide) (by decide) (by decide) rfl h, by decide, by decide⟩
  · exact absurd rfl hne
  · refine ⟨TMINUS, getToken_symbol (by decide) (by decide) (by decide) (by decide) (by decide) ?_ h, by decide, by decide⟩
    cases x with
    | nil => rfl
    | cons e x =>
      have he : e ≠ 62 := by
        rintro rfl
        exact absurd (hx 62 rfl) (by decide)
      show symbol 45 (some e) = _
      unfold symbol
      split <;> simp_all
  · exact ⟨TCOMMA, getToken_comma x, by decide, by decide⟩

theorem head_printParts : ∀ e ∈ (printParts d (p :: ps) seps ++ [93]).head?, Decimal.isDigit e = true := by
  obtain ⟨e, r, hr⟩ := List.exists_cons_of_ne_nil (print_ne_nil (f := p.2) (n := d.get p.1))
  have he : Decimal.isDigit e = true := print_digits e (hr ▸ List.mem_cons_self)
  cases seps <;> simp [printParts, hr, he]

/-- The number that is taken from a part. -/
theorem atoi_part (h : seps.length = ps.length) (hs : ∀ c ∈ seps, dateSeparator c = true) :
    atoi (if p.1 = .year then (partLexeme d p ps seps).text.take (partLexeme d p ps seps).len else (partLexeme d p ps seps).text) = d.get p.1 := by
  have htake : (p.2.print (d.get p.1) ++ behind d ps seps).takeWhile Decimal.isDigit = p.2.print (d.get p.1) := by
    refine takeWhile_digits print_digits ?_
    rw [head_behind h]
    rintro c hc
    obtain rfl := Option.some.inj hc
    cases seps with
    | nil => rfl
    | cons c seps =>
      have hc := hs c List.mem_cons_self
      unfold dateSeparator at hc
      simp only [Bool.or_eq_true, decide_eq_true_iff] at hc
      rcases hc with ((rfl | rfl) | rfl) | rfl <;> rfl
  unfold atoi partLexeme
  dsimp only
  rw [printParts_cons h]
  split
  · rw [List.take_left, List.takeWhile_eq_self_iff.mpr print_digits, print_value]
  · rw [htake, print_value]

theorem rest_part (h : seps.length = ps.length) : (partLexeme d p ps seps).rest = behind d ps seps := by
  unfold Lexeme.rest partLexeme
  dsimp only
  rw [printParts_cons h, List.drop_left]

/-- The component of a part is taken, and the token behind it looked at. -/
theorem dateLoop_part (h : seps.length = ps.length) (hs : ∀ c ∈ seps, dateSeparator c = true) (hyear : d.year < 10 ^ 4) (cs : List DateComp) :
    dateLoop (p.1 :: cs) (partLexeme d p ps seps) acc =
      match getToken (behind d ps seps) with
      | .error e => .error e
      | .ok l =>
        if l.tok = TRBRKT then .ok (acc.set p.1 (d.get p.1))
        else if tokSeparator l.tok then
          match getToken l.rest with
          | .error e => .error e
          | .ok l => if l.tok ≠ TINT then .error .badDate else dateLoop cs l (acc.set p.1 (d.get p.1))
        else .error .badDate := by
  have hshort : ¬(p.1 = .year ∧ (partLexeme d p ps seps).len > 4) := by
    rintro ⟨hy, hlong⟩
    have hle : (p.2.print (d.get p.1)).length ≤ 4 := print_length (by rw [hy]; exact hyear)
    exact absurd hlong (not_lt.mpr hle)
  rw [dateLoop, if_neg hshort, rest_part h, atoi_part h hs]

/-- From the token of a part on, the components are set to those of the date. -/
theorem dateLoop_parts (h : seps.length = ps.length) (hs : ∀ c ∈ seps, dateSeparator c = true ∧ c ≠ POINT) (hyear : d.year < 10 ^ 4) :
    dateLoop ((p :: ps).map Prod.fst) (partLexeme d p ps seps) acc = .ok ((p :: ps).foldl (fun acc p => acc.set p.1 (d.get p.1)) acc) := by
  induction ps generalizing p seps acc with
  | nil =>
    obtain rfl := List.length_eq_zero_iff.mp h
    rw [List.map_cons, dateLoop_part h (fun c hc => (hs c hc).1) hyear]
    rfl
  | cons q ps ih =>
    obtain ⟨c, seps, rfl⟩ := List.exists_cons_of_length_eq_add_one h
    have hlen : seps.length = ps.length := Nat.succ.inj h
    obtain ⟨hc, hne⟩ := hs c List.mem_cons_self
    have hs' : ∀ c ∈ seps, dateSeparator c = true ∧ c ≠ POINT := fun x hx => hs x (List.mem_cons_of_mem _ hx)
    have hplain : Plainly (c :: (printParts d (q :: ps) seps ++ [93])) := by
      rintro x hx
      rcases List.mem_cons.mp hx with rfl | hx
      · rintro rfl
        cases hc
      · exact plainly_printParts (fun c hc => (hs' c hc).1) x hx
    have hpoint : seps.headD 93 ≠ POINT := by
      cases seps with
      | nil => decide
      | cons e seps => exact (hs' e List.mem_cons_self).2
    obtain ⟨t, htok, hsep, hbr⟩ := getToken_separator hc hne head_printParts hplain
    have hnext := getToken_part (d := d) (p := q) hlen (fun c hc => (hs' c hc).1) hpoint
    rw [List.map_cons, dateLoop_part h (fun c hc => (hs c hc).1) hyear]
    unfold behind
    dsimp only
    rw [htok]
    dsimp only
    rw [if_neg hbr, if_pos hsep]
    unfold Lexeme.rest
    rw [List.drop_one, List.tail_cons, hnext]
    exact ih hlen hs'

theorem get_set (d : Mdy) (c e : DateComp) (n : Nat) : (d.set c n).get e = if c = e then n else d.get e := by
  cases c <;> cases e <;> rfl

theorem get_foldl_set (ps : List DatePart) (acc : Mdy) (e : DateComp) :
    (ps.foldl (fun acc p => acc.set p.1 (d.get p.1)) acc).get e = if e ∈ ps.map Prod.fst then d.get e else acc.get e := by
  induction ps generalizing acc with
  | nil => simp
  | cons p ps ih =>
    rw [List.foldl_cons, ih, get_set, List.map_cons, if_congr List.mem_cons rfl rfl]
    by_cases he : e ∈ ps.map Prod.fst
    · rw [if_pos he, if_pos (.inr he)]
    · by_cases hp : p.1 = e
      · rw [if_neg he, if_pos hp, if_pos (.inl hp.symm), hp]
      · rw [if_neg he, if_neg hp, if_neg (not_or.mpr ⟨Ne.symm hp, he⟩)]

theorem foldl_set_eq (h : ∀ c, c ∈ ps.map Prod.fst) : ps.foldl (fun acc p => acc.set p.1 (d.get p.1)) acc = d := by
  have hget : ∀ e, (ps.foldl (fun acc p => acc.set p.1 (d.get p.1)) acc).get e = d.get e := by
    intro e
    rw [get_foldl_set, if_pos (h e)]
  obtain ⟨hm, hd, hy⟩ := And.intro (hget .month) (And.intro (hget .day) (hget .year))
  generalize ps.foldl (fun acc p => acc.set p.1 (d.get p.1)) acc = r at hm hd hy
  cases r
  cases d
  cases hm
  cases hd
  cases hy
  rfl

/-- A part with a point behind it, and another part. -/
theorem getToken_point (h : seps.length = ps.length) (hs : ∀ c ∈ seps, dateSeparator c = true) :
    ∃ len, getToken (printParts d (p :: q :: ps) (POINT :: seps) ++ [93]) = .ok ⟨TNUMBER, printParts d (p :: q :: ps) (POINT :: seps) ++ [93], len⟩ := by
  have hplain := @plainly_printParts d (p :: q :: ps) (POINT :: seps) (by simpa [dateSeparator] using hs)
  obtain ⟨e, r, hr⟩ := List.exists_cons_of_ne_nil (print_ne_nil (f := q.2) (n := d.get q.1))
  have hdig : ∀ c ∈ e :: r, Decimal.isDigit c = true := hr ▸ print_digits
  have htext : printParts d (p :: q :: ps) (POINT :: seps) ++ [93] = p.2.print (d.get p.1) ++ POINT :: e :: (r ++ behind d ps seps) := by
    rw [printParts_cons (by simpa using h)]
    unfold behind
    dsimp only
    rw [printParts_cons h, hr]
    rfl
  rw [htext] at hplain ⊢
  refine getToken_number print_ne_nil print_digits (hdig e List.mem_cons_self) ?_ hplain
  rw [List.dropWhile_append_of_pos fun c hc => hdig c (List.mem_cons_of_mem _ hc)]
  have hhead := head_behind (d := d) h
  obtain ⟨b, t, hb⟩ := List.exists_cons_of_ne_nil (show behind d ps seps ≠ [] by rintro hn; rw [hn] at hhead; cases hhead)
  rw [hb] at hhead ⊢
  have hbs : b = seps.headD 93 := Option.some.inj hhead
  have hnd : Decimal.isDigit b = false ∧ b ≠ 101 ∧ b ≠ 69 := by
    rw [hbs]
    cases seps with
    | nil => decide
    | cons c seps =>
      have hc := hs c List.mem_cons_self
      unfold dateSeparator at hc
      simp only [Bool.or_eq_true, decide_eq_true_iff] at hc
      rcases hc with ((rfl | rfl) | rfl) | rfl <;> exact ⟨rfl, by simp⟩
  rw [List.dropWhile_cons_of_neg (by simp [hnd.1])]
  rintro c hc
  obtain rfl := Option.some.inj hc
  exact hnd.2

end Read

/-- A date is read back from its text exactly when the format has no point. A year of two digits has to be in the window of the epoch. -/
theorem dateText_iff {epoch year month day : Nat} {spec : List UInt8} {f : DateFmt} (century : Bool) (hspec : datefmt spec = some f)
    (hd : Valid epoch year month day) (hwindow : f.y = 2 → epoch ≤ year ∧ year < epoch + 100) :
    RoundTrip epoch century spec (dateToNumber epoch day month year) ↔ POINT ∉ spec := by
  obtain ⟨⟨p, q, r, hparts⟩, hcomps, ⟨s₁, s₂, hseps, hs₁, hs₂, hpoint⟩, -, -⟩ := datefmt_ok hspec
  have hnum := nToMdy_date hd
  obtain ⟨hok, hy, hmax⟩ := hd
  have hfull : fullYear epoch year = year := fullYear_eq hy
  -- the year that is written, and what it is taken for
  obtain ⟨y, hydef, hyfull, hylt⟩ : ∃ y, y = (if f.y = 2 then year % 100 else year) ∧ fullYear epoch y = year ∧ y < 10 ^ 4 := by
    refine ⟨_, rfl, ?_, ?_⟩
    · split
      · rename_i h2
        have := hwindow h2
        unfold fullYear
        rw [if_pos (by omega)]
        split <;> omega
      · exact hfull
    · split <;> omega
  have hne : dateToNumber epoch day month year ≠ 0 := by
    intro h0
    rw [h0] at hnum
    have hzero : nToMdy 0 = some (0, 0, 0) := by decide
    rw [hzero] at hnum
    simp only [Option.some.injEq, Prod.mk.injEq] at hnum
    omega
  have htext : dtoc century spec (dateToNumber epoch day month year) = some (printParts ⟨month, day, y⟩ [p, q, r] [s₁, s₂]) := by
    unfold dtoc numberToDate
    rw [if_neg hne, hnum, hspec, hydef]
    simp [hparts, hseps]
  have hiff : RoundTrip epoch century spec (dateToNumber epoch day month year) ↔
      ctod epoch spec (printParts ⟨month, day, y⟩ [p, q, r] [s₁, s₂]) = .ok (some (dateToNumber epoch day month year)) := by
    unfold RoundTrip
    rw [htext]
    simp
  rw [hiff, ← hpoint, not_or]
  unfold ctod processDate
  have hsep : ∀ c ∈ [s₁, s₂], dateSeparator c = true := by simp [hs₁, hs₂]
  by_cases h1 : s₁ = POINT
  · obtain ⟨len, htok⟩ := @getToken_point ⟨month, day, y⟩ p q [r] [s₂] rfl (by simp [hs₂])
    rw [h1, htok]
    exact iff_of_false (by rintro h; cases h) fun h => h.1 rfl
  have htok := @getToken_part ⟨month, day, y⟩ p [q, r] [s₁, s₂] rfl hsep h1
  rw [htok]
  dsimp only
  have hint : (partLexeme ⟨month, day, y⟩ p [q, r] [s₁, s₂]).tok ≠ TRBRKT := show TINT ≠ TRBRKT by decide
  rw [if_neg hint, if_neg (show ¬(partLexeme ⟨month, day, y⟩ p [q, r] [s₁, s₂]).tok ≠ TINT from not_not.mpr rfl), hspec]
  dsimp only
  rw [hparts]
  by_cases h2 : s₂ = POINT
  · -- the second part and the third are one number
    obtain ⟨t, hsepTok, ht, hbr⟩ := getToken_separator (x := printParts ⟨month, day, y⟩ [q, r] [s₂] ++ [93]) hs₁ h1 head_printParts (by
      rintro x hx
      rcases List.mem_cons.mp hx with rfl | hx
      · rintro rfl
        cases hs₁
      · exact plainly_printParts (by simp [hs₂]) x hx)
    obtain ⟨len, hnumber⟩ := @getToken_point ⟨month, day, y⟩ q r [] ([]) rfl (by simp)
    rw [List.map_cons, dateLoop_part rfl hsep hylt]
    unfold behind
    dsimp only
    rw [hsepTok]
    dsimp only
    rw [if_neg hbr, if_pos ht]
    unfold Lexeme.rest
    rw [List.drop_one, List.tail_cons, h2, hnumber]
    exact iff_of_false (by rintro h; cases h) fun h => h.2 rfl
  · rw [dateLoop_parts rfl (by simp [hs₁, hs₂, h1, h2]) hylt, foldl_set_eq (hparts ▸ hcomps)]
    dsimp only
    have hver : verifyDate epoch y month day = true := by
      unfold verifyDate at hok ⊢
      rw [hyfull]
      rwa [hfull] at hok
    have hsame : dateToNumber epoch day month y = dateToNumber epoch day month year := by
      unfold dateToNumber
      rw [hyfull, hfull]
    rw [if_pos hver, hsame]
    exact iff_of_true rfl ⟨h1, h2⟩

theorem dateText_iff_2024 : RoundTrip 1950 true [77, 77, 47, 68, 68, 47, 89, 89] (dateToNumber 1950 29 2 2024) :=
  (dateText_iff (f := ⟨[(.month, .two), (.day, .two), (.year, .two)], [47, 47], 2⟩) true (by decide) ⟨by decide, by decide, by decide⟩ (by decide)).mpr (by decide)

/-- The day before, with points. -/
theorem dateText_fails : ∃ f, datefmt [68, 68, 46, 77, 77, 46, 89, 89, 89, 89] = some f ∧ f.y ≠ 2 ∧ Valid 1950 2024 2 28 ∧
    ¬RoundTrip 1950 true [68, 68, 46, 77, 77, 46, 89, 89, 89, 89] (dateToNumber 1950 28 2 2024) :=
  ⟨⟨[(.day, .two), (.month, .two), (.year, .four)], [46, 46], 4⟩, by decide, by decide, ⟨by decide, by decide, by decide⟩, by decide +kernel⟩

end Db3w.Hb
