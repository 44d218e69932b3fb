/-
`inlist` of fcn.c. It does not use the operator `=`: values of one type are the same when their bytes are, and
numbers with other decimals are passed over. The arguments are popped one by one, the first of them last, and
what is left of them when one matches is popped behind.
-/
import Db3w.Hb.Compare
import Db3w.Lib.Bytes

namespace Db3w.Hb

open Bytes

namespace HbVal

/-- `buf`, without the NULLs that have none. -/
def buf : HbVal → List UInt8
  | logic b => (b.map fun b => b.toUInt8).toList
  | number .null => []
  | number (.fixed n _) => word 8 n.toUInt64.toNat
  | number (.real r) => word 8 r.toBits.toNat
  | date d => (d.map fun d => word 4 d.toNat).getD []
  | charctr s => s
  | other _ s => s

/-- `numspec.deci`, of a number. -/
def deci : HbVal → Nat
  | number (.fixed _ d) => d
  | number (.real _) => REAL
  | _ => 0

end HbVal

/-- The body of the loop of `inlist`: `v` is taken for the same as `tv`. -/
def sameVal (v tv : HbVal) : Bool :=
  if v.typ ≠ tv.typ then false
  else if v.typ = CHARCTR ∧ v.buf.length ≠ tv.buf.length then false
  else if v.typ = NUMBER ∧ (v.buf.length ≠ tv.buf.length ∨ v.deci ≠ tv.deci) then false
  else v.buf = tv.buf.take v.buf.length

/-- The loop: how many arguments are left when it ends. -/
def inlistLoop (tv : HbVal) : Nat → Stack → Except HbErr (Nat × Stack)
  | 0, _ => .error .invalidParmcnt
  | parmCnt + 1, st => do
    let (v, st) ← popAny st
    if parmCnt = 0 then return (0, st)
    else if sameVal v tv then return (parmCnt, st)
    else inlistLoop tv parmCnt st

/-- `while (parm_cnt--) pop_stack(DONTCARE)`. -/
def popMany : Nat → Stack → Except HbErr Stack
  | 0, st => .ok st
  | n + 1, st => do
    let (_, st) ← popAny st
    popMany n st

/-- `inlist`. -/
def inlist (cap parmCnt : Nat) (st : Stack) : Except HbErr Stack :=
  match st[parmCnt - 1]? with
  | none => .error .stackFault
  | some tv => do
    let (left, st) ← inlistLoop tv parmCnt st
    push cap (.logic (some (0 < left))) (← popMany left st)

/-! ## The stack -/

variable {v : HbVal} {xs : List HbVal} {st : Stack}

theorem popMany_append : popMany xs.length (xs ++ st) = .ok st := by
  induction xs with
  | nil => rfl
  | cons x xs ih => exact ih

/-- The loop ends at the first argument that is the same, counted from the last one. -/
theorem inlistLoop_eq :
    ∃ left st', inlistLoop v (xs.length + 1) (xs ++ v :: st) = .ok (left, st') ∧ popMany left st' = .ok st ∧ (0 < left ↔ ∃ x ∈ xs, sameVal x v = true) := by
  induction xs with
  | nil => exact ⟨0, st, rfl, rfl, by simp⟩
  | cons x xs ih =>
    have hstep : inlistLoop v ((x :: xs).length + 1) (x :: xs ++ v :: st) =
        if sameVal x v = true then .ok (xs.length + 1, xs ++ v :: st) else inlistLoop v (xs.length + 1) (xs ++ v :: st) := by
      rw [inlistLoop]
      simp only [List.cons_append, popAny, List.length_cons, Nat.succ_ne_zero, if_false]
      rfl
    by_cases hx : sameVal x v = true
    · refine ⟨xs.length + 1, xs ++ v :: st, ?_, ?_, ?_⟩
      · rw [hstep, if_pos hx]
      · simpa using @popMany_append (xs ++ [v]) st
      · simp [hx]
    · obtain ⟨left, st', hl, hp, hs⟩ := ih
      refine ⟨left, st', ?_, hp, ?_⟩
      · rw [hstep, if_neg hx, hl]
      · simp [hs, hx]

/-- The arguments are replaced by the one result. -/
theorem inlist_eq (cap : Nat) :
    ∃ b : Bool, inlist cap (xs.length + 1) (xs.reverse ++ v :: st) = push cap (.logic (some b)) st ∧ (b = true ↔ ∃ x ∈ xs, sameVal x v = true) := by
  obtain ⟨left, st', hl, hp, hs⟩ := @inlistLoop_eq v xs.reverse st
  rw [List.length_reverse] at hl
  refine ⟨decide (0 < left), ?_, by simpa using hs⟩
  unfold inlist
  have hpeek : (xs.reverse ++ v :: st)[xs.length + 1 - 1]? = some v := by simp
  rw [hpeek]
  dsimp only
  rw [hl]
  simp only [bind, Except.bind, hp]

/-! ## The same value -/

/-- A number with decimals, a date or a string that is not NULL. -/
def Listed : HbVal → Prop
  | .number (.fixed _ d) => d ≤ DECI_MAX
  | .date d => d.isSome
  | .charctr s => s ≠ []
  | _ => False

theorem word_inj {n a b : Nat} (ha : a < 256 ^ n) (hb : b < 256 ^ n) (h : word n a = word n b) : a = b := by
  have hv := congrArg value h
  rwa [value_word, value_word, Nat.mod_eq_of_lt ha, Nat.mod_eq_of_lt hb] at hv

theorem word8_inj (a b : Int64) : word 8 a.toUInt64.toNat = word 8 b.toUInt64.toNat ↔ a = b := by
  constructor
  · intro h
    have hu := UInt64.toNat_inj.mp (word_inj a.toUInt64.toNat_lt b.toUInt64.toNat_lt h)
    rw [← Int64.toInt64_toUInt64 a, hu, Int64.toInt64_toUInt64]
  · rintro rfl
    rfl

theorem word4_inj (a b : UInt32) : word 4 a.toNat = word 4 b.toNat ↔ a = b := by
  constructor
  · intro h
    exact UInt32.toNat_inj.mp (word_inj a.toNat_lt b.toNat_lt h)
  · rintro rfl
    rfl

theorem ofNat_date_inj (a b : UInt32) : Int64.ofNat a.toNat = Int64.ofNat b.toNat ↔ a = b := by
  have ha := a.toNat_lt
  have hb := b.toNat_lt
  constructor
  · intro h
    have hi := congrArg Int64.toInt h
    rw [Int64.toInt_ofNat_of_lt (by omega), Int64.toInt_ofNat_of_lt (by omega)] at hi
    exact UInt32.toNat_inj.mp (by omega)
  · rintro rfl
    rfl

variable {set : Settings} {x : HbVal}

theorem sameVal_eq_true :
    sameVal x v = true ↔ x.typ = v.typ ∧ (x.typ = CHARCTR → x.buf.length = v.buf.length) ∧
      (x.typ = NUMBER → x.buf.length = v.buf.length ∧ x.deci = v.deci) ∧ x.buf = v.buf.take x.buf.length := by
  unfold sameVal
  split_ifs with ht hc hn
  · simp [ht]
  · simp [hc]
  · simp only [false_iff]
    rintro ⟨-, -, h, -⟩
    obtain ⟨h1, h2⟩ := h hn.1
    exact hn.2.elim (absurd h1) (absurd h2)
  · push Not at ht hc hn
    rw [decide_eq_true_iff]
    exact ⟨fun h => ⟨ht, hc, hn, h⟩, fun h => h.2.2.2⟩

theorem Listed.buf_length (hx : Listed x) (hv : Listed v) (ht : x.typ = v.typ) : x.typ = CHARCTR ∨ x.buf.length = v.buf.length := by
  match x, v with
  | .number (.fixed m d), .number (.fixed n e) => exact .inr ((length_word _ _).trans (length_word _ _).symm)
  | .date (some d), .date (some e) => exact .inr ((length_word _ _).trans (length_word _ _).symm)
  | .charctr s, _ => exact .inl rfl

theorem Listed.deci (hx : Listed x) : x.typ ≠ NUMBER → x.deci = 0 := by
  match x with
  | .number (.fixed m d) => exact fun h => absurd rfl h
  | .date d => exact fun _ => rfl
  | .charctr s => exact fun _ => rfl

/-- Of the values that a list may hold, those with the same type, decimals and bytes are the same. -/
theorem Listed.same_iff (hx : Listed x) (hv : Listed v) : sameVal x v = true ↔ x.typ = v.typ ∧ x.deci = v.deci ∧ x.buf = v.buf := by
  rw [sameVal_eq_true]
  constructor
  · rintro ⟨ht, hc, hn, hbuf⟩
    have hlen : x.buf.length = v.buf.length := (hx.buf_length hv ht).elim hc id
    refine ⟨ht, ?_, by rwa [hlen, List.take_length] at hbuf⟩
    by_cases hnum : x.typ = NUMBER
    · exact (hn hnum).2
    · rw [hx.deci hnum, hv.deci (ht ▸ hnum)]
  · rintro ⟨ht, hd, hbuf⟩
    have hlen := congrArg List.length hbuf
    exact ⟨ht, fun _ => hlen, fun _ => ⟨hlen, hd⟩, by rw [hlen, List.take_length, hbuf]⟩

theorem holds_of_binValue {b : Bool} (h : binValue set TEQUAL v x = .ok (.logic (some b))) : Holds set TEQUAL v x ↔ b = true := by
  rw [Holds, h]
  simp

/-- With EXACT on, values of one type with the same decimals are equal exactly if their bytes are. -/
theorem Listed.holds_iff (hex : set.exactOn = true) (hx : Listed x) (hv : Listed v) (ht : x.typ = v.typ) (hd : x.deci = v.deci) :
    Holds set TEQUAL v x ↔ x.buf = v.buf := by
  match x, v with
  | .number (.fixed m d), .number (.fixed n e) =>
    obtain rfl : d = e := hd
    have hb : binValue set TEQUAL (.number (.fixed n d)) (.number (.fixed m d)) = .ok (.logic (some (decide (n = m)))) := by
      rw [binValue_number logicRel_tequal, numRel_tequal, relLogic_tequal]
    rw [holds_of_binValue hb, decide_eq_true_iff]
    exact eq_comm.trans (word8_inj m n).symm
  | .date (some d), .date (some e) =>
    have hb : binValue set TEQUAL (.date (some e)) (.date (some d)) = .ok (.logic (some (decide (Int64.ofNat e.toNat = Int64.ofNat d.toNat)))) := by
      rw [binValue_date logicRel_tequal, dateNum, dateNum, numRel_tequal, relLogic_tequal]
    rw [holds_of_binValue hb, decide_eq_true_iff, ofNat_date_inj]
    exact eq_comm.trans (word4_inj d e).symm
  | .charctr a, .charctr b =>
    have hb : binValue set TEQUAL (.charctr b) (.charctr a) = .ok (.logic (some (decide (textDiff true b a = 0)))) := by
      rw [binValue_charctr logicRel_tequal hv hx, hex]
      congr 2
      rcases lt_trichotomy (textDiff true b a) 0 with h | h | h
      · simp [relOf, relLogic, h, h.ne, not_lt.mpr h.le]
      · simp [relOf, relLogic, h]
      · simp [relOf, relLogic, h, h.ne', not_lt.mpr h.le]
    rw [holds_of_binValue hb, decide_eq_true_iff, textDiff_exact]
    exact eq_comm

/-! ## Membership -/

/-- The call leaves its result in the place of its arguments, and the result says whether `p`. -/
def InlistSays (cap : Nat) (st : Stack) (v : HbVal) (xs : List HbVal) (p : Prop) : Prop :=
  ∃ b : Bool, inlist cap (xs.length + 1) (xs.reverse ++ v :: st) = push cap (.logic (some b)) st ∧ (b = true ↔ p)

/-- With EXACT on `inlist` finds the values of the type of `v`, with its decimals, that are equal to `v`. -/
theorem inlist_member (hex : set.exactOn = true) (hv : Listed v) (hxs : ∀ x ∈ xs, Listed x) (cap : Nat) (st : Stack) :
    InlistSays cap st v xs (∃ x ∈ xs, x.typ = v.typ ∧ x.deci = v.deci ∧ Holds set TEQUAL v x) := by
  obtain ⟨b, hb, hiff⟩ := @inlist_eq v xs st cap
  refine ⟨b, hb, hiff.trans ?_⟩
  constructor
  · rintro ⟨x, hx, hsame⟩
    obtain ⟨ht, hd, hbuf⟩ := ((hxs x hx).same_iff hv).mp hsame
    exact ⟨x, hx, ht, hd, ((hxs x hx).holds_iff hex hv ht hd).mpr hbuf⟩
  · rintro ⟨x, hx, ht, hd, hh⟩
    exact ⟨x, hx, ((hxs x hx).same_iff hv).mpr ⟨ht, hd, ((hxs x hx).holds_iff hex hv ht hd).mp hh⟩⟩

/-- 7 among 5 and 7. -/
theorem inlist_member_seven :
    InlistSays 64 [] (.number (.fixed 7 0)) [.number (.fixed 5 0), .number (.fixed 7 0)]
      (∃ x ∈ [HbVal.number (.fixed 5 0), .number (.fixed 7 0)], x.typ = (HbVal.number (.fixed 7 0)).typ ∧
        x.deci = (HbVal.number (.fixed 7 0)).deci ∧ Holds ⟨true, true⟩ TEQUAL (.number (.fixed 7 0)) x) :=
  inlist_member rfl (Nat.zero_le _) (by simp [Listed]) 64 []

/-- 1.0 is equal to 1 and has other decimals: `INLIST(1.0, 1)`. -/
theorem inlist_decimals :
    ¬∀ (set : Settings) (v : HbVal) (xs : List HbVal) (cap : Nat) (st : Stack), set.exactOn = true → Listed v → (∀ x ∈ xs, Listed x) →
      InlistSays cap st v xs (∃ x ∈ xs, x.typ = v.typ ∧ Holds set TEQUAL v x) := by
  intro h
  obtain ⟨b, hb, hiff⟩ := h ⟨true, true⟩ (.number (.fixed 10 1)) [.number (.fixed 1 0)] 64 [] rfl (by simp [Listed]) (by simp [Listed])
  have hholds : Holds ⟨true, true⟩ TEQUAL (.number (.fixed 10 1)) (.number (.fixed 1 0)) := by
    rw [Holds, binValue_number logicRel_tequal]
    rfl
  have hfalse : inlist 64 2 [.number (.fixed 1 0), .number (.fixed 10 1)] = .ok [.logic (some false)] := rfl
  rw [hiff.mpr ⟨_, List.mem_singleton_self _, rfl, hholds⟩] at hb
  cases hfalse.symm.trans hb

end Db3w.Hb
