/-
Amounts spelled out (`numspell` and `spellnum` of fcn.c), and a reader for the words. The cents are kept in an
`int`, which is too narrow for the fraction of a number with ten decimals and more.
-/
import Db3w.Hb.Round
import Db3w.Hb.Strings

namespace Db3w.Hb

open Decimal Nearest

def ascii (s : String) : List UInt8 := s.toList.map fun c => UInt8.ofNat c.toNat

def nums1 : List (List UInt8) :=
  ["one", "two", "three", "four", "five", "six", "seven", "eight", "nine", "ten", "eleven", "twelve", "thirteen", "fourteen",
    "fifteen", "sixteen", "seventeen", "eighteen", "nineteen"].map ascii

def nums2 : List (List UInt8) := ["twenty", "thirty", "forty", "fifty", "sixty", "seventy", "eighty", "ninety"].map ascii

/-- A word and the blank behind it. -/
def spaced (w : String) : List UInt8 := ascii w ++ [BLANK]

/-- `numspell`, of a number that is not below zero. -/
def numspell (n : Nat) : List UInt8 :=
  if n = 0 then []
  else if n < 20 then nums1.getD (n - 1) [] ++ [BLANK]
  else if n < 100 then nums2.getD (n / 10 - 2) [] ++ [BLANK] ++ numspell (n % 10)
  else if n < 1000 then numspell (n / 100) ++ spaced "hundred" ++ numspell (n % 100)
  else if n < 1000000 then numspell (n / 1000) ++ spaced "thousand" ++ numspell (n % 1000)
  else if n < 1000000000 then numspell (n / 1000000) ++ spaced "million" ++ numspell (n % 1000000)
  else numspell (n / 1000000000) ++ spaced "billion" ++ numspell (n % 1000000000)
termination_by n
decreasing_by all_goals omega

/-- The amount and the cents of a fixed point number without its sign; the cents are an `int` at every step. -/
def fixedAmount (n : Int64) (deci : Nat) : Int64 × Int32 :=
  if deci = 0 then (n, 0)
  else
    let m := n / power10 deci
    let cents := (n - m * power10 deci).toInt32
    if deci = 1 then (m, cents * 10)
    else if deci > 2 then
      let cents := ((cents.toInt64 + 5 * power10 (deci - 2 - 1)) / power10 (deci - 2)).toInt32
      if cents ≥ 100 then (m + 1, 0) else (m, cents)
    else (m, cents)

/-- The amount and the cents of a `double`. -/
def realAmount (r : Float) : Int64 × Int32 :=
  let n := (r * 1000 + 5).toInt64
  (n / 1000, ((n - n / 1000 * 1000) / 10).toInt32)

/-- The text. An amount below zero has no words: a table is read outside its bounds. -/
def spellText (minus : Bool) (n : Int64) (cents : Int32) : Option (List UInt8) :=
  if n < 0 then none
  else some ((if minus then spaced "minus" else []) ++ numspell n.toInt.toNat ++ (spaced "and" ++ zeroText 2 cents.toInt ++ ascii "/100").take 10)

/-- `spellnum`. The sign is that of the lower 64 bits, of a `double` too; a NULL is divided by zero. -/
def spellnum (cap : Nat) (st : Stack) : Option (Except HbErr Stack) :=
  match popNumber st with
  | .error e => some (.error e)
  | .ok (.null, _) => none
  | .ok (.fixed n deci, st) =>
    let (m, cents) := fixedAmount (if n < 0 then -n else n) deci
    (spellText (n < 0) m cents).map fun s => push cap (.charctr s) st
  | .ok (.real r, st) =>
    let n := r.toBits.toInt64
    let (m, cents) := realAmount (Float.ofBits (if n < 0 then -n else n).toUInt64)
    (spellText (n < 0) m cents).map fun s => push cap (.charctr s) st

/-! ## Reading the words -/

/-- The number of a word below one hundred. -/
def smallWord (w : List UInt8) : Option Nat :=
  if w ∈ nums1 then some (nums1.idxOf w + 1) else if w ∈ nums2 then some (10 * (nums2.idxOf w + 2)) else none

/-- One word more: what has been read are the groups in front, and the group of three digits that is being read. -/
def readWord (w : List UInt8) (total group : Nat) : Option (Nat × Nat) :=
  if w = ascii "hundred" then some (total, group * 100)
  else if w = ascii "thousand" then some (total + group * 1000, 0)
  else if w = ascii "million" then some (total + group * 1000000, 0)
  else if w = ascii "billion" then some ((total + group) * 1000000000, 0)
  else (smallWord w).map fun n => (total, group + n)

/-- The number that the words up to "and" stand for, and the words behind it. -/
def readWords (total group : Nat) : List (List UInt8) → Option (Nat × List (List UInt8))
  | [] => none
  | w :: ws => if w = ascii "and" then some (total + group, ws) else (readWord w total group).bind fun (t, g) => readWords t g ws

/-- Two digits over one hundred. -/
def readCents : List (List UInt8) → Option Nat
  | [[a, b, 47, 49, 48, 48]] => if Decimal.isDigit a ∧ Decimal.isDigit b then some (value [a, b]) else none
  | _ => none

/-- The sign, the amount and the cents of a text. -/
def readSpelled (s : List UInt8) : Option (Bool × Nat × Nat) :=
  let ws := s.splitOn BLANK
  let minus := ws.head? = some (ascii "minus")
  (readWords 0 0 (if minus then ws.tail else ws)).bind fun (n, ws) => (readCents ws).map fun c => (decide minus, n, c)

/-- The text of the number reads as its magnitude rounded to hundredths, with its sign, and fits the buffer with its end. -/
def SpellsRight (x : Fixed) : Prop :=
  ∃ s, (∀ cap st, spellnum cap (.number x.num :: st) = some (push cap (.charctr s) st)) ∧ s.length < STRBUFSZ ∧
    readSpelled s = some (decide x.Neg, x.rounded 2 / 100, x.rounded 2 % 100)

/-- The fraction fits an `int`, or is so small that there are no cents. -/
def SpellKept (x : Fixed) : Prop :=
  x.n ≠ Int64.minValue ∧ (x.deci ≤ 9 ∨ (x.deci ≤ 11 ∧ x.rest < 2 ^ 31) ∨ (12 ≤ x.deci ∧ x.rest < 5 * 10 ^ (x.deci - 3)))

/-! ## The words of a number -/

theorem splitOn_spaced {w s : List UInt8} (h : BLANK ∉ w) : (w ++ [BLANK] ++ s).splitOn BLANK = w :: s.splitOn BLANK := by
  rw [List.append_assoc, List.singleton_append, List.splitOn_append_cons_self, List.splitOn_eq_singleton h]
  rfl

/-- Reading a text from a point on. -/
def readText (total group : Nat) (s : List UInt8) : Option (Nat × List (List UInt8)) := readWords total group (s.splitOn BLANK)

theorem readText_word {w s : List UInt8} {t g t' g' : Nat} (hb : BLANK ∉ w) (hand : w ≠ ascii "and") (h : readWord w t g = some (t', g')) :
    readText t g (w ++ [BLANK] ++ s) = readText t' g' s := by
  unfold readText
  rw [splitOn_spaced hb]
  show (if w = ascii "and" then _ else (readWord w t g).bind fun (t, g) => readWords t g (s.splitOn BLANK)) = _
  rw [if_neg hand, h]
  rfl

/-- No word for a number below one hundred is another one. -/
theorem small_ne : ∀ w ∈ nums1 ++ nums2, BLANK ∉ w ∧ w ≠ ascii "and" ∧ w ≠ ascii "hundred" ∧ w ≠ ascii "thousand" ∧ w ≠ ascii "million" ∧ w ≠ ascii "billion" := by
  decide +kernel

theorem smallWord_nums1 : ∀ i < 19, smallWord (nums1.getD i []) = some (i + 1) := by decide +kernel

theorem smallWord_nums2 : ∀ i < 8, smallWord (nums2.getD i []) = some (10 * (i + 2)) := by decide +kernel

theorem readText_small {w s : List UInt8} {t g k : Nat} (hmem : w ∈ nums1 ++ nums2) (h : smallWord w = some k) :
    readText t g (w ++ [BLANK] ++ s) = readText t (g + k) s := by
  obtain ⟨hb, hand, h1, h2, h3, h4⟩ := small_ne w hmem
  refine readText_word hb hand ?_
  unfold readWord
  rw [if_neg h1, if_neg h2, if_neg h3, if_neg h4, h]
  rfl

theorem getD_mem {l : List (List UInt8)} {i : Nat} (h : i < l.length) : l.getD i [] ∈ l := by
  rw [List.getD_eq_getElem?_getD, List.getElem?_eq_getElem h]
  exact List.getElem_mem h

theorem readText_hundred (t g : Nat) (s : List UInt8) : readText t g (spaced "hundred" ++ s) = readText t (g * 100) s :=
  readText_word (by decide) (by decide) (by unfold readWord; rw [if_pos rfl])

theorem readText_thousand (t g : Nat) (s : List UInt8) : readText t g (spaced "thousand" ++ s) = readText (t + g * 1000) 0 s :=
  readText_word (by decide) (by decide) (by unfold readWord; rw [if_neg (by decide), if_pos rfl])

theorem readText_million (t g : Nat) (s : List UInt8) : readText t g (spaced "million" ++ s) = readText (t + g * 1000000) 0 s :=
  readText_word (by decide) (by decide) (by unfold readWord; rw [if_neg (by decide), if_neg (by decide), if_pos rfl])

theorem readText_billion (t g : Nat) (s : List UInt8) : readText t g (spaced "billion" ++ s) = readText ((t + g) * 1000000000) 0 s :=
  readText_word (by decide) (by decide) (by unfold readWord; rw [if_neg (by decide), if_neg (by decide), if_neg (by decide), if_pos rfl])

variable {n : Nat}

/-- Below one hundred the words add up. -/
theorem read_lt_100 (h : n < 100) (t g : Nat) (s : List UInt8) : readText t g (numspell n ++ s) = readText t (g + n) s := by
  have hsmall : ∀ {n : Nat}, n < 20 → ∀ g, readText t g (numspell n ++ s) = readText t (g + n) s := by
    intro n h g
    unfold numspell
    rcases Nat.eq_zero_or_pos n with rfl | hpos
    · rfl
    rw [if_neg hpos.ne', if_pos h, readText_small (List.mem_append_left _ (getD_mem (by change n - 1 < 19; omega))) (smallWord_nums1 (n - 1) (by omega)),
      Nat.sub_add_cancel hpos]
  rcases Nat.lt_or_ge n 20 with h20 | h20
  · exact hsmall h20 g
  · unfold numspell
    rw [if_neg (by omega), if_neg (by omega), if_pos h, List.append_assoc,
      readText_small (List.mem_append_right _ (getD_mem (by change n / 10 - 2 < 8; omega))) (smallWord_nums2 (n / 10 - 2) (by omega)), hsmall (by omega)]
    congr 1
    omega

theorem read_lt_1000 (h : n < 1000) (t : Nat) (s : List UInt8) : readText t 0 (numspell n ++ s) = readText t n s := by
  rcases Nat.lt_or_ge n 100 with h100 | h100
  · rw [read_lt_100 h100, Nat.zero_add]
  · unfold numspell
    rw [if_neg (by omega), if_neg (by omega), if_neg (by omega), if_pos h, List.append_assoc, List.append_assoc, read_lt_100 (by omega), readText_hundred,
      read_lt_100 (by omega)]
    congr 1
    omega

/-- Groups of three digits are read one after the other. -/
theorem read_lt_million (h : n < 1000000) (t : Nat) (s : List UInt8) :
    readText t 0 (numspell n ++ s) = readText (t + n / 1000 * 1000) (n % 1000) s := by
  rcases Nat.lt_or_ge n 1000 with h1000 | h1000
  · rw [read_lt_1000 h1000, Nat.div_eq_of_lt h1000, Nat.mod_eq_of_lt h1000]
    rfl
  · unfold numspell
    rw [if_neg (by omega), if_neg (by omega), if_neg (by omega), if_neg (by omega), if_pos h, List.append_assoc, List.append_assoc, read_lt_1000 (by omega),
      readText_thousand, read_lt_1000 (by omega)]

theorem read_lt_billion (h : n < 1000000000) (t : Nat) (s : List UInt8) :
    readText t 0 (numspell n ++ s) = readText (t + n / 1000 * 1000) (n % 1000) s := by
  rcases Nat.lt_or_ge n 1000000 with hm | hm
  · exact read_lt_million hm t s
  · unfold numspell
    rw [if_neg (by omega), if_neg (by omega), if_neg (by omega), if_neg (by omega), if_neg (by omega), if_pos h, List.append_assoc, List.append_assoc,
      read_lt_1000 (by omega), readText_million, read_lt_million (by omega)]
    congr 1 <;> omega

/-- The words of any number read as the number; those in front of the last "billion" are the words of a number themselves. -/
theorem read_numspell (n : Nat) (s : List UInt8) : readText 0 0 (numspell n ++ s) = readText (n / 1000 * 1000) (n % 1000) s := by
  induction n using Nat.strongRecOn generalizing s with
  | ind n ih =>
    rcases Nat.lt_or_ge n 1000000000 with hb | hb
    · rw [read_lt_billion hb, Nat.zero_add]
    · unfold numspell
      rw [if_neg (by omega), if_neg (by omega), if_neg (by omega), if_neg (by omega), if_neg (by omega), if_neg (by omega), List.append_assoc, List.append_assoc,
        ih _ (by omega), readText_billion, Nat.div_add_mod' (n / 1000000000) 1000, read_lt_billion (by omega),
        show n / 1000000000 * 1000000000 + n % 1000000000 / 1000 * 1000 = n / 1000 * 1000 by omega, show n % 1000000000 % 1000 = n % 1000 by omega]

/-! ## Its length -/

theorem length_nums : ∀ w ∈ nums1 ++ nums2, w.length ≤ 9 := by decide +kernel

theorem length_lt_100 (h : n < 100) : (numspell n).length ≤ 20 := by
  have hsmall : ∀ {n : Nat}, n < 20 → (numspell n).length ≤ 10 := by
    intro n h
    unfold numspell
    split_ifs with h0
    · exact Nat.zero_le _
    · have := length_nums _ (List.mem_append_left _ (getD_mem (l := nums1) (i := n - 1) (by change n - 1 < 19; omega)))
      rw [List.length_append, List.length_singleton]
      omega
  rcases Nat.lt_or_ge n 20 with h20 | h20
  · exact (hsmall h20).trans (by omega)
  · have hw := length_nums _ (List.mem_append_right _ (getD_mem (l := nums2) (i := n / 10 - 2) (by change n / 10 - 2 < 8; omega)))
    have hr := hsmall (n := n % 10) (by omega)
    unfold numspell
    rw [if_neg (by omega), if_neg (by omega), if_pos h, List.length_append, List.length_append, List.length_singleton]
    omega

theorem length_lt_1000 (h : n < 1000) : (numspell n).length ≤ 48 := by
  rcases Nat.lt_or_ge n 100 with h100 | h100
  · exact (length_lt_100 h100).trans (by omega)
  · have h1 := length_lt_100 (n := n / 100) (by omega)
    have h2 := length_lt_100 (n := n % 100) (by omega)
    have hw : (spaced "hundred").length = 8 := by decide
    unfold numspell
    rw [if_neg (by omega), if_neg (by omega), if_neg (by omega), if_pos h, List.length_append, List.length_append]
    omega

theorem length_lt_million (h : n < 1000000) : (numspell n).length ≤ 105 := by
  rcases Nat.lt_or_ge n 1000 with hk | hk
  · exact (length_lt_1000 hk).trans (by omega)
  · have h1 := length_lt_1000 (n := n / 1000) (by omega)
    have h2 := length_lt_1000 (n := n % 1000) (by omega)
    have hw : (spaced "thousand").length = 9 := by decide
    unfold numspell
    rw [if_neg (by omega), if_neg (by omega), if_neg (by omega), if_neg (by omega), if_pos h, List.length_append, List.length_append]
    omega

theorem length_lt_billion (h : n < 1000000000) : (numspell n).length ≤ 161 := by
  rcases Nat.lt_or_ge n 1000000 with hm | hm
  · exact (length_lt_million hm).trans (by omega)
  · have h1 := length_lt_1000 (n := n / 1000000) (by omega)
    have h2 := length_lt_million (n := n % 1000000) (by omega)
    have hw : (spaced "million").length = 8 := by decide
    unfold numspell
    rw [if_neg (by omega), if_neg (by omega), if_neg (by omega), if_neg (by omega), if_neg (by omega), if_pos h, List.length_append, List.length_append]
    omega

theorem length_numspell (h : n < 1000000000000000000) : (numspell n).length ≤ 330 := by
  rcases Nat.lt_or_ge n 1000000000 with hb | hb
  · exact (length_lt_billion hb).trans (by omega)
  · have h1 := length_lt_billion (n := n / 1000000000) (by omega)
    have h2 := length_lt_billion (n := n % 1000000000) (by omega)
    have hw : (spaced "billion").length = 8 := by decide
    unfold numspell
    rw [if_neg (by omega), if_neg (by omega), if_neg (by omega), if_neg (by omega), if_neg (by omega), if_neg (by omega), List.length_append, List.length_append]
    omega

/-! ## The whole text -/

/-- The text of the cents, cut off at ten letters. -/
def centsText (c : Int) : List UInt8 := (spaced "and" ++ zeroText 2 c ++ ascii "/100").take 10

theorem length_centsText (c : Int) : (centsText c).length ≤ 10 := List.length_take_le _ _

theorem readText_and (t g : Nat) (s : List UInt8) (h : BLANK ∉ s) : readText t g (spaced "and" ++ s) = some (t + g, [s]) := by
  unfold readText spaced
  rw [splitOn_spaced (by decide), List.splitOn_eq_singleton h]
  rfl

/-- Cents from 0 to 99 are read back. -/
theorem read_centsText : ∀ c < 100, ∃ s, centsText (c : Nat) = spaced "and" ++ s ∧ BLANK ∉ s ∧ readCents [s] = some c := by
  intro c hc
  have hlen := length_padZero_eq (w := 2) (by omega) hc
  obtain ⟨a, b, hab⟩ := List.length_eq_two.mp hlen
  have hdig : ∀ d ∈ padZero 2 c, Decimal.isDigit d = true := fun d hd => isDigit_padZero hd
  have hval := value_padZero 2 c
  rw [hab] at hdig hval
  have ha := hdig a (by simp)
  have hb := hdig b (by simp)
  refine ⟨[a, b] ++ ascii "/100", ?_, ?_, ?_⟩
  · unfold centsText zeroText
    rw [if_neg (by omega), Int.natAbs_natCast, hab]
    rfl
  · have hne : ∀ d, Decimal.isDigit d = true → BLANK ≠ d := by
      rintro d hd rfl
      exact absurd hd (by decide)
    have hrest : BLANK ∉ ascii "/100" := by decide
    simp [hne a ha, hne b hb, hrest]
  · show (if Decimal.isDigit a ∧ Decimal.isDigit b then some (value [a, b]) else none) = _
    rw [if_pos ⟨ha, hb⟩, hval]

/-- Cents below zero start with their sign. -/
theorem read_centsText_neg {c : Int} (h : c < 0) : ∃ s, centsText c = spaced "and" ++ s ∧ BLANK ∉ s ∧ readCents [s] = none := by
  have hdig : ∀ d ∈ padZero 1 c.natAbs, Decimal.isDigit d = true := fun d hd => isDigit_padZero hd
  refine ⟨MINUS :: (padZero 1 c.natAbs ++ ascii "/100").take 5, ?_, ?_, ?_⟩
  · unfold centsText zeroText
    rw [if_pos h]
    rfl
  · intro hmem
    rcases List.mem_cons.mp hmem with hm | hm
    · exact absurd hm (by decide)
    rcases List.mem_append.mp (List.mem_of_mem_take hm) with hm | hm
    · exact absurd (hdig _ hm) (by decide)
    · exact absurd hm (by decide)
  · unfold readCents
    split
    · rename_i a b heq
      obtain rfl : MINUS = a := (List.cons.inj (List.cons.inj heq).1).1
      exact if_neg fun hd => absurd hd.1 (by decide)
    · rfl

/-- The first word of a number above zero. -/
theorem numspell_head (h : 0 < n) : ∃ w s, numspell n = w ++ [BLANK] ++ s ∧ w ∈ nums1 ++ nums2 := by
  induction n using Nat.strongRecOn with
  | ind n ih =>
    have hrec : ∀ {m : Nat} (s : List UInt8), 0 < m → m < n → ∃ w s', numspell m ++ s = w ++ [BLANK] ++ s' ∧ w ∈ nums1 ++ nums2 := by
      intro m s hpos hlt
      obtain ⟨w, s', heq, hw⟩ := ih m hlt hpos
      exact ⟨w, s' ++ s, by rw [heq, List.append_assoc], hw⟩
    unfold numspell
    rw [if_neg h.ne']
    split_ifs with h1 h2 h3 h4 h5
    · exact ⟨_, [], (List.append_nil _).symm, List.mem_append_left _ (getD_mem (by change n - 1 < 19; omega))⟩
    · exact ⟨_, _, rfl, List.mem_append_right _ (getD_mem (by change n / 10 - 2 < 8; omega))⟩
    · rw [List.append_assoc]
      exact hrec _ (by omega) (by omega)
    · rw [List.append_assoc]
      exact hrec _ (by omega) (by omega)
    · rw [List.append_assoc]
      exact hrec _ (by omega) (by omega)
    · rw [List.append_assoc]
      exact hrec _ (by omega) (by omega)

theorem not_minus : ∀ w ∈ nums1 ++ nums2, w ≠ ascii "minus" := by decide +kernel

/-- A text reads as its sign, its amount and its cents. -/
theorem readSpelled_eq (minus : Bool) (n : Nat) {s : List UInt8} (h : BLANK ∉ s) :
    readSpelled ((if minus then spaced "minus" else []) ++ numspell n ++ (spaced "and" ++ s)) = (readCents [s]).map fun c => (minus, n, c) := by
  have hread : readWords 0 0 ((numspell n ++ (spaced "and" ++ s)).splitOn BLANK) = some (n, [s]) := by
    have := read_numspell n (spaced "and" ++ s)
    rw [readText_and _ _ _ h, Nat.div_add_mod' n 1000] at this
    exact this
  unfold readSpelled
  cases minus with
  | true =>
    have hsplit : (spaced "minus" ++ numspell n ++ (spaced "and" ++ s)).splitOn BLANK = ascii "minus" :: (numspell n ++ (spaced "and" ++ s)).splitOn BLANK := by
      rw [List.append_assoc]
      exact splitOn_spaced (by decide)
    rw [if_pos rfl, hsplit]
    simp [hread]
  | false =>
    have hhead : ((numspell n ++ (spaced "and" ++ s)).splitOn BLANK).head? ≠ some (ascii "minus") := by
      rcases Nat.eq_zero_or_pos n with rfl | hpos
      · unfold numspell
        rw [if_pos rfl, List.nil_append, show spaced "and" = ascii "and" ++ [BLANK] from rfl, splitOn_spaced (by decide)]
        exact fun heq => absurd (Option.some.inj heq) (by decide)
      · obtain ⟨w, s', heq, hw⟩ := numspell_head hpos
        rw [heq, List.append_assoc, splitOn_spaced (small_ne w hw).1]
        exact fun heq => not_minus w hw (Option.some.inj heq)
    simp [hhead, hread]

/-! ## The cents -/

namespace Fixed

variable (x : Fixed) {j : Nat}

/-- The magnitude of the code. -/
def absN : Int64 := if x.n < 0 then -x.n else x.n

/-- What the `int` holds of a fraction. -/
def held : Int := (x.rest : Int).bmod (2 ^ 32)

/-- The cents of the code, before the carry. -/
def heldCents (j : Nat) : Int := (x.held + 5 * 10 ^ j).tdiv (10 ^ (j + 1))

theorem held_bounds : -2 ^ 31 ≤ x.held ∧ x.held < 2 ^ 31 := by
  unfold held
  rw [Int.bmod_eq_emod]
  split <;> omega

theorem held_of_lt (h : x.rest < 2 ^ 31) : x.held = x.rest := by
  unfold held
  rw [Int.bmod_eq_emod]
  split <;> omega

theorem held_of_ge (h : 2 ^ 31 ≤ x.rest) : x.held ≤ x.rest - 2 ^ 32 := by
  unfold held
  rw [Int.bmod_eq_emod]
  split <;> omega

theorem absN_toInt (hmin : x.n ≠ Int64.minValue) : x.absN.toInt = x.mag := x.abs_toInt (x.mag_lt hmin)

theorem quot_absN (hmin : x.n ≠ Int64.minValue) : (x.absN / power10 x.deci).toInt = x.ip := by
  rw [div_power10_toInt _ x.deci_le, x.absN_toInt hmin, ← Int.ofNat_tdiv]
  rfl

theorem rest_absN (hmin : x.n ≠ Int64.minValue) : (x.absN - x.absN / power10 x.deci * power10 x.deci).toInt32.toInt = x.held := by
  have hmag := x.mag_lt hmin
  have heq := x.mag_eq
  have hprod : (x.absN / power10 x.deci * power10 x.deci).toInt = (x.ip * 10 ^ x.deci : Nat) := by
    rw [toInt_mul, x.quot_absN hmin, power10_toInt x.deci_le]
    push_cast
    refine wrap_of_inLong ?_
    have : (x.ip : Int) * 10 ^ x.deci = (x.ip * 10 ^ x.deci : Nat) := by push_cast; rfl
    exact ⟨by omega, by omega⟩
  rw [Int64.toInt_toInt32, toInt_sub, hprod, x.absN_toInt hmin, wrap_of_inLong ⟨by omega, by omega⟩]
  unfold held
  congr 1
  omega

theorem heldCents_bounds (j : Nat) : -2 ^ 30 ≤ x.heldCents j ∧ x.heldCents j < 2 ^ 30 := by
  obtain ⟨h1, h2⟩ := x.held_bounds
  have hpos : (0 : Int) < 10 ^ j := by positivity
  have hpow : (10 : Int) ^ (j + 1) = 10 * 10 ^ j := by rw [pow_succ, mul_comm]
  have hd : (0 : Int) < 10 ^ (j + 1) := by omega
  unfold heldCents
  rcases lt_or_ge (x.held + 5 * 10 ^ j) 0 with h | h
  · rw [← Int.neg_neg (x.held + 5 * 10 ^ j), Int.neg_tdiv, Int.tdiv_eq_ediv_of_nonneg (by omega)]
    have hle : -(x.held + 5 * 10 ^ j) / 10 ^ (j + 1) < 2 ^ 30 := Int.ediv_lt_of_lt_mul hd (by omega)
    have hge : 0 ≤ -(x.held + 5 * 10 ^ j) / 10 ^ (j + 1) := Int.ediv_nonneg (by omega) hd.le
    omega
  · rw [Int.tdiv_eq_ediv_of_nonneg h]
    have hle : (x.held + 5 * 10 ^ j) / 10 ^ (j + 1) < 2 ^ 30 := Int.ediv_lt_of_lt_mul hd (by omega)
    have hge : 0 ≤ (x.held + 5 * 10 ^ j) / 10 ^ (j + 1) := Int.ediv_nonneg h hd.le
    omega

/-- Amount and cents of a number with more than two decimals. -/
theorem fixedAmount_long (hmin : x.n ≠ Int64.minValue) (h : x.deci = j + 3) :
    ((fixedAmount x.absN x.deci).1.toInt, (fixedAmount x.absN x.deci).2.toInt) = if 100 ≤ x.heldCents j then ((x.ip : Int) + 1, 0) else ((x.ip : Int), x.heldCents j) := by
  have hd := x.deci_le
  have hmax : DECI_MAX = 18 := rfl
  obtain ⟨hb1, hb2⟩ := x.held_bounds
  obtain ⟨hc1, hc2⟩ := x.heldCents_bounds j
  have hp : (10 : Int) ^ j ≤ 10 ^ 15 := pow_le_pow_right₀ (by omega) (by omega)
  have hpos : (0 : Int) < 10 ^ j := by positivity
  have hip : x.ip < 2 ^ 62 := by
    have hle : x.ip * 10 ≤ x.mag := by
      rw [x.mag_eq, h, pow_add]
      have := Nat.mul_le_mul_left x.ip (show 10 ≤ 10 ^ j * 10 ^ 3 by have := ten_pow_pos j; omega)
      omega
    have := x.mag_lt hmin
    omega
  have hdef : (x.held + 5 * 10 ^ j).tdiv ((10 ^ (j + 1) : Nat) : Int) = x.heldCents j := by
    unfold heldCents
    rw [Int.natCast_pow]
    rfl
  have hcents : (((x.absN - x.absN / power10 x.deci * power10 x.deci).toInt32.toInt64 + 5 * power10 j) / power10 (j + 1)).toInt32.toInt = x.heldCents j := by
    rw [Int64.toInt_toInt32, div_power10_toInt _ (by omega), toInt_add, Int32.toInt_toInt64, x.rest_absN hmin, half_toInt (by omega), wrap_of_inLong ⟨by omega, by omega⟩, hdef, Int.bmod_eq_emod]
    split <;> omega
  unfold fixedAmount
  rw [if_neg (by omega)]
  dsimp only
  rw [if_neg (by omega), if_pos (by omega), show x.deci - 2 - 1 = j by omega, show x.deci - 2 = j + 1 by omega]
  by_cases hge : 100 ≤ x.heldCents j
  · rw [if_pos hge, if_pos (Int32.le_iff_toInt_le.mpr (hcents ▸ hge))]
    have hone : (x.absN / power10 x.deci + 1).toInt = x.ip + 1 := by
      rw [toInt_add, x.quot_absN hmin]
      exact wrap_of_inLong ⟨by change -2 ^ 63 ≤ (x.ip : Int) + 1; omega, by change (x.ip : Int) + 1 < 2 ^ 63; omega⟩
    rw [hone]
    rfl
  · rw [if_neg hge, if_neg (Int32.le_iff_toInt_le.not.mpr (hcents ▸ hge)), x.quot_absN hmin, hcents]

/-- With two decimals at most the fraction is scaled to hundredths. -/
theorem fixedAmount_short (hmin : x.n ≠ Int64.minValue) (h : x.deci ≤ 2) :
    ((fixedAmount x.absN x.deci).1.toInt, (fixedAmount x.absN x.deci).2.toInt) = ((x.ip : Int), (x.frac 2 : Int)) := by
  have hrest := x.rest_lt
  have hheld : x.held = x.rest := x.held_of_lt (hrest.trans_le ((Nat.pow_le_pow_right (n := 10) (by omega) h).trans (by omega)))
  have hq := x.quot_absN hmin
  have hr := x.rest_absN hmin
  rw [x.frac_of_le h]
  rw [hheld] at hr
  unfold fixedAmount
  rcases (by omega : x.deci = 0 ∨ x.deci = 1 ∨ x.deci = 2) with h0 | h1 | h2
  · have hip : x.ip = x.mag := by
      unfold ip
      rw [h0, pow_zero, Nat.div_one]
    rw [h0, pow_zero] at hrest
    rw [if_pos h0, x.absN_toInt hmin, hip, Nat.lt_one_iff.mp hrest]
    simp
  · rw [if_neg (by omega)]
    dsimp only
    rw [if_pos h1, hq, Int32.toInt_mul, hr]
    rw [h1] at hrest ⊢
    refine Prod.ext rfl ?_
    dsimp only
    rw [show (10 : Int32).toInt = 10 from rfl, Int.bmod_eq_emod]
    split <;> omega
  · rw [if_neg (by omega)]
    dsimp only
    rw [if_neg (by omega), if_neg (by omega), hq, hr]
    rw [h2]
    simp

/-- The cents of the code are at most the rounded ones, and these exactly when the `int` is wide enough or there are none. -/
theorem heldCents_le (h : x.deci = j + 3) : x.heldCents j ≤ x.frac 2 ∧
    (x.heldCents j = x.frac 2 ↔ x.deci ≤ 9 ∨ (x.deci ≤ 11 ∧ x.rest < 2 ^ 31) ∨ (12 ≤ x.deci ∧ x.rest < 5 * 10 ^ (x.deci - 3))) := by
  have hd := x.deci_le
  have hmax : DECI_MAX = 18 := rfl
  have hrest := x.rest_lt
  have hpos : 0 < 10 ^ j := ten_pow_pos j
  have hpow : 10 ^ (j + 1) = 10 * 10 ^ j := by rw [pow_succ, Nat.mul_comm]
  have hunit := ten_pow_pos (j + 1)
  obtain ⟨hb1, hb2⟩ := x.held_bounds
  rw [x.frac_split 2 j (by omega), show x.deci - 3 = j by omega]
  unfold heldCents
  rw [show (5 : Int) * 10 ^ j = (5 * 10 ^ j : Nat) by push_cast; rfl, show (10 : Int) ^ (j + 1) = (10 ^ (j + 1) : Nat) by push_cast; rfl]
  rcases Nat.lt_or_ge x.rest (2 ^ 31) with hsmall | hlarge
  · -- nothing is lost
    rw [x.held_of_lt hsmall, ← Int.natCast_add, ← Int.ofNat_tdiv]
    refine ⟨le_refl _, iff_of_true rfl ?_⟩
    by_cases h12 : x.deci ≤ 11
    · omega
    · have : 10 ^ 9 ≤ 10 ^ j := Nat.pow_le_pow_right (by omega) (by omega)
      omega
  have hheld := x.held_of_ge hlarge
  have h10 : 10 ≤ x.deci := by
    by_contra hlt
    have : 10 ^ x.deci ≤ 10 ^ 9 := Nat.pow_le_pow_right (by omega) (by omega)
    omega
  rcases Nat.lt_or_ge j 9 with hj | hj
  · -- at least a multiple of 2³² is lost, and the unit is less
    have hpow9 : 10 ^ (j + 1) ≤ 10 ^ 9 := Nat.pow_le_pow_right (by omega) (by omega)
    have hlt : (x.held + (5 * 10 ^ j : Nat)).tdiv (10 ^ (j + 1) : Nat) < ((x.rest + 5 * 10 ^ j) / 10 ^ (j + 1) : Nat) := by
      have hone : 1 ≤ (x.rest + 5 * 10 ^ j) / 10 ^ (j + 1) := (Nat.one_le_div_iff hunit).mpr (by omega)
      rcases lt_or_ge (x.held + (5 * 10 ^ j : Nat)) 0 with hneg | hge
      · have : (x.held + (5 * 10 ^ j : Nat)).tdiv (10 ^ (j + 1) : Nat) ≤ 0 := by
          rw [← Int.neg_neg (x.held + (5 * 10 ^ j : Nat)), Int.neg_tdiv, Int.tdiv_eq_ediv_of_nonneg (by omega)]
          have := Int.ediv_nonneg (a := -(x.held + (5 * 10 ^ j : Nat))) (b := (10 ^ (j + 1) : Nat)) (by omega) (by omega)
          omega
        omega
      · rw [Int.tdiv_eq_ediv_of_nonneg hge]
        have hstep : (x.held + (5 * 10 ^ j : Nat)) / (10 ^ (j + 1) : Nat) ≤ ((x.rest + 5 * 10 ^ j : Nat) - (10 ^ (j + 1) : Nat) : Int) / (10 ^ (j + 1) : Nat) :=
          Int.ediv_le_ediv (by omega) (by omega)
        rw [Int.sub_ediv_of_dvd _ dvd_rfl, Int.ediv_self (by omega), ← Int.natCast_ediv] at hstep
        omega
    exact ⟨hlt.le, iff_of_false hlt.ne (by omega)⟩
  · -- what is left makes no cents
    have hpow9 : 10 ^ 9 ≤ 10 ^ j := Nat.pow_le_pow_right (by omega) (by omega)
    rw [Int.tdiv_eq_zero_of_lt (by omega) (by omega)]
    refine ⟨Int.natCast_nonneg _, ?_⟩
    rw [eq_comm, Int.natCast_eq_zero, Nat.div_eq_zero_iff_lt hunit]
    omega

end Fixed

/-! ## The text of the code -/

theorem spellnum_eq (x : Fixed) (cap : Nat) (st : Stack) : spellnum cap (.number x.num :: st) =
    (spellText (decide x.Neg) (fixedAmount x.absN x.deci).1 (fixedAmount x.absN x.deci).2).map fun s => push cap (.charctr s) st := rfl

/-- The text is right if the amount and the cents are. -/
theorem spellsRight_iff_amount (x : Fixed) {n : Nat} {c : Int} (hn : n < 1000000000000000000) (hc : c < 100)
    (h : ((fixedAmount x.absN x.deci).1.toInt, (fixedAmount x.absN x.deci).2.toInt) = ((n : Int), c)) :
    SpellsRight x ↔ n = x.rounded 2 / 100 ∧ c = (x.rounded 2 % 100 : Nat) := by
  obtain ⟨h1, h2⟩ := Prod.mk.inj h
  have htext : spellText (decide x.Neg) (fixedAmount x.absN x.deci).1 (fixedAmount x.absN x.deci).2 =
      some ((if decide x.Neg then spaced "minus" else []) ++ numspell n ++ centsText c) := by
    unfold spellText
    rw [if_neg ((neg_iff _).not.mpr (by omega)), h1, h2, Int.toNat_natCast]
    rfl
  have hlen : ((if decide x.Neg then spaced "minus" else []) ++ numspell n ++ centsText c).length < STRBUFSZ := by
    have hminus : (if decide x.Neg then spaced "minus" else []).length ≤ 6 := by
      split_ifs
      · decide
      · exact Nat.zero_le _
    have := length_numspell hn
    have := length_centsText c
    change _ < 2048
    rw [List.length_append, List.length_append]
    omega
  have hread : readSpelled ((if decide x.Neg then spaced "minus" else []) ++ numspell n ++ centsText c) = if 0 ≤ c then some (decide x.Neg, n, c.toNat) else none := by
    by_cases hpos : 0 ≤ c
    · obtain ⟨k, rfl⟩ := Int.eq_ofNat_of_zero_le hpos
      obtain ⟨s, hs, hb, hr⟩ := read_centsText k (by omega)
      rw [hs, readSpelled_eq _ _ hb, hr, if_pos hpos]
      rfl
    · obtain ⟨s, hs, hb, hr⟩ := read_centsText_neg (c := c) (by omega)
      rw [hs, readSpelled_eq _ _ hb, hr, if_neg hpos]
      rfl
  generalize (if decide x.Neg then spaced "minus" else []) ++ numspell n ++ centsText c = text at htext hlen hread
  have hright : SpellsRight x ↔ readSpelled text = some (decide x.Neg, x.rounded 2 / 100, x.rounded 2 % 100) := by
    constructor
    · rintro ⟨s, hs, -, hr⟩
      have heq : HbVal.charctr text = .charctr s := @Fixed.push_inj _ _ [] fun cap => by
        have := hs cap []
        rw [spellnum_eq, htext] at this
        exact Option.some.inj this
      rw [HbVal.charctr.inj heq]
      exact hr
    · intro hr
      exact ⟨text, fun cap st => by rw [spellnum_eq, htext]; rfl, hlen, hr⟩
  rw [hright, hread]
  by_cases hpos : 0 ≤ c
  · rw [if_pos hpos, Option.some.injEq, Prod.mk.injEq, Prod.mk.injEq, and_iff_right rfl]
    omega
  · rw [if_neg hpos]
    exact iff_of_false nofun (by omega)

/-- The lowest `long` keeps its sign, and a table is read outside its bounds. -/
theorem not_spellsRight_min (x : Fixed) (hmin : x.n = Int64.minValue) (hdeci : 4 ≤ x.deci) : ¬SpellsRight x := by
  rintro ⟨s, hs, -, -⟩
  have hd := x.deci_le
  have hmax : DECI_MAX = 18 := rfl
  have habs : x.absN = Int64.minValue := by
    unfold Fixed.absN
    rw [hmin]
    decide
  have hquot : (x.absN / power10 x.deci).toInt ≤ -9 := by
    have hp : (10 : Int) ^ x.deci ≤ 10 ^ 18 := pow_le_pow_right₀ (by omega) (by omega)
    have hpos : (0 : Int) < 10 ^ x.deci := by positivity
    rw [div_power10_toInt _ hd, habs, show Int64.minValue.toInt = -9223372036854775808 from rfl, Int.neg_tdiv, Int.natCast_pow,
      Int.tdiv_eq_ediv_of_nonneg (by omega)]
    have := Int.le_ediv_of_mul_le hpos (show 9 * (10 : Int) ^ x.deci ≤ 9223372036854775808 by omega)
    exact Int.neg_le_neg this
  have hneg : (fixedAmount x.absN x.deci).1 < 0 := by
    have hlo := (x.absN / power10 x.deci).le_toInt
    rw [neg_iff]
    unfold fixedAmount
    rw [if_neg (by omega)]
    dsimp only
    rw [if_neg (by omega), if_pos (by omega)]
    split_ifs
    · rw [toInt_add, wrap_of_inLong ⟨by change _ ≤ _ + (1 : Int); omega, by change _ + (1 : Int) < _; omega⟩]
      change _ + (1 : Int) < 0
      omega
    · exact lt_of_le_of_lt hquot (by omega)
  have hnone := hs 0 []
  rw [spellnum_eq] at hnone
  unfold spellText at hnone
  rw [if_pos hneg] at hnone
  cases hnone

theorem abs_val_lt_iff (x : Fixed) : |x.val| < 10 ^ 15 ↔ x.mag < 10 ^ 15 * 10 ^ x.deci := by
  have hpos : (0 : ℚ) < 10 ^ x.deci := by positivity
  rw [x.abs_val, div_lt_iff₀ hpos]
  exact_mod_cast Iff.rfl

/-- `SPELLNUM` writes the right amount exactly when the fraction fits an `int`, or there are no cents, and the number has a magnitude. -/
theorem spellsRight_iff (x : Fixed) (h : |x.val| < 10 ^ 15) : SpellsRight x ↔ SpellKept x := by
  have hmag := (abs_val_lt_iff x).mp h
  have hip : x.ip < 10 ^ 15 := (Nat.div_lt_iff_lt_mul (Fixed.ten_pow_pos _)).mpr hmag
  have hround := x.rounded_eq 2
  have hfrac := x.frac_le 2
  unfold SpellKept
  by_cases hmin : x.n = Int64.minValue
  · have hdeci : 4 ≤ x.deci := by
      by_contra hlt
      have hp : 10 ^ x.deci ≤ 10 ^ 3 := Nat.pow_le_pow_right (by omega) (by omega)
      have hm : x.mag = 2 ^ 63 := by
        unfold Fixed.mag
        rw [hmin]
        rfl
      omega
    exact iff_of_false (not_spellsRight_min x hmin hdeci) fun hk => hk.1 hmin
  rw [and_iff_right hmin]
  rcases Nat.lt_or_ge 2 x.deci with hlong | hshort
  · obtain ⟨j, hj⟩ := Nat.exists_eq_add_of_le' hlong
    have hamount := x.fixedAmount_long hmin hj
    obtain ⟨hle, hiff⟩ := x.heldCents_le hj
    rw [← hiff]
    by_cases hcarry : 100 ≤ x.heldCents j
    · rw [if_pos hcarry] at hamount
      rw [spellsRight_iff_amount x (n := x.ip + 1) (c := 0) (by omega) (by omega) hamount]
      omega
    · rw [if_neg hcarry] at hamount
      rw [spellsRight_iff_amount x (n := x.ip) (by omega) (by omega) hamount]
      omega
  · have hrest : x.frac 2 < 10 ^ 2 := x.frac_lt (x.not_carry_of_le hshort)
    rw [spellsRight_iff_amount x (n := x.ip) (by omega) (by omega) (x.fixedAmount_short hmin hshort)]
    omega

/-- Twelve and thirty-four hundredths and a half, below zero. -/
theorem spellsRight_iff_cents : SpellsRight ⟨-12345, 3, by decide⟩ ↔ SpellKept ⟨-12345, 3, by decide⟩ :=
  spellsRight_iff _ ((abs_val_lt_iff _).mpr (by decide))

/-- Three tenths with ten decimals are "and -12/10". -/
theorem spell_fails : |Fixed.val ⟨3000000000, 10, by decide⟩| < 10 ^ 15 ∧ ¬SpellsRight ⟨3000000000, 10, by decide⟩ := by
  refine ⟨(abs_val_lt_iff _).mpr (by decide), ?_⟩
  rw [spellsRight_iff_amount _ (n := 0) (c := -12) (by omega) (by omega) (by decide +kernel)]
  omega

end Db3w.Hb
