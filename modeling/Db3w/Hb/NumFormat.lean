/-
When `num2str` writes the text that is meant. The integer part never learns of a fraction that is rounded to
one, a number below one is not padded, without decimals a negative number is cut off, and with nineteen
decimals the fraction can reach the sign bit; with all of these out of the way the text is right.
-/
import Db3w.Hb.Num2str

namespace Db3w.Hb

open Decimal Nearest

/-! ## Lengths -/

theorem length_decimal_mono {a b : Nat} (h : a ≤ b) : (decimal a).length ≤ (decimal b).length := by
  rw [length_decimal_le (length_decimal_pos b)]
  exact h.trans_lt ((length_decimal_le (length_decimal_pos b)).mp le_rfl)

theorem length_decimal_succ (a : Nat) : (decimal (a + 1)).length ≤ (decimal a).length + 1 := by
  have ha : a < 10 ^ (decimal a).length := (length_decimal_le (length_decimal_pos a)).mp le_rfl
  rw [length_decimal_le (by omega), pow_succ]
  omega

theorem length_padLeft (w : Nat) (s : List UInt8) : (padLeft w s).length = max w s.length := by
  unfold padLeft
  rw [List.length_append, List.length_replicate]
  omega

theorem padLeft_of_le {w : Nat} {s : List UInt8} (h : w ≤ s.length) : padLeft w s = s := by
  unfold padLeft
  rw [Nat.sub_eq_zero_of_le h]
  rfl

theorem padLeft_append (w : Nat) (s t : List UInt8) : padLeft w s ++ t = padLeft (w + t.length) (s ++ t) := by
  unfold padLeft
  rw [List.append_assoc, List.length_append, Nat.add_sub_add_right]

/-! ## The loop -/

section Retry

variable {limit k e : Nat} {text : Nat → List UInt8} (whole : List UInt8)

theorem retry_done (h : (text k).length ≤ limit) : retry limit text whole k = text k := by
  rw [retry, if_pos h]

theorem retry_whole (hk : 1 ≤ k) (h : (text k).length = limit + k ∨ (text k).length = limit + k + 1) : retry limit text whole k = whole := by
  rw [retry, if_neg (by omega)]
  exact if_pos (by omega)

theorem retry_stars (h : limit + k + 1 < (text k).length) : retry limit text whole k = stars limit := by
  rw [retry, if_neg (by omega)]
  dsimp only
  rw [if_neg (by omega), if_pos (by omega)]

theorem retry_next (h : (text k).length = limit + e) (he : 1 ≤ e) (hlt : e < k) : retry limit text whole k = retry limit text whole (k - e) := by
  rw [retry, if_neg (by omega)]
  dsimp only
  rw [if_neg (by omega), if_neg (by omega), show (text k).length - limit = e by omega]

end Retry

namespace Fixed

variable (x : Fixed) {k len deci : Nat}

/-- The integer part once the number is rounded. -/
def top (k : Nat) : Nat := if x.Carry k then x.ip + 1 else x.ip

theorem rounded_div (k : Nat) : x.rounded k / 10 ^ k = x.top k := by
  have hpos := ten_pow_pos k
  unfold top
  rw [rounded_eq, Nat.add_comm, Nat.add_mul_div_right _ _ hpos]
  split
  · rename_i hc
    rw [show x.frac k = 10 ^ k from hc, Nat.div_self hpos, Nat.add_comm]
  · rename_i hc
    rw [Nat.div_eq_of_lt (x.frac_lt hc), Nat.zero_add]

theorem rounded_mod (k : Nat) : x.rounded k % 10 ^ k = if x.Carry k then 0 else x.frac k := by
  rw [rounded_eq, Nat.add_comm, Nat.add_mul_mod_self_right]
  split
  · rename_i hc
    rw [show x.frac k = 10 ^ k from hc, Nat.mod_self]
  · rename_i hc
    rw [Nat.mod_eq_of_lt (x.frac_lt hc)]

theorem shown_eq (k : Nat) : x.shown k =
    sign (x.Negative k) ++ decimal (x.top k) ++ if k = 0 then [] else POINT :: padZero k (if x.Carry k then 0 else x.frac k) := by
  unfold shown
  rw [rounded_div, rounded_mod]
  rfl

/-- The places that a sign takes. -/
def signLen (b : Prop) [Decidable b] : Nat := if b then 1 else 0

theorem length_sign (b : Prop) [Decidable b] : (sign b).length = signLen b := by
  unfold sign signLen
  split <;> rfl

theorem length_places (hk : 1 ≤ k) : (padZero k (if x.Carry k then 0 else x.frac k)).length = k := by
  refine length_padZero_eq hk ?_
  split
  · exact ten_pow_pos k
  · exact x.frac_lt ‹_›

theorem length_shown (k : Nat) :
    (x.shown k).length = signLen (x.Negative k) + (decimal (x.top k)).length + if k = 0 then 0 else k + 1 := by
  rw [shown_eq, List.length_append, List.length_append, length_sign]
  split
  · rfl
  · rw [List.length_cons, length_places x (by omega)]

theorem negative_iff : x.Negative k ↔ x.Neg ∧ (x.ip ≠ 0 ∨ x.frac k ≠ 0) := by
  have hpos := ten_pow_pos k
  unfold Negative
  rw [rounded_eq]
  refine and_congr Iff.rfl ?_
  rcases Nat.eq_zero_or_pos x.ip with h | h
  · rw [h]
    omega
  · have := Nat.mul_pos h hpos
    omega

theorem negative_mono {j : Nat} (h : j ≤ k) (hj : x.Negative j) : x.Negative k := by
  rw [negative_iff] at hj ⊢
  exact ⟨hj.1, hj.2.imp_right fun hne hk => hne (x.frac_zero_mono h hk)⟩

/-! ### With an integer part -/

/-- The places of the sign and the integer part. -/
def width : Nat := signLen x.Neg + (decimal x.ip).length

/-- One more place is needed for the next integer. -/
def growth : Nat := (decimal (x.ip + 1)).length - (decimal x.ip).length

theorem growth_le : x.growth ≤ 1 := by
  have := length_decimal_succ x.ip
  unfold growth
  omega

theorem negative_large (h : x.Large) : x.Negative k ↔ x.Neg := by
  rw [negative_iff]
  exact ⟨And.left, fun hneg => ⟨hneg, .inl (x.ip_ne_zero h hneg)⟩⟩

theorem length_shown_large (h : x.Large) (k : Nat) :
    (x.shown k).length = x.width + (if x.Carry k then x.growth else 0) + if k = 0 then 0 else k + 1 := by
  have hmono := length_decimal_mono (show x.ip ≤ x.ip + 1 by omega)
  have hsign : signLen (x.Negative k) = signLen x.Neg := if_congr (x.negative_large h) rfl rfl
  rw [length_shown, hsign]
  unfold width growth top
  split <;> omega

/-! ### Below one -/

theorem length_shown_small (h : ¬x.Large) (k : Nat) : (x.shown k).length = signLen (x.Negative k) + 1 + if k = 0 then 0 else k + 1 := by
  have hip : x.ip = 0 := by
    by_contra hne
    exact h (.inr hne)
  have htop : (decimal (x.top k)).length = 1 := by
    unfold top
    rw [hip]
    split <;> rfl
  rw [length_shown, htop]

/-- More decimals make the text no shorter. -/
theorem length_shown_succ (k : Nat) : (x.shown k).length ≤ (x.shown (k + 1)).length := by
  by_cases h : x.Large
  · have hg := x.growth_le
    rw [length_shown_large x h, length_shown_large x h, if_neg (Nat.succ_ne_zero k)]
    split <;> split <;> split <;> omega
  · have hsign : signLen (x.Negative k) ≤ signLen (x.Negative (k + 1)) := by
      unfold signLen
      have := x.negative_mono (Nat.le_succ k)
      split <;> split <;> first | omega | (exfalso; tauto)
    rw [length_shown_small x h, length_shown_small x h, if_neg (Nat.succ_ne_zero k)]
    split <;> omega

theorem length_shown_mono {j : Nat} (h : j ≤ k) : (x.shown j).length ≤ (x.shown k).length := by
  induction h with
  | refl => exact le_rfl
  | step _ ih => exact ih.trans (x.length_shown_succ _)

/-! ## The number of decimals -/

theorem decimals_eq_none_iff : x.decimals len deci = none ↔ len < (x.shown 0).length := by
  unfold decimals
  split <;> simp <;> omega

theorem decimals_spec (h : x.decimals len deci = some k) :
    k ≤ deci ∧ (x.shown k).length ≤ len ∧ ∀ j, k < j → j ≤ deci → len < (x.shown j).length := by
  unfold decimals at h
  split at h
  · rename_i h0
    obtain ⟨hle, hfit, hmax⟩ := Nat.findGreatest_eq_iff.mp (Option.some.inj h)
    refine ⟨hle, ?_, fun j hj hd => not_le.mp (hmax hj hd)⟩
    rcases Nat.eq_zero_or_pos k with rfl | hk
    · exact h0
    · exact hfit (by omega)
  · exact absurd h (by simp)

/-! ## Telling texts apart -/

theorem not_mem_sign {b : Prop} [Decidable b] {c : UInt8} (hc : c ≠ MINUS) : c ∉ sign b := by
  unfold sign
  split
  · rw [List.mem_singleton]
    exact hc
  · exact List.not_mem_nil

theorem not_mem_decimal {a : Nat} {c : UInt8} (hc : Decimal.isDigit c = false) : c ∉ decimal a :=
  fun h => Bool.false_ne_true (hc.symm.trans (isDigit_decimal h))

theorem not_mem_padZero {w a : Nat} {c : UInt8} (hc : Decimal.isDigit c = false) : c ∉ padZero w a :=
  fun h => Bool.false_ne_true (hc.symm.trans (isDigit_padZero h))

theorem not_mem_padLeft {w : Nat} {s : List UInt8} {c : UInt8} (hc : c ≠ BLANK) (h : c ∉ s) : c ∉ padLeft w s := by
  intro hmem
  rcases List.mem_append.mp hmem with hmem | hmem
  · exact hc (List.eq_of_mem_replicate hmem)
  · exact h hmem

theorem point_not_mem_int (b : Prop) [Decidable b] (a : Nat) : POINT ∉ sign b ++ decimal a := by
  rw [List.mem_append, not_or]
  exact ⟨not_mem_sign (by decide), not_mem_decimal rfl⟩

theorem star_not_mem_int (b : Prop) [Decidable b] (a : Nat) : STAR ∉ sign b ++ decimal a := by
  rw [List.mem_append, not_or]
  exact ⟨not_mem_sign (by decide), not_mem_decimal rfl⟩

theorem star_not_mem_shown (k : Nat) : STAR ∉ x.shown k := by
  rw [shown_eq, List.mem_append, not_or]
  refine ⟨star_not_mem_int _ _, ?_⟩
  split
  · exact List.not_mem_nil
  · rw [List.mem_cons, not_or]
    exact ⟨by decide, not_mem_padZero rfl⟩

theorem star_mem_stars (h : 1 ≤ len) : STAR ∈ stars len := List.mem_replicate.mpr ⟨by omega, rfl⟩

/-- What the point of a text with `k` decimals is followed by. -/
theorem afterPoint_shown (hk : 1 ≤ k) (w : Nat) : afterPoint (padLeft w (x.shown k)) = padZero k (if x.Carry k then 0 else x.frac k) := by
  rw [shown_eq, if_neg (show k ≠ 0 by omega)]
  unfold padLeft
  rw [← List.append_assoc]
  refine afterPoint_append ?_ _
  rw [List.mem_append, not_or]
  exact ⟨fun h => absurd (List.eq_of_mem_replicate h) (by decide), point_not_mem_int _ _⟩

theorem afterPoint_of_not_mem {s : List UInt8} (h : POINT ∉ s) : afterPoint s = [] := by
  unfold afterPoint
  rw [List.dropWhile_eq_nil_iff.mpr fun c hc => decide_eq_true (ne_of_mem_of_not_mem hc h)]
  rfl

theorem expected_none (h : x.decimals len deci = none) : x.expected len deci = stars len := by
  unfold expected
  rw [h]

theorem expected_some (h : x.decimals len deci = some k) : x.expected len deci = padLeft len (x.shown k) := by
  unfold expected
  rw [h]

/-- The text that is meant has as many characters behind its point as there are decimals. -/
theorem length_afterPoint_expected : (afterPoint (x.expected len deci)).length = (x.decimals len deci).getD 0 := by
  rcases hd : x.decimals len deci with _ | k
  · have hnot : POINT ∉ stars len := fun h => absurd (List.eq_of_mem_replicate h) (by decide)
    rw [expected_none x hd, afterPoint_of_not_mem hnot]
    rfl
  · rw [expected_some x hd]
    rcases Nat.eq_zero_or_pos k with rfl | hk
    · have hnot : POINT ∉ padLeft len (x.shown 0) := by
        rw [shown_eq, if_pos rfl, List.append_nil]
        exact not_mem_padLeft (by decide) (point_not_mem_int _ _)
      rw [afterPoint_of_not_mem hnot]
      rfl
    · rw [afterPoint_shown x hk, length_places x hk]
      rfl

theorem stars_eq_expected_iff (hlen : 1 ≤ len) : stars len = x.expected len deci ↔ x.decimals len deci = none := by
  rcases hd : x.decimals len deci with _ | k
  · rw [expected_none x hd]
    exact iff_of_true rfl rfl
  · rw [expected_some x hd]
    refine iff_of_false (fun h => ?_) (by simp)
    exact not_mem_padLeft (by decide) (x.star_not_mem_shown k) (h ▸ star_mem_stars hlen)

/-- Padded on the left, texts without blanks stay apart. -/
theorem padLeft_inj {w : Nat} {s t : List UInt8} (hs : BLANK ∉ s) (ht : BLANK ∉ t) (h : padLeft w s = padLeft w t) : s = t := by
  have hdrop : ∀ r : List UInt8, BLANK ∉ r → (padLeft w r).filter (· ≠ BLANK) = r := by
    intro r hr
    unfold padLeft
    rw [List.filter_append, List.filter_eq_nil_iff.mpr, List.nil_append, List.filter_eq_self.mpr]
    · exact fun c hc => decide_eq_true (ne_of_mem_of_not_mem hc hr)
    · intro c hc
      rw [List.eq_of_mem_replicate hc]
      decide
  rw [← hdrop s hs, h, hdrop t ht]

/-- What is written without decimals. -/
theorem wholeText_eq : x.wholeText = if x.Neg then sign (x.ip ≠ 0) ++ decimal x.ip else sign False ++ decimal (x.rounded 0) := rfl

theorem wholeText_eq_shown_iff : x.wholeText = x.shown 0 ↔ (x.Neg → x.frac 0 = 0) := by
  have htop : x.rounded 0 = x.top 0 := by rw [← rounded_div, pow_zero, Nat.div_one]
  have hshown : x.shown 0 = sign (x.Negative 0) ++ decimal (x.rounded 0) := by rw [shown_eq, if_pos rfl, List.append_nil, htop]
  have hround : x.rounded 0 = x.ip + x.frac 0 := by rw [rounded_eq, pow_zero, Nat.mul_one]
  rw [hshown, wholeText_eq]
  by_cases hneg : x.Neg
  · rw [if_pos hneg]
    constructor
    · intro h _
      -- the texts stand for the numbers, once the signs are gone
      have hval := congrArg (fun s => value (s.filter Decimal.isDigit)) h
      have hdigits : ∀ (b : Prop) [Decidable b] (a : Nat), value ((sign b ++ decimal a).filter Decimal.isDigit) = a := by
        intro b _ a
        have hs : (sign b).filter Decimal.isDigit = [] := by
          unfold sign
          split <;> rfl
        rw [List.filter_append, hs, List.nil_append, List.filter_eq_self.mpr fun c hc => isDigit_decimal hc, value_decimal]
      rw [hdigits, hdigits] at hval
      omega
    · intro h
      have hiff : x.Negative 0 ↔ x.ip ≠ 0 := by
        rw [negative_iff, h hneg]
        simp [hneg]
      rw [hround, h hneg, Nat.add_zero]
      unfold sign
      rw [if_congr hiff rfl rfl]
  · rw [if_neg hneg]
    refine iff_of_true ?_ fun h => absurd h hneg
    have hiff : x.Negative 0 ↔ False := iff_of_false (fun h => hneg h.1) id
    unfold sign
    rw [if_congr hiff rfl rfl]

theorem blank_not_mem_int (b : Prop) [Decidable b] (a : Nat) : BLANK ∉ sign b ++ decimal a := by
  rw [List.mem_append, not_or]
  exact ⟨not_mem_sign (by decide), not_mem_decimal rfl⟩

theorem wholeText_not_mem {c : UInt8} (h : ∀ (b : Prop) [Decidable b] (a : Nat), c ∉ sign b ++ decimal a) : c ∉ x.wholeText := by
  rw [wholeText_eq]
  split
  · exact h _ _
  · exact h _ _

/-! ## The texts of the code against the one that is meant -/

section Texts

variable (fmt : Nat → Nat → Float → List UInt8)

theorem nodeci_eq_expected_iff (hlen : 1 ≤ len) : nodeci fmt x.num len len = x.expected len deci ↔
    (x.decimals len deci = none ∧ len < x.wholeText.length) ∨ (x.decimals len deci = some 0 ∧ (x.Neg → x.frac 0 = 0)) := by
  have hlong : (padLeft len x.wholeText).length > len ↔ len < x.wholeText.length := by
    rw [length_padLeft]
    omega
  rw [nodeci_eq, if_congr hlong rfl rfl]
  split
  · rename_i h
    rw [stars_eq_expected_iff x hlen]
    refine ⟨fun hd => .inl ⟨hd, h⟩, ?_⟩
    rintro (⟨hd, -⟩ | ⟨hd, hneg⟩)
    · exact hd
    · have hfit := (x.decimals_spec hd).2.1
      rw [← (wholeText_eq_shown_iff x).mpr hneg] at hfit
      omega
  · rename_i h
    rcases hd : x.decimals len deci with _ | k
    · rw [expected_none x hd]
      refine iff_of_false (fun heq => ?_) (by simp; omega)
      exact not_mem_padLeft (by decide) (wholeText_not_mem x fun _ _ _ => star_not_mem_int _ _) (heq ▸ star_mem_stars hlen)
    rcases Nat.eq_zero_or_pos k with rfl | hk
    · rw [expected_some x hd]
      have hblank : BLANK ∉ x.shown 0 := by
        rw [shown_eq, if_pos rfl, List.append_nil]
        exact blank_not_mem_int _ _
      constructor
      · intro heq
        exact .inr ⟨rfl, (wholeText_eq_shown_iff x).mp (padLeft_inj (wholeText_not_mem x fun _ _ _ => blank_not_mem_int _ _) hblank heq)⟩
      · rintro (⟨h', -⟩ | ⟨-, hneg⟩)
        · exact absurd h' (by simp)
        · rw [(wholeText_eq_shown_iff x).mpr hneg]
    · refine iff_of_false (fun heq => ?_) (by simp; omega)
      have hlength := @Fixed.length_afterPoint_expected x len deci
      rw [← heq, hd, afterPoint_of_not_mem (not_mem_padLeft (by decide) (wholeText_not_mem x fun _ _ _ => point_not_mem_int _ _))] at hlength
      exact absurd hlength (by simp; omega)

/-- A text with another number of decimals is not the one that is meant. -/
theorem eq_expected_iff {s t : List UInt8} (hk : 1 ≤ k) (hpoint : (afterPoint s).length = k) (ht : s = padLeft len (x.shown k) ↔ t = x.shown k) :
    s = x.expected len deci ↔ x.decimals len deci = some k ∧ t = x.shown k := by
  constructor
  · intro h
    have hlength := @Fixed.length_afterPoint_expected x len deci
    rw [← h, hpoint] at hlength
    rcases hd : x.decimals len deci with _ | j
    · rw [hd] at hlength
      exact absurd hlength (by simp; omega)
    · rw [hd] at hlength
      have hj : k = j := hlength
      subst hj
      rw [expected_some x hd] at h
      exact ⟨rfl, ht.mp h⟩
  · rintro ⟨hd, h⟩
    rw [expected_some x hd]
    exact ht.mpr h

theorem deciText_large_eq (hmag : x.mag < 2 ^ 63) (h : x.Large) (hk : 1 ≤ k) (hk' : k ≤ 19) (hover : ¬x.Over k) (hlen : x.width + 1 + k ≤ len) :
    deciText fmt x.num len k = padLeft len (x.shown k) := by
  obtain ⟨hc, hbig⟩ := not_or.mp hover
  have hsign : sign (x.Negative k) = sign x.Neg := if_congr (x.negative_large h) rfl rfl
  have htop : x.top k = x.ip := if_neg hc
  rw [deciText_large x fmt hmag h (by omega) hk', tail_eq x (by omega), padLeft_append, List.length_cons, length_padZero_eq hk (x.frac_lt hc), shown_eq, hsign, htop,
    if_neg (show k ≠ 0 by omega), if_neg hc]
  congr 1
  omega

theorem deciText_small_eq (hmag : x.mag < 2 ^ 63) (h : ¬x.Large) (hk : 1 ≤ k) (hk' : k ≤ 19) (hover : ¬x.Over k) :
    deciText fmt x.num len k = x.shown k := by
  obtain ⟨hc, hbig⟩ := not_or.mp hover
  have hip : x.ip = 0 := by
    by_contra hne
    exact h (.inr hne)
  have htop : x.top k = 0 := by
    unfold top
    rw [if_neg hc, hip]
  have hsign : sign (0 < wrap (x.frac k) ∧ x.Neg) = sign (x.Negative k) := by
    refine if_congr ?_ rfl rfl
    rw [negative_iff, hip, wrap_of_inLong (by unfold InLong; omega), and_comm]
    exact and_congr_right fun _ => by omega
  rw [deciText_small x fmt hmag h hk', tail_eq x (by omega), shown_eq, hsign, htop, if_neg (show k ≠ 0 by omega), if_neg hc]
  simp [decimal]

theorem text_large_iff (hmag : x.mag < 2 ^ 63) (h : x.Large) (hk : 1 ≤ k) (hk' : k ≤ 19) (hover : ¬x.Over k) (hlen : x.width + 1 + k ≤ len) :
    deciText fmt x.num len k = x.expected len deci ↔ x.decimals len deci = some k := by
  have heq := x.deciText_large_eq fmt hmag h hk hk' hover hlen
  have hpoint : (afterPoint (deciText fmt x.num len k)).length = k := by rw [heq, afterPoint_shown x hk, length_places x hk]
  rw [eq_expected_iff x (t := x.shown k) hk hpoint (by rw [heq]; exact iff_of_true rfl rfl)]
  exact and_iff_left rfl

theorem text_small_iff (hmag : x.mag < 2 ^ 63) (h : ¬x.Large) (hk : 1 ≤ k) (hk' : k ≤ 19) (hover : ¬x.Over k) (hlen : (x.shown k).length ≤ len) :
    deciText fmt x.num len k = x.expected len deci ↔ x.decimals len deci = some k ∧ (x.shown k).length = len := by
  have heq := @Fixed.deciText_small_eq x _ len fmt hmag h hk hk' hover
  have hpoint : (afterPoint (deciText fmt x.num len k)).length = k := by
    rw [heq, ← padLeft_of_le (w := 0) (s := x.shown k) (Nat.zero_le _), afterPoint_shown x hk, length_places x hk]
  have hpad : deciText fmt x.num len k = padLeft len (x.shown k) ↔ padLeft len (x.shown k) = x.shown k := by
    rw [heq]
    exact eq_comm
  rw [eq_expected_iff x hk hpoint hpad]
  refine and_congr_right fun _ => ⟨fun h => ?_, fun h => padLeft_of_le h.ge⟩
  have := congrArg List.length h
  rw [length_padLeft] at this
  omega

/-- A fraction that has become one is no text that is meant. -/
theorem text_carry_ne (hmag : x.mag < 2 ^ 63) (h : ¬x.Large) (hk : 1 ≤ k) (hk' : k ≤ 18) (hc : x.Carry k) {j : Nat} (hj : 1 ≤ j)
    (hd : x.decimals len deci = some j) (hne : x.Carry j ∨ x.frac j ≠ 10 ^ k) : deciText fmt x.num len k ≠ x.expected len deci := by
  intro heq
  have hlong := x.inLong_frac hk'
  unfold InLong at hlong
  have hval := congrArg (fun s => value (afterPoint s)) heq
  have hpos := ten_pow_pos k
  have hfrac : x.frac k = 10 ^ k := hc
  have hnot : ∀ b : Prop, ∀ _ : Decidable b, POINT ∉ sign b ++ [48] := by
    intro b _
    rw [List.mem_append, not_or]
    exact ⟨not_mem_sign (by decide), by decide⟩
  have hsplit : deciText fmt x.num len k = (sign (0 < wrap (x.frac k) ∧ x.Neg) ++ [48]) ++ POINT :: padZero k (x.frac k) := by
    rw [deciText_small x fmt hmag h (by omega), tail_eq x (by omega), List.append_assoc]
    rfl
  rw [hsplit, afterPoint_append (hnot _ _), value_padZero, expected_some x hd, afterPoint_shown x hj, value_padZero] at hval
  rcases hne with hcj | hne
  · rw [if_pos hcj] at hval
    omega
  · split at hval
    · omega
    · omega

theorem length_wholeText : x.wholeText.length = if x.Neg then signLen (x.ip ≠ 0) + (decimal x.ip).length else (decimal (x.rounded 0)).length := by
  rw [wholeText_eq]
  split
  · rw [List.length_append, length_sign]
  · rfl

/-- A number that does not fit is seen not to, unless it is negative and fits when it is cut off. -/
theorem wholeText_long_iff (hlen : 1 ≤ len) (h0 : len < (x.shown 0).length) : len < x.wholeText.length ↔ (x.Neg → x.ip ≠ 0 ∧ len < x.width) := by
  by_cases hneg : x.Neg
  · rw [length_wholeText, if_pos hneg]
    unfold width signLen
    rw [if_pos hneg]
    by_cases hip : x.ip = 0
    · have hone : (decimal x.ip).length = 1 := by
        rw [hip]
        rfl
      rw [hone, if_neg (by omega)]
      exact iff_of_false (by omega) fun h => (h hneg).1 hip
    · rw [if_pos hip]
      exact ⟨fun h _ => ⟨hip, h⟩, fun h => (h hneg).2⟩
  · rw [(wholeText_eq_shown_iff x).mpr fun h => absurd h hneg]
    exact iff_of_true h0 fun h => absurd h hneg

theorem length_large (hmag : x.mag < 2 ^ 63) (h : x.Large) (hk : 1 ≤ k) (hlen : k < len) (hk' : k ≤ 19) :
    (deciText fmt x.num len k).length = max (len - k - 1) x.width + 1 + k + if x.Over k then 1 else 0 := by
  rw [deciText_large x fmt hmag h hlen hk', List.length_append, length_padLeft, List.length_append, length_sign, List.length_cons, length_tail x hk hk']
  unfold width
  omega

theorem length_small (hmag : x.mag < 2 ^ 63) (h : ¬x.Large) (hk : 1 ≤ k) (hk' : k ≤ 19) :
    (deciText fmt x.num len k).length = signLen (0 < wrap (x.frac k) ∧ x.Neg) + 2 + k + if x.Over k then 1 else 0 := by
  rw [deciText_small x fmt hmag h hk', List.length_append, length_sign, List.length_cons, List.length_cons, length_tail x hk hk']
  omega

end Texts

/-! ## When the text is right -/

/-- What has to hold when `k` decimals are shown: the rounding leaves the integer part alone. With an integer part the fraction stays below
the sign bit; without one the text fills the field, and its sign is the one it has with all decimals. -/
def FormatsAt (deci k len : Nat) : Prop :=
  ¬x.Carry k ∧
    if x.Large then ¬(deci = 19 ∧ 2 ^ 63 ≤ x.frac 19)
    else (x.shown k).length = len ∧ (x.Negative deci ↔ x.Negative k) ∧ ¬(deci = 19 ∧ 2 ^ 63 ≤ x.frac 19 ∧ ¬x.Neg)

/-- What has to hold when the number does not fit, when it is shown without decimals, and when it is shown with some. -/
def Formats (len deci : Nat) : Prop :=
  match x.decimals len deci with
  | none => x.Neg → x.ip ≠ 0 ∧ (len < x.width ∨ (1 ≤ deci ∧ x.Carry deci))
  | some 0 => (x.Neg → x.frac 0 = 0) ∧ ¬(1 ≤ deci ∧ x.ip ≠ 0 ∧ x.width = len ∧ x.Carry deci)
  | some k => x.FormatsAt deci k len

theorem iff_formats {p : Prop}
    (hnone : x.decimals len deci = none → (p ↔ (x.Neg → x.ip ≠ 0 ∧ (len < x.width ∨ (1 ≤ deci ∧ x.Carry deci)))))
    (hzero : x.decimals len deci = some 0 → (p ↔ (x.Neg → x.frac 0 = 0) ∧ ¬(1 ≤ deci ∧ x.ip ≠ 0 ∧ x.width = len ∧ x.Carry deci)))
    (hsome : ∀ k, 1 ≤ k → x.decimals len deci = some k → (p ↔ x.FormatsAt deci k len)) : p ↔ x.Formats len deci := by
  unfold Formats
  rcases hd : x.decimals len deci with _ | _ | k
  · exact hnone hd
  · exact hzero hd
  · exact hsome (k + 1) (by omega) hd

/-- When one decimal fits, some are shown. -/
theorem decimals_of_fit (hk : k ≤ deci) (hfit : (x.shown k).length ≤ len) : ∃ j, k ≤ j ∧ x.decimals len deci = some j := by
  rcases hd : x.decimals len deci with _ | j
  · have h0 := x.decimals_eq_none_iff.mp hd
    have hmono := x.length_shown_mono (Nat.zero_le k)
    omega
  · refine ⟨j, ?_, rfl⟩
    by_contra hlt
    have := (x.decimals_spec hd).2.2 k (by omega) hk
    omega

/-- The condition when some decimals are shown. -/
theorem iff_formats_of_fit {p : Prop} (h1 : 1 ≤ k) (hk : k ≤ deci) (hfit : (x.shown k).length ≤ len)
    (hp : ∀ j, k ≤ j → x.decimals len deci = some j → (p ↔ x.FormatsAt deci j len)) : p ↔ x.Formats len deci := by
  obtain ⟨j, hj, hd⟩ := x.decimals_of_fit hk hfit
  refine x.iff_formats (fun h => ?_) (fun h => ?_) fun i _ h => ?_
  · exact absurd (hd.symm.trans h) (by simp)
  · exact absurd (Option.some.inj (hd.symm.trans h)) (by omega)
  · have hij : j = i := Option.some.inj (hd.symm.trans h)
    exact hp i (hij ▸ hj) h

/-- The condition for a number that is written without decimals. -/
theorem whole_iff_formats (fmt : Nat → Nat → Float → List UInt8) (hlen : 1 ≤ len) (hcarry : 1 ≤ deci → x.Carry deci → x.ip ≠ 0 → x.width < len)
    (hsome : ∀ k, 1 ≤ k → x.decimals len deci = some k → ¬x.FormatsAt deci k len) :
    nodeci fmt x.num len len = x.expected len deci ↔ x.Formats len deci := by
  rw [nodeci_eq_expected_iff x fmt hlen]
  refine x.iff_formats (fun hd => ?_) (fun hd => ?_) fun k hk hd => ?_
  · have h0 := x.decimals_eq_none_iff.mp hd
    have hlong : (x.decimals len deci = none ∧ len < x.wholeText.length) ∨ (x.decimals len deci = some 0 ∧ (x.Neg → x.frac 0 = 0)) ↔
        len < x.wholeText.length := by simp [hd]
    rw [hlong, wholeText_long_iff x hlen h0]
    refine forall_congr' fun hneg => and_congr_right fun hip => ⟨.inl, ?_⟩
    rintro (h | ⟨h1, hc⟩)
    · exact h
    · have hw := hcarry h1 hc hip
      have hg := x.growth_le
      rw [length_shown_large x (.inr hip), if_pos rfl] at h0
      split at h0 <;> omega
  · have hshort : (x.decimals len deci = none ∧ len < x.wholeText.length) ∨ (x.decimals len deci = some 0 ∧ (x.Neg → x.frac 0 = 0)) ↔
        (x.Neg → x.frac 0 = 0) := by simp [hd]
    rw [hshort]
    refine (and_iff_left ?_).symm
    rintro ⟨h1, hip, hw, hc⟩
    exact absurd hw (hcarry h1 hc hip).ne
  · refine iff_of_false ?_ (hsome k hk hd)
    simp only [hd]
    simp
    omega

/-! ### Numbers with an integer part -/

section Large

variable (fmt : Nat → Nat → Float → List UInt8) {whole : List UInt8}

/-- A fraction that is rounded to one is given up digit by digit until there are no decimals. -/
theorem retry_carry_large (hmag : x.mag < 2 ^ 63) (h : x.Large) (hlen : len ≤ 20) (hw : x.width < len) (hk : 1 ≤ k) (hlt : k < len)
    (hc : x.Carry k) : retry len (deciText fmt x.num len) whole k = whole := by
  induction k using Nat.strong_induction_on with
  | _ k ih =>
    have hlength := x.length_large fmt hmag h hk hlt (by omega)
    rw [if_pos (show x.Over k from .inl hc)] at hlength
    obtain ⟨e, he⟩ := Nat.exists_eq_add_of_le (show len ≤ (deciText fmt x.num len k).length by omega)
    by_cases hlast : e = k ∨ e = k + 1
    · exact retry_whole whole hk (by omega)
    · rw [retry_next whole he (by omega) (by omega)]
      exact ih (k - e) (by omega) (by omega) (by omega) (x.carry_mono (by omega) hc)

theorem width_le (hmag : x.mag < 2 ^ 63) (h : x.deci ≠ 0) : x.width ≤ 19 := by
  have hpos : 10 ≤ 10 ^ x.deci := by
    obtain ⟨d, hd⟩ := Nat.exists_eq_succ_of_ne_zero h
    have := ten_pow_pos d
    rw [hd, pow_succ]
    omega
  have hmul := Nat.mul_le_mul_left x.ip hpos
  have heq := x.mag_eq
  have hlen : (decimal x.ip).length ≤ 18 := (length_decimal_le (by omega)).mpr (by omega)
  unfold width signLen
  split <;> omega

theorem le_length_shown (h : x.Large) (hk : 1 ≤ k) : x.width + k + 1 ≤ (x.shown k).length := by
  rw [length_shown_large x h, if_neg (show k ≠ 0 by omega)]
  omega

theorem length_shown_plain (h : x.Large) (hk : 1 ≤ k) (hc : ¬x.Carry k) : (x.shown k).length = x.width + k + 1 := by
  rw [length_shown_large x h, if_neg (show k ≠ 0 by omega), if_neg hc]
  omega

theorem length_shown_zero (h : x.Large) : x.width ≤ (x.shown 0).length ∧ (x.shown 0).length ≤ x.width + 1 := by
  have hg := x.growth_le
  rw [length_shown_large x h, if_pos rfl]
  split <;> omega

theorem not_over (hk : k ≤ 18) (hc : ¬x.Carry k) : ¬x.Over k := by
  have := x.inLong_frac hk
  unfold InLong at this
  exact not_or.mpr ⟨hc, by omega⟩

theorem retry_large_carry (hmag : x.mag < 2 ^ 63) (h : x.Large) (h1 : 1 ≤ deci) (hd : deci < len) (hlen : len ≤ 20) (hc : x.Carry deci) :
    retry len (deciText fmt x.num len) (nodeci fmt x.num len len) deci = x.expected len deci ↔ x.Formats len deci := by
  have hlength := x.length_large fmt hmag h h1 hd (by omega)
  have hnot : ∀ k, 1 ≤ k → x.decimals len deci = some k → ¬x.FormatsAt deci k len :=
    fun k _ hk hf => hf.1 (x.carry_mono (x.decimals_spec hk).1 hc)
  by_cases hw : x.width < len
  · rw [retry_carry_large x fmt hmag h hlen hw h1 hd hc]
    exact x.whole_iff_formats fmt (by omega) (fun _ _ _ => hw) hnot
  · have hip : x.ip ≠ 0 := h.resolve_left fun h0 => x.not_carry_of_le (by omega) hc
    have hs0 := x.length_shown_zero h
    rw [if_pos (show x.Over deci from .inl hc)] at hlength
    rw [retry_stars _ (by omega), stars_eq_expected_iff x (by omega)]
    refine x.iff_formats (fun hk => ?_) (fun hk => ?_) fun k h1k hk => ?_
    · exact iff_of_true hk fun _ => ⟨hip, .inr ⟨h1, hc⟩⟩
    · have hfit := (x.decimals_spec hk).2.1
      exact iff_of_false (by simp [hk]) fun hf => hf.2 ⟨h1, hip, by omega, hc⟩
    · exact iff_of_false (by simp [hk]) (hnot k h1k hk)

/-- The text with `k` decimals, where these fit. -/
theorem retry_large_at (hmag : x.mag < 2 ^ 63) (h : x.Large) (h1 : 1 ≤ k) (hk' : k ≤ 19) (hk : k ≤ deci) (hover : ¬x.Over k)
    (hfit : x.width + 1 + k ≤ len) (hmax : ∀ j, k < j → j ≤ deci → ¬x.Carry j → len < (x.shown j).length) (hnotbig : ¬(deci = 19 ∧ 2 ^ 63 ≤ x.frac 19)) :
    retry len (deciText fmt x.num len) (nodeci fmt x.num len len) k = x.expected len deci ↔ x.Formats len deci := by
  obtain ⟨hc, -⟩ := not_or.mp hover
  have hlength := @Fixed.length_large x k len fmt hmag h (by omega) (by omega) hk'
  rw [if_neg hover] at hlength
  have hsk := x.length_shown_plain h h1 hc
  rw [retry_done _ (by omega), text_large_iff x fmt hmag h h1 hk' hover hfit]
  refine x.iff_formats_of_fit h1 hk (by omega) fun j hj hdec => ?_
  have hjk : j = k := by
    by_contra hne
    obtain ⟨hle, hfit', -⟩ := x.decimals_spec hdec
    have := hmax j (by omega) hle fun hcj => hc (x.carry_mono hj hcj)
    omega
  refine iff_of_true (hjk ▸ hdec) ⟨hjk ▸ hc, ?_⟩
  rw [if_pos h]
  exact hnotbig

theorem retry_large_wrap (hmag : x.mag < 2 ^ 63) (h : x.Large) (hbig : 2 ^ 63 ≤ x.frac 19) :
    retry 20 (deciText fmt x.num 20) (nodeci fmt x.num 20 20) 19 = x.expected 20 19 ↔ x.Formats 20 19 := by
  have hmax : x.deci ≤ 18 := x.deci_le
  have hc : ¬x.Carry 19 := x.not_carry_of_le (by omega)
  have h0 : x.deci ≠ 0 := by
    intro h0
    rw [frac_of_le x (by omega), rest_of_deci x h0, Nat.zero_mul] at hbig
    omega
  have hwidth := x.width_le hmag h0
  have hnot : ∀ k, 1 ≤ k → x.decimals 20 19 = some k → ¬x.FormatsAt 19 k 20 := by
    rintro k - - ⟨-, hf⟩
    rw [if_pos h] at hf
    exact hf ⟨rfl, hbig⟩
  have hlength := @Fixed.length_large x 19 20 fmt hmag h (by omega) (by omega) (by omega)
  rw [if_pos (show x.Over 19 from .inr hbig)] at hlength
  by_cases hlast : x.width = 18 ∨ x.width = 19
  · rw [retry_whole _ (by omega) (by omega)]
    exact x.whole_iff_formats fmt (by omega) (fun _ hc' => absurd hc' hc) hnot
  obtain ⟨m, hm⟩ := Nat.exists_eq_add_of_le (show x.width ≤ 18 by omega)
  rw [retry_next _ (show _ = 20 + (19 - m) by omega) (by omega) (by omega), show 19 - (19 - m) = m by omega]
  by_cases hcm : x.Carry m
  · rw [retry_carry_large x fmt hmag h le_rfl (by omega) (by omega) (by omega) hcm]
    exact x.whole_iff_formats fmt (by omega) (fun _ hc' => absurd hc' hc) hnot
  -- one decimal more would have fitted
  have hsm := x.length_shown_plain h (k := m + 1) (by omega) fun hc' => hcm (x.carry_mono (by omega) hc')
  have hlength' := @Fixed.length_large x m 20 fmt hmag h (by omega) (by omega) (by omega)
  rw [if_neg (x.not_over (by omega) hcm)] at hlength'
  rw [retry_done _ (by omega), text_large_iff x fmt hmag h (by omega) (by omega) (x.not_over (by omega) hcm) (by omega)]
  refine x.iff_formats_of_fit (k := m + 1) (by omega) (by omega) (by omega) fun j hj hdec => iff_of_false ?_ (hnot j (by omega) hdec)
  intro hdec'
  exact absurd (Option.some.inj (hdec.symm.trans hdec')) (by omega)

theorem retry_large_fit (hmag : x.mag < 2 ^ 63) (h : x.Large) (h1 : 1 ≤ deci) (hd : deci < len) (hlen : len ≤ 20) (hover : ¬x.Over deci) :
    retry len (deciText fmt x.num len) (nodeci fmt x.num len len) deci = x.expected len deci ↔ x.Formats len deci := by
  obtain ⟨hc, hbig⟩ := not_or.mp hover
  have hnotbig : ¬(deci = 19 ∧ 2 ^ 63 ≤ x.frac 19) := fun ⟨h19, hf⟩ => hbig (h19 ▸ hf)
  by_cases hfit : x.width + 1 + deci ≤ len
  · exact x.retry_large_at fmt hmag h h1 (by omega) le_rfl hover hfit (fun j hj hle => absurd hle (by omega)) hnotbig
  have hlength := x.length_large fmt hmag h h1 hd (by omega)
  rw [if_neg hover] at hlength
  by_cases hlast : x.width + 1 = len ∨ x.width = len
  · rw [retry_whole _ h1 (by omega)]
    refine x.whole_iff_formats fmt (by omega) (fun _ hc' => absurd hc' hc) fun k h1k hk => ?_
    have hfit' := (x.decimals_spec hk).2.1
    have := x.le_length_shown h h1k
    omega
  by_cases hlong : len < x.width
  · have hs0 := x.length_shown_zero h
    have hnone : x.decimals len deci = none := x.decimals_eq_none_iff.mpr (by omega)
    rw [retry_stars _ (by omega), stars_eq_expected_iff x (by omega)]
    refine x.iff_formats (fun hk => ?_) (fun hk => ?_) fun k h1k hk => ?_
    · exact iff_of_true hk fun hneg => ⟨x.ip_ne_zero h hneg, .inl hlong⟩
    · exact absurd hk (by simp [hnone])
    · exact absurd hk (by simp [hnone])
  -- `m` decimals are what fits beside the integer part
  obtain ⟨m, hm⟩ := Nat.exists_eq_add_of_le (show x.width + 1 ≤ len by omega)
  rw [retry_next _ (show _ = len + (deci - m) by omega) (by omega) (by omega), show deci - (deci - m) = m by omega]
  by_cases hcm : x.Carry m
  · rw [retry_carry_large x fmt hmag h hlen (by omega) (by omega) (by omega) hcm]
    refine x.whole_iff_formats fmt (by omega) (fun _ hc' => absurd hc' hc) fun k h1k hk hf => hf.1 (x.carry_mono ?_ hcm)
    have hfit' := (x.decimals_spec hk).2.1
    have := x.le_length_shown h h1k
    omega
  · refine x.retry_large_at fmt hmag h (by omega) (by omega) (by omega) (x.not_over (by omega) hcm) (by omega) (fun j hj hle _ => ?_) hnotbig
    have := x.le_length_shown h (show 1 ≤ j by omega)
    omega

end Large

/-! ### Numbers below one -/

theorem signLen_le (b : Prop) [Decidable b] : signLen b ≤ 1 := by
  unfold signLen
  split <;> omega

theorem signLen_congr {a b : Prop} [Decidable a] [Decidable b] (h : a ↔ b) : signLen a = signLen b := if_congr h rfl rfl

theorem signLen_inj {a b : Prop} [Decidable a] [Decidable b] (h : signLen a = signLen b) : a ↔ b := by
  unfold signLen at h
  split at h <;> split at h <;> first | exact absurd h (by omega) | tauto

theorem inLong_of_carry (hc : x.Carry k) : k ≤ 18 ∧ ¬2 ^ 63 ≤ x.frac k := by
  have hk : k ≤ 18 := by
    by_contra hne
    have hd := x.deci_le
    exact x.not_carry_of_le (by change x.deci ≤ 18 at hd; omega) hc
  have := x.inLong_frac hk
  unfold InLong at this
  exact ⟨hk, by omega⟩

theorem ip_small (h : ¬x.Large) : x.ip = 0 := by
  by_contra hne
  exact h (.inr hne)

section Small

variable (fmt : Nat → Nat → Float → List UInt8) {whole : List UInt8}

theorem negative_of_carry {j : Nat} (hc : x.Carry k) (hj : k ≤ j) : x.Negative j ↔ x.Neg := by
  have hpos := ten_pow_pos k
  have hk : x.frac k ≠ 0 := by
    rw [show x.frac k = 10 ^ k from hc]
    omega
  rw [negative_iff]
  exact ⟨And.left, fun h => ⟨h, .inr fun hj' => hk (x.frac_zero_mono hj hj')⟩⟩

/-- The length of the text that is tried when the fraction is not one and fits. -/
theorem length_small_fit (hmag : x.mag < 2 ^ 63) (h : ¬x.Large) (hk : 1 ≤ k) (hk' : k ≤ 19) (hover : ¬x.Over k) :
    (deciText fmt x.num len k).length = signLen (x.Negative k) + 2 + k := by
  rw [deciText_small_eq x fmt hmag h hk hk' hover, length_shown_small x h, if_neg (show k ≠ 0 by omega)]
  omega

theorem length_small_carry (hmag : x.mag < 2 ^ 63) (h : ¬x.Large) (hk : 1 ≤ k) (hc : x.Carry k) :
    (deciText fmt x.num len k).length = signLen x.Neg + 3 + k := by
  obtain ⟨hk', hbig⟩ := x.inLong_of_carry hc
  have hpos := ten_pow_pos k
  have hfrac : x.frac k = 10 ^ k := hc
  have hsign : signLen (0 < wrap (x.frac k) ∧ x.Neg) = signLen x.Neg := by
    refine signLen_congr ⟨And.right, fun h => ⟨?_, h⟩⟩
    rw [wrap_of_inLong (x.inLong_frac hk')]
    omega
  rw [length_small x fmt hmag h hk (by omega), if_pos (show x.Over k from .inl hc), hsign]
  omega

theorem retry_small_carry (hmag : x.mag < 2 ^ 63) (h : ¬x.Large) (h1 : 1 ≤ deci) (hd : deci < len) (hc : x.Carry deci) :
    retry len (deciText fmt x.num len) (nodeci fmt x.num len len) deci = x.expected len deci ↔ x.Formats len deci := by
  have hsign := signLen_le x.Neg
  have hs : ∀ k, 1 ≤ k → k ≤ deci → (x.shown k).length = signLen x.Neg + k + 2 := by
    intro k hk hle
    rw [length_shown_small x h, if_neg (show k ≠ 0 by omega), signLen_congr (x.negative_of_carry (x.carry_mono hle hc) le_rfl)]
    omega
  have hnot : ∀ k, 1 ≤ k → x.decimals len deci = some k → ¬x.FormatsAt deci k len :=
    fun k _ hk hf => hf.1 (x.carry_mono (x.decimals_spec hk).1 hc)
  have hlength := @Fixed.length_small_carry x _ len fmt hmag h h1 hc
  -- a text that fits shows a fraction that has become one
  have htext : ∀ k, 1 ≤ k → k ≤ deci → signLen x.Neg + 3 + k ≤ len → (deciText fmt x.num len k = x.expected len deci ↔ x.Formats len deci) := by
    intro k hk hle hfit
    have hck := x.carry_mono hle hc
    have hsk := hs k hk hle
    refine x.iff_formats_of_fit hk hle (by omega) fun j hj hdec => iff_of_false ?_ (hnot j (by omega) hdec)
    exact x.text_carry_ne fmt hmag h hk (x.inLong_of_carry hck).1 hck (by omega) hdec (.inl (x.carry_mono (x.decimals_spec hdec).1 hc))
  by_cases hfit : signLen x.Neg + 3 + deci ≤ len
  · rw [retry_done _ (by omega)]
    exact htext deci h1 le_rfl hfit
  by_cases hlast : len = signLen x.Neg + 3 ∨ len = signLen x.Neg + 2
  · rw [retry_whole _ h1 (by omega)]
    exact x.whole_iff_formats fmt (by omega) (fun _ _ hip => absurd (x.ip_small h) hip) hnot
  by_cases hlong : len ≤ signLen x.Neg + 1
  · have hcarry0 : x.Carry 0 := x.carry_mono (Nat.zero_le _) hc
    have hs0 : (x.shown 0).length = signLen x.Neg + 1 := by
      rw [length_shown_small x h, if_pos rfl, signLen_congr (x.negative_of_carry hcarry0 le_rfl)]
    have hfrac : x.frac 0 = 1 := hcarry0
    have hneg : x.Neg := by
      by_contra hneg
      have : signLen x.Neg = 0 := if_neg hneg
      omega
    rw [retry_stars _ (by omega), stars_eq_expected_iff x (by omega)]
    refine x.iff_formats (fun hk => ?_) (fun hk => ?_) fun k h1k hk => ?_
    · have := x.decimals_eq_none_iff.mp hk
      omega
    · exact iff_of_false (by simp [hk]) fun hf => absurd (hf.1 hneg) (by omega)
    · exact iff_of_false (by simp [hk]) (hnot k h1k hk)
  · obtain ⟨m, hm⟩ := Nat.exists_eq_add_of_le (show signLen x.Neg + 3 ≤ len by omega)
    have hlength' := @Fixed.length_small_carry x m len fmt hmag h (by omega) (x.carry_mono (by omega) hc)
    rw [retry_next _ (show _ = len + (deci - m) by omega) (by omega) (by omega), show deci - (deci - m) = m by omega, retry_done _ (by omega)]
    exact htext m (by omega) (by omega) (by omega)

/-- A fraction of nineteen decimals that reaches the sign bit is printed as a negative number, and tried again with seventeen. -/
theorem retry_small_wrap (hmag : x.mag < 2 ^ 63) (h : ¬x.Large) (hbig : 2 ^ 63 ≤ x.frac 19) :
    retry 20 (deciText fmt x.num 20) (nodeci fmt x.num 20 20) 19 = x.expected 20 19 ↔ x.Formats 20 19 := by
  have hd : x.deci ≤ 18 := x.deci_le
  have hsign := signLen_le x.Neg
  have h19 : x.frac 19 = 10 * x.frac 18 := by
    obtain ⟨e, he⟩ := Nat.exists_eq_add_of_le hd
    rw [frac_of_le x (by omega), frac_of_le x hd, show 19 - x.deci = 18 - x.deci + 1 by omega, pow_succ]
    ring
  have hne : ∀ k, x.frac k ≠ 0 := by
    intro k hk
    have hk0 := x.frac_zero_mono (Nat.zero_le k) hk
    rw [frac_eq_zero_iff, pow_zero, Nat.mul_one] at hk0
    rw [frac_of_le x (show x.deci ≤ 19 by omega)] at hbig
    have hp : 10 ^ 19 = 10 ^ x.deci * 10 ^ (19 - x.deci) := by rw [← pow_add, Nat.add_sub_cancel' (by omega)]
    have hpos := ten_pow_pos (19 - x.deci)
    have := Nat.mul_lt_mul_of_pos_right hk0 hpos
    rw [← hp, Nat.mul_assoc] at this
    omega
  have hneg : ∀ k, x.Negative k ↔ x.Neg := by
    intro k
    rw [negative_iff]
    exact ⟨And.left, fun h => ⟨h, .inr (hne k)⟩⟩
  have hs : ∀ k, 1 ≤ k → (x.shown k).length = signLen x.Neg + k + 2 := by
    intro k hk
    rw [length_shown_small x h, if_neg (show k ≠ 0 by omega), signLen_congr (hneg k)]
    omega
  have hfirst : (deciText fmt x.num 20 19).length = 20 + 2 := by
    have hwrap := x.wrap_frac rfl hbig
    have hle := x.frac_le 19
    have hzero : signLen (0 < wrap (x.frac 19) ∧ x.Neg) = 0 := if_neg fun hp => by omega
    rw [length_small x fmt hmag h (by omega) le_rfl, if_pos (show x.Over 19 from .inr hbig), hzero]
  have hs17 := hs 17 (by omega)
  -- a positive number fits with eighteen decimals
  have hpos : ¬x.Neg → ∀ j, x.decimals 20 19 = some j → j = 18 := by
    intro hn j hj
    obtain ⟨hle, hfit, hmax⟩ := x.decimals_spec hj
    have hzero : signLen x.Neg = 0 := if_neg hn
    have h18 := hs 18 (by omega)
    have h19' := hs 19 (by omega)
    by_contra hne
    rcases Nat.lt_or_ge j 18 with hlt | hge
    · have := hmax 18 hlt (by omega)
      omega
    · rw [show j = 19 by omega] at hfit
      omega
  have hnotpos : ¬x.Neg → ∀ j, ¬x.FormatsAt 19 j 20 := by
    rintro hn j ⟨-, hf⟩
    rw [if_neg h] at hf
    exact hf.2.2 ⟨rfl, hbig, hn⟩
  -- a negative one with seventeen
  have hnegdec : x.Neg → ∀ j, 17 ≤ j → x.decimals 20 19 = some j → j = 17 := by
    intro hn j hj hdec
    have hone : signLen x.Neg = 1 := if_pos hn
    have hfit := (x.decimals_spec hdec).2.1
    have := hs j (by omega)
    omega
  rw [retry_next _ hfirst (by omega) (by omega)]
  by_cases hc : x.Carry 17
  · have hlength := @Fixed.length_small_carry x _ 20 fmt hmag h (by omega) hc
    by_cases hn : x.Neg
    · have hone : signLen x.Neg = 1 := if_pos hn
      have hc16 := x.carry_mono (show 16 ≤ 17 by omega) hc
      have hlength' := @Fixed.length_small_carry x _ 20 fmt hmag h (by omega) hc16
      rw [show 19 - 2 = 17 from rfl, retry_next _ (show _ = 20 + 1 by omega) (by omega) (by omega), show 17 - 1 = 16 from rfl, retry_done _ (by omega)]
      refine x.iff_formats_of_fit (k := 17) (by omega) (by omega) (by omega) fun j hj hdec => ?_
      have hj17 := hnegdec hn j hj hdec
      refine iff_of_false ?_ fun hf => hf.1 (hj17 ▸ hc)
      exact x.text_carry_ne fmt hmag h (by omega) (by omega) hc16 (by omega) hdec (.inl (hj17 ▸ hc))
    · have hzero : signLen x.Neg = 0 := if_neg hn
      rw [show 19 - 2 = 17 from rfl, retry_done _ (by omega)]
      refine x.iff_formats_of_fit (k := 17) (by omega) (by omega) (by omega) fun j hj hdec => iff_of_false ?_ (hnotpos hn j)
      refine x.text_carry_ne fmt hmag h (by omega) (by omega) hc (by omega) hdec (.inr ?_)
      rw [hpos hn j hdec]
      omega
  · have hover := x.not_over (show 17 ≤ 18 by omega) hc
    have hlength := @Fixed.length_small_fit x _ 20 fmt hmag h (by omega) (by omega) hover
    rw [signLen_congr (hneg 17)] at hlength
    rw [show 19 - 2 = 17 from rfl, retry_done _ (by omega), text_small_iff x fmt hmag h (by omega) (by omega) hover (by omega)]
    refine x.iff_formats_of_fit (k := 17) (by omega) (by omega) (by omega) fun j hj hdec => ?_
    by_cases hn : x.Neg
    · have hone : signLen x.Neg = 1 := if_pos hn
      have hj17 := hnegdec hn j hj hdec
      subst hj17
      refine iff_of_true ⟨hdec, by omega⟩ ⟨hc, ?_⟩
      rw [if_neg h]
      exact ⟨by omega, (hneg 19).trans (hneg 17).symm, fun hf => hf.2.2 hn⟩
    · have hj18 := hpos hn j hdec
      refine iff_of_false ?_ (hnotpos hn j)
      rintro ⟨hdec', -⟩
      have := Option.some.inj (hdec.symm.trans hdec')
      omega

theorem retry_small_fit (hmag : x.mag < 2 ^ 63) (h : ¬x.Large) (h1 : 1 ≤ deci) (hd : deci < len) (hlen : len ≤ 20) (hover : ¬x.Over deci) :
    retry len (deciText fmt x.num len) (nodeci fmt x.num len len) deci = x.expected len deci ↔ x.Formats len deci := by
  obtain ⟨hc, hbig⟩ := not_or.mp hover
  have hsign := signLen_le (x.Negative deci)
  have hs : ∀ k, 1 ≤ k → (x.shown k).length = signLen (x.Negative k) + k + 2 := by
    intro k hk
    rw [length_shown_small x h, if_neg (show k ≠ 0 by omega)]
    omega
  have hat : ∀ k, x.FormatsAt deci k len ↔ ¬x.Carry k ∧ (x.shown k).length = len ∧ (x.Negative deci ↔ x.Negative k) := by
    intro k
    have h19 : ¬(deci = 19 ∧ 2 ^ 63 ≤ x.frac 19 ∧ ¬x.Neg) := fun hf => hbig (hf.1 ▸ hf.2.1)
    unfold FormatsAt
    rw [if_neg h]
    simp only [h19, not_false_iff, and_true]
  have hlength := @Fixed.length_small_fit x _ len fmt hmag h h1 (by omega) hover
  by_cases hfit : signLen (x.Negative deci) + 2 + deci ≤ len
  · have hsd := hs deci h1
    rw [retry_done _ (by omega), text_small_iff x fmt hmag h h1 (by omega) hover (by omega)]
    refine x.iff_formats_of_fit h1 le_rfl (by omega) fun j hj hdec => ?_
    have hjd : j = deci := le_antisymm (x.decimals_spec hdec).1 hj
    subst hjd
    rw [hat]
    exact ⟨fun hp => ⟨hc, hp.2, Iff.rfl⟩, fun hf => ⟨hdec, hf.2.1⟩⟩
  by_cases hlast : len = signLen (x.Negative deci) + 2 ∨ len = signLen (x.Negative deci) + 1
  · rw [retry_whole _ h1 (by omega)]
    refine x.whole_iff_formats fmt (by omega) (fun _ hc' => absurd hc' hc) fun k h1k hk hf => ?_
    obtain ⟨-, hfull, hiff⟩ := (hat k).mp hf
    have := hs k h1k
    rw [← signLen_congr hiff] at this
    omega
  obtain ⟨m, hm⟩ := Nat.exists_eq_add_of_le (show signLen (x.Negative deci) + 2 ≤ len by omega)
  rw [retry_next _ (show _ = len + (deci - m) by omega) (by omega) (by omega), show deci - (deci - m) = m by omega]
  have hsm := hs m (by omega)
  by_cases hcm : x.Carry m
  · have hsame : signLen (x.Negative m) = signLen (x.Negative deci) :=
      signLen_congr ((x.negative_of_carry hcm le_rfl).trans (x.negative_of_carry hcm (by omega)).symm)
    have hsame' := signLen_congr (x.negative_of_carry hcm le_rfl)
    have hlength' := @Fixed.length_small_carry x _ len fmt hmag h (by omega) hcm
    have hdec : ∀ j, m ≤ j → x.decimals len deci = some j → j = m := by
      intro j hj hdec
      have hfit' := (x.decimals_spec hdec).2.1
      have hsj := hs j (by omega)
      have hsj' := signLen_congr (x.negative_of_carry hcm hj)
      omega
    have hnot : ∀ j, m ≤ j → x.decimals len deci = some j → ¬x.FormatsAt deci j len :=
      fun j hj hj' hf => hf.1 (hdec j hj hj' ▸ hcm)
    by_cases h1m : m = 1
    · rw [retry_whole _ (by omega) (by omega)]
      exact x.whole_iff_formats fmt (by omega) (fun _ hc' => absurd hc' hc) fun j hj => hnot j (by omega)
    · have hcm' := x.carry_mono (show m - 1 ≤ m by omega) hcm
      have hlength'' := @Fixed.length_small_carry x _ len fmt hmag h (by omega) hcm'
      rw [retry_next _ (show _ = len + 1 by omega) (by omega) (by omega), retry_done _ (by omega)]
      refine x.iff_formats_of_fit (k := m) (by omega) (by omega) (by omega) fun j hj hj' => iff_of_false ?_ (hnot j hj hj')
      exact x.text_carry_ne fmt hmag h (by omega) (x.inLong_of_carry hcm').1 hcm' (by omega) hj' (.inl (hdec j hj hj' ▸ hcm))
  · have hover' := x.not_over (show m ≤ 18 by omega) hcm
    have hlength' := @Fixed.length_small_fit x _ len fmt hmag h (by omega) (by omega) hover'
    have hle : signLen (x.Negative m) ≤ signLen (x.Negative deci) := by
      unfold signLen
      have := x.negative_mono (show m ≤ deci by omega)
      split <;> split <;> first | omega | (exfalso; tauto)
    rw [retry_done _ (by omega), text_small_iff x fmt hmag h (by omega) (by omega) hover' (by omega)]
    refine x.iff_formats_of_fit (k := m) (by omega) (by omega) (by omega) fun j hj hdec => ?_
    rw [hat]
    constructor
    · rintro ⟨hdec', hfull⟩
      have hjm : j = m := Option.some.inj (hdec.symm.trans hdec')
      subst hjm
      exact ⟨hcm, hfull, signLen_inj (by omega)⟩
    · rintro ⟨-, hfull, hiff⟩
      have hsj := hs j (by omega)
      rw [← signLen_congr hiff] at hsj
      have hjm : j = m := by omega
      exact ⟨hjm ▸ hdec, hjm ▸ hfull⟩

end Small

/-! ## The result -/

/-- What is shown is at most half a unit of the last digit away. -/
theorem abs_shownVal_sub_le (k : Nat) : |x.shownVal k - x.val| ≤ 1 / 2 / 10 ^ k := by
  have hpos : (0 : ℚ) < 10 ^ k := by positivity
  have hval : x.val = if x.Neg then -|x.val| else |x.val| := by
    have hd : (0 : ℚ) < 10 ^ x.deci := by positivity
    rw [abs_val]
    unfold val
    rw [toInt_eq]
    unfold signed
    split <;> push_cast <;> ring
  have hnear : |(x.rounded k : ℚ) - |x.val| * 10 ^ k| ≤ 1 / 2 := by
    rw [rounded_eq_nearest, abs_val]
    have := abs_nearest_sub_le (ten_pow_pos x.deci) (x.mag * 10 ^ k)
    push_cast at this
    rwa [mul_div_right_comm] at this
  have hdist : |(x.rounded k : ℚ) / 10 ^ k - abs x.val| ≤ 1 / 2 / 10 ^ k := by
    rw [show (x.rounded k : ℚ) / 10 ^ k - |x.val| = (x.rounded k - |x.val| * 10 ^ k) / 10 ^ k by field_simp, abs_div, abs_of_pos hpos]
    exact div_le_div_of_nonneg_right hnear hpos.le
  have hshown : x.shownVal k = if x.Neg then -((x.rounded k : ℚ) / 10 ^ k) else x.rounded k / 10 ^ k := by
    unfold shownVal applySign
    by_cases hn : x.Negative k
    · rw [if_pos (decide_eq_true hn), if_pos (show x.Neg from hn.1)]
      push_cast
      ring
    · rw [if_neg (by simpa using hn)]
      by_cases hneg : x.Neg
      · have hzero : x.rounded k = 0 := by
          by_contra hne
          exact hn ⟨hneg, hne⟩
        rw [if_pos hneg, hzero]
        simp
      · rw [if_neg hneg]
        rfl
  rw [hval, hshown]
  split
  · rw [← neg_sub_neg, neg_neg, neg_neg, ← abs_neg, neg_sub]
    exact hdist
  · exact hdist

end Fixed

/-- The text is right exactly when the number does not come near any of the branches that go wrong. -/
theorem formatRight_iff (fmt : Nat → Nat → Float → List UInt8) (x : Fixed) (hmin : x.n ≠ Int64.minValue) {len deci : Nat} (h1 : 1 ≤ len)
    (hlen : len ≤ MAXDIGITS) (hdeci : deci < len) : FormatRight fmt x len deci ↔ x.Formats len deci := by
  have hmag := x.mag_lt hmin
  have hrun : num2str fmt x.num len deci =
      some (if deci ≠ 0 then retry len (deciText fmt x.num len) (nodeci fmt x.num len len) deci else nodeci fmt x.num len len) := by
    unfold Fixed.num num2str
    dsimp only
    rw [if_neg (by omega), Int.toNat_natCast, Nat.min_eq_left hlen]
  have hright : FormatRight fmt x len deci ↔
      (if deci ≠ 0 then retry len (deciText fmt x.num len) (nodeci fmt x.num len len) deci else nodeci fmt x.num len len) = x.expected len deci := by
    unfold FormatRight
    rw [hrun, Option.some_inj]
    exact and_iff_left fun k _ => x.abs_shownVal_sub_le k
  rw [hright]
  by_cases h0 : deci = 0
  · rw [if_neg (not_not.mpr h0)]
    refine x.whole_iff_formats fmt h1 (fun h => absurd h0 (by omega)) fun k hk hd => ?_
    have := (x.decimals_spec hd).1
    omega
  rw [if_pos h0]
  by_cases hc : x.Carry deci
  · by_cases hl : x.Large
    · exact x.retry_large_carry fmt hmag hl (by omega) hdeci hlen hc
    · exact x.retry_small_carry fmt hmag hl (by omega) hdeci hc
  by_cases hbig : 2 ^ 63 ≤ x.frac deci
  · have h19 : deci = 19 := by
      by_contra hne
      exact x.not_over (show deci ≤ 18 by change len ≤ 20 at hlen; omega) hc (.inr hbig)
    have h20 : len = 20 := by
      change len ≤ 20 at hlen
      omega
    subst h19 h20
    by_cases hl : x.Large
    · exact x.retry_large_wrap fmt hmag hl hbig
    · exact x.retry_small_wrap fmt hmag hl hbig
  · by_cases hl : x.Large
    · exact x.retry_large_fit fmt hmag hl (by omega) hdeci hlen (not_or.mpr ⟨hc, hbig⟩)
    · exact x.retry_small_fit fmt hmag hl (by omega) hdeci hlen (not_or.mpr ⟨hc, hbig⟩)

/-- One and a quarter with one decimal. -/
theorem formatRight_iff_quarter : FormatRight (fun _ _ _ => []) ⟨125, 2, by decide⟩ 8 1 := by
  rw [formatRight_iff _ _ (by decide) (by decide) (by decide) (by decide)]
  have hd : Fixed.decimals ⟨125, 2, by decide⟩ 8 1 = some 1 := by decide +kernel
  have hl : Fixed.Large ⟨125, 2, by decide⟩ := by decide +kernel
  have hc : ¬Fixed.Carry ⟨125, 2, by decide⟩ 1 := by decide +kernel
  unfold Fixed.Formats
  rw [hd]
  refine ⟨hc, ?_⟩
  rw [if_pos hl]
  omega

/-- A half is not padded. -/
theorem format_fails : ¬FormatRight (fun _ _ _ => []) ⟨50, 2, by decide⟩ 10 2 := by
  have hd : Fixed.decimals ⟨50, 2, by decide⟩ 10 2 = some 2 := by decide +kernel
  have hlength : (deciText (fun _ _ _ => []) (.fixed 50 2) 10 2).length = 4 := by decide +kernel
  have hrun : num2str (fun _ _ _ => []) (.fixed 50 2) 10 2 = some (deciText (fun _ _ _ => []) (.fixed 50 2) 10 2) := by
    unfold num2str
    dsimp only
    rw [if_neg (by decide), if_pos (by decide)]
    exact congrArg some (retry_done _ (by rw [show min (Int.toNat 10) MAXDIGITS = 10 from rfl, hlength]; decide))
  rintro ⟨h, -⟩
  have hlen := congrArg List.length (Option.some.inj (hrun.symm.trans h))
  rw [hlength, Fixed.expected_some _ hd, length_padLeft] at hlen
  omega

end Db3w.Hb
