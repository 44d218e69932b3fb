/-
Texts packed in one buffer. Each text ends in a NUL, and holders have pointers to them. A text is
added behind the last one; when one is cut out, what follows moves up and the pointers behind it
are moved along.
-/
import Db3w.Lib.Bytes

open Bytes

/-- A buffer, how much of it is taken, and where the holders' texts start. -/
structure StrPool (ι : Type*) where
  buf : List UInt8
  next : Nat
  ptr : ι → Option Nat

namespace StrPool

variable {ι : Type*}

/-- The text a holder sees. -/
def text (p : StrPool ι) (i : ι) : Option (List UInt8) := (p.ptr i).map fun q => cstr (p.buf.drop q)

/-- Puts a text behind the last one. -/
def append (p : StrPool ι) (s : List UInt8) : StrPool ι :=
  { p with buf := writeAt p.next (s ++ [0]) p.buf, next := p.next + (s.length + 1) }

/-- Gives a holder a pointer. -/
def point [DecidableEq ι] (p : StrPool ι) (i : ι) (q : Option Nat) : StrPool ι := { p with ptr := Function.update p.ptr i q }

/-- Cuts the text at `q` out: what follows it up to `stop` is copied over it. -/
def cut (p : StrPool ι) (q stop : Nat) : StrPool ι :=
  let len := (cstr (p.buf.drop q)).length + 1
  ⟨writeAt q ((p.buf.take stop).drop (q + len)) p.buf, p.next - len, fun j => (p.ptr j).map fun r => if r > q then r - len else r⟩

/-! ## Texts in place -/

/-- The text `s` and its NUL are at `q`. -/
def At (buf : List UInt8) (q : Nat) (s : List UInt8) : Prop := readAt q (s.length + 1) buf = s ++ [0]

section At

variable {buf buf' : List UInt8} {q r : Nat} {s : List UInt8}

theorem At.drop (h : At buf q s) : buf.drop q = s ++ 0 :: buf.drop (q + s.length + 1) := by
  have hs : readAt q (s.length + 1) buf = s ++ [0] := h
  rw [← List.take_append_drop (s.length + 1) (buf.drop q), List.drop_drop, ← Nat.add_assoc]
  unfold readAt at hs
  rw [hs, List.append_assoc]
  rfl

theorem At.cstr (h : At buf q s) (h0 : 0 ∉ s) : cstr (buf.drop q) = s := by
  rw [h.drop, cstr_append h0]

theorem At.of_drop {rest : List UInt8} (h : buf.drop q = s ++ 0 :: rest) : At buf q s := by
  unfold At readAt
  rw [h, List.append_cons, List.take_left' (by simp)]

/-- A text only depends on its bytes. -/
theorem At.congr (h : At buf q s) (hb : readAt r (s.length + 1) buf' = readAt q (s.length + 1) buf) : At buf' r s := hb.trans h

end At

section WriteAt

variable {buf bs : List UInt8} {q r n : Nat}

theorem readAt_eq_take (r n : Nat) (buf : List UInt8) : readAt r n buf = (buf.take (r + n)).drop r := by
  rw [readAt, List.drop_take, Nat.add_sub_cancel_left]

/-- What is before the written bytes is unchanged. -/
theorem readAt_writeAt_before (hq : q ≤ buf.length) (h : r + n ≤ q) : readAt r n (writeAt q bs buf) = readAt r n buf := by
  have hpre : (writeAt q bs buf).take (r + n) = buf.take (r + n) := by
    rw [← Nat.min_eq_left h, ← List.take_take, take_writeAt hq, List.take_take]
  rw [readAt_eq_take, readAt_eq_take, hpre]

/-- What has been copied down is found where it was copied to. -/
theorem readAt_writeAt_moved {len stop : Nat} (hr : q + len ≤ r) (hstop : r + n ≤ stop) (hlen : stop ≤ buf.length) :
    readAt (r - len) n (writeAt q ((buf.take stop).drop (q + len)) buf) = readAt r n buf := by
  obtain ⟨k, rfl⟩ := Nat.exists_eq_add_of_le hr
  have hk : k + n ≤ ((buf.take stop).drop (q + len)).length := by
    rw [List.length_drop, List.length_take_of_le hlen]
    omega
  rw [show q + len + k - len = q + k by omega, readAt, ← List.drop_drop, drop_writeAt,
    List.drop_append_of_le_length (by omega), List.take_append_of_le_length (by rw [List.length_drop]; omega), List.drop_drop,
    readAt_eq_take, List.drop_take, List.drop_take, List.take_take, Nat.min_eq_left (by omega), show q + len + k + n - (q + len + k) = n by omega]

end WriteAt

/-! ## The texts of a pool -/

/-- The holders have the texts `t`: each has its own place in the part of the buffer that is taken. -/
structure Holds (p : StrPool ι) (t : ι → Option (List UInt8)) : Prop where
  next_le : p.next ≤ p.buf.length
  unset : ∀ i, p.ptr i = none ↔ t i = none
  at_ : ∀ i q s, p.ptr i = some q → t i = some s → 0 ∉ s ∧ At p.buf q s ∧ q + s.length + 1 ≤ p.next
  apart : ∀ i j q r s u, i ≠ j → p.ptr i = some q → p.ptr j = some r → t i = some s → t j = some u →
    q + s.length < r ∨ r + u.length < q

variable {p : StrPool ι} {t : ι → Option (List UInt8)} {i : ι} {q : Nat} {s : List UInt8}

theorem Holds.text (h : p.Holds t) (i : ι) : p.text i = t i := by
  unfold StrPool.text
  rcases hq : p.ptr i with _ | q
  · rw [(h.unset i).mp hq]
    rfl
  · obtain ⟨s, hs⟩ : ∃ s, t i = some s := Option.ne_none_iff_exists'.mp fun hn => by
      rw [(h.unset i).mpr hn] at hq
      cases hq
    obtain ⟨h0, hat, -⟩ := h.at_ i q s hq hs
    rw [hs, Option.map_some, hat.cstr h0]

/-- Taking more room behind the last text changes no text. -/
theorem Holds.append (h : p.Holds t) (hs : p.next + s.length + 1 ≤ p.buf.length) :
    (p.append s).Holds t ∧ At (p.append s).buf p.next s ∧ (p.append s).buf.length = p.buf.length := by
  have hlen : (p.append s).buf.length = p.buf.length := by
    show (writeAt _ _ _).length = _
    rw [length_writeAt, List.length_append, List.length_singleton]
    omega
  refine ⟨⟨?_, h.unset, ?_, h.apart⟩, ?_, hlen⟩
  · rw [hlen]
    exact hs
  · intro j r u hr hu
    obtain ⟨h0, hat, hle⟩ := h.at_ j r u hr hu
    refine ⟨h0, hat.congr (readAt_writeAt_before h.next_le (by omega)), ?_⟩
    show _ ≤ p.next + (s.length + 1)
    omega
  · have hdrop : (p.append s).buf.drop p.next = s ++ 0 :: p.buf.drop (p.next + (s ++ [0]).length) := by
      show (writeAt _ _ _).drop _ = _
      rw [drop_writeAt, List.append_assoc, List.singleton_append]
    exact At.of_drop hdrop

section Point

variable [DecidableEq ι]

/-- A holder may be given what has just been added. -/
theorem Holds.add (h : p.Holds t) (h0 : 0 ∉ s) (hs : p.next + s.length + 1 ≤ p.buf.length) (i : ι) :
    ((p.append s).point i (some p.next)).Holds (Function.update t i (some s)) := by
  obtain ⟨ha, hat, -⟩ := h.append hs
  refine ⟨ha.next_le, ?_, ?_, ?_⟩
  · intro j
    by_cases hj : j = i
    · subst hj
      simp [point]
    · simp only [point, Function.update_of_ne hj]
      exact h.unset j
  · intro j r u hr hu
    by_cases hj : j = i
    · subst hj
      simp only [point, Function.update_self, Option.some.injEq] at hr hu
      subst hr hu
      exact ⟨h0, hat, le_rfl⟩
    · simp only [point, Function.update_of_ne hj] at hr hu
      exact ha.at_ j r u hr hu
  · -- the new text is behind all the others
    have hlast : ∀ j r u, j ≠ i → p.ptr j = some r → t j = some u → r + u.length < p.next := by
      intro j r u _ hr hu
      obtain ⟨-, -, hle⟩ := h.at_ j r u hr hu
      omega
    intro j k r r' u u' hne hr hr' hu hu'
    by_cases hj : j = i
    · have hk : k ≠ i := fun hk => hne (hj.trans hk.symm)
      subst hj
      simp only [point, Function.update_self, Option.some.injEq, Function.update_of_ne hk] at hr hu hr' hu'
      subst hr
      exact Or.inr (hlast k r' u' hk hr' hu')
    · by_cases hk : k = i
      · subst hk
        simp only [point, Function.update_self, Option.some.injEq, Function.update_of_ne hj] at hr hu hr' hu'
        subst hr'
        exact Or.inl (hlast j r u hj hr hu)
      · simp only [point, Function.update_of_ne hj, Function.update_of_ne hk] at hr hu hr' hu'
        exact h.apart j k r r' u u' hne hr hr' hu hu'

/-- A text that is cut out, and its pointer cleared, leaves the other texts. -/
theorem Holds.cut (h : p.Holds t) (hq : p.ptr i = some q) {stop : Nat} (hstop : p.next ≤ stop) (hle : stop ≤ p.buf.length) :
    ((p.cut q stop).point i none).Holds (Function.update t i none) ∧ (p.cut q stop).buf.length = p.buf.length := by
  obtain ⟨s, hs⟩ : ∃ s, t i = some s := Option.ne_none_iff_exists'.mp fun hn => by
    rw [(h.unset i).mpr hn] at hq
    cases hq
  obtain ⟨h0, hat, hend⟩ := h.at_ i q s hq hs
  have hbuf : (p.cut q stop).buf = writeAt q ((p.buf.take stop).drop (q + (s.length + 1))) p.buf := by
    simp only [StrPool.cut, hat.cstr h0]
  have hptr : ∀ j, (p.cut q stop).ptr j = (p.ptr j).map fun r => if r > q then r - (s.length + 1) else r := by
    intro j
    simp only [StrPool.cut, hat.cstr h0]
  have hnext : (p.cut q stop).next = p.next - (s.length + 1) := by simp only [StrPool.cut, hat.cstr h0]
  have hlen : (p.cut q stop).buf.length = p.buf.length := by
    rw [hbuf, length_writeAt, List.length_drop, List.length_take_of_le hle]
    omega
  -- the places of the other texts: before the one cut out, or behind it and moved
  have hplace : ∀ j r u, j ≠ i → p.ptr j = some r → t j = some u →
      r + u.length < q ∧ (if r > q then r - (s.length + 1) else r) = r ∨
        q + s.length < r ∧ (if r > q then r - (s.length + 1) else r) = r - (s.length + 1) := by
    intro j r u hj hr hu
    rcases h.apart j i r q u s hj hr hq hu hs with hlt | hlt
    · exact Or.inl ⟨hlt, if_neg (by omega)⟩
    · exact Or.inr ⟨hlt, if_pos (by omega)⟩
  refine ⟨⟨?_, ?_, ?_, ?_⟩, hlen⟩
  · show (p.cut q stop).next ≤ (p.cut q stop).buf.length
    rw [hnext, hlen]
    have := h.next_le
    omega
  · intro j
    by_cases hj : j = i
    · subst hj
      simp [point]
    · simp only [point, Function.update_of_ne hj, hptr, Option.map_eq_none_iff]
      exact h.unset j
  · intro j r' u hr' hu
    by_cases hj : j = i
    · subst hj
      simp [point] at hr'
    · simp only [point, Function.update_of_ne hj, hptr, Option.map_eq_some_iff] at hr' hu
      obtain ⟨r, hr, rfl⟩ := hr'
      obtain ⟨hu0, huat, hule⟩ := h.at_ j r u hr hu
      refine ⟨hu0, ?_, ?_⟩
      · show At (p.cut q stop).buf _ u
        rw [hbuf]
        rcases hplace j r u hj hr hu with ⟨hlt, hr⟩ | ⟨hlt, hr⟩
        · rw [hr]
          exact huat.congr (readAt_writeAt_before (by omega) (by omega))
        · rw [hr]
          exact huat.congr (readAt_writeAt_moved (by omega) (by omega) hle)
      · show _ ≤ (p.cut q stop).next
        rw [hnext]
        rcases hplace j r u hj hr hu with ⟨hlt, hr⟩ | ⟨hlt, hr⟩ <;> omega
  · intro j k r r' u u' hne hr hr' hu hu'
    by_cases hj : j = i
    · subst hj
      simp [point] at hr
    by_cases hk : k = i
    · subst hk
      simp [point] at hr'
    simp only [point, Function.update_of_ne hj, Function.update_of_ne hk, hptr, Option.map_eq_some_iff] at hr hr' hu hu'
    obtain ⟨r, hr, rfl⟩ := hr
    obtain ⟨r', hr', rfl⟩ := hr'
    have hap := h.apart j k r r' u u' hne hr hr' hu hu'
    have h1 := hplace j r u hj hr hu
    have h2 := hplace k r' u' hk hr' hu'
    omega

end Point

end StrPool
