/-
The passes of the merge sort. A pass writes what `mergePass` makes of the file it reads: the records
that the two runs still hold, merged, and the pass over what lies behind them, are always what is
left to be written. The count of the records written is a `DWORD`, so that a pass over 2 ^ 32
records or more does not end.
-/
import Db3w.Ndx.VsortSegment

namespace Db3w.VsortCtl

open MergePass

section Merge

variable {v : VsortCtl} {S : Set VsortRec} {f g l : List VsortRec} {x y : VsortRec} {n a b fuel : Nat} {s s' : Run}

/-- The buffers are as long as they should be. -/
def Fits (v : VsortCtl) : Prop := v.srtbufsz < 2 ^ 32

/-- The order in which records are merged. -/
def le (v : VsortCtl) (p q : VsortRec) : Bool := decide (v.cmp p q ≤ 0)

theorem Fits.allocated (h : v.Fits) : v.allocated = v.srtbufsz := Nat.mod_eq_of_lt h

/-! ## Buffers -/

theorem fillbuf_eq (hv : v.Fits) (f : List VsortRec) (pos : Nat) :
    v.fillbuf f pos = some (((f.drop pos).take v.nkeys).rightpad v.nkeys v.ffRec) := by
  unfold fillbuf
  rw [if_pos hv.allocated.ge]

theorem fillbuf_none (hv : ¬v.Fits) (f : List VsortRec) (pos : Nat) : v.fillbuf f pos = none := by
  unfold fillbuf
  have hlt : v.allocated < v.srtbufsz := (Nat.mod_lt _ (by omega)).trans_le (not_lt.mp hv)
  rw [if_neg (not_le.mpr hlt)]

/-- What a buffer holds. -/
theorem getElem?_fillbuf {buf : List VsortRec} {pos p : Nat} (hbuf : v.fillbuf f pos = some buf) (hp : p < v.nkeys) :
    buf[p]? = some (f.getD (pos + p) v.ffRec) := by
  unfold fillbuf at hbuf
  split at hbuf
  · rw [Option.some_inj] at hbuf
    subst hbuf
    unfold List.rightpad
    rcases Nat.lt_or_ge (pos + p) f.length with hlt | hge
    · rw [List.getElem?_append_left (by rw [List.length_take, List.length_drop]; omega), List.getElem?_take_of_lt hp,
        List.getElem?_drop, List.getD_eq_getElem?_getD, List.getElem?_eq_getElem hlt, Option.getD_some]
    · have hlen : ((f.drop pos).take v.nkeys).length ≤ p := by
        rw [List.length_take, List.length_drop]
        omega
      rw [List.getElem?_append_right hlen, List.getElem?_replicate_of_lt (by omega), List.getD_eq_getElem?_getD,
        List.getElem?_eq_none hge, Option.getD_none]
  · cases hbuf

/-! ## The two runs -/

/-- A run of `n` records from `a` on, of which the next one is under the pointer. -/
structure Open (v : VsortCtl) (f : List VsortRec) (n a : Nat) (s : Run) : Prop where
  fill : s.fill = false
  pos : s.pos = a
  titms : s.titms < n
  at_ : s.tpos + s.p = a + s.titms
  p : s.p < v.nkeys
  buf : v.fillbuf f s.tpos = some s.buf

/-- A run that has come to its end, or that there is none of. -/
structure Ended (f : List VsortRec) (n a : Nat) (s : Run) : Prop where
  fill : s.fill = true
  pos : s.pos = a + 2 * n ∨ f.length ≤ a ∧ f.length ≤ s.pos

def AtRun (v : VsortCtl) (f : List VsortRec) (n a : Nat) (s : Run) : Prop := Open v f n a s ∨ Ended f n a s

/-- What is still to come of a run. -/
def rest (f : List VsortRec) (n a : Nat) (s : Run) : List VsortRec :=
  if s.fill then [] else (f.drop (a + s.titms)).take (n - s.titms)

theorem Ended.rest (h : Ended f n a s) : rest f n a s = [] := if_pos h.fill

theorem Open.get (h : Open v f n a s) : s.buf[s.p]? = some (f.getD (a + s.titms) v.ffRec) := by
  rw [getElem?_fillbuf h.buf h.p, h.at_]

theorem Open.rest_short (h : Open v f n a s) (hge : f.length ≤ a + s.titms) : VsortCtl.rest f n a s = [] := by
  unfold VsortCtl.rest
  rw [h.fill, List.drop_eq_nil_of_le hge, List.take_nil]
  rfl

theorem Open.rest_cons (h : Open v f n a s) (hlt : a + s.titms < f.length) :
    VsortCtl.rest f n a s = f[a + s.titms] :: (f.drop (a + s.titms + 1)).take (n - (s.titms + 1)) := by
  unfold VsortCtl.rest
  have htitms := h.titms
  rw [h.fill, List.drop_eq_getElem_cons hlt, show n - s.titms = n - (s.titms + 1) + 1 by omega, List.take_succ_cons]
  rfl

/-- Behind a record the run goes on, or ends. -/
theorem Open.next (h : Open v f n a s) (hv : v.Fits) (hn : n < 2 ^ 32) : ∃ s', v.next f n s = some s' ∧ AtRun v f n a s' ∧
    VsortCtl.rest f n a s' = (f.drop (a + s.titms + 1)).take (n - (s.titms + 1)) := by
  have htitms := h.titms
  have hat := h.at_
  have hp := h.p
  unfold VsortCtl.next
  rw [Nat.mod_eq_of_lt (by omega)]
  by_cases hend : s.titms + 1 = n
  · rw [if_pos hend]
    refine ⟨_, rfl, .inr ⟨rfl, .inl ?_⟩, ?_⟩
    · dsimp only
      rw [h.pos]
    · rw [hend, Nat.sub_self, List.take_zero]
      rfl
  rw [if_neg hend]
  have hrest : ∀ s' : Run, s'.fill = false → s'.titms = s.titms + 1 →
      VsortCtl.rest f n a s' = (f.drop (a + s.titms + 1)).take (n - (s.titms + 1)) := by
    intro s' hfill htitms'
    unfold VsortCtl.rest
    rw [hfill, htitms', ← Nat.add_assoc]
    rfl
  by_cases hbuf : s.p + 1 ≥ v.nkeys
  · rw [if_pos hbuf, fillbuf_eq hv, Option.bind_eq_bind, Option.bind_some]
    refine ⟨_, rfl, .inl ⟨h.fill, h.pos, by dsimp only; omega, by dsimp only; omega, v.nkeys_pos, fillbuf_eq hv _ _⟩, ?_⟩
    exact hrest _ h.fill rfl
  · rw [if_neg hbuf]
    refine ⟨_, rfl, .inl ⟨h.fill, h.pos, by dsimp only; omega, by dsimp only; omega, not_le.mp hbuf, h.buf⟩, ?_⟩
    exact hrest _ h.fill rfl

theorem Open.get_cons (h : Open v f n a s) (hlt : a + s.titms < f.length) : s.buf[s.p]? = some f[a + s.titms] := by
  rw [h.get, List.getD_eq_getElem?_getD, List.getElem?_eq_getElem hlt, Option.getD_some]

theorem Open.get_short (h : Open v f n a s) (hge : f.length ≤ a + s.titms) : s.buf[s.p]? = some v.ffRec := by
  rw [h.get, List.getD_eq_getElem?_getD, List.getElem?_eq_none hge, Option.getD_none]

/-- All that is still to be written of the pass. -/
def left (v : VsortCtl) (f : List VsortRec) (n b : Nat) (one two : Run) : List VsortRec :=
  (rest f n b one).merge (rest f n (b + n) two) v.le ++ mergePass v.le n (f.drop (b + 2 * n))

theorem AtRun.ended (h : AtRun v f n a s) (hfill : s.fill = true) : Ended f n a s := by
  rcases h with h | h
  · have := h.fill
    rw [hfill] at this
    cases this
  · exact h

/-- When both runs are at their ends the next two are begun. -/
theorem reload_spec {one two : Run} (hv : v.Fits) (hn : 0 < n) (hone : Ended f n b one) (htwo : Ended f n (b + n) two) :
    ∃ one' two' b', v.reload f f.length one = some one' ∧ v.reload f f.length two = some two' ∧ AtRun v f n b' one' ∧
      AtRun v f n (b' + n) two' ∧ (one'.fill = true → two'.fill = true → f.length ≤ b' + 2 * n) ∧
      left v f n b one two = left v f n b' one' two' := by
  have hbegin : ∀ s : Run, s.pos < f.length → ∃ s', v.reload f f.length s = some s' ∧ Open v f n s.pos s' ∧ s'.titms = 0 := by
    intro s hlt
    unfold reload
    rw [if_pos hlt, fillbuf_eq hv, Option.bind_eq_bind, Option.bind_some]
    exact ⟨_, rfl, ⟨rfl, rfl, hn, rfl, v.nkeys_pos, fillbuf_eq hv _ _⟩, rfl⟩
  have hstay : ∀ s : Run, f.length ≤ s.pos → v.reload f f.length s = some s := fun s hge => if_neg (by omega)
  have hleft : left v f n b one two = mergePass v.le n (f.drop (b + 2 * n)) := by
    unfold left
    rw [hone.rest, htwo.rest]
    simp
  have hpos1 := hone.pos
  have hpos2 := htwo.pos
  by_cases hmore : b + 2 * n < f.length
  · have hat1 : one.pos = b + 2 * n := by omega
    have hat2 : two.pos = b + 2 * n + n := by omega
    obtain ⟨one', hrun1, hopen1, hzero1⟩ := hbegin one (by omega)
    rw [hat1] at hopen1
    have hrest1 : rest f n (b + 2 * n) one' = (f.drop (b + 2 * n)).take n := by
      unfold rest
      rw [hopen1.fill, hzero1]
      rfl
    have hfill1 := hopen1.fill
    rw [hleft, mergePass_eq hn, List.drop_drop (i := 2 * n)]
    by_cases hsecond : two.pos < f.length
    · obtain ⟨two', hrun2, hopen2, hzero2⟩ := hbegin two hsecond
      rw [hat2] at hopen2
      refine ⟨one', two', b + 2 * n, hrun1, hrun2, .inl hopen1, .inl hopen2, fun h => ?_, ?_⟩
      · rw [hfill1] at h
        cases h
      · have hrest2 : rest f n (b + 2 * n + n) two' = ((f.drop (b + 2 * n)).drop n).take n := by
          unfold rest
          rw [hopen2.fill, hzero2, List.drop_drop]
          rfl
        unfold left
        rw [hrest1, hrest2]
    · -- there is no second run
      refine ⟨one', two, b + 2 * n, hrun1, hstay two (by omega), .inl hopen1, .inr ⟨htwo.fill, .inr ⟨by omega, by omega⟩⟩, fun h => ?_, ?_⟩
      · rw [hfill1] at h
        cases h
      · have hnone : ((f.drop (b + 2 * n)).drop n).take n = [] := by
          rw [List.drop_drop, List.drop_eq_nil_of_le (by omega), List.take_nil]
        unfold left
        rw [hrest1, hnone, show rest f n (b + 2 * n + n) two = [] from if_pos htwo.fill]
  · exact ⟨one, two, b, hstay one (by omega), hstay two (by omega), .inr hone, .inr htwo, fun _ _ => not_lt.mp hmore, rfl⟩

theorem left_nil {one two : Run} (hone : rest f n b one = []) (htwo : rest f n (b + n) two = []) (hend : f.length ≤ b + 2 * n) :
    left v f n b one two = [] := by
  unfold left
  rw [hone, htwo, List.drop_eq_nil_of_le hend, mergePass_nil, List.nil_merge, List.append_nil]

/-- A record is taken from the run it is under the pointer of, and is the first of what is left. -/
def Taken (v : VsortCtl) (f : List VsortRec) (n b : Nat) (m : MergeSt) : Prop :=
  ∃ w r one two, v.which m = some w ∧ (if w then m.two.buf[m.two.p]? else m.one.buf[m.one.p]?) = some r ∧
    (if w then some m.one else v.next f n m.one) = some one ∧ (if w then v.next f n m.two else some m.two) = some two ∧
    AtRun v f n b one ∧ AtRun v f n (b + n) two ∧ left v f n b m.one m.two = r :: left v f n b one two

section Taken

variable {m : MergeSt}

theorem Open.taken (h : Open v f n b m.one) (htwo : AtRun v f n (b + n) m.two) (hv : v.Fits) (hn : n < 2 ^ 32)
    (hlt : b + m.one.titms < f.length) (hw : v.which m = some false)
    (hmerge : ∀ l, (f[b + m.one.titms] :: l).merge (VsortCtl.rest f n (b + n) m.two) v.le =
      f[b + m.one.titms] :: l.merge (VsortCtl.rest f n (b + n) m.two) v.le) : Taken v f n b m := by
  obtain ⟨one, hrun, hat, hrest⟩ := h.next hv hn
  refine ⟨false, f[b + m.one.titms], one, m.two, hw, h.get_cons hlt, hrun, rfl, hat, htwo, ?_⟩
  unfold left
  rw [h.rest_cons hlt, hmerge, hrest]
  rfl

theorem Open.taken_two (h : Open v f n (b + n) m.two) (hone : AtRun v f n b m.one) (hv : v.Fits) (hn : n < 2 ^ 32)
    (hlt : b + n + m.two.titms < f.length) (hw : v.which m = some true)
    (hmerge : ∀ l, (VsortCtl.rest f n b m.one).merge (f[b + n + m.two.titms] :: l) v.le =
      f[b + n + m.two.titms] :: (VsortCtl.rest f n b m.one).merge l v.le) : Taken v f n b m := by
  obtain ⟨two, hrun, hat, hrest⟩ := h.next hv hn
  refine ⟨true, f[b + n + m.two.titms], m.one, two, hw, h.get_cons hlt, rfl, hrun, hone, hat, ?_⟩
  unfold left
  rw [h.rest_cons hlt, hmerge, hrest]
  rfl

end Taken

/-- The least of the two records under the pointers is taken. -/
theorem take_spec (hS : OrderOn v.cmp S) (hf : ∀ r ∈ f, r ∈ S) (hv : v.Fits) (hn : n < 2 ^ 32) {m : MergeSt} (hone : AtRun v f n b m.one)
    (htwo : AtRun v f n (b + n) m.two) (hboth : m.one.fill = true → m.two.fill = true → f.length ≤ b + 2 * n)
    (hne : left v f n b m.one m.two ≠ []) : Taken v f n b m := by
  have hone' := hone
  have htwo' := htwo
  rcases hone with ho | he <;> rcases htwo with ht | he'
  · have hlt : b + m.one.titms < f.length := by
      by_contra hge
      have := ho.titms
      exact hne (left_nil (ho.rest_short (by omega)) (ht.rest_short (by omega)) (by omega))
    have hw : ∀ q, m.two.buf[m.two.p]? = some q → v.which m = some (decide (v.cmp f[b + m.one.titms] q > 0)) := by
      intro q hq
      unfold which
      rw [if_neg (by rw [ho.fill]; decide), if_neg (by rw [ht.fill]; decide), ho.get_cons hlt, Option.bind_eq_bind, Option.bind_some, hq]
      rfl
    have hin := hf _ (List.getElem_mem hlt)
    rcases Nat.lt_or_ge (b + n + m.two.titms) f.length with hlt' | hge'
    · have hw' := hw _ (ht.get_cons hlt')
      by_cases hle : v.cmp f[b + m.one.titms] f[b + n + m.two.titms] ≤ 0
      · refine ho.taken htwo' hv hn hlt (hw'.trans (by rw [decide_eq_false (not_lt.mpr hle)])) fun l => ?_
        rw [ht.rest_cons hlt', List.cons_merge_cons_pos _ _ _ (decide_eq_true hle)]
      · refine ht.taken_two hone' hv hn hlt' (hw'.trans (by rw [decide_eq_true (not_le.mp hle)])) fun l => ?_
        rw [ho.rest_cons hlt, List.cons_merge_cons_neg]
        exact fun h => hle (of_decide_eq_true h)
    · -- the second run is over before its time, and the sentinel is above
      have hle : v.cmp f[b + m.one.titms] v.ffRec ≤ 0 := hS.top _ hin _ rfl
      refine ho.taken htwo' hv hn hlt ((hw _ (ht.get_short hge')).trans (by rw [decide_eq_false (not_lt.mpr hle)])) fun l => ?_
      rw [ht.rest_short hge', List.merge_right, List.merge_right]
  · have hlt : b + m.one.titms < f.length := by
      by_contra hge
      have := ho.titms
      exact hne (left_nil (ho.rest_short (by omega)) he'.rest (by omega))
    refine ho.taken htwo' hv hn hlt ?_ fun l => ?_
    · unfold which
      rw [if_neg (by rw [ho.fill]; decide), if_pos he'.fill]
    · rw [he'.rest, List.merge_right, List.merge_right]
  · have hlt : b + n + m.two.titms < f.length := by
      by_contra hge
      have := ht.titms
      exact hne (left_nil he.rest (ht.rest_short (by omega)) (by omega))
    refine ht.taken_two hone' hv hn hlt ?_ fun l => ?_
    · unfold which
      rw [if_pos he.fill]
    · rw [he.rest, List.nil_merge, List.nil_merge]
  · exact absurd (left_nil he.rest he'.rest (hboth he.fill he'.fill)) hne

/-- A step writes the first of the records that are left. -/
theorem takeNext_spec (hS : OrderOn v.cmp S) (hf : ∀ r ∈ f, r ∈ S) (hv : v.Fits) (hpos : 0 < n) (hn : n < 2 ^ 32) {m : MergeSt}
    (hone : AtRun v f n b m.one) (htwo : AtRun v f n (b + n) m.two)
    (hboth : m.one.fill = true → m.two.fill = true → f.length ≤ b + 2 * n) (hne : left v f n b m.one m.two ≠ []) :
    ∃ r one two b', v.takeNext f n f.length m = some (r, one, two) ∧ AtRun v f n b' one ∧ AtRun v f n (b' + n) two ∧
      (one.fill = true → two.fill = true → f.length ≤ b' + 2 * n) ∧ left v f n b m.one m.two = r :: left v f n b' one two := by
  obtain ⟨w, r, one, two, hw, hr, hone', htwo', hat, hat', hleft⟩ := take_spec hS hf hv hn hone htwo hboth hne
  simp only [takeNext, hw, hr, hone', htwo', Option.bind_eq_bind, Option.bind_some]
  by_cases hfill : one.fill = true ∧ two.fill = true
  · obtain ⟨one', two', b', hrun, hrun', hb, hb', hboth', heq⟩ := reload_spec hv hpos (hat.ended hfill.1) (hat'.ended hfill.2)
    rw [if_pos (by rw [hfill.1, hfill.2]; rfl), hrun, Option.bind_some, hrun', Option.bind_some]
    exact ⟨r, one', two', b', rfl, hb, hb', hboth', by rw [hleft, heq]⟩
  · rw [if_neg (by rwa [Bool.and_eq_true])]
    exact ⟨r, one, two, b, rfl, hat, hat', fun h h' => absurd ⟨h, h'⟩ hfill, hleft⟩

/-! ## A pass -/

/-- What has been written, what waits in `kbuf` and what is left make up the result of the pass. -/
structure PassInv (v : VsortCtl) (f : List VsortRec) (n b : Nat) (m : MergeSt) : Prop where
  one : AtRun v f n b m.one
  two : AtRun v f n (b + n) m.two
  both : m.one.fill = true → m.two.fill = true → f.length ≤ b + 2 * n
  out : m.out.length < v.nkeys
  titms : m.titms = m.tpos + m.out.length
  tpos : m.tpos ≤ m.file.length
  file : m.file.length ≤ f.length
  done : m.file.take m.tpos ++ m.out ++ left v f n b m.one m.two = mergePass v.le n f

theorem PassInv.length {m : MergeSt} (h : PassInv v f n b m) (hn : 0 < n) : m.titms + (left v f n b m.one m.two).length = f.length := by
  have := congrArg List.length h.done
  rw [length_mergePass hn, List.length_append, List.length_append, List.length_take, Nat.min_eq_left h.tpos] at this
  rw [h.titms, this]

theorem take_writeAt {pos : Nat} {recs : List VsortRec} (h : pos ≤ f.length) :
    (writeAt f pos recs).take (pos + recs.length) = f.take pos ++ recs := by
  unfold writeAt
  rw [Nat.sub_eq_zero_of_le h, List.replicate_zero, List.append_nil, List.take_append_of_le_length, List.take_of_length_le]
  · rw [List.length_append, List.length_take, Nat.min_eq_left h]
  · rw [List.length_append, List.length_take, Nat.min_eq_left h]

theorem length_writeAt {pos : Nat} {recs : List VsortRec} (h : pos ≤ f.length) :
    (writeAt f pos recs).length = max f.length (pos + recs.length) := by
  unfold writeAt
  rw [Nat.sub_eq_zero_of_le h, List.replicate_zero, List.append_nil, List.length_append, List.length_append, List.length_take,
    List.length_drop, Nat.min_eq_left h]
  omega

theorem PassInv.put {m : MergeSt} {r : VsortRec} {one two : Run} {b' : Nat} (h : PassInv v f n b m) (hn : 0 < n) (hlen : f.length < 2 ^ 32)
    (hone : AtRun v f n b' one) (htwo : AtRun v f n (b' + n) two) (hboth : one.fill = true → two.fill = true → f.length ≤ b' + 2 * n)
    (hleft : left v f n b m.one m.two = r :: left v f n b' one two) : PassInv v f n b' (v.put m r one two) := by
  have htotal := h.length hn
  rw [hleft, List.length_cons] at htotal
  have htitms := h.titms
  have htpos := h.tpos
  have hfile := h.file
  have hout := h.out
  have hdone := h.done
  rw [hleft, ← List.singleton_append, ← List.append_assoc, List.append_assoc (m.file.take m.tpos)] at hdone
  have hlast : (m.out ++ [r]).length = m.out.length + 1 := by rw [List.length_append, List.length_singleton]
  unfold VsortCtl.put
  rw [Nat.mod_eq_of_lt (by omega)]
  by_cases hfull : (m.out ++ [r]).length ≥ v.nkeys
  · rw [if_pos hfull]
    have hnk : v.nkeys = (m.out ++ [r]).length := by omega
    have hfl := @length_writeAt _ _ (m.out ++ [r]) htpos
    refine ⟨hone, htwo, hboth, v.nkeys_pos, ?_, ?_, ?_, ?_⟩
    · show m.titms + 1 = m.tpos + v.nkeys + 0
      omega
    · show m.tpos + v.nkeys ≤ (writeAt m.file m.tpos (m.out ++ [r])).length
      omega
    · show (writeAt m.file m.tpos (m.out ++ [r])).length ≤ f.length
      omega
    · show (writeAt m.file m.tpos (m.out ++ [r])).take (m.tpos + v.nkeys) ++ [] ++ left v f n b' one two = _
      rw [hnk, take_writeAt htpos, List.append_nil]
      exact hdone
  · rw [if_neg hfull]
    refine ⟨hone, htwo, hboth, not_le.mp hfull, ?_, htpos, hfile, ?_⟩
    · show m.titms + 1 = m.tpos + (m.out ++ [r]).length
      omega
    · rw [← List.append_assoc (m.file.take m.tpos)] at hdone
      show m.file.take m.tpos ++ (m.out ++ [r]) ++ left v f n b' one two = _
      rw [← List.append_assoc (m.file.take m.tpos)]
      exact hdone

/-- A pass over less than 2 ^ 32 records ends, and writes what it should. -/
theorem mergeLoop_spec (hS : OrderOn v.cmp S) (hf : ∀ r ∈ f, r ∈ S) (hv : v.Fits) (hpos : 0 < n) (hn : n < f.length)
    (hlen : f.length < 2 ^ 32) {m : MergeSt} (h : PassInv v f n b m) (hfuel : f.length < m.titms + fuel) :
    ∃ m', v.mergeLoop f n f.length fuel m = some m' ∧ writeAt m'.file m'.tpos m'.out = mergePass v.le n f := by
  induction fuel generalizing m b with
  | zero =>
    have := h.length hpos
    omega
  | succ fuel ih =>
    have htotal := h.length hpos
    unfold mergeLoop
    by_cases hlt : m.titms < f.length
    · have hne : left v f n b m.one m.two ≠ [] := by
        intro hnil
        rw [hnil, List.length_nil] at htotal
        omega
      obtain ⟨r, one, two, b', hrun, hone, htwo, hboth, hleft⟩ := takeNext_spec hS hf hv hpos (by omega) h.one h.two h.both hne
      have hput := h.put hpos hlen hone htwo hboth hleft
      have htitms : (v.put m r one two).titms = m.titms + 1 := by
        unfold VsortCtl.put
        split <;> exact Nat.mod_eq_of_lt (by omega)
      rw [if_pos hlt, hrun, Option.bind_eq_bind, Option.bind_some]
      have hlast := ih hput (by omega)
      exact hlast
    · rw [if_neg hlt]
      refine ⟨m, rfl, ?_⟩
      have hnil : left v f n b m.one m.two = [] := List.length_eq_zero_iff.mp (by omega)
      have hdone := h.done
      have hfile := h.file
      have htitms := h.titms
      rw [hnil, List.append_nil] at hdone
      unfold writeAt
      rw [Nat.sub_eq_zero_of_le h.tpos, List.replicate_zero, List.append_nil, hdone, List.drop_eq_nil_of_le (by omega), List.append_nil]

/-- The count of the records written never gets as far as 2 ^ 32. -/
theorem mergeLoop_none {recCount : Nat} (hrec : 2 ^ 32 ≤ recCount) (fuel : Nat) (m : MergeSt) (hm : m.titms < 2 ^ 32) :
    v.mergeLoop f n recCount fuel m = none := by
  induction fuel generalizing m with
  | zero => rfl
  | succ fuel ih =>
    unfold mergeLoop
    rw [if_pos (by omega)]
    cases v.takeNext f n recCount m with
    | none => rfl
    | some r =>
      rw [Option.bind_eq_bind, Option.bind_some]
      refine ih _ ?_
      unfold VsortCtl.put
      split <;> exact Nat.mod_lt _ (by decide)

/-- The passes leave one run. -/
theorem merge_spec (hS : OrderOn v.cmp S) (hf : ∀ r ∈ f, r ∈ S) (hv : v.Fits) (hpos : 0 < n) (hlen : f.length ≤ n ∨ f.length < 2 ^ 32)
    (hg : g.length ≤ f.length) (hruns : SortedRuns v.le n f) {src dst : Nat} (hfuel : 2 * f.length + 2 ≤ fuel + n) (h0 : 0 < fuel) :
    ∃ w f', v.merge f.length fuel n src dst f g = some (w, f') ∧ (w = src ∨ w = dst) ∧ f'.Perm f ∧ f'.Pairwise (v.le · ·) := by
  induction fuel generalizing n src dst f g with
  | zero => omega
  | succ fuel ih =>
    unfold merge
    rw [fillbuf_eq hv, Option.bind_eq_bind, Option.bind_some]
    by_cases hn : n ≥ f.length
    · rw [if_pos hn]
      exact ⟨src, f, rfl, .inl rfl, .refl f, hruns.pairwise hn⟩
    have hlt : f.length < 2 ^ 32 := hlen.resolve_left hn
    rw [if_neg hn, fillbuf_eq hv, Option.bind_eq_bind, Option.bind_some]
    have hstart : PassInv v f n 0 ⟨⟨((f.drop 0).take v.nkeys).rightpad v.nkeys v.ffRec, 0, 0, 0, 0, false⟩,
        ⟨((f.drop n).take v.nkeys).rightpad v.nkeys v.ffRec, 0, 0, n, n, false⟩, [], 0, 0, g⟩ := by
      refine ⟨.inl ⟨rfl, rfl, hpos, rfl, v.nkeys_pos, fillbuf_eq hv _ _⟩, .inl ⟨rfl, (Nat.zero_add n).symm, hpos, ?_, v.nkeys_pos, fillbuf_eq hv _ _⟩,
        fun h => (by cases h), v.nkeys_pos, rfl, Nat.zero_le _, hg, ?_⟩
      · show n + 0 = 0 + n + 0
        omega
      · rw [mergePass_eq hpos, List.take_zero, List.append_nil, List.nil_append]
        unfold left rest
        simp only [Nat.zero_add, Nat.add_zero, List.drop_zero, Nat.sub_zero]
        rfl
    obtain ⟨m', hrun, hwrite⟩ := @mergeLoop_spec _ _ _ _ _ fuel hS hf hv hpos (not_le.mp hn) hlt _ hstart (by dsimp only; omega)
    have hperm := mergePass_perm hpos v.le f
    have hlen' := hperm.length_eq
    have hin : ∀ r ∈ mergePass v.le n f, r ∈ S := fun r hr => hf r (hperm.mem_iff.mp hr)
    have hruns' : SortedRuns v.le (n * 2) (mergePass v.le n f) := by
      rw [Nat.mul_comm]
      exact sortedRuns_mergePass hpos hS.totalOn hf hruns
    obtain ⟨w, f', hrun', hw, hperm', hpair⟩ := @ih (mergePass v.le n f) f _ hin (by omega) (.inr (by omega))
      (by omega) hruns' dst src (by omega) (by omega)
    rw [hrun, Option.bind_some, hwrite]
    rw [hlen'] at hrun'
    exact ⟨w, f', hrun', hw.symm, hperm'.trans hperm, hpair⟩

/-! ## The whole sort -/

/-- The records whose keys have been got. -/
def keysOf (getKey : Nat → Option VsortRec) (n m : Nat) : List VsortRec := (List.range' n m).filterMap getKey

/-- The full segments are in the file, and the rest in the buffer. -/
structure FillInv (v : VsortCtl) (done : List VsortRec) (s : Fill) : Prop where
  kbuf : s.kbuf.length < v.nkeys
  count : s.count = done.length
  file : s.file.length = s.segment * v.nkeys
  perm : (s.file ++ s.kbuf).Perm done
  runs : SortedRuns v.le v.nkeys s.file

theorem addKey_spec {done : List VsortRec} {s : Fill} {total : Nat} (hS : OrderOn v.cmp S) (hv : v.Fits) (h : FillInv v done s)
    (hdone : ∀ r ∈ done, r ∈ S) (hx : x ∈ S) (hlen : done.length + 1 ≤ total) (htotal : total ≤ v.nkeys ∨ total < 2 ^ 32)
    (hfuel : total + 3 ≤ fuel) : ∃ s', v.addKey fuel s x = some s' ∧ FillInv v (done ++ [x]) s' := by
  have hkbuf := h.kbuf
  have hcount := h.perm.length_eq
  have hfile := h.file
  rw [List.length_append] at hcount
  have hall : ¬v.allocated < (s.kbuf.length + 1) * v.vrecSize := by
    rw [hv.allocated, srtbufsz, Nat.mul_comm v.vrecSize]
    exact not_lt.mpr (Nat.mul_le_mul_right _ hkbuf)
  have hperm : (s.file ++ (s.kbuf ++ [x])).Perm (done ++ [x]) := by
    rw [← List.append_assoc]
    exact h.perm.append_right [x]
  unfold addKey
  rw [if_neg hall]
  by_cases hfull : s.kbuf.length + 1 = v.nkeys
  · have hin : ∀ r ∈ s.kbuf ++ [x], r ∈ S := by
      intro r hr
      rcases List.mem_append.mp hr with hr | hr
      · exact hdone r (h.perm.mem_iff.mp (List.mem_append_right _ hr))
      · exact List.mem_singleton.mp hr ▸ hx
    have hlast : (s.kbuf ++ [x]).length = v.nkeys := by rw [List.length_append, List.length_singleton, hfull]
    obtain ⟨l, hrun, hl, hsort⟩ := @qsort_spec _ _ fuel _ _ s.segment hS hin (by omega) h.file
    rw [if_pos hfull, hrun, Option.bind_eq_bind, Option.bind_some]
    have hlenl := hl.length_eq
    have hwrap : s.segment + 1 < 2 ^ 32 := by
      have hle : (s.segment + 1) * v.nkeys ≤ total := by
        rw [Nat.add_mul]
        omega
      rcases htotal with ht | ht
      · have := Nat.le_of_mul_le_mul_right (hle.trans (ht.trans (Nat.one_mul _).ge)) v.nkeys_pos
        omega
      · exact lt_of_le_of_lt (Nat.le_mul_of_pos_right _ v.nkeys_pos) (lt_of_le_of_lt hle ht)
    refine ⟨_, rfl, v.nkeys_pos, ?_, ?_, ?_, ?_⟩
    · dsimp only
      rw [h.count, List.length_append, List.length_singleton]
    · dsimp only
      rw [Nat.mod_eq_of_lt hwrap, List.length_append, hfile, Nat.add_mul, hlenl, hlast, Nat.one_mul]
    · rw [List.append_nil]
      exact (hl.append_left s.file).trans hperm
    · exact h.runs.append hfile (sortedRuns_of_pairwise hsort)
  · rw [if_neg hfull]
    refine ⟨_, rfl, ?_, ?_, hfile, hperm, h.runs⟩
    · dsimp only
      rw [List.length_append, List.length_singleton]
      omega
    · dsimp only
      rw [h.count, List.length_append, List.length_singleton]

theorem keysOf_none {getKey : Nat → Option VsortRec} (h : getKey n = none) (m : Nat) : keysOf getKey n (m + 1) = keysOf getKey (n + 1) m := by
  unfold keysOf
  rw [List.range'_succ, List.filterMap_cons_none h]

theorem keysOf_some {getKey : Nat → Option VsortRec} (h : getKey n = some x) (m : Nat) :
    keysOf getKey n (m + 1) = x :: keysOf getKey (n + 1) m := by
  unfold keysOf
  rw [List.range'_succ, List.filterMap_cons_some h]

theorem fillLoop_spec {getRecord : Nat → Int} {getKey : Nat → Option VsortRec} {done : List VsortRec} {s : Fill} {total m : Nat}
    (hS : OrderOn v.cmp S) (hv : v.Fits) (h : FillInv v done s) (hdone : ∀ r ∈ done, r ∈ S) (hrec : ∀ k, k < n + m → getRecord k = 0)
    (hkey : ∀ k r, getKey k = some r → r ∈ S) (hlen : done.length + (keysOf getKey n m).length ≤ total)
    (htotal : total ≤ v.nkeys ∨ total < 2 ^ 32) (hfuel : total + 3 ≤ fuel) :
    ∃ s', v.fillLoop fuel getRecord getKey m n s = some (.ok s') ∧ FillInv v (done ++ keysOf getKey n m) s' := by
  induction m generalizing n s done with
  | zero =>
    refine ⟨s, rfl, ?_⟩
    rwa [keysOf, List.range'_zero, List.filterMap_nil, List.append_nil]
  | succ m ih =>
    unfold fillLoop
    rw [if_neg (not_not.mpr (hrec n (by omega)))]
    have hrec' : ∀ k, k < n + 1 + m → getRecord k = 0 := fun k hk => hrec k (by omega)
    cases hk : getKey n with
    | none =>
      rw [keysOf_none hk] at hlen ⊢
      exact ih h hdone hrec' hlen
    | some r =>
      rw [keysOf_some hk, List.length_cons] at hlen
      obtain ⟨s', hrun, hinv⟩ := @addKey_spec _ _ _ _ _ _ total hS hv h hdone (hkey n r hk) (by omega) htotal hfuel
      dsimp only
      rw [hrun, Option.bind_eq_bind, Option.bind_some, keysOf_some hk, ← List.singleton_append, ← List.append_assoc]
      refine ih hinv (fun q hq => ?_) hrec' (by rw [List.length_append, List.length_singleton]; omega)
      rcases List.mem_append.mp hq with hq | hq
      · exact hdone q hq
      · exact List.mem_singleton.mp hq ▸ hkey n r hk

theorem addKey_count {st st' : Fill} (h : v.addKey fuel st x = some st') : st'.count = st.count + 1 := by
  unfold addKey at h
  split at h
  · cases h
  split at h
  · cases hq : v.qsort_ fuel (st.kbuf ++ [x]) st.segment st.file with
    | none =>
      rw [hq] at h
      cases h
    | some l =>
      rw [hq] at h
      cases h
      rfl
  · cases h
    rfl

/-- However the first part of the sort comes out, it counts the records. -/
theorem fillLoop_count {getRecord : Nat → Int} {getKey : Nat → Option VsortRec} {st : Fill} {m : Nat} {r : Except Int Fill}
    (hrec : ∀ k, k < n + m → getRecord k = 0) (h : v.fillLoop fuel getRecord getKey m n st = some r) :
    ∃ st', r = .ok st' ∧ st'.count = st.count + (keysOf getKey n m).length := by
  induction m generalizing n st with
  | zero =>
    cases h
    exact ⟨st, rfl, rfl⟩
  | succ m ih =>
    unfold fillLoop at h
    rw [if_neg (not_not.mpr (hrec n (by omega)))] at h
    have hrec' : ∀ k, k < n + 1 + m → getRecord k = 0 := fun k hk => hrec k (by omega)
    cases hk : getKey n with
    | none =>
      rw [hk] at h
      rw [keysOf_none hk]
      exact ih hrec' h
    | some y =>
      rw [hk] at h
      dsimp only at h
      rw [keysOf_some hk, List.length_cons]
      cases ha : v.addKey fuel st y with
      | none =>
        rw [ha] at h
        cases h
      | some st1 =>
        rw [ha, Option.bind_eq_bind, Option.bind_some] at h
        obtain ⟨st', rfl, hcount⟩ := ih hrec' h
        have := addKey_count ha
        exact ⟨st', rfl, by omega⟩

/-- The file that the sort has found is in order to the verification too. -/
theorem verifyLoop_spec (hasc : v.descending = false) (hS : OrderOn v.cmp S) (hf : ∀ r ∈ f, r ∈ S) (hsort : f.Pairwise (v.le · ·)) {m : Nat}
    (hroom : f.length ≤ 1 ∨ 2 * v.vrecSize ≤ v.allocated) {prev : Option VsortRec} (hlen : n + m = f.length)
    (hprev : ∀ q, prev = some q → ∃ k, k < n ∧ f[k]? = some q) : v.verifyLoop f m n prev = some 0 := by
  induction m generalizing n prev with
  | zero => rfl
  | succ m ih =>
    have hlt : n < f.length := by omega
    unfold verifyLoop
    rw [if_neg (by omega), List.getElem?_eq_getElem hlt]
    dsimp only
    have hok : ¬(prev.map fun q => v.qcomp f[n] q).any (· < 0) = true := by
      cases prev with
      | none => exact Bool.false_ne_true
      | some q =>
        obtain ⟨k, hk, hq⟩ := hprev q rfl
        obtain ⟨hkl, rfl⟩ := List.getElem?_eq_some_iff.mp hq
        have hle : v.cmp f[k] f[n] ≤ 0 := of_decide_eq_true (List.pairwise_iff_getElem.mp hsort k n hkl hlt hk)
        have hge := (hS.le_iff (hf _ (List.getElem_mem hkl)) (hf _ (List.getElem_mem hlt))).mp hle
        unfold cmp at hge
        rw [hasc, if_neg Bool.false_ne_true] at hge
        simpa using hge
    rw [if_neg hok]
    refine ih (by omega) fun q hq => ⟨n, Nat.lt_succ_self n, ?_⟩
    rw [List.getElem?_eq_getElem hlt, hq]

/-- With room for one record only, the verification writes outside of its buffer. -/
theorem verifyLoop_none (hroom : v.allocated < 2 * v.vrecSize) {m : Nat} (hm : 1 < m) (hlen : f.length = m) : v.verifyLoop f m 0 none = none := by
  obtain ⟨m, rfl⟩ : ∃ k, m = k + 2 := ⟨m - 2, by omega⟩
  unfold verifyLoop
  rw [if_neg (by omega), List.getElem?_eq_getElem (by omega)]
  dsimp only
  rw [if_neg (by exact Bool.false_ne_true)]
  unfold verifyLoop
  rw [if_pos ⟨Nat.one_pos, hroom⟩]

/-- The sort comes to its end, with each of the records once in the file that it names, and in order. -/
def Sorts (v : VsortCtl) (getRecord : Nat → Int) (getKey : Nat → Option VsortRec) (recCount : Nat) (verify : Bool) : Prop :=
  ∃ n, ∀ fuel, n ≤ fuel → ∃ w f, v.vsort_ fuel getRecord getKey recCount verify = some (w, f) ∧ (w = 0 ∨ w = 1) ∧
    (f.take (keysOf getKey 0 recCount).length).Perm (keysOf getKey 0 recCount) ∧
    (f.take (keysOf getKey 0 recCount).length).Pairwise fun p q => v.qcomp p q ≤ 0

/-- The last segment, which may be shorter, is written too. -/
theorem lastSegment_spec {done : List VsortRec} {st : Fill} (hS : OrderOn v.cmp S) (h : FillInv v done st) (hdone : ∀ r ∈ done, r ∈ S)
    (hfuel : done.length + 3 ≤ fuel) : ∃ f, (if st.kbuf ≠ [] then v.qsort_ fuel st.kbuf st.segment st.file else some st.file) = some f ∧
      f.Perm done ∧ SortedRuns v.le v.nkeys f := by
  have hperm := h.perm
  by_cases hk : st.kbuf = []
  · rw [hk, List.append_nil] at hperm
    rw [if_neg (not_not.mpr hk)]
    exact ⟨st.file, rfl, hperm, h.runs⟩
  · have hlen := hperm.length_eq
    rw [List.length_append] at hlen
    obtain ⟨l, hrun, hl, hsort⟩ := @qsort_spec _ _ fuel _ _ st.segment hS (fun r hr => hdone r (hperm.mem_iff.mp (List.mem_append_right _ hr))) (by omega) h.file
    rw [if_pos hk]
    exact ⟨st.file ++ l, hrun, (hl.append_left st.file).trans hperm, h.runs.append h.file (sortedRuns_of_pairwise hsort)⟩

/-- What the sort makes of its records, when they are few enough. -/
theorem vsort_spec {getRecord : Nat → Int} {getKey : Nat → Option VsortRec} {recCount : Nat} (verify : Bool) (hS : OrderOn v.cmp S) (hv : v.Fits)
    (hrec : ∀ k, k < recCount → getRecord k = 0) (hkey : ∀ k r, getKey k = some r → r ∈ S)
    (htotal : (keysOf getKey 0 recCount).length ≤ v.nkeys ∨ (keysOf getKey 0 recCount).length < 2 ^ 32)
    (hfuel : 2 * (keysOf getKey 0 recCount).length + 3 ≤ fuel) :
    ∃ (w : Nat) (f : List VsortRec), (w = 0 ∨ w = 1) ∧ f.Perm (keysOf getKey 0 recCount) ∧ f.Pairwise (v.le · ·) ∧
      v.vsort_ fuel getRecord getKey recCount verify =
        (if verify then v.verifyLoop f f.length 0 none else some 0).bind fun ccode => if ccode ≠ 0 then some (-1, f) else some ((w : Int), f) := by
  have hstart : FillInv v [] ⟨[], 0, 0, []⟩ := ⟨v.nkeys_pos, rfl, (Nat.zero_mul _).symm, .refl _, sortedRuns_nil _ _⟩
  have hdone : ∀ r ∈ keysOf getKey 0 recCount, r ∈ S := by
    intro r hr
    obtain ⟨k, -, hk⟩ := List.mem_filterMap.mp hr
    exact hkey k r hk
  obtain ⟨st, hfill, hinv⟩ := @fillLoop_spec _ _ 0 fuel _ _ _ _ (keysOf getKey 0 recCount).length recCount hS hv hstart (fun r hr => absurd hr (List.not_mem_nil)) (fun k hk => hrec k (by omega)) hkey (by rw [List.length_nil]; omega) htotal (by omega)
  rw [List.nil_append] at hinv
  obtain ⟨f, hlast, hperm, hruns⟩ := @lastSegment_spec _ _ fuel _ _ hS hinv hdone (by omega)
  have hlen := hperm.length_eq
  have hin : ∀ r ∈ f, r ∈ S := fun r hr => hdone r (hperm.mem_iff.mp hr)
  obtain ⟨w, f', hmerge, hw, hperm', hsort⟩ := @merge_spec _ _ _ [] _ fuel hS hin hv v.nkeys_pos (hlen ▸ htotal) (Nat.zero_le _) hruns 0 1 (by omega) (by omega)
  have hcount : st.count = f.length := by rw [hinv.count, hlen]
  refine ⟨w, f', hw, hperm'.trans hperm, hsort, ?_⟩
  unfold vsort_
  rw [hfill, Option.bind_eq_bind, Option.bind_some]
  dsimp only
  rw [hlast, Option.bind_eq_bind, Option.bind_some, hcount, hmerge, hperm'.length_eq]
  rfl

/-- Buffers longer than a `DWORD` tells, and 2 ^ 32 records that do not fit into one of them, are never sorted. -/
theorem vsort_none {getRecord : Nat → Int} {getKey : Nat → Option VsortRec} {recCount : Nat} (verify : Bool)
    (hrec : ∀ k, k < recCount → getRecord k = 0)
    (h : ¬v.Fits ∨ v.nkeys < (keysOf getKey 0 recCount).length ∧ 2 ^ 32 ≤ (keysOf getKey 0 recCount).length) :
    v.vsort_ fuel getRecord getKey recCount verify = none := by
  have hmerge : ∀ f, v.merge (keysOf getKey 0 recCount).length fuel v.nkeys 0 1 f [] = none := by
    intro f
    cases fuel with
    | zero => rfl
    | succ fuel =>
      unfold merge
      rcases Classical.em v.Fits with hv | hv
      · have hbig := h.resolve_left (not_not.mpr hv)
        rw [fillbuf_eq hv, Option.bind_eq_bind, Option.bind_some, if_neg (by omega), fillbuf_eq hv, Option.bind_eq_bind, Option.bind_some,
          mergeLoop_none hbig.2 fuel _ (by dsimp only; omega)]
        rfl
      · rw [fillbuf_none hv]
        rfl
  unfold vsort_
  cases hfill : v.fillLoop fuel getRecord getKey recCount 0 ⟨[], 0, 0, []⟩ with
  | none => rfl
  | some r =>
    obtain ⟨st, rfl, hcount⟩ := fillLoop_count (fun k hk => hrec k (by omega)) hfill
    rw [Nat.zero_add] at hcount
    rw [Option.bind_eq_bind, Option.bind_some]
    dsimp only
    cases (if st.kbuf ≠ [] then v.qsort_ fuel st.kbuf st.segment st.file else some st.file) with
    | none => rfl
    | some f =>
      rw [Option.bind_eq_bind, Option.bind_some, hcount, hmerge]
      rfl

/-- **The merge sort sorts**, in ascending order, as long as its buffers are no longer than a `DWORD` tells, the records that do
not fit into one of them are less than 2 ^ 32, and two records fit where two are to be compared by the verification. -/
theorem sorts_iff (v : VsortCtl) (S : Set VsortRec) (hasc : v.descending = false) (hS : OrderOn v.qcomp S) (getRecord : Nat → Int)
    (getKey : Nat → Option VsortRec) (recCount : Nat) (verify : Bool) (hrec : ∀ k, k < recCount → getRecord k = 0)
    (hkey : ∀ k r, getKey k = some r → r ∈ S) :
    Sorts v getRecord getKey recCount verify ↔ v.srtbufsz < 2 ^ 32 ∧
      ((keysOf getKey 0 recCount).length ≤ v.nkeys ∨ (keysOf getKey 0 recCount).length < 2 ^ 32) ∧
      (verify = true → (keysOf getKey 0 recCount).length ≤ 1 ∨ 2 ≤ v.nkeys) := by
  have hcmp : v.cmp = v.qcomp := by
    funext p q
    unfold cmp
    rw [hasc, if_neg Bool.false_ne_true]
  have hS' : OrderOn v.cmp S := hcmp ▸ hS
  constructor
  · rintro ⟨n, hrun⟩
    obtain ⟨w, f, hf, -⟩ := hrun (max n (2 * (keysOf getKey 0 recCount).length + 3)) (le_max_left _ _)
    have hv : v.Fits := by
      by_contra hv
      rw [vsort_none verify hrec (.inl hv)] at hf
      cases hf
    have htotal : (keysOf getKey 0 recCount).length ≤ v.nkeys ∨ (keysOf getKey 0 recCount).length < 2 ^ 32 := by
      by_contra hbig
      rw [vsort_none verify hrec (.inr (by omega))] at hf
      cases hf
    refine ⟨hv, htotal, fun hver => ?_⟩
    by_contra hroom
    obtain ⟨w', f', -, hperm, -, heq⟩ := vsort_spec verify hS' hv hrec hkey htotal (le_max_right _ _)
    have hsmall : v.allocated < 2 * v.vrecSize := by
      have hone : v.nkeys = 1 := by
        have := v.nkeys_pos
        omega
      have := v.recno_le
      rw [hv.allocated, srtbufsz, hone]
      omega
    rw [heq, if_pos hver, verifyLoop_none hsmall (by rw [hperm.length_eq]; omega) rfl] at hf
    cases hf
  · rintro ⟨hv, htotal, hroom⟩
    refine ⟨2 * (keysOf getKey 0 recCount).length + 3, fun fuel hfuel => ?_⟩
    obtain ⟨w, f, hw, hperm, hsort, heq⟩ := vsort_spec verify hS' hv hrec hkey htotal hfuel
    have hver : (if verify = true then v.verifyLoop f f.length 0 none else some 0) = some 0 := by
      by_cases hv' : verify = true
      · rw [if_pos hv']
        have hin : ∀ r ∈ f, r ∈ S := by
          intro r hr
          obtain ⟨k, -, hk⟩ := List.mem_filterMap.mp (hperm.mem_iff.mp hr)
          exact hkey k r hk
        refine verifyLoop_spec hasc hS' hin hsort ?_ (Nat.zero_add _) fun q hq => by cases hq
        rw [Fits.allocated hv, srtbufsz, hperm.length_eq, Nat.mul_comm 2]
        exact (hroom hv').imp_right fun h => Nat.mul_le_mul_left _ h
      · rw [if_neg hv']
    rw [hver, Option.bind_some, if_neg (not_not.mpr rfl)] at heq
    refine ⟨w, f, heq, by omega, ?_, ?_⟩
    · rw [← hperm.length_eq, List.take_length]
      exact hperm
    · rw [← hperm.length_eq, List.take_length]
      refine hsort.imp fun h => ?_
      rw [← hcmp]
      exact of_decide_eq_true h

end Merge

/-! ## The comparison of an index -/

/-- Where `qcomp` is a strict total order of records that each have a number of their own, it is an order for the sort. -/
theorem orderOn_sortCmp {hdr : NdxHdr} {S : Set VsortRec} (hS : Recnos S) (h : StrictTotal hdr S) : OrderOn (sortCmp hdr) S := by
  have hle : ∀ p ∈ S, ∀ q ∈ S, sortCmp hdr p q ≤ 0 → p = q ∨ sortCmp hdr p q < 0 := by
    intro p hp q hq hpq
    by_cases hrec : p.recNo = q.recNo
    · obtain ⟨pr, pk⟩ := p
      obtain ⟨qr, qk⟩ := q
      have hkey : pk = qk := hS.inj _ hp _ hq hrec
      rw [show pr = qr from hrec, hkey]
      exact .inl rfl
    · rcases h.total p hp q hq hrec with hlt | hgt
      · exact .inr hlt
      · have := (h.symm q hq p hp).mp hgt
        omega
  refine ⟨h.symm, fun p hp q hq r hr hpq hqr => ?_, fun p _ q hq => ?_⟩
  · rcases hle p hp q hq hpq with rfl | hlt
    · exact hqr
    · rcases hle q hq r hr hqr with rfl | hlt'
      · exact hpq
      · exact (h.trans p hp q hq r hr hlt hlt').le
  · unfold sortCmp sortQcomp Db3w.qcomp
    by_cases heq : p.recNo = q.recNo
    · rw [if_pos heq]
    · rw [if_neg heq, if_pos (.inr hq)]
      decide

/-- A sort by record numbers, with the buffers that the program has. -/
def recnoSort : VsortCtl := ⟨65536, 16, fun p q => cmpOrd p.recNo.toNat q.recNo.toNat, false, by decide, by decide⟩

theorem orderOn_recno : OrderOn recnoSort.qcomp Set.univ := by
  have hle : ∀ a b : Nat, cmpOrd a b ≤ 0 ↔ a ≤ b := fun a b => by rw [← not_lt, cmpOrd_pos, not_lt]
  refine ⟨fun p _ q _ => ?_, fun p _ q _ r _ hpq hqr => ?_, fun p _ q hq => ?_⟩
  · show cmpOrd p.recNo.toNat q.recNo.toNat < 0 ↔ 0 < cmpOrd q.recNo.toNat p.recNo.toNat
    rw [cmpOrd_neg, cmpOrd_pos]
  · exact (hle _ _).mpr (((hle _ _).mp hpq).trans ((hle _ _).mp hqr))
  · refine (hle _ _).mpr ?_
    rw [hq]
    exact Nat.le_of_lt_succ p.recNo.toNat_lt

/-- The keys of a table whose records all have the key 1. -/
def oneKeys (n : Nat) : Option VsortRec := some (sortRec (UInt64.ofNat (n + 1)))

theorem length_oneKeys (n m : Nat) : (keysOf oneKeys n m).length = m := by
  unfold keysOf
  rw [show oneKeys = some ∘ fun n => sortRec (UInt64.ofNat (n + 1)) from rfl, List.filterMap_eq_map, List.length_map, List.length_range']

/-- 2 ^ 32 records are not sorted. -/
theorem sorts_fails : OrderOn recnoSort.qcomp Set.univ ∧ ¬Sorts recnoSort (fun _ => 0) oneKeys 4294967296 false := by
  refine ⟨orderOn_recno, ?_⟩
  rintro ⟨n, hrun⟩
  obtain ⟨w, f, hf, -⟩ := hrun n le_rfl
  have hbig : recnoSort.nkeys < (keysOf oneKeys 0 4294967296).length ∧ 2 ^ 32 ≤ (keysOf oneKeys 0 4294967296).length := by
    rw [length_oneKeys]
    decide
  rw [vsort_none false (fun _ _ => rfl) (.inr hbig)] at hf
  cases hf

theorem sorts_iff_three : Sorts recnoSort (fun _ => 0) oneKeys 3 true ↔ recnoSort.srtbufsz < 2 ^ 32 ∧
    ((keysOf oneKeys 0 3).length ≤ recnoSort.nkeys ∨ (keysOf oneKeys 0 3).length < 2 ^ 32) ∧
    (true = true → (keysOf oneKeys 0 3).length ≤ 1 ∨ 2 ≤ recnoSort.nkeys) :=
  sorts_iff recnoSort Set.univ rfl orderOn_recno (fun _ => 0) oneKeys 3 true (fun _ _ => rfl) fun _ _ _ => Set.mem_univ _

end Db3w.VsortCtl
