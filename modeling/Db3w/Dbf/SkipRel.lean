/-
SKIP through a one-to-many relation. As long as the related table is at an entry that matches the value of the
relation, `skip_rel` moves it to the entry behind: the value of the relation and the key of that entry are compared
on the stack. When the entry behind is the first of its page, its key is missing there.
-/
import Db3w.Dbf.Navigate

namespace Db3w.Nav

open Falling

/-! ## Running -/

theorem NavM.bind_apply {α β : Type} (x : NavM α) (f : α → NavM β) (w : World) :
    (x >>= f) w = match x w with
      | .ok a w' => f a w'
      | .error e w' => .error e w' := by
  simp only [bind, EStateM.bind]
  cases x w <;> rfl

theorem NavM.bind_ok {α β : Type} {x : NavM α} {f : α → NavM β} {w w' : World} {a : α} (h : x w = .ok a w') :
    (x >>= f) w = f a w' := by rw [NavM.bind_apply, h]

theorem NavM.bind_eq_ok {α β : Type} {x : NavM α} {f : α → NavM β} {w w'' : World} {b : β} (h : (x >>= f) w = .ok b w'') :
    ∃ a w', x w = .ok a w' ∧ f a w' = .ok b w'' := by
  rw [NavM.bind_apply] at h
  cases hx : x w with
  | ok a w' =>
    rw [hx] at h
    exact ⟨a, w', rfl, h⟩
  | error e w' =>
    rw [hx] at h
    cases h

theorem NavM.pure_apply {α : Type} (a : α) (w : World) : (pure a : NavM α) w = .ok a w := rfl

theorem NavM.get_apply (w : World) : (get : NavM World) w = .ok w w := rfl

section Steps

variable {α : Type} {env : Env} {C P : Area} {as : List Area} {S S' : Hb.Stack} {v : Hb.HbVal} {a : α} {w w' : World}

theorem modifyCur_apply (f : Area → Area) : modifyCur f ⟨C, as, S⟩ = .ok () ⟨f C, as, S⟩ := rfl

theorem onStack_ok {f : Hb.Stack → Except Hb.HbErr (α × Hb.Stack)} (h : f S = .ok (a, S')) : onStack f ⟨C, as, S⟩ = .ok a ⟨C, as, S'⟩ := by
  unfold onStack
  dsimp only
  rw [h]

end Steps

/-- Without a relation there is nothing to move. -/
theorem goRel_alone {env : Env} {fuel : Nat} {C : Area} {S : Hb.Stack} : goRel env (fuel + 1) ⟨C, [], S⟩ = .ok true ⟨C, [], S⟩ := by
  rw [goRel, NavM.bind_ok (NavM.get_apply _)]
  rfl

/-- What `bop(TEQUAL)` says of a value and a key. -/
def sameText (exactOn : Bool) (s key : List UInt8) : Bool :=
  Hb.strDiff (min key.length s.length) s key = 0 && (!exactOn || s.length = key.length)

/-- `find` takes an entry for a match of a value. -/
def matchesVal (env : Env) (hd : NdxHdr) (v : Hb.HbVal) (e : Ent) : Bool :=
  (relKey env hd v).any fun key => keyCmp hd env.set.exactOn ⟨0, 0, key⟩ e = 0

/-- The places of the matches of a value, in the order of the index. -/
def matchSlots (env : Env) (hd : NdxHdr) (t : Tree) (v : Hb.HbVal) : List (Slot Pageno Ent) := t.slots.filter fun s => matchesVal env hd v s.ent

/-- A related table with an active character index, wherever it stands. -/
structure Child (env : Env) (hd : NdxHdr) (t : Tree) (hid : Recno → Bool) (C : Area) : Prop where
  order : ∃ st, C.order = some st ∧ st.hdr = hd ∧ TextIndex st t
  depth : t.height < env.depth
  recs : ∀ e ∈ t.entries, e.recno ≤ C.reccnt
  hidden : C.hidden = hid

/-- The table shows the record of an entry, and its index stands there. -/
structure At (C : Area) (s : Slot Pageno Ent) : Prop where
  place : ∃ st, C.order = some st ∧ st.pageNo = s.page ∧ st.entryNo = s.idx
  crntrec : C.crntrec = s.ent.recno
  etof : C.etof none = false

section Child

variable {env : Env} {hd : NdxHdr} {t : Tree} {hid : Recno → Bool} {C C' : Area} {st : Ndx} {v : Hb.HbVal} {key : Key} {S : Hb.Stack}
  {s : Slot Pageno Ent} {fuel : Nat} {w' : World}

theorem Child.keep (h : Child env hd t hid C) (ho : C'.order = C.order) (hr : C'.reccnt = C.reccnt) (hh : C'.hidden = C.hidden) :
    Child env hd t hid C' where
  order := ho ▸ h.order
  depth := h.depth
  recs := hr ▸ h.recs
  hidden := hh.trans h.hidden

theorem Child.step (h : Child env hd t hid C) (hst : C.order = some st) {q : Pageno} {n : Int}
    (ho : C'.order = some { st with pageNo := q, entryNo := n }) (hr : C'.reccnt = C.reccnt) (hh : C'.hidden = C.hidden) :
    Child env hd t hid C' where
  order := by
    obtain ⟨st', hst', hhd, hix⟩ := h.order
    obtain rfl : st = st' := Option.some.inj (hst.symm.trans hst')
    exact ⟨_, ho, hhd, hix.moved q n⟩
  depth := h.depth
  recs := hr ▸ h.recs
  hidden := hh.trans h.hidden

/-- The key of a value that can be found in a character index. -/
theorem relKey_char (hk : hd.keytyp = 0) (h : relKey env hd v = some key) :
    ∃ s, v = .charctr s ∧ s ≠ [] ∧ s.length ≤ hd.keylen ∧ key = s ++ List.replicate (hd.keylen - s.length) 32 := by
  unfold relKey at h
  dsimp only at h
  split at h
  · cases h
  next hnull =>
    split at h
    next s =>
      split at h
      · cases h
      next hle =>
        refine ⟨s, rfl, ?_, by omega, ?_⟩
        · rintro rfl
          exact hnull rfl
        · cases h
          simp [findKey]
    · rw [if_pos (.inl hk)] at h
      cases h
    · rw [if_pos (.inl hk)] at h
      cases h
    · cases h

theorem relKey_length (hk : hd.keytyp = 0) (h : relKey env hd v = some key) : key.length = hd.keylen := by
  obtain ⟨s, -, -, hle, rfl⟩ := relKey_char hk h
  rw [List.length_append, List.length_replicate]
  omega

/-- The search of `find` ends at the first match. -/
theorem Child.search (h : Child env hd t hid C) (hst : C.order = some st) {cfg : Cfg} (hcfg : cfg.exactOn = env.set.exactOn)
    (hk : relKey env hd v = some key) : btsrch cfg env.depth hd.rootno .tequal ⟨0, 0, key⟩ st = land st (matchSlots env hd t v).head? := by
  obtain ⟨st', hst', rfl, hix⟩ := h.order
  obtain rfl : st = st' := Option.some.inj (hst.symm.trans hst')
  have hlen := relKey_length hix.search.keytyp hk
  rw [btsrch_index hix.search (hix.falling hlen) (by decide) (by simp) h.depth]
  refine congrArg (land st) ?_
  unfold srchSlot matchSlots equal slotsOf
  rw [Option.elim_some]
  refine congrArg List.head? (List.filter_congr fun s _ => ?_)
  simp only [srchCmp, if_true, matchesVal, hk, Option.any_some, hcfg]

/-- A value with a match is a string that is not empty and not longer than the key. -/
theorem Child.value (h : Child env hd t hid C) (hs : (matchSlots env hd t v).head? = some s) :
    ∃ x, v = .charctr x ∧ x ≠ [] ∧ x.length ≤ hd.keylen := by
  obtain ⟨st, -, rfl, hix⟩ := h.order
  obtain ⟨-, hm⟩ := List.mem_filter.mp (List.mem_of_head? hs)
  unfold matchesVal at hm
  cases hk : relKey env st.hdr v with
  | none =>
    rw [hk] at hm
    cases hm
  | some key =>
    obtain ⟨x, hx, hx0, hle, -⟩ := relKey_char hix.search.keytyp hk
    exact ⟨x, hx, hx0, hle⟩

/-! ## What `find` does in it -/

/-- What is left to do when `find` has no match. -/
theorem noFind_ok : noFind env (fuel + 2) ⟨C, [], S⟩ = .ok () ⟨{ C with eof := true }, [], S⟩ := by
  rw [noFind, NavM.bind_ok (modifyCur_apply _), NavM.bind_ok goRel_alone]
  rfl

/-- The table at a record that `find` has come to. -/
def Area.found (C : Area) (st : Ndx) (s : Slot Pageno Ent) : Area :=
  { C with
    buf := s.ent.recno
    crntrec := s.ent.recno
    eof := false
    tof := false
    recFound := true
    order := some { st with pageNo := s.page, entryNo := s.idx } }

theorem Child.found (hC : Child env hd t hid C) (hst : C.order = some st) (s : Slot Pageno Ent) :
    Child env hd t hid (C.found st s) ∧ At (C.found st s) s :=
  ⟨hC.step hst rfl rfl rfl, ⟨_, rfl, rfl, rfl⟩, rfl, rfl⟩

theorem Child.mark (hC : Child env hd t hid C) (d : Option Dir) : Child env hd t hid (C.mark d) := by
  rcases d with _ | _ | _
  · exact hC.keep rfl rfl rfl
  · exact hC.keep rfl rfl rfl
  · exact hC.keep rfl rfl rfl

/-- The key of an entry, as `push_ndx_entry` pushes it. -/
theorem Child.entryVal (hC : Child env hd t hid C) {e : Ent} (he : e ∈ t.entries) : entryVal hd e.key = .charctr e.key := by
  obtain ⟨st, -, rfl, hix⟩ := hC.order
  have hk : ¬st.hdr.keytyp = CMBK := by
    rw [hix.search.keytyp]
    decide
  have h0 : ¬st.hdr.keytyp ≠ 0 := not_not.mpr hix.search.keytyp
  rw [Nav.entryVal, if_neg hk, if_neg h0, List.take_of_length_le (hix.search.keylen e he).le]

variable {P : Area} {x : List UInt8} {n : Nat} {r : Slot Pageno Ent}

end Child

end Db3w.Nav
