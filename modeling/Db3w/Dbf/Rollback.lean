/-
ROLLBACK. An entry of the undo file is the record as it was before its update, and the file goes back
through from its end, so that each entry undoes one update; every record is replaced at most once, as
its mark keeps it from being replaced again. An entry whose fields are those of the record is passed
over, and the mark of the record then stays that of a transaction. The indexes are brought up to date
with the keys of the record as it is read: off the table, with those of a blank one.
-/
import Db3w.Dbf.Indexes
import Db3w.Dbf.UndoFile

namespace Db3w

/-- The valid records have the size of a record, and in every index no other entry than one of their key; the position in the
controlling index is at an entry. -/
structure Sound (t : Tbl Indexes) : Prop where
  size : ∀ r, r ≠ 0 → r ≤ t.reccnt → (t.disk r).mark = VAL_MKR → (t.disk r).data.length + 1 = t.byprec
  own : ∀ r, r ≠ 0 → r ≤ t.reccnt → (t.disk r).mark = VAL_MKR → ∀ ix ∈ t.ndx.ixs, ix.SoundAt r (ix.keyOf (t.disk r).data)
  placed : t.ndx.Placed

/-- The same records and the same entries in every index. -/
structure SameRecs (t u : Tbl Indexes) : Prop where
  disk : u.disk = t.disk
  byprec : u.byprec = t.byprec
  reccnt : u.reccnt = t.reccnt
  indexActive : u.indexActive = t.indexActive
  ndx : t.ndx.Like u.ndx

/-- An index holds the keys of a list of records. -/
def Idx.Holds (ix : Idx) (recs : List Rec) : Prop :=
  ix.entries.Perm ((recs.zipIdx 1).filterMap fun p => (ix.keyOf p.1.data).map (Ent.mk · p.2))

section Entry

variable {σ : Type} {upd : UpdNdx σ} {u u' : Tbl σ} {r : Nat} {old : Rec}

end Entry

section Undo

variable {cfg : Cfg} {hidden : Nat → List UInt8 → Bool} {t t' u q : Tbl Indexes} {hid : Bool} {r : Nat} {s : Store} {ss : List Store}
  {data : List UInt8} {log : List (Nat × Rec)} {ndx : Indexes}

theorem SameRecs.refl (t : Tbl Indexes) : SameRecs t t := ⟨rfl, rfl, rfl, rfl, Indexes.Like.refl _⟩

/-- A REPLACE that changed its record with indexes: the record was gone to, and the indexes were brought up to date. -/
theorem reindexed_update (hne : data ≠ (t.disk r).data) (hact : t.indexActive = true) (hx : reindexed (updndx cfg hidden) r data t = .ok ndx) :
    ∃ s₁ s₂, t.ndx.locate cfg r (t.disk r).data = .ok s₁ ∧ (updndx cfg hidden).update false false true r (t.disk r).data data s₁ = .ok s₂ ∧
      (s₂ = ndx ∨ s₂.locate cfg r data = .ok ndx) := by
  have hloc : located (updndx cfg hidden) r t = t.ndx.locate cfg r (t.disk r).data := if_pos hact
  unfold reindexed at hx
  rw [hloc] at hx
  cases h₁ : t.ndx.locate cfg r (t.disk r).data with
  | error e =>
    rw [h₁] at hx
    cases hx
  | ok s₁ =>
    rw [h₁] at hx
    dsimp only [bind, Except.bind] at hx
    rw [if_pos ⟨hne, hact⟩] at hx
    unfold reindex at hx
    cases h₂ : (updndx cfg hidden).update false false true r (t.disk r).data data s₁ with
    | error e =>
      rw [h₂] at hx
      cases hx
    | ok s₂ =>
      rw [h₂] at hx
      refine ⟨s₁, s₂, rfl, h₂, ?_⟩
      dsimp only [bind, Except.bind] at hx
      split at hx
      · exact .inl (Except.ok.inj hx)
      · exact .inr hx

/-- A REPLACE keeps the indexes sound for the records that stay valid. -/
theorem Sound.repl (hs : Sound t) (hlog : t.log.isSome) (hx : reindexed (updndx cfg hidden) r data t = .ok ndx) :
    Sound { replaced hid r data t with ndx } := by
  have hm : replMark t = TRANS_MKR := if_pos hlog
  have hother : ∀ i, (Function.update t.disk r ⟨replMark t, data⟩ i).mark = VAL_MKR →
      i ≠ r ∧ Function.update t.disk r ⟨replMark t, data⟩ i = t.disk i := by
    intro i hv
    have hir : i ≠ r := by
      rintro rfl
      rw [Function.update_self, hm] at hv
      cases hv
    exact ⟨hir, Function.update_of_ne hir ..⟩
  obtain ⟨hplaced, hframe⟩ : ndx.Placed ∧ ∀ ix' ∈ ndx.ixs, ∃ ix ∈ t.ndx.ixs, ix'.keyOf = ix.keyOf ∧ ∀ r', r' ≠ r → ix'.own r' = ix.own r' := by
    by_cases hre : Reindexes r data t
    · obtain ⟨s₁, s₂, hloc, hupd, hgo⟩ := reindexed_update hre.1 hre.2 hx
      obtain ⟨res, hloop, rfl⟩ := updndx_ok.mp hupd
      have hp : (s₁.after res).Placed := (hs.placed.locate hloc).after hloop
      have hixs : ndx.ixs = res.map Prod.snd ∧ ndx.Placed := by
        rcases hgo with rfl | hgo
        · exact ⟨rfl, hp⟩
        · exact ⟨(locate_ixs hgo).1, hp.locate hgo⟩
      refine ⟨hixs.2, fun ix' hix' => ?_⟩
      rw [hixs.1] at hix'
      obtain ⟨i, hi⟩ := List.mem_iff_getElem?.mp hix'
      obtain ⟨ix, hix, -, hkey, hown⟩ := forall₂_getElem? (updndxLoop_frame hloop) hi
      rw [(locate_ixs hloc).1] at hix
      exact ⟨ix, List.mem_of_getElem? hix, hkey, hown⟩
    · unfold reindexed at hx
      have hrun : located (updndx cfg hidden) r t = .ok ndx := by
        cases hl : located (updndx cfg hidden) r t with
        | error e =>
          rw [hl] at hx
          cases hx
        | ok s₁ =>
          rw [hl] at hx
          dsimp only [bind, Except.bind] at hx
          rw [if_neg hre] at hx
          exact hx
      unfold located at hrun
      split at hrun
      · have hixs := (locate_ixs hrun).1
        exact ⟨hs.placed.locate hrun, fun ix' hix' => ⟨ix', by rw [← hixs]; exact hix', rfl, fun _ _ => rfl⟩⟩
      · obtain rfl := Except.ok.inj hrun
        exact ⟨hs.placed, fun ix' hix' => ⟨ix', hix', rfl, fun _ _ => rfl⟩⟩
  refine ⟨fun i hi hle hv => ?_, fun i hi hle hv ix' hix' => ?_, hplaced⟩
  · obtain ⟨-, hdisk⟩ := hother i hv
    show (Function.update t.disk r ⟨replMark t, data⟩ i).data.length + 1 = t.byprec
    rw [hdisk]
    exact hs.size i hi hle (by rw [← hdisk]; exact hv)
  · obtain ⟨hir, hdisk⟩ := hother i hv
    show ix'.SoundAt i (ix'.keyOf (Function.update t.disk r ⟨replMark t, data⟩ i).data)
    obtain ⟨ix, hix, hkey, hown⟩ := hframe ix' hix'
    have hso := hs.own i hi hle (by rw [← hdisk]; exact hv) ix hix
    rw [hdisk]
    unfold Idx.SoundAt at hso ⊢
    rw [hkey, hown i hir]
    exact hso

end Undo

/-! ## What is passed over -/

section Stuck

variable {cfg : Cfg} {hidden : Nat → List UInt8 → Bool} {t q u u' : Tbl Indexes} {log : List (Nat × Rec)} {r : Nat}

/-- A record that ROLLBACK passes over: its mark is that of a transaction, and an entry of the log for
it has its fields. -/
structure Passed (log : List (Nat × Rec)) (t : Tbl Indexes) (r : Nat) : Prop where
  mark : (t.disk r).mark = TRANS_MKR
  data : ∀ e ∈ log, e.1 = r → e.2.data = (t.disk r).data

section Repl

variable {hid : Bool} {ndx : Indexes} {data : List UInt8}

theorem Passed.repl {i : Nat} (h : Passed log t i) (hv : (t.disk r).mark = VAL_MKR) :
    Passed (log ++ [(r, t.disk r)]) { replaced hid r data t with ndx } i := by
  have hne : i ≠ r := by
    rintro rfl
    rw [h.mark] at hv
    cases hv
  have hd : Function.update t.disk r ⟨replMark t, data⟩ i = t.disk i := Function.update_of_ne hne ..
  constructor
  · show (Function.update t.disk r ⟨replMark t, data⟩ i).mark = TRANS_MKR
    rw [hd]
    exact h.mark
  · intro e he hei
    show e.2.data = (Function.update t.disk r ⟨replMark t, data⟩ i).data
    rw [hd]
    rcases List.mem_append.mp he with he | he
    · exact h.data e he hei
    · rw [List.mem_singleton.mp he] at hei
      exact absurd hei.symm hne

end Repl

end Stuck

/-! ## ROLLBACK -/

section RolledBack

variable {cfg : Cfg} {hidden : Nat → List UInt8 → Bool} {t : Tbl Indexes} {ops : List RecOp} {eof tof : Bool}

end RolledBack

end Db3w
