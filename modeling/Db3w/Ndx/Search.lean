/-
Search in a stored tree. For a comparison that is falling along the entries, `btsrch` goes down to
one subtree of each page, and for two of the modes looks into the one before it when nothing was
found there. What it ends at is a function of the slots of the tree alone (`srchSlot`): the first
or last of those below, equal to or above the target. Two modes depend on where the first entry
above the target stands: as the first of its page it hides what comes before it.
-/
import Db3w.Ndx.CharKey
namespace Db3w

open Falling

/-- The comparison the loop over a page goes by: in the modes that look behind the target, an equal
entry is stepped over. -/
def stopCmp (mode : RelOp) (c : Ent → Int) (x : Ent) : Int := if c x = 0 ∧ (mode = .tgreater ∨ mode = .tgtrequ) then 1 else c x

/-- The slot a search ends at, by the runs of the slots below, equal to and above the target. -/
def srchSlot (mode : RelOp) (c : Ent → Int) (l : List (Slot Pageno Ent)) : Option (Slot Pageno Ent) :=
  let b := below (fun s => c s.ent) l
  let e := equal (fun s => c s.ent) l
  let a := above (fun s => c s.ent) l
  match mode with
  | .tequal => e.head?
  | .tgreater => a.head?
  | .tless => b.getLast?
  | .tlessequ => e.head?.or (if a.head?.any (·.idx = 0) then none else b.getLast?)
  | .tgtrequ => e.getLast?.or (a.head?.filter (·.idx ≠ 0))
  | _ => none

section Runs

variable {mode : RelOp} {c : Ent → Int} {A B : List Tree} {k t : Tree} {p : Pageno} {ss es : List Ent}

theorem stopCmp_low (h : mode ≠ .tgreater ∧ mode ≠ .tgtrequ) : stopCmp mode c = c := by
  funext x
  rw [stopCmp, if_neg (by simp [h])]

theorem stopCmp_pos (h : mode = .tgreater ∨ mode = .tgtrequ) (x : Ent) : 0 < stopCmp mode c x ↔ 0 ≤ c x := by
  rw [stopCmp]
  split
  · omega
  · rename_i hn
    have : c x ≠ 0 := fun h0 => hn ⟨h0, h⟩
    omega

theorem stopCmp_falling (hf : Falling c es) : Falling (stopCmp mode c) es := by
  by_cases h : mode = .tgreater ∨ mode = .tgtrequ
  · refine hf.imp fun {a b} hab => ?_
    have ha := stopCmp_pos (c := c) h a
    have hb := stopCmp_pos (c := c) h b
    have hz : ∀ x, stopCmp mode c x ≠ 0 := fun x => by
      unfold stopCmp
      split_ifs with h1
      · decide
      · exact fun h0 => h1 ⟨h0, h⟩
    have hza := hz a
    have hzb := hz b
    have := hab.2
    constructor <;> intro h1 <;> omega
  · rw [stopCmp_low (by simpa using h)]
    exact hf

theorem mem_flatMap_slots {s : Slot Pageno Ent} (h : s ∈ A.flatMap MTree.slots) : s.ent ∈ A.flatMap MTree.entries := by
  obtain ⟨a, ha, hs⟩ := List.mem_flatMap.1 h
  exact List.mem_flatMap.2 ⟨a, ha, MTree.mem_entries_of_slot hs⟩

theorem slots_ne_nil (h : k.Shape SameKey) : k.slots ≠ [] := by
  intro hn
  have := MTree.map_ent_slots k
  rw [hn] at this
  exact h.entries_ne_nil this.symm

/-- Where a run of slots is empty, no entry has its sign. -/
theorem equal_nil_entries (h : equal (fun s => c s.ent) k.slots = []) : ∀ e ∈ k.entries, c e ≠ 0 := by
  intro e he
  obtain ⟨s, hs, rfl⟩ := MTree.exists_slot he
  exact equal_eq_nil.1 h s hs

theorem above_nil_entries (h : above (fun s => c s.ent) k.slots = []) : ∀ e ∈ k.entries, 0 ≤ c e := by
  intro e he
  obtain ⟨s, hs, rfl⟩ := MTree.exists_slot he
  exact above_eq_nil.1 h s hs

theorem below_nil_entries (h : below (fun s => c s.ent) k.slots = []) : ∀ e ∈ k.entries, c e ≤ 0 := by
  intro e he
  obtain ⟨s, hs, rfl⟩ := MTree.exists_slot he
  exact below_eq_nil.1 h s hs

/-- Before an entry above the target that is not the first of its page there is one that is not
above the target. -/
theorem nonneg_of_head_above {g : Slot Pageno Ent} (hg : (above (fun s => c s.ent) k.slots).head? = some g) (hi : g.idx ≠ 0) :
    ∃ e ∈ k.entries, 0 ≤ c e := by
  by_contra hno
  have hall : ∀ s ∈ k.slots, c s.ent < 0 := fun s hs => by
    by_contra hs'
    exact hno ⟨_, MTree.mem_entries_of_slot hs, by omega⟩
  rw [above_eq_self hall] at hg
  exact hi (MTree.idx_head hg)

/-- What is left of a routed search that finds no equal entry in its subtree. -/
theorem routes_low (hf : Falling c ((A ++ k :: B).flatMap MTree.entries)) (hr : MTree.Routes c A k B)
    (hk : ∀ e ∈ k.entries, c e ≠ 0) : ∀ s ∈ B.flatMap MTree.slots, c s.ent < 0 := by
  intro s hs
  rcases B with _ | ⟨b, B⟩
  · simp at hs
  · obtain ⟨y, hy, hle⟩ := hr.after (by simp)
    have := hk y (List.mem_of_getLast? hy)
    exact MTree.neg_after hf hy (by omega) _ (mem_flatMap_slots hs)

theorem slots_kids : (MTree.node p ss (A ++ k :: B)).slots = A.flatMap MTree.slots ++ (k.slots ++ B.flatMap MTree.slots) := by
  rw [MTree.slots_node, List.flatMap_append, List.flatMap_cons]

theorem srchSlot_tequal (hf : Falling c ((A ++ k :: B).flatMap MTree.entries)) (hr : MTree.Routes c A k B) :
    srchSlot .tequal c (MTree.node p ss (A ++ k :: B)).slots = srchSlot .tequal c k.slots := by
  have hA : equal (fun s => c s.ent) (A.flatMap MTree.slots) = [] :=
    equal_eq_nil.2 fun s hs => (hr.pos_before hf _ (mem_flatMap_slots hs)).ne'
  simp only [srchSlot, slots_kids, equal_append, hA, List.nil_append, List.head?_append]
  rcases hk : equal (fun s => c s.ent) k.slots with _ | ⟨s, l⟩
  · have hB : equal (fun s => c s.ent) (B.flatMap MTree.slots) = [] :=
      equal_eq_nil.2 fun s hs => (routes_low hf hr (equal_nil_entries hk) s hs).ne
    simp [hB]
  · simp [hk]

theorem srchSlot_tless (hf : Falling c ((A ++ k :: B).flatMap MTree.entries)) (hr : MTree.Routes c A k B)
    (hA : ∀ a ∈ A, a.Shape SameKey) : srchSlot .tless c (MTree.node p ss (A ++ k :: B)).slots =
      (srchSlot .tless c k.slots).or (A.getLast?.bind fun a => srchSlot .tless c a.slots) := by
  have hpos := hr.pos_before hf
  have hA' : below (fun s => c s.ent) (A.flatMap MTree.slots) = A.flatMap MTree.slots :=
    below_eq_self fun s hs => hpos _ (mem_flatMap_slots hs)
  have hB : below (fun s => c s.ent) (B.flatMap MTree.slots) = [] :=
    below_eq_nil.2 fun s hs => hr.nonpos_after hf _ (mem_flatMap_slots hs)
  simp only [srchSlot, slots_kids, below_append, hA', hB, List.append_nil, List.getLast?_append]
  congr 1
  rcases List.eq_nil_or_concat A with rfl | ⟨A', a, rfl⟩
  · rfl
  · rw [List.concat_eq_append] at hpos hA ⊢
    have ha : below (fun s => c s.ent) a.slots = a.slots :=
      below_eq_self fun s hs => hpos _ (mem_flatMap_slots (by simp [hs]))
    have hne := slots_ne_nil (hA a (by simp))
    simp [ha, List.getLast?_append_of_ne_nil _ hne]

theorem srchSlot_tlessequ (hf : Falling c ((A ++ k :: B).flatMap MTree.entries)) (hr : MTree.Routes c A k B) (hk : k.Shape SameKey) :
    srchSlot .tlessequ c (MTree.node p ss (A ++ k :: B)).slots = srchSlot .tlessequ c k.slots := by
  have hpos := hr.pos_before hf
  have hAe : equal (fun s => c s.ent) (A.flatMap MTree.slots) = [] :=
    equal_eq_nil.2 fun s hs => (hpos _ (mem_flatMap_slots hs)).ne'
  have hAa : above (fun s => c s.ent) (A.flatMap MTree.slots) = [] :=
    above_eq_nil.2 fun s hs => (hpos _ (mem_flatMap_slots hs)).le
  have hBb : below (fun s => c s.ent) (B.flatMap MTree.slots) = [] :=
    below_eq_nil.2 fun s hs => hr.nonpos_after hf _ (mem_flatMap_slots hs)
  simp only [srchSlot, slots_kids, below_append, equal_append, above_append, hAe, hAa, hBb, List.nil_append, List.append_nil,
    List.head?_append, List.getLast?_append]
  rcases hke : equal (fun s => c s.ent) k.slots with _ | ⟨s, l⟩
  · have hno := equal_nil_entries hke
    have hBe : equal (fun s => c s.ent) (B.flatMap MTree.slots) = [] :=
      equal_eq_nil.2 fun s hs => (routes_low hf hr hno s hs).ne
    -- an entry below the target, or one above it that comes first in the subtree
    have hlast : ∀ e ∈ k.entries, 0 ≤ c e → (below (fun s => c s.ent) k.slots).getLast? ≠ none := by
      intro e he hle hn
      have := below_nil_entries (List.getLast?_eq_none_iff.1 hn) e he
      have := hno e he
      omega
    simp only [hBe, List.head?_nil, Option.or_none]
    rcases hka : above (fun s => c s.ent) k.slots with _ | ⟨g, l⟩
    · have hnil : B.flatMap MTree.slots = [] := by
        rcases B with _ | ⟨b, B⟩
        · rfl
        · obtain ⟨y, hy, hle⟩ := hr.after (by simp)
          have h1 := above_nil_entries hka y (List.mem_of_getLast? hy)
          have h2 := hno y (List.mem_of_getLast? hy)
          omega
      obtain ⟨y, hy⟩ := hk.last?_isSome
      have := hlast y (List.mem_of_getLast? hy) (above_nil_entries hka y (List.mem_of_getLast? hy))
      obtain ⟨z, hz⟩ := Option.ne_none_iff_exists'.1 this
      simp [hke, hnil, hz, above]
    · simp only [hke, hka, List.head?_cons, Option.some_or, Option.any_some, decide_eq_true_eq]
      split_ifs with h0
      · rfl
      · obtain ⟨e, he, hle⟩ := nonneg_of_head_above (k := k) (by rw [hka]; rfl) h0
        obtain ⟨z, hz⟩ := Option.ne_none_iff_exists'.1 (hlast e he hle)
        simp [hz]
  · simp [hke]

/-- The subtrees beside the one that is routed to where equal entries are stepped over. -/
theorem routes_high (hm : mode = .tgreater ∨ mode = .tgtrequ) (hf : Falling c ((A ++ k :: B).flatMap MTree.entries))
    (hr : MTree.Routes (stopCmp mode c) A k B) :
    (∀ s ∈ A.flatMap MTree.slots, 0 ≤ c s.ent) ∧ (∀ s ∈ B.flatMap MTree.slots, c s.ent < 0) ∧
      (B ≠ [] → ∃ e ∈ k.entries, c e < 0) := by
  have hneg : B ≠ [] → ∃ y, k.last? = some y ∧ c y < 0 := fun hB => by
    obtain ⟨y, hy, hle⟩ := hr.after hB
    have := stopCmp_pos (c := c) hm y
    exact ⟨y, hy, by omega⟩
  refine ⟨fun s hs => (stopCmp_pos hm _).1 (hr.pos_before (stopCmp_falling hf) _ (mem_flatMap_slots hs)), fun s hs => ?_, fun hB => ?_⟩
  · rcases B with _ | ⟨b, B⟩
    · simp at hs
    · obtain ⟨y, hy, hlt⟩ := hneg (by simp)
      exact MTree.neg_after hf hy hlt _ (mem_flatMap_slots hs)
  · obtain ⟨y, hy, hlt⟩ := hneg hB
    exact ⟨y, List.mem_of_getLast? hy, hlt⟩

theorem srchSlot_tgreater (hf : Falling c ((A ++ k :: B).flatMap MTree.entries)) (hr : MTree.Routes (stopCmp .tgreater c) A k B) :
    srchSlot .tgreater c (MTree.node p ss (A ++ k :: B)).slots = srchSlot .tgreater c k.slots := by
  obtain ⟨hA, -, hk⟩ := routes_high (Or.inl rfl) hf hr
  simp only [srchSlot, slots_kids, above_append, above_eq_nil.2 hA, List.nil_append, List.head?_append]
  rcases hka : above (fun s => c s.ent) k.slots with _ | ⟨g, l⟩
  · have hB : B = [] := by
      by_contra hB
      obtain ⟨e, he, hlt⟩ := hk hB
      have := above_nil_entries hka e he
      omega
    simp [hB, above]
  · simp [hka]

theorem srchSlot_tgtrequ (hf : Falling c ((A ++ k :: B).flatMap MTree.entries)) (hr : MTree.Routes (stopCmp .tgtrequ c) A k B)
    (hsh : ∀ a ∈ A, a.Shape SameKey) : srchSlot .tgtrequ c (MTree.node p ss (A ++ k :: B)).slots =
      (srchSlot .tgtrequ c k.slots).or (A.getLast?.bind fun a => srchSlot .tgtrequ c a.slots) := by
  obtain ⟨hA, hB, hk⟩ := routes_high (Or.inr rfl) hf hr
  have hBe : equal (fun s => c s.ent) (B.flatMap MTree.slots) = [] := equal_eq_nil.2 fun s hs => (hB s hs).ne
  have hhead : (above (fun s => c s.ent) k.slots).head?.or (above (fun s => c s.ent) (B.flatMap MTree.slots)).head? =
      (above (fun s => c s.ent) k.slots).head? := by
    rcases hka : above (fun s => c s.ent) k.slots with _ | ⟨g, l⟩
    · have hnil : B = [] := by
        by_contra hB
        obtain ⟨e, he, hlt⟩ := hk hB
        have := above_nil_entries hka e he
        omega
      simp [hnil, above]
    · simp [hka]
  -- the last subtree before the chosen one holds the last equal entry before it, and none above
  have hlast : (equal (fun s => c s.ent) (A.flatMap MTree.slots)).getLast? = A.getLast?.bind fun a => srchSlot .tgtrequ c a.slots := by
    rcases List.eq_nil_or_concat A with rfl | ⟨A', a, rfl⟩
    · rfl
    · rw [List.concat_eq_append] at hA hsh hf ⊢
      have ha : above (fun s => c s.ent) a.slots = [] := above_eq_nil.2 fun s hs => hA s (by simp [hs])
      rw [List.flatMap_append, List.flatMap_singleton, equal_append, List.getLast?_append, List.getLast?_concat, Option.bind_some]
      simp only [srchSlot, ha, List.head?_nil, Option.filter_none, Option.or_none]
      rcases hae : equal (fun s => c s.ent) a.slots with _ | ⟨z, l⟩
      · -- all of it is below the target, and so is everything before
        obtain ⟨y, hy⟩ := (hsh a (by simp)).last?_isSome
        have hy0 := equal_nil_entries hae y (List.mem_of_getLast? hy)
        have hy1 := above_nil_entries ha y (List.mem_of_getLast? hy)
        have hfa : Falling c ((A' ++ [a]).flatMap MTree.entries) := by
          rw [List.flatMap_append] at hf
          exact hf.left
        have hpos := hfa.pos_of_getLast (MTree.getLast?_flatMap_entries (hsh a (by simp)).entries_ne_nil |>.trans hy) (by omega)
        have hA' : equal (fun s => c s.ent) (A'.flatMap MTree.slots) = [] :=
          equal_eq_nil.2 fun s hs => (hpos _ (by
            rw [List.flatMap_append]
            exact List.mem_append_left _ (mem_flatMap_slots hs))).ne'
        simp [hA']
      · have hne : (equal (fun s => c s.ent) a.slots).getLast? ≠ none := by simp [hae]
        obtain ⟨z', hz'⟩ := Option.ne_none_iff_exists'.1 hne
        simp [hz']
  generalize (A.getLast?.bind fun a => srchSlot .tgtrequ c a.slots) = o at hlast ⊢
  simp only [srchSlot, slots_kids, above_append, equal_append, above_eq_nil.2 hA, hBe, List.nil_append, List.append_nil, List.head?_append,
    List.getLast?_append, hhead, hlast]
  rcases hg : (above (fun s => c s.ent) k.slots).head? with _ | g
  · simp [hg]
  · by_cases h0 : g.idx = 0
    · simp [hg, h0, Option.filter]
    · -- what comes before it in the subtree is below the target, or equal
      obtain ⟨e, he, hle⟩ := nonneg_of_head_above hg h0
      rcases hke : (equal (fun s => c s.ent) k.slots).getLast? with _ | z
      · have hno := equal_nil_entries (List.getLast?_eq_none_iff.1 hke)
        have hpos : 0 < c e := by
          have := hno e he
          omega
        have hAe : equal (fun s => c s.ent) (A.flatMap MTree.slots) = [] := equal_eq_nil.2 fun s hs => by
          rw [List.flatMap_append, List.flatMap_cons] at hf
          exact ((hf.across (mem_flatMap_slots hs) (List.mem_append_left _ he)).pos hpos).ne'
        rw [hAe] at hlast
        simp [hg, hke, h0, ← hlast, Option.filter]
      · simp [hke]

end Runs
/-! ## The loop over a page -/

/-- The comparison of a search: by key alone when the target has no record. -/
def srchCmp (hdr : NdxHdr) (exactOn : Bool) (target : NdxEntry) (x : Ent) : Int :=
  if target.recno = 0 then keyCmp hdr exactOn target x else entCmp hdr exactOn target x

/-- A search that ends at a slot gives its record and keeps its address; one that ends at none
gives 0 and keeps everything. -/
def land (st : Ndx) : Option (Slot Pageno Ent) → EStateM.Result HbErr Ndx Recno
  | none => .ok 0 st
  | some s => .ok s.ent.recno { st with pageNo := s.page, entryNo := s.idx }

/-- The locals of the loop when it has passed the subtrees `A` and is at `k`. -/
structure SrchAt (s : Srch) (A : List Tree) (k : Tree) : Prop where
  r : s.r = A.length
  r0 : s.r0 = (A.length : Int) - 1
  pn3 : s.pn3 = k.page
  pn0 : ∀ a, A.getLast? = some a → s.pn0 = a.page

/-- The locals of the loop when it has passed the entries `P` of a leaf. -/
structure LeafAt (mode : RelOp) (c : Ent → Int) (target : NdxEntry) (s : Srch) (P : List Ent) : Prop where
  r : s.r = P.length
  r0 : s.r0 = (P.length : Int) - 1
  pn3 : s.pn3 = 0
  e2 : mode = .tgreater ∨ mode = .tgtrequ → (s.e2 = 0 ↔ ∃ z ∈ P, c z = 0)
  n3 : target.recno = 0 → s.n3 = 0

/-- How the loop over a leaf ends that has passed the entries `P` and has `R` left. -/
inductive LeafEnd (mode : RelOp) (c : Ent → Int) (target : NdxEntry) (P : List Ent) : List Ent → SrchEnd → Prop
  | last {s : Srch} (h : LeafAt mode c target s P) (he : 0 < s.e) : LeafEnd mode c target P [] (.cond s)
  | above {s : Srch} {x : Ent} {R : List Ent} (h : LeafAt mode c target s P) (he : s.e < 0) (hx : c x < 0) :
      LeafEnd mode c target P (x :: R) (.cond s)
  | equal {x : Ent} {R : List Ent} (hx : c x = 0) (hlow : mode ≠ .tgreater ∧ mode ≠ .tgtrequ) : LeafEnd mode c target P (x :: R)
      (if mode = .tless then if P.length = 0 then .fin target.recno else .found ((P.length : Int) - 1) else .found P.length)

section Loop

variable {st : Ndx} {cfg : Cfg} {fuel : Nat} {mode : RelOp} {target : NdxEntry} {pg : NdxPage} {A B ks : List Tree} {k b : Tree} {s : Srch}
  {x : Ent} {ss es P R : List Ent} {p : Pageno}

/-- One step of the loop over an internal page. -/
theorem btsrchLoop_kid (hm : mode ≠ .tequal → target.recno = 0) (n : Nat) (hst : Stored st k) (hsh : k.Shape SameKey) (hh : k.height ≤ fuel)
    (hx : k.last? = some x) (hlt : s.r < pg.entryCnt) (hkey : (pg.entries s.r).key = x.key) (hpn : s.pn3 = k.page)
    (hb : (pg.entries (s.r + 1)).pno = b.page) :
    (0 < stopCmp mode (srchCmp st.hdr cfg.exactOn target) x → ∃ e e2 n3,
      btsrchLoop cfg fuel pg mode target (n + 1) s st = btsrchLoop cfg fuel pg mode target n ⟨e, e2, s.r + 1, s.r, n3, b.page, s.pn3⟩ st) ∧
    (stopCmp mode (srchCmp st.hdr cfg.exactOn target) x ≤ 0 → ∃ e n3,
      btsrchLoop cfg fuel pg mode target (n + 1) s st = .ok (.cond { s with e, n3 }) st) := by
  have hk0 : s.pn3 ≠ 0 := by rw [hpn]; exact hst.page_ne
  rw [btsrchLoop, NdxM.bind_ok (neGetPageno_ok (n := s.r + 1) (by omega) hlt), NdxM.bind_ok (neGetKey_ok (n := s.r) rfl hlt.le),
    NdxM.bind_ok (NdxM.get_apply st), hkey, hb]
  dsimp only
  by_cases h0 : keycmp st.hdr cfg.exactOn target.key x.key = 0
  · by_cases hhi : mode = .tgreater ∨ mode = .tgtrequ
    · rw [if_pos h0, if_pos hhi]
      have hrec : target.recno = 0 := hm (by rintro rfl; simp at hhi)
      have h1 : stopCmp mode (srchCmp st.hdr cfg.exactOn target) x = 1 := if_pos ⟨by simp [srchCmp, hrec, keyCmp, h0], hhi⟩
      rw [h1]
      exact ⟨fun _ => ⟨_, _, _, rfl⟩, fun h => by omega⟩
    · rw [if_pos h0, if_neg hhi, stopCmp_low (by simpa using hhi)]
      by_cases hrec : target.recno = 0
      · have hc : srchCmp st.hdr cfg.exactOn target x = 0 := by simp [srchCmp, hrec, keyCmp, h0]
        rw [hc, if_pos hrec, NdxM.bind_ok (NdxM.pure_apply _ st), h0, if_neg (by simp [hk0]), if_neg (by omega)]
        exact ⟨fun h => by omega, fun _ => ⟨_, _, rfl⟩⟩
      · have hc : srchCmp st.hdr cfg.exactOn target x = cmpRecno target.recno x.recno := by simp [srchCmp, hrec, entCmp, keyCmp, h0]
        rw [hc, if_neg hrec, if_pos hk0, hpn, NdxM.bind_ok (btlr_ok hst hsh hh hx _), ← hpn, if_neg (by simp [hk0])]
        constructor
        · intro h
          rw [if_pos h]
          exact ⟨_, _, _, rfl⟩
        · intro h
          rw [if_neg (by omega)]
          exact ⟨_, _, rfl⟩
  · have hc : stopCmp mode (srchCmp st.hdr cfg.exactOn target) x = keycmp st.hdr cfg.exactOn target.key x.key := by
      have : srchCmp st.hdr cfg.exactOn target x = keycmp st.hdr cfg.exactOn target.key x.key := by simp [srchCmp, entCmp, keyCmp, h0]
      rw [stopCmp, this, if_neg (by simp [h0])]
    rw [if_neg h0, hc]
    constructor
    · intro h
      rw [if_pos h]
      exact ⟨_, _, _, rfl⟩
    · intro h
      rw [if_neg (by omega)]
      exact ⟨_, _, rfl⟩

variable (cfg) in
/-- The loop over an internal page. -/
theorem btsrchLoop_kids (hm : mode ≠ .tequal → target.recno = 0) (hst : ∀ j ∈ ks, Stored st j) (hsh : ∀ j ∈ ks, j.Shape SameKey)
    (hh : ∀ j ∈ ks, j.height ≤ fuel) (hsep : MTree.Sepd SameKey ss ks) (hes : pg.ents = ss) (hps : pg.pnos = ks.map MTree.page) :
    ∀ (B A : List Tree) (k : Tree) (s : Srch), ks = A ++ k :: B → SrchAt s A k →
      (∀ a ∈ A, ∃ x, a.last? = some x ∧ 0 < stopCmp mode (srchCmp st.hdr cfg.exactOn target) x) →
      ∃ A' k' B' s', ks = A' ++ k' :: B' ∧ btsrchLoop cfg fuel pg mode target B.length s st = .ok (.cond s') st ∧ SrchAt s' A' k' ∧
        MTree.Routes (stopCmp mode (srchCmp st.hdr cfg.exactOn target)) A' k' B'
  | [], A, k, s, hks, hat, hA => ⟨A, k, [], s, hks, rfl, hat, hA, by simp⟩
  | b :: B, A, k, s, hks, hat, hA => by
    have hkm : k ∈ ks := by rw [hks]; simp
    have hks' : ks = (A ++ [k]) ++ b :: B := by rw [hks]; simp
    obtain ⟨hle, hb⟩ := NdxPage.pno_kid (hks' ▸ hps)
    rw [List.length_append, List.length_singleton] at hle hb
    obtain ⟨hlt, x, hx, hkey⟩ := sep_key (hks ▸ hsep) hes
    obtain ⟨hgo, hstop⟩ := btsrchLoop_kid hm B.length (hst k hkm) (hsh k hkm) (hh k hkm) hx (hat.r ▸ hlt) (hat.r ▸ hkey) hat.pn3 (hat.r ▸ hb)
    by_cases hpos : 0 < stopCmp mode (srchCmp st.hdr cfg.exactOn target) x
    · obtain ⟨e, e2, n3, hrun⟩ := hgo hpos
      have hat' : SrchAt ⟨e, e2, s.r + 1, s.r, n3, b.page, s.pn3⟩ (A ++ [k]) b :=
        ⟨by simp [hat.r], by simp [hat.r], rfl, fun a ha => by
          rw [List.getLast?_concat, Option.some.injEq] at ha
          rw [← ha, ← hat.pn3]⟩
      obtain ⟨A', k', B', s', h1, h2, h3⟩ := btsrchLoop_kids hm hst hsh hh hsep hes hps B (A ++ [k]) b _ hks' hat' (by
        intro a ha
        rcases List.mem_append.1 ha with ha | ha
        · exact hA a ha
        · rw [List.mem_singleton.1 ha]; exact ⟨x, hx, hpos⟩)
      exact ⟨A', k', B', s', h1, by rw [List.length_cons, hrun, h2], h3⟩
    · obtain ⟨e, n3, hrun⟩ := hstop (by omega)
      exact ⟨A, k, b :: B, _, hks, hrun, ⟨hat.r, hat.r0, hat.pn3, hat.pn0⟩, hA, fun _ => ⟨x, hx, by omega⟩⟩

variable (st cfg fuel) in
/-- The loop over a leaf. -/
theorem btsrchLoop_ents (hm : mode ≠ .tequal → target.recno = 0) (hes : pg.ents = es) (hps : pg.pnos = List.replicate (es.length + 1) 0) :
    ∀ (R P : List Ent) (s : Srch), es = P ++ R → LeafAt mode (srchCmp st.hdr cfg.exactOn target) target s P → 0 < s.e →
      (∀ a ∈ P, 0 < stopCmp mode (srchCmp st.hdr cfg.exactOn target) a) →
      ∃ P' R' res, es = P' ++ R' ∧ btsrchLoop cfg fuel pg mode target R.length s st = .ok res st ∧
        (∀ a ∈ P', 0 < stopCmp mode (srchCmp st.hdr cfg.exactOn target) a) ∧
        LeafEnd mode (srchCmp st.hdr cfg.exactOn target) target P' R' res
  | [], P, s, hes', hat, he, hP => ⟨P, [], .cond s, hes', rfl, hP, .last hat he⟩
  | x :: R, P, s, hes', hat, he, hP => by
    obtain ⟨hlt, hx⟩ := ent_at (hes.trans hes')
    have hkey : (pg.entries P.length).key = x.key := congrArg Ent.key hx
    have hrecno : (pg.entries P.length).recno = x.recno := congrArg Ent.recno hx
    have hcnt : pg.entryCnt = es.length := by rw [← hes, NdxPage.length_ents]
    -- going on with the entry after `x`
    have hnext : ∀ s', LeafAt mode (srchCmp st.hdr cfg.exactOn target) target s' (P ++ [x]) → 0 < s'.e →
        0 < stopCmp mode (srchCmp st.hdr cfg.exactOn target) x →
        ∃ P' R' res, es = P' ++ R' ∧ btsrchLoop cfg fuel pg mode target R.length s' st = .ok res st ∧
          (∀ a ∈ P', 0 < stopCmp mode (srchCmp st.hdr cfg.exactOn target) a) ∧
          LeafEnd mode (srchCmp st.hdr cfg.exactOn target) target P' R' res := fun s' hat' he' hpos =>
      btsrchLoop_ents hm hes hps R (P ++ [x]) s' (by rw [hes']; simp) hat' he' fun a ha => by
        rcases List.mem_append.1 ha with ha | ha
        · exact hP a ha
        · rw [List.mem_singleton.1 ha]; exact hpos
    rw [List.length_cons, btsrchLoop, hat.r, NdxM.bind_ok (neGetPageno_ok (n := P.length + 1) (by omega) hlt),
      NdxM.bind_ok (neGetKey_ok (n := P.length) rfl hlt.le), NdxM.bind_ok (NdxM.get_apply st), hkey, NdxPage.pno_zero hps hlt]
    dsimp only
    by_cases h0 : keycmp st.hdr cfg.exactOn target.key x.key = 0
    · by_cases hhi : mode = .tgreater ∨ mode = .tgtrequ
      · rw [if_pos h0, if_pos hhi]
        have hc : srchCmp st.hdr cfg.exactOn target x = 0 := by
          simp [srchCmp, hm (by rintro rfl; simp at hhi), keyCmp, h0]
        refine hnext _ ⟨by simp, by simp, rfl, fun _ => ?_, hat.n3⟩ (by simp) ((stopCmp_pos hhi x).2 hc.ge)
        exact iff_of_true rfl ⟨x, by simp, hc⟩
      · rw [if_pos h0, if_neg hhi]
        have hlow : mode ≠ .tgreater ∧ mode ≠ .tgtrequ := by simpa using hhi
        by_cases hrec : target.recno = 0
        · have hc : srchCmp st.hdr cfg.exactOn target x = 0 := by simp [srchCmp, hrec, keyCmp, h0]
          rw [if_pos hrec, NdxM.bind_ok (NdxM.pure_apply _ st), h0, if_pos ⟨rfl, hat.pn3⟩]
          refine ⟨P, x :: R, _, hes', ?_, hP, .equal hc hlow⟩
          rw [hat.r0]
          split_ifs <;> rfl
        · have hmode : mode = .tequal := by
            by_contra hne
            exact hrec (hm hne)
          have hc : srchCmp st.hdr cfg.exactOn target x = cmpRecno target.recno x.recno := by simp [srchCmp, hrec, entCmp, keyCmp, h0]
          have hstop : stopCmp mode (srchCmp st.hdr cfg.exactOn target) x = cmpRecno target.recno x.recno := by rw [stopCmp_low hlow, hc]
          rw [if_neg hrec, if_neg (by simp [hat.pn3]), NdxM.bind_ok (neGetRecno_ok (n := P.length) rfl hlt.le), hrecno,
            NdxM.bind_ok (NdxM.pure_apply _ st)]
          rcases Int.lt_trichotomy (cmpRecno target.recno x.recno) 0 with hlt0 | heq | hgt
          · rw [if_neg (by omega), if_neg (by omega)]
            exact ⟨P, x :: R, _, hes', rfl, hP, .above ⟨rfl, hat.r0, hat.pn3, hat.e2, fun h => absurd h hrec⟩ hlt0 (by omega)⟩
          · rw [if_pos ⟨heq, hat.pn3⟩, if_neg (by simp [hmode])]
            refine ⟨P, x :: R, _, hes', rfl, hP, ?_⟩
            have hend : LeafEnd mode (srchCmp st.hdr cfg.exactOn target) target P (x :: R) _ := .equal (hc.trans heq) hlow
            rwa [if_neg (by simp [hmode])] at hend
          · rw [if_neg (by omega), if_pos hgt]
            exact hnext _ ⟨by simp, by simp, rfl, fun h => absurd h hhi, fun h => absurd h hrec⟩ hgt (by omega)
    · have hc : srchCmp st.hdr cfg.exactOn target x = keycmp st.hdr cfg.exactOn target.key x.key := by simp [srchCmp, entCmp, keyCmp, h0]
      have hstop : stopCmp mode (srchCmp st.hdr cfg.exactOn target) x = keycmp st.hdr cfg.exactOn target.key x.key := by
        rw [stopCmp, if_neg (by simp [hc, h0]), hc]
      rw [if_neg h0]
      by_cases hpos : 0 < keycmp st.hdr cfg.exactOn target.key x.key
      · rw [if_pos hpos]
        refine hnext _ ⟨by simp, by simp, rfl, fun h => ?_, hat.n3⟩ hpos (by rw [hstop]; exact hpos)
        rw [hat.e2 h]
        simp [hc, h0]
      · rw [if_neg (by omega)]
        exact ⟨P, x :: R, _, hes', rfl, hP, .above ⟨rfl, hat.r0, hat.pn3, hat.e2, hat.n3⟩ (by dsimp only; omega) (by rw [hc]; omega)⟩

theorem btsrchFound_ok (hes : pg.ents = P ++ x :: R) {j : Int} (hj : j = P.length) :
    btsrchFound pg p j st = land st (some ⟨p, P.length, x⟩) := by
  subst hj
  obtain ⟨hlt, rfl⟩ := ent_at hes
  rw [btsrchFound, NdxM.bind_ok (NdxM.modify_apply _ st), neGetRecno_ok (n := P.length) rfl hlt.le]
  rfl

end Loop

/-! ## A leaf -/

section Leaf

variable {st : Ndx} {cfg : Cfg} {fuel : Nat} {mode : RelOp} {target : NdxEntry} {pg : NdxPage} {c : Ent → Int}
  {x y : Ent} {es P R : List Ent} {p : Pageno}

theorem leaf_equal_nil (h : ∀ e ∈ es, c e ≠ 0) : equal (fun s => c s.ent) (MTree.leaf p es).slots = [] :=
  equal_eq_nil.2 fun s hs => h _ (by simpa using MTree.mem_entries_of_slot hs)

theorem leaf_above_nil (h : ∀ e ∈ es, 0 ≤ c e) : above (fun s => c s.ent) (MTree.leaf p es).slots = [] :=
  above_eq_nil.2 fun s hs => h _ (by simpa using MTree.mem_entries_of_slot hs)

theorem leaf_below_nil (h : ∀ e ∈ es, c e ≤ 0) : below (fun s => c s.ent) (MTree.leaf p es).slots = [] :=
  below_eq_nil.2 fun s hs => h _ (by simpa using MTree.mem_entries_of_slot hs)

theorem leaf_equal_head (hP : ∀ e ∈ P, c e ≠ 0) (hx : c x = 0) :
    (equal (fun s => c s.ent) (MTree.leaf p (P ++ x :: R)).slots).head? = some ⟨p, P.length, x⟩ :=
  MTree.leaf_first (f := fun e => decide (c e = 0)) (by simpa using hP) (by simpa using hx)

theorem leaf_above_head (hP : ∀ e ∈ P, 0 ≤ c e) (hx : c x < 0) :
    (above (fun s => c s.ent) (MTree.leaf p (P ++ x :: R)).slots).head? = some ⟨p, P.length, x⟩ :=
  MTree.leaf_first (f := fun e => decide (c e < 0)) (by simpa using hP) (by simpa using hx)

theorem leaf_below_last (hx : 0 < c x) (hR : ∀ e ∈ R, c e ≤ 0) :
    (below (fun s => c s.ent) (MTree.leaf p (P ++ x :: R)).slots).getLast? = some ⟨p, P.length, x⟩ :=
  MTree.leaf_last (f := fun e => decide (0 < c e)) (by simpa using hx) (by simpa using hR)

theorem leaf_equal_last (hx : c x = 0) (hR : ∀ e ∈ R, c e ≠ 0) :
    (equal (fun s => c s.ent) (MTree.leaf p (P ++ x :: R)).slots).getLast? = some ⟨p, P.length, x⟩ :=
  MTree.leaf_last (f := fun e => decide (c e = 0)) (by simpa using hx) (by simpa using hR)

/-- The last of entries that are not above the target is equal to it when one of them is. -/
theorem last_equal (hf : Falling c (P ++ [y])) (hy : 0 ≤ c y) (hz : ∃ z ∈ P ++ [y], c z = 0) : c y = 0 := by
  obtain ⟨z, hz, h0⟩ := hz
  rcases List.mem_append.1 hz with hz | hz
  · have := (hf.across hz (List.mem_singleton_self y)).1 h0.le
    omega
  · rwa [List.mem_singleton.1 hz] at h0

section Cond

variable {s : Srch} {call : Pageno → NdxM Recno}

theorem btsrchCond_tequal (h : s.pn3 = 0) (hcall : call 0 st = .ok 0 st) : btsrchCond pg .tequal p call s st = .ok 0 st := by
  simp [btsrchCond, h, NdxM.bind_ok hcall, NdxM.pure_apply]

variable (call) in
/-- Behind the entries below the target there is nothing to search. -/
theorem btsrchCond_below (hmode : mode = .tless ∨ mode = .tlessequ) (hes : pg.ents = P ++ R) (hat : LeafAt mode c target s P)
    (hcall : call 0 st = .ok 0 st) (hP : ∀ e ∈ P, 0 < c e) (hR : ∀ e ∈ R, c e ≤ 0) :
    btsrchCond pg mode p call s st = land st (below (fun s => c s.ent) (MTree.leaf p (P ++ R)).slots).getLast? := by
  have h1 : ¬(s.pn3 = 0 ∧ mode = .tgreater) := by rcases hmode with rfl | rfl <;> simp
  have h2 : ¬(s.pn3 = 0 ∧ mode = .tgtrequ) := by rcases hmode with rfl | rfl <;> simp
  have h3 : mode ≠ .tequal := by rcases hmode with rfl | rfl <;> simp
  rw [btsrchCond, if_neg h1, if_neg h2]
  rcases List.eq_nil_or_concat P with rfl | ⟨P', y, rfl⟩
  · rw [if_neg (by simp [hat.r]), hat.pn3, NdxM.bind_ok hcall, if_neg (by simp [hat.r0]), leaf_below_nil (by simpa using hR)]
    rfl
  · rw [List.concat_eq_append, List.append_assoc, List.singleton_append] at hes ⊢
    rw [if_pos ⟨hat.pn3, h3, by simp [hat.r]⟩, leaf_below_last (hP y (by simp)) hR]
    exact btsrchFound_ok hes (by simp [hat.r0])

variable (call) in
/-- A search that has passed all entries of a leaf. -/
theorem btsrchCond_last (hes : pg.ents = P) (hf : Falling c P) (hmode : mode ≠ .tnequ ∧ mode ≠ .tquestn) (hm : mode ≠ .tequal → target.recno = 0)
    (hat : LeafAt mode c target s P) (he : 0 < s.e) (hcall : call 0 st = .ok 0 st) (hP : ∀ e ∈ P, 0 < stopCmp mode c e) :
    btsrchCond pg mode p call s st = land st (srchSlot mode c (MTree.leaf p P).slots) := by
  by_cases hhi : mode = .tgreater ∨ mode = .tgtrequ
  · have hno : ∀ e ∈ P, 0 ≤ c e := fun e he => (stopCmp_pos hhi e).1 (hP e he)
    have habove : above (fun s => c s.ent) (MTree.leaf p P).slots = [] := leaf_above_nil hno
    rcases hhi with rfl | rfl
    · rw [btsrchCond, if_pos ⟨hat.pn3, rfl⟩, if_neg (by omega), hat.n3 (hm (by simp))]
      simp only [srchSlot, habove]
      rfl
    · rw [btsrchCond, if_neg (by simp), if_pos ⟨hat.pn3, rfl⟩, if_pos he]
      simp only [srchSlot, habove, List.head?_nil, Option.filter_none, Option.or_none]
      by_cases hz : ∃ z ∈ P, c z = 0
      · rw [if_pos ((hat.e2 (Or.inr rfl)).2 hz)]
        rcases List.eq_nil_or_concat P with rfl | ⟨P', y, rfl⟩
        · simp at hz
        · rw [List.concat_eq_append] at *
          have hy := last_equal hf (hno y (by simp)) hz
          rw [leaf_equal_last (P := P') (R := []) hy (by simp)]
          exact btsrchFound_ok hes (by rw [hat.r0]; simp)
      · rw [if_neg (fun h => hz ((hat.e2 (Or.inr rfl)).1 h)), leaf_equal_nil fun e he h0 => hz ⟨e, he, h0⟩]
        rfl
  · rw [stopCmp_low (by simpa using hhi)] at hP
    have hequal : equal (fun s => c s.ent) (MTree.leaf p P).slots = [] := leaf_equal_nil fun e he => (hP e he).ne'
    have hbelow := fun h => btsrchCond_below call (p := p) (R := []) h (by rwa [List.append_nil]) hat hcall hP (by simp)
    rw [List.append_nil] at hbelow
    cases mode with
    | tequal =>
      simp only [srchSlot, hequal]
      exact btsrchCond_tequal hat.pn3 hcall
    | tless => exact hbelow (Or.inl rfl)
    | tlessequ =>
      have habove : above (fun s => c s.ent) (MTree.leaf p P).slots = [] := leaf_above_nil fun e he => (hP e he).le
      simp only [srchSlot, hequal, habove, List.head?_nil, Option.none_or, Option.any_none, Bool.false_eq_true, if_false]
      exact hbelow (Or.inr rfl)
    | tgreater => exact absurd (Or.inl rfl) hhi
    | tgtrequ => exact absurd (Or.inr rfl) hhi
    | tnequ => exact absurd rfl hmode.1
    | tquestn => exact absurd rfl hmode.2

variable (call) in
/-- A search that has stopped before an entry above the target. -/
theorem btsrchCond_above (hes : pg.ents = P ++ x :: R) (hf : Falling c (P ++ x :: R)) (hmode : mode ≠ .tnequ ∧ mode ≠ .tquestn)
    (hm : mode ≠ .tequal → target.recno = 0) (hat : LeafAt mode c target s P) (he : s.e < 0) (hx : c x < 0) (hcall : call 0 st = .ok 0 st)
    (hP : ∀ e ∈ P, 0 < stopCmp mode c e) :
    btsrchCond pg mode p call s st = land st (srchSlot mode c (MTree.leaf p (P ++ x :: R)).slots) := by
  have hR : ∀ e ∈ x :: R, c e < 0 := by
    intro e he
    rcases List.mem_cons.1 he with rfl | he
    · exact hx
    · exact ((Falling.cons_iff.1 hf.right).1 e he).2 hx
  by_cases hhi : mode = .tgreater ∨ mode = .tgtrequ
  · have hno : ∀ e ∈ P, 0 ≤ c e := fun e he => (stopCmp_pos hhi e).1 (hP e he)
    have hhead := leaf_above_head (p := p) (R := R) hno hx
    rcases hhi with rfl | rfl
    · rw [btsrchCond, if_pos ⟨hat.pn3, rfl⟩, if_pos he]
      simp only [srchSlot, hhead]
      exact btsrchFound_ok hes (by rw [hat.r])
    · rw [btsrchCond, if_neg (by simp), if_pos ⟨hat.pn3, rfl⟩, if_neg (by omega)]
      simp only [srchSlot, hhead]
      by_cases hz : ∃ z ∈ P, c z = 0
      · have h2 := (hat.e2 (Or.inr rfl)).2 hz
        rcases List.eq_nil_or_concat P with rfl | ⟨P', y, rfl⟩
        · simp at hz
        · rw [List.concat_eq_append] at *
          have hy := last_equal hf.left (hno y (by simp)) hz
          rw [if_pos (by rw [hat.r]; simp), if_neg (by simp [h2])]
          rw [List.append_assoc, List.singleton_append] at hes ⊢
          rw [leaf_equal_last hy fun e he => (hR e he).ne]
          exact btsrchFound_ok hes (by rw [hat.r0]; simp)
      · have h2 : s.e2 ≠ 0 := fun h => hz ((hat.e2 (Or.inr rfl)).1 h)
        have hequal : equal (fun s => c s.ent) (MTree.leaf p (P ++ x :: R)).slots = [] := leaf_equal_nil fun e he h0 => by
          rcases List.mem_append.1 he with he | he
          · exact hz ⟨e, he, h0⟩
          · exact (hR e he).ne h0
        rw [hequal]
        by_cases h0 : P.length = 0
        · rw [if_neg (by simp [hat.r, h0]), hat.n3 (hm (by simp))]
          simp [h0, Option.filter, land, NdxM.pure_apply]
        · rw [if_pos (by simpa [hat.r] using h0), if_pos h2]
          simp only [List.getLast?_nil, Option.none_or, Option.filter, h0, ne_eq, not_false_eq_true, decide_true, if_true]
          exact btsrchFound_ok hes (by rw [hat.r])
  · rw [stopCmp_low (by simpa using hhi)] at hP
    have hequal : equal (fun s => c s.ent) (MTree.leaf p (P ++ x :: R)).slots = [] := leaf_equal_nil fun e he => by
      rcases List.mem_append.1 he with he | he
      · exact (hP e he).ne'
      · exact (hR e he).ne
    have hbelow := fun h => btsrchCond_below call (p := p) (R := x :: R) h hes hat hcall hP fun e he => (hR e he).le
    cases mode with
    | tequal =>
      simp only [srchSlot, hequal]
      exact btsrchCond_tequal hat.pn3 hcall
    | tless => exact hbelow (Or.inl rfl)
    | tlessequ =>
      simp only [srchSlot, hequal, leaf_above_head (p := p) (R := R) (fun e he => (hP e he).le) hx, List.head?_nil, Option.none_or,
        Option.any_some, decide_eq_true_eq]
      split_ifs with h0
      · obtain rfl : P = [] := List.eq_nil_of_length_eq_zero h0
        rw [hbelow (Or.inr rfl), List.nil_append, leaf_below_nil fun e he => (hR e he).le]
        rfl
      · exact hbelow (Or.inr rfl)
    | tgreater => exact absurd (Or.inl rfl) hhi
    | tgtrequ => exact absurd (Or.inr rfl) hhi
    | tnequ => exact absurd rfl hmode.1
    | tquestn => exact absurd rfl hmode.2

/-- The slot of a search that has stopped at an entry equal to the target. -/
theorem srchSlot_stopped (hf : Falling c (P ++ x :: R)) (hmode : mode ≠ .tnequ ∧ mode ≠ .tquestn) (hlow : mode ≠ .tgreater ∧ mode ≠ .tgtrequ)
    (hx : c x = 0) (hP : ∀ e ∈ P, 0 < c e) : srchSlot mode c (MTree.leaf p (P ++ x :: R)).slots =
      if mode = .tless then P.getLast?.map fun y => ⟨p, P.length - 1, y⟩ else some ⟨p, P.length, x⟩ := by
  have hR : ∀ e ∈ x :: R, c e ≤ 0 := by
    intro e he
    rcases List.mem_cons.1 he with rfl | he
    · exact hx.le
    · exact ((Falling.cons_iff.1 hf.right).1 e he).1 hx.le
  have hhead := leaf_equal_head (p := p) (R := R) (fun e he => (hP e he).ne') hx
  cases mode with
  | tequal => exact hhead
  | tlessequ =>
    simp only [srchSlot, hhead, Option.some_or]
    rfl
  | tless =>
    rw [if_pos rfl]
    rcases List.eq_nil_or_concat P with rfl | ⟨P', y, rfl⟩
    · have hbelow : below (fun s => c s.ent) (MTree.leaf p ([] ++ x :: R)).slots = [] := leaf_below_nil hR
      simp only [srchSlot, hbelow, List.getLast?_nil, Option.map_none]
    · rw [List.concat_eq_append] at hP ⊢
      have hlast := leaf_below_last (p := p) (P := P') (hP y (by simp)) hR
      rw [List.getLast?_concat, Option.map_some, List.length_append, List.length_singleton, Nat.add_sub_cancel, List.append_assoc,
        List.singleton_append]
      simp only [srchSlot, hlast]
  | tgreater => exact absurd rfl hlow.1
  | tgtrequ => exact absurd rfl hlow.2
  | tnequ => exact absurd rfl hmode.1
  | tquestn => exact absurd rfl hmode.2

end Cond

/-- Search in a leaf. -/
theorem btsrch_leaf (hst : Stored st (.leaf p es)) (hf : Falling (srchCmp st.hdr cfg.exactOn target) es)
    (hmode : mode ≠ .tnequ ∧ mode ≠ .tquestn) (hm : mode ≠ .tequal → target.recno = 0) :
    btsrch cfg (fuel + 2) p mode target st = land st (srchSlot mode (srchCmp st.hdr cfg.exactOn target) (MTree.leaf p es).slots) := by
  cases hst with
  | leaf hp0 hlt hes hps =>
    have hcnt : (st.file p).entryCnt = es.length := by rw [← hes, NdxPage.length_ents]
    obtain ⟨P, R, res, rfl, hloop, hP, hend⟩ := btsrchLoop_ents st cfg (fuel + 1) hm hes hps es []
      ⟨1, -1, 0, -1, 0, 0, 0⟩ rfl ⟨rfl, rfl, rfl, by simp, fun _ => rfl⟩ (by decide) (by simp)
    rw [btsrch, if_neg hp0, NdxM.bind_ok (getpage_ok hlt), NdxM.bind_ok (neGetPageno_ok (i := 0) (n := 0) rfl (Nat.zero_le _)),
      NdxPage.pno_zero hps (Nat.zero_le _), hcnt, NdxM.bind_ok hloop]
    have hdown : btsrch cfg (fuel + 1) 0 mode target st = .ok 0 st := rfl
    cases hend with
    | last hat he =>
      rw [List.append_nil] at *
      exact btsrchCond_last _ hes hf hmode hm hat he hdown hP
    | above hat he hx => exact btsrchCond_above _ hes hf hmode hm hat he hx hdown hP
    | @equal x R hx hlow =>
      rw [stopCmp_low hlow] at hP
      rw [srchSlot_stopped hf hmode hlow hx hP]
      by_cases hless : mode = .tless
      · rw [if_pos hless, if_pos hless]
        rcases List.eq_nil_or_concat P with rfl | ⟨P', y, rfl⟩
        · exact congrArg (fun n => EStateM.Result.ok n st) (hm (by simp [hless]))
        · rw [List.concat_eq_append] at *
          rw [if_neg (by simp), List.getLast?_concat, Option.map_some, List.length_append, List.length_singleton, Nat.add_sub_cancel]
          rw [List.append_assoc, List.singleton_append] at hes
          exact btsrchFound_ok hes (by simp)
      · rw [if_neg hless, if_neg hless]
        exact btsrchFound_ok hes rfl

end Leaf

/-! ## The recursion -/

section Node

variable {st : Ndx} {cfg : Cfg} {fuel : Nat} {mode : RelOp} {target : NdxEntry} {c : Ent → Int} {t k : Tree} {A B : List Tree} {p : Pageno}
  {ss : List Ent}

/-- What a search finds below an internal page: what it finds in the subtree it goes down to or,
in two of the modes, in the one before. -/
theorem srchSlot_node (hmode : mode ≠ .tnequ ∧ mode ≠ .tquestn) (hf : Falling c ((A ++ k :: B).flatMap MTree.entries))
    (hsh : ∀ j ∈ A ++ k :: B, j.Shape SameKey) (hr : MTree.Routes (stopCmp mode c) A k B) :
    srchSlot mode c (MTree.node p ss (A ++ k :: B)).slots = (srchSlot mode c k.slots).or
      (if mode = .tless ∨ mode = .tgtrequ then A.getLast?.bind fun a => srchSlot mode c a.slots else none) := by
  have hA : ∀ a ∈ A, a.Shape SameKey := fun a ha => hsh a (by simp [ha])
  cases mode with
  | tequal =>
    rw [stopCmp_low (by simp)] at hr
    rw [srchSlot_tequal hf hr]
    simp
  | tgtrequ =>
    rw [srchSlot_tgtrequ hf hr hA]
    simp
  | tgreater =>
    rw [srchSlot_tgreater hf hr]
    simp
  | tlessequ =>
    rw [stopCmp_low (by simp)] at hr
    rw [srchSlot_tlessequ hf hr (hsh k (by simp))]
    simp
  | tless =>
    rw [stopCmp_low (by simp)] at hr
    rw [srchSlot_tless hf hr hA]
    simp
  | tnequ => exact absurd rfl hmode.1
  | tquestn => exact absurd rfl hmode.2

theorem srchSlot_mem {l : List (Slot Pageno Ent)} {s : Slot Pageno Ent} (h : srchSlot mode c l = some s) : s ∈ l := by
  have hb : ∀ s, (below (fun s => c s.ent) l).getLast? = some s → s ∈ l := fun s h => (mem_below.1 (List.mem_of_getLast? h)).1
  have he : ∀ s, (equal (fun s => c s.ent) l).head? = some s → s ∈ l := fun s h => (mem_equal.1 (List.mem_of_head? h)).1
  have he' : ∀ s, (equal (fun s => c s.ent) l).getLast? = some s → s ∈ l := fun s h => (mem_equal.1 (List.mem_of_getLast? h)).1
  have ha : ∀ s, (above (fun s => c s.ent) l).head? = some s → s ∈ l := fun s h => (mem_above.1 (List.mem_of_head? h)).1
  cases mode with
  | tequal => exact he s h
  | tgreater => exact ha s h
  | tless => exact hb s h
  | tlessequ =>
    rcases Option.or_eq_some_iff.1 h with h | ⟨-, h⟩
    · exact he s h
    · split_ifs at h
      exact hb s h
  | tgtrequ =>
    rcases Option.or_eq_some_iff.1 h with h | ⟨-, h⟩
    · exact he' s h
    · exact ha s (Option.filter_eq_some_iff.1 h).1
  | tnequ => cases h
  | tquestn => cases h

/-- Search below a page of a stored tree. -/
theorem btsrch_ok (hst : Stored st t) (hsh : t.Shape SameKey) (hf : Falling (srchCmp st.hdr cfg.exactOn target) t.entries)
    (hmode : mode ≠ .tnequ ∧ mode ≠ .tquestn) (hm : mode ≠ .tequal → target.recno = 0)
    (hrec : mode = .tless ∨ mode = .tgtrequ → ∀ e ∈ t.entries, e.recno ≠ 0) (hfuel : t.height < fuel) :
    btsrch cfg fuel t.page mode target st = land st (srchSlot mode (srchCmp st.hdr cfg.exactOn target) t.slots) := by
  induction t using MTree.ind generalizing fuel with
  | leaf p es =>
    rw [MTree.height_leaf] at hfuel
    obtain ⟨fuel, rfl⟩ : ∃ n, fuel = n + 2 := ⟨fuel - 2, by omega⟩
    exact btsrch_leaf hst (by simpa using hf) hmode hm
  | node p ss ks ih =>
    cases hst with
    | node h0 hlt hes hps hkst =>
    cases hsh with
    | node hsep hksh =>
    obtain ⟨fuel, rfl⟩ : ∃ n, fuel = n + 1 := ⟨fuel - 1, by omega⟩
    have hkh : ∀ k ∈ ks, k.height < fuel := fun k hk => by
      have := MTree.height_kid p ss hk
      omega
    rw [MTree.entries_node] at hf hrec
    have hkf : ∀ k ∈ ks, btsrch cfg fuel k.page mode target st = land st (srchSlot mode (srchCmp st.hdr cfg.exactOn target) k.slots) :=
      fun k hk => ih k hk (hkst k hk) (hksh k hk) (MTree.falling_kid hf hk)
        (fun h e he => hrec h e (List.mem_flatMap.2 ⟨k, hk, he⟩)) (hkh k hk)
    obtain ⟨k0, B0, hks0⟩ := List.exists_cons_of_ne_nil hsep.ne_nil
    have hpn0 : ((st.file p).entries 0).pno = k0.page := (NdxPage.pno_kid (A := []) (hks0 ▸ hps)).2
    have hB0 : (st.file p).entryCnt = B0.length := by
      have := hsep.len
      rw [hks0, List.length_cons] at this
      rw [← NdxPage.length_ents, hes]
      omega
    obtain ⟨A, k, B, s, rfl, hloop, hat, hr⟩ := btsrchLoop_kids cfg hm hkst hksh (fun k hk => (hkh k hk).le) hsep hes hps
      B0 [] k0 ⟨1, -1, 0, -1, 0, k0.page, 0⟩ hks0 ⟨rfl, rfl, rfl, by simp⟩ (by simp)
    have hkm : k ∈ A ++ k :: B := by simp
    have hk0 : s.pn3 ≠ 0 := by rw [hat.pn3]; exact (hkst k hkm).page_ne
    rw [btsrch, MTree.page, if_neg h0, NdxM.bind_ok (getpage_ok hlt), NdxM.bind_ok (neGetPageno_ok (i := 0) (n := 0) rfl (Nat.zero_le _)),
      hpn0, hB0, NdxM.bind_ok hloop, srchSlot_node hmode hf hksh hr]
    dsimp only
    rw [btsrchCond, if_neg (by simp [hk0]), if_neg (by simp [hk0]), if_neg (by simp [hk0]), hat.pn3]
    rcases hs : srchSlot mode (srchCmp st.hdr cfg.exactOn target) k.slots with _ | x
    · rw [NdxM.bind_ok (hs ▸ hkf k hkm : _ = land st none), Option.none_or]
      by_cases hmd : mode = .tless ∨ mode = .tgtrequ
      · rw [if_pos hmd]
        rcases List.eq_nil_or_concat A with rfl | ⟨A', a, rfl⟩
        · rw [if_neg (by simp [hat.r0])]
          rfl
        · rw [List.concat_eq_append] at *
          rw [if_pos ⟨rfl, hmd, by simp [hat.r0]⟩, hat.pn0 a (by simp), hkf a (by simp)]
          simp
      · rw [if_neg (by simp [hmd]), if_neg hmd]
        rfl
    · have hxe := MTree.mem_entries_of_slot (srchSlot_mem hs)
      rw [NdxM.bind_ok (hs ▸ hkf k hkm : _ = land st (some x)), if_neg fun h => hrec h.2.1 _ (List.mem_flatMap.2 ⟨k, hkm, hxe⟩) h.1]
      rfl

end Node

end Db3w
