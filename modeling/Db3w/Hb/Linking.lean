/-
The list of names (`add_do_list` of proc.c). A name that is called but not defined yet has the address
of its last call, with a minus sign; the address field of a call holds that of the call before it, and
0 ends the chain. The definition walks the chain and gives its address to each call.
-/
import Db3w.Hb.ControlCode

namespace Db3w.Hb

open Bytes

/-! ## Addresses -/

section Addresses

variable {dbg : Bool} {ca : Nat → Int} {I : List Chunk} {f : Nat} {name : Str} {v : Int}

theorem getCpos_word (h1 : -2 ^ 31 ≤ v) (h2 : v < 2 ^ 31) : getCpos (word CPOSSZ (cposWord v)) = v := by
  have hlt : cposWord v < 256 ^ CPOSSZ := by
    unfold cposWord CPOSSZ
    omega
  have hw := readWord_append hlt []
  rw [List.append_nil] at hw
  rw [getCpos, hw]
  unfold cposWord
  omega

/-- What the address field of a call holds. -/
theorem readAt_call (hf : (f, name) ∈ callsAt dbg 0 I) : readAt f CPOSSZ (bytesAt dbg ca 0 I) = word CPOSSZ (cposWord (ca f)) := by
  have h : writeAt f (word CPOSSZ (cposWord (ca f))) (bytesAt dbg ca 0 I) = _ := bytesAt_update hf (ca f)
  rw [Function.update_eq_self] at h
  rw [← h, readAt, drop_writeAt]
  exact List.take_left' (length_word _ _)

end Addresses

/-! ## The list -/

/-- The chain of calls from an address. -/
def ChainOf (ca : Nat → Int) : Int → List Nat → Prop
  | faddr, [] => faddr = 0
  | faddr, f :: fs => faddr = -f ∧ 0 < f ∧ ChainOf ca (ca f) fs

/-- The names and the calls: those of a defined name hold its address, and those of another are its chain. -/
structure Linked (ca : Nat → Int) (doList : List DoEntry) (calls : List (Nat × Str)) : Prop where
  nodup : (doList.map fun de => lowerName de.procName).Nodup
  listed : ∀ c ∈ calls, ∃ de ∈ doList, lowerName de.procName = lowerName c.2
  resolved : ∀ de ∈ doList, 0 < de.faddr → ∀ c ∈ calls, lowerName de.procName = lowerName c.2 → ca c.1 = de.faddr
  pending : ∀ de ∈ doList, de.faddr ≤ 0 → de.type = PRG_PROC ∧ ∃ fs, fs ≠ [] ∧ ChainOf ca de.faddr fs ∧ fs.Nodup ∧
    ∀ f, f ∈ fs ↔ ∃ name, (f, name) ∈ calls ∧ lowerName de.procName = lowerName name

section List

variable {dbg : Bool} {ca ca' : Nat → Int} {doList : List DoEntry} {calls : List (Nat × Str)} {I : List Chunk} {name : Str} {de : DoEntry} {faddr v : Int}
  {fs : List Nat} {f : Nat} {st : Ec}

theorem sameName_iff {a b : Str} : sameName a b = true ↔ lowerName a = lowerName b := beq_iff_eq

theorem ChainOf.congr (h : ChainOf ca faddr fs) (hc : ∀ f ∈ fs, ca' f = ca f) : ChainOf ca' faddr fs := by
  induction fs generalizing faddr with
  | nil => exact h
  | cons f fs ih =>
    obtain ⟨h1, h2, h3⟩ := h
    exact ⟨h1, h2, by rw [hc f (by simp)]; exact ih h3 fun g hg => hc g (by simp [hg])⟩

theorem findEntry_none (h : findEntry name doList = none) : ∀ de ∈ doList, lowerName de.procName ≠ lowerName name := by
  intro de hde heq
  exact List.find?_eq_none.1 h de hde (sameName_iff.2 heq)

theorem findEntry_some (h : findEntry name doList = some de) : de ∈ doList ∧ lowerName de.procName = lowerName name :=
  by
  unfold findEntry at h
  have := List.find?_some h
  exact ⟨List.mem_of_find?_eq_some h, sameName_iff.1 this⟩

/-- Setting an address keeps the names, and the other entries. -/
theorem setFaddr_names (name : Str) (faddr : Int) (doList : List DoEntry) :
    (setFaddr name faddr doList).map (fun de => lowerName de.procName) = doList.map fun de => lowerName de.procName := by
  induction doList with
  | nil => rfl
  | cons de doList ih =>
    rw [setFaddr]
    split
    · rfl
    · rw [List.map_cons, List.map_cons, ih]

theorem mem_setFaddr (faddr : Int) (hnd : (doList.map fun de => lowerName de.procName).Nodup) (hde : de ∈ doList) (h : lowerName de.procName = lowerName name)
    (e : DoEntry) : e ∈ setFaddr name faddr doList ↔ e = { de with faddr } ∨ e ∈ doList ∧ lowerName e.procName ≠ lowerName name := by
  induction doList with
  | nil => cases hde
  | cons d doList ih =>
    rw [List.map_cons, List.nodup_cons] at hnd
    have hne : ∀ e ∈ doList, lowerName e.procName = lowerName name → lowerName d.procName ≠ lowerName name := fun e he heq hd =>
      hnd.1 (by rw [hd, ← heq]; exact List.mem_map_of_mem he)
    rw [setFaddr]
    by_cases hd : lowerName d.procName = lowerName name
    · rw [if_pos (sameName_iff.2 hd)]
      obtain rfl : d = de := by
        rcases List.mem_cons.1 hde with rfl | hde
        · rfl
        · exact absurd hd (hne de hde h)
      rw [List.mem_cons, List.mem_cons]
      constructor
      · rintro (rfl | he)
        · exact Or.inl rfl
        · exact Or.inr ⟨Or.inr he, fun heq => hne e he heq hd⟩
      · rintro (rfl | ⟨rfl | he, hno⟩)
        · exact Or.inl rfl
        · exact absurd hd hno
        · exact Or.inr he
    · rw [if_neg fun h => hd (sameName_iff.1 h)]
      have hde' : de ∈ doList := by
        rcases List.mem_cons.1 hde with rfl | hde
        · exact absurd h hd
        · exact hde
      rw [List.mem_cons, ih hnd.2 hde', List.mem_cons]
      constructor
      · rintro (rfl | rfl | he)
        · exact Or.inr ⟨Or.inl rfl, hd⟩
        · exact Or.inl rfl
        · exact Or.inr ⟨Or.inr he.1, he.2⟩
      · rintro (rfl | ⟨rfl | he, hno⟩)
        · exact Or.inr (Or.inl rfl)
        · exact Or.inl rfl
        · exact Or.inr (Or.inr ⟨he, hno⟩)

theorem Linked.nil : Linked ca [] [] := by
  refine ⟨List.nodup_nil, ?_, ?_, ?_⟩ <;> simp

theorem Linked.pending_neg (h : Linked ca doList calls) (hde : de ∈ doList) (hle : de.faddr ≤ 0) : de.faddr < 0 := by
  obtain ⟨-, fs, hne, hchain, -⟩ := h.pending de hde hle
  obtain ⟨f, fs, rfl⟩ := List.exists_cons_of_ne_nil hne
  obtain ⟨h1, h2, -⟩ := hchain
  omega

/-! ## Calls -/

/-- A call is added, whose field is not among those of the others. -/
theorem Linked.addCall (h : Linked ca doList calls) (hf : 0 < f) (hnew : ∀ c ∈ calls, c.1 ≠ f) :
    (findEntry name doList = none → Linked (Function.update ca f 0) (doList ++ [⟨name, PRG_PROC, -f, 0⟩]) (calls ++ [(f, name)])) ∧
    ∀ de, findEntry name doList = some de → Linked (Function.update ca f de.faddr)
      (if de.faddr < 0 then setFaddr name (-f) doList else doList) (calls ++ [(f, name)]) := by
  have hca : ∀ {v : Int}, ∀ c ∈ calls, Function.update ca f v c.1 = ca c.1 := fun c hc => Function.update_of_ne (hnew c hc) _ _
  have hkeep : ∀ {v : Int} {e : DoEntry}, e ∈ doList → lowerName e.procName ≠ lowerName name → e.faddr ≤ 0 →
      e.type = PRG_PROC ∧ ∃ fs, fs ≠ [] ∧ ChainOf (Function.update ca f v) e.faddr fs ∧ fs.Nodup ∧
        ∀ g, g ∈ fs ↔ ∃ nm, (g, nm) ∈ calls ++ [(f, name)] ∧ lowerName e.procName = lowerName nm := by
    intro v e he hno hle
    obtain ⟨ht, fs, hne, hchain, hnd, hmem⟩ := h.pending e he hle
    refine ⟨ht, fs, hne, hchain.congr fun g hg => ?_, hnd, fun g => ?_⟩
    · obtain ⟨nm, hg, -⟩ := (hmem g).1 hg
      exact hca (g, nm) hg
    · rw [hmem]
      constructor
      · rintro ⟨nm, hg, heq⟩
        exact ⟨nm, List.mem_append_left _ hg, heq⟩
      · rintro ⟨nm, hg, heq⟩
        rcases List.mem_append.1 hg with hg | hg
        · exact ⟨nm, hg, heq⟩
        · obtain ⟨-, rfl⟩ := Prod.mk.inj (List.mem_singleton.1 hg)
          exact absurd heq hno
  have hres : ∀ {v : Int} {e : DoEntry}, e ∈ doList → 0 < e.faddr → (lowerName e.procName = lowerName name → v = e.faddr) →
      ∀ c ∈ calls ++ [(f, name)], lowerName e.procName = lowerName c.2 → Function.update ca f v c.1 = e.faddr := by
    intro v e he hpos hv c hc heq
    rcases List.mem_append.1 hc with hc | hc
    · rw [hca c hc]
      exact h.resolved e he hpos c hc heq
    · obtain rfl := List.mem_singleton.1 hc
      rw [Function.update_self]
      exact hv heq
  constructor
  · intro hnone
    have hno := findEntry_none hnone
    refine ⟨?_, ?_, ?_, ?_⟩
    · rw [List.map_append, List.map_singleton, List.nodup_append]
      refine ⟨h.nodup, List.nodup_singleton _, fun a ha b hb hab => ?_⟩
      obtain ⟨e, he, rfl⟩ := List.mem_map.1 ha
      rw [List.mem_singleton.1 hb] at hab
      exact hno e he hab
    · intro c hc
      rcases List.mem_append.1 hc with hc | hc
      · obtain ⟨e, he, heq⟩ := h.listed c hc
        exact ⟨e, List.mem_append_left _ he, heq⟩
      · obtain rfl := List.mem_singleton.1 hc
        exact ⟨_, List.mem_append_right _ (List.mem_singleton_self _), rfl⟩
    · intro e he hpos
      rcases List.mem_append.1 he with he | he
      · exact hres he hpos fun heq => absurd heq (hno e he)
      · rw [List.mem_singleton.1 he] at hpos
        dsimp only at hpos
        omega
    · intro e he hle
      rcases List.mem_append.1 he with he | he
      · exact hkeep he (hno e he) hle
      · obtain rfl := List.mem_singleton.1 he
        refine ⟨rfl, [f], by simp, ⟨rfl, hf, Function.update_self ..⟩, List.nodup_singleton _, fun g => ?_⟩
        rw [List.mem_singleton]
        constructor
        · rintro rfl
          exact ⟨name, by simp, rfl⟩
        · rintro ⟨nm, hg, heq⟩
          rcases List.mem_append.1 hg with hg | hg
          · obtain ⟨e, he, heq'⟩ := h.listed _ hg
            exact absurd (heq'.trans heq.symm) (hno e he)
          · exact (Prod.mk.inj (List.mem_singleton.1 hg)).1
  · intro de hsome
    obtain ⟨hde, hname⟩ := findEntry_some hsome
    have hlisted : ∀ {l : List DoEntry}, l.map (fun e => lowerName e.procName) = doList.map (fun e => lowerName e.procName) →
        ∀ c ∈ calls ++ [(f, name)], ∃ e ∈ l, lowerName e.procName = lowerName c.2 := by
      intro l hl c hc
      have hm : lowerName c.2 ∈ doList.map fun e => lowerName e.procName := by
        rcases List.mem_append.1 hc with hc | hc
        · obtain ⟨e, he, heq⟩ := h.listed c hc
          exact heq ▸ List.mem_map_of_mem he
        · obtain rfl := List.mem_singleton.1 hc
          exact hname ▸ List.mem_map_of_mem hde
      rw [← hl] at hm
      obtain ⟨e, he, heq⟩ := List.mem_map.1 hm
      exact ⟨e, he, heq⟩
    by_cases hneg : de.faddr < 0
    · rw [if_pos hneg]
      have hmem := mem_setFaddr (-f) h.nodup hde hname
      refine ⟨by rw [setFaddr_names]; exact h.nodup, hlisted (setFaddr_names ..), ?_, ?_⟩
      · intro e he hpos
        rcases (hmem e).1 he with rfl | ⟨he, hno⟩
        · dsimp only at hpos
          omega
        · exact hres he hpos fun heq => absurd heq hno
      · intro e he hle
        rcases (hmem e).1 he with rfl | ⟨he, hno⟩
        · obtain ⟨ht, fs, hne, hchain, hnd, hfs⟩ := h.pending de hde hneg.le
          have hfnot : f ∉ fs := fun hff => by
            obtain ⟨nm, hg, -⟩ := (hfs f).1 hff
            exact hnew _ hg rfl
          refine ⟨ht, f :: fs, by simp, ⟨rfl, hf, ?_⟩, List.nodup_cons.2 ⟨hfnot, hnd⟩, fun g => ?_⟩
          · rw [Function.update_self]
            exact hchain.congr fun g hg => Function.update_of_ne (ne_of_mem_of_not_mem hg hfnot) _ _
          · rw [List.mem_cons, hfs]
            constructor
            · rintro (rfl | ⟨nm, hg, heq⟩)
              · exact ⟨name, by simp, hname⟩
              · exact ⟨nm, List.mem_append_left _ hg, heq⟩
            · rintro ⟨nm, hg, heq⟩
              rcases List.mem_append.1 hg with hg | hg
              · exact Or.inr ⟨nm, hg, heq⟩
              · exact Or.inl (Prod.mk.inj (List.mem_singleton.1 hg)).1
        · exact hkeep he hno hle
    · rw [if_neg hneg]
      have hpos : 0 < de.faddr := by
        by_contra hle
        exact hneg (h.pending_neg hde (not_lt.1 hle))
      have honly : ∀ e ∈ doList, lowerName e.procName = lowerName name → e = de := fun e he heq =>
        List.inj_on_of_nodup_map h.nodup he hde (heq.trans hname.symm)
      refine ⟨h.nodup, hlisted rfl, fun e he hp => hres he hp fun heq => by rw [honly e he heq], fun e he hle => hkeep he (fun heq => ?_) hle⟩
      rw [honly e he heq] at hle
      omega

/-! ## Definitions -/

/-- The calls of a chain get the address. -/
def relinked (ca : Nat → Int) (fs : List Nat) (v : Int) (f : Nat) : Int := if f ∈ fs then v else ca f

/-- The addresses of a chain are small. -/
theorem ChainOf.fits (h : ChainOf ca faddr fs) (hsize : chunksSize dbg I < 2 ^ 31) (hfs : ∀ f ∈ fs, ∃ nm, (f, nm) ∈ callsAt dbg 0 I) :
    -2 ^ 31 ≤ faddr ∧ faddr < 2 ^ 31 := by
  cases fs with
  | nil =>
    rw [show faddr = 0 from h]
    decide
  | cons g fs =>
    obtain ⟨nm, hg⟩ := hfs g List.mem_cons_self
    have := callsAt_range hg
    rw [h.1]
    omega

theorem relink_eq (hsize : chunksSize dbg I < 2 ^ 31) {fuel : Nat} (hchain : ChainOf ca faddr fs) (hne : fs ≠ []) (hnd : fs.Nodup)
    (hfs : ∀ f ∈ fs, ∃ nm, (f, nm) ∈ callsAt dbg 0 I) (hfuel : fs.length ≤ fuel) :
    relink v fuel (bytesAt dbg ca 0 I) faddr = bytesAt dbg (relinked ca fs v) 0 I := by
  induction fs generalizing ca faddr fuel with
  | nil => exact absurd rfl hne
  | cons f fs ih =>
    obtain ⟨fuel, rfl⟩ : ∃ n, fuel = n + 1 := ⟨fuel - 1, by rw [List.length_cons] at hfuel; omega⟩
    obtain ⟨rfl, hpos, hrest⟩ := hchain
    obtain ⟨nm, hf⟩ := hfs f (by simp)
    have hfit := hrest.fits hsize fun g hg => hfs g (List.mem_cons_of_mem f hg)
    have hupd : ∀ g ∈ fs, Function.update ca f v g = ca g := fun g hg =>
      Function.update_of_ne (ne_of_mem_of_not_mem hg (List.nodup_cons.1 hnd).1) _ _
    rw [relink, neg_neg, Int.toNat_natCast, readAt_call hf, getCpos_word hfit.1 hfit.2, bytesAt_update hf]
    cases fs with
    | nil =>
      rw [if_neg (not_not.2 (show ca f = 0 from hrest))]
      refine congrArg (bytesAt dbg · 0 I) (funext fun g => ?_)
      unfold relinked
      by_cases h2 : g = f
      · rw [h2, Function.update_self, if_pos (List.mem_singleton_self f)]
      · rw [Function.update_of_ne h2, if_neg fun hm => h2 (List.mem_singleton.1 hm)]
    | cons g fs =>
      have hg : ca f ≠ 0 := by
        rw [hrest.1]
        have := hrest.2.1
        omega
      rw [if_pos hg, ih (hrest.congr hupd) (by simp) (List.nodup_cons.1 hnd).2 (fun h hh => hfs h (by simp [List.mem_cons.1 hh])) (Nat.le_of_succ_le_succ hfuel)]
      refine congrArg (bytesAt dbg · 0 I) (funext fun h => ?_)
      unfold relinked
      by_cases h1 : h ∈ g :: fs
      · rw [if_pos h1, if_pos (List.mem_cons_of_mem _ h1)]
      · rw [if_neg h1]
        by_cases h2 : h = f
        · rw [h2, Function.update_self, if_pos List.mem_cons_self]
        · rw [Function.update_of_ne h2, if_neg fun hm => (List.mem_cons.1 hm).elim h2 h1]

/-- The calls of a chain are linked. -/
theorem Linked.relinked (h : Linked ca doList calls) (hde : de ∈ doList) (hname : lowerName de.procName = lowerName name)
    (hchain : ∀ f, f ∈ fs ↔ ∃ nm, (f, nm) ∈ calls ∧ lowerName de.procName = lowerName nm) (hpos : 0 < v)
    (hinj : ∀ f nm nm', (f, nm) ∈ calls → (f, nm') ∈ calls → nm = nm') : Linked (relinked ca fs v) (setFaddr name v doList) calls := by
  have hmem := mem_setFaddr v h.nodup hde hname
  have hout : ∀ e ∈ doList, lowerName e.procName ≠ lowerName name → ∀ c ∈ calls, lowerName e.procName = lowerName c.2 → Db3w.Hb.relinked ca fs v c.1 = ca c.1 := by
    intro e he hno c hc heq
    refine if_neg fun hf => hno ?_
    obtain ⟨nm, hf, hnm⟩ := (hchain c.1).1 hf
    rw [heq, hinj c.1 c.2 nm hc hf, ← hnm, hname]
  refine ⟨by rw [setFaddr_names]; exact h.nodup, fun c hc => ?_, fun e he hp c hc heq => ?_, fun e he hle' => ?_⟩
  · obtain ⟨e, he, heq⟩ := h.listed c hc
    by_cases hn : lowerName e.procName = lowerName name
    · exact ⟨{ de with faddr := v }, (hmem _).2 (Or.inl rfl), hname.trans (hn.symm.trans heq)⟩
    · exact ⟨e, (hmem _).2 (Or.inr ⟨he, hn⟩), heq⟩
  · rcases (hmem e).1 he with rfl | ⟨he, hno⟩
    · exact if_pos ((hchain c.1).2 ⟨c.2, hc, heq⟩)
    · rw [hout e he hno c hc heq]
      exact h.resolved e he hp c hc heq
  · rcases (hmem e).1 he with rfl | ⟨he, hno⟩
    · dsimp only at hle'
      omega
    · obtain ⟨ht, gs, hne, hch, hnd, hgs⟩ := h.pending e he hle'
      refine ⟨ht, gs, hne, hch.congr fun g hg => ?_, hnd, hgs⟩
      obtain ⟨nm, hg, heq⟩ := (hgs g).1 hg
      exact hout e he hno (g, nm) hg heq

/-- A field belongs to one call. -/
theorem callsAt_inj {a : Nat} {nm nm' : Str} (h : (f, nm) ∈ callsAt dbg a I) (h' : (f, nm') ∈ callsAt dbg a I) : nm = nm' := by
  by_contra hne
  have hs : (callsAt dbg a I).Pairwise fun c d => c.1 + 4 ≤ d.1 := callsAt_sorted
  rcases List.pairwise_iff_getElem.1 hs with hs
  obtain ⟨i, hi, hfi⟩ := List.mem_iff_getElem.1 h
  obtain ⟨j, hj, hfj⟩ := List.mem_iff_getElem.1 h'
  rcases lt_trichotomy i j with hlt | rfl | hlt
  · have := hs i j hi hj hlt
    rw [hfi, hfj] at this
    dsimp only at this
    omega
  · rw [hfi] at hfj
    exact hne (Prod.mk.inj hfj).2
  · have := hs j i hj hi hlt
    rw [hfi, hfj] at this
    dsimp only at this
    omega

theorem length_chain (hnd : fs.Nodup) (hfs : ∀ f ∈ fs, ∃ nm, (f, nm) ∈ callsAt dbg 0 I) : fs.length ≤ chunksSize dbg I := by
  have hsub : fs ⊆ List.range (chunksSize dbg I) := fun f hf => by
    obtain ⟨nm, hf⟩ := hfs f hf
    have := callsAt_range hf
    rw [List.mem_range]
    omega
  exact (hnd.subperm hsub).length_le.trans (List.length_range ..).le

/-- What a definition leaves of the names: those defined before, and the new one. -/
structure Defined (doList doList' : List DoEntry) (name : Str) (type a : Nat) : Prop where
  keep : ∀ e ∈ doList, 0 < e.faddr → e ∈ doList'
  entry : ∃ de ∈ doList', lowerName de.procName = lowerName name ∧ de.type = type ∧ de.faddr = a
  only : ∀ e ∈ doList', 0 < e.faddr → e ∈ doList ∨ lowerName e.procName = lowerName name

/-- The definition of a name that is not defined yet. -/
theorem Linked.addDef (h : Linked ca st.doList (callsAt dbg 0 I)) (hsize : chunksSize dbg I < 2 ^ 31) (hout : st.outfp = bytesAt dbg ca 0 I)
    {type a : Nat} (ha : 0 < a) (hno : ∀ de ∈ st.doList, lowerName de.procName = lowerName name → de.faddr ≤ 0 ∧ type = PRG_PROC) :
    ∃ ca' doList', Db3w.Hb.addDef name type a st = .ok { st with outfp := bytesAt dbg ca' 0 I, doList := doList' } ∧
      Linked ca' doList' (callsAt dbg 0 I) ∧ Defined st.doList doList' name type a := by
  unfold Db3w.Hb.addDef
  cases hf : findEntry name st.doList with
  | none =>
    have hn := findEntry_none hf
    refine ⟨ca, st.doList ++ [⟨name, type, a, 0⟩], by rw [← hout], ⟨?_, ?_, ?_, ?_⟩, ⟨fun e he _ => List.mem_append_left _ he, ?_, ?_⟩⟩
    · rw [List.map_append, List.map_singleton, List.nodup_append]
      refine ⟨h.nodup, List.nodup_singleton _, fun x hx b hb hxb => ?_⟩
      obtain ⟨e, he, rfl⟩ := List.mem_map.1 hx
      rw [List.mem_singleton.1 hb] at hxb
      exact hn e he hxb
    · intro c hc
      obtain ⟨e, he, heq⟩ := h.listed c hc
      exact ⟨e, List.mem_append_left _ he, heq⟩
    · intro e he hp c hc heq
      rcases List.mem_append.1 he with he | he
      · exact h.resolved e he hp c hc heq
      · obtain rfl := List.mem_singleton.1 he
        obtain ⟨e, he, heq'⟩ := h.listed c hc
        exact absurd (heq'.trans heq.symm) (hn e he)
    · intro e he hle
      rcases List.mem_append.1 he with he | he
      · exact h.pending e he hle
      · rw [List.mem_singleton.1 he] at hle
        dsimp only at hle
        omega
    · exact ⟨_, List.mem_append_right _ (List.mem_singleton_self _), rfl, rfl, rfl⟩
    · intro e he _
      rcases List.mem_append.1 he with he | he
      · exact Or.inl he
      · rw [List.mem_singleton.1 he]
        exact Or.inr rfl
  | some de =>
    obtain ⟨hde, hname⟩ := findEntry_some hf
    obtain ⟨hle, htype⟩ := hno de hde hname
    obtain ⟨ht, fs, hne, hchain, hnd, hfs⟩ := h.pending de hde hle
    have hcalls : ∀ f ∈ fs, ∃ nm, (f, nm) ∈ callsAt dbg 0 I := fun f hf => by
      obtain ⟨nm, hf, -⟩ := (hfs f).1 hf
      exact ⟨nm, hf⟩
    dsimp only
    rw [if_neg (not_lt.2 hle), if_neg (by rw [ht, htype]; exact not_not.2 rfl), hout,
      relink_eq hsize hchain hne hnd hcalls (by rw [length_bytesAt]; exact length_chain hnd hcalls)]
    have hmem := mem_setFaddr a h.nodup hde hname
    refine ⟨_, _, rfl, h.relinked hde hname hfs (by omega) fun f nm nm' => callsAt_inj, ⟨fun e he hp => (hmem e).2 (Or.inr ⟨he, fun heq => ?_⟩), ?_, ?_⟩⟩
    · have := (hno e he heq).1
      omega
    · exact ⟨{ de with faddr := a }, (hmem _).2 (Or.inl rfl), hname, ht.trans htype.symm, rfl⟩
    · intro e he _
      rcases (hmem e).1 he with rfl | ⟨he, -⟩
      · exact Or.inr hname
      · exact Or.inl he

end List

end Db3w.Hb
