/-
The file of a tree. Every tree whose pages have distinct numbers in use can be stored: its file
holds on each page what the tree has there.
-/
import Db3w.Ndx.Tree

namespace Db3w

/-- The page with the given entries and subtree pages. -/
def pageOf (es : List Ent) (ps : List Pageno) : NdxPage where
  entryCnt := es.length
  entries i :=
    let e := es.getD i ⟨[], 0⟩
    ⟨ps.getD i 0, e.recno, e.key⟩

theorem pageOf_ents (es : List Ent) (ps : List Pageno) : (pageOf es ps).ents = es :=
  NdxPage.ents_eq rfl fun i hi => by
    have hi' : i < es.length := hi
    simp [pageOf, NdxEntry.ent, hi']

theorem pageOf_pnos {es : List Ent} {ps : List Pageno} (h : ps.length = es.length + 1) : (pageOf es ps).pnos = ps :=
  NdxPage.pnos_eq h.symm fun i hi => by
    have hi' : i < ps.length := by rw [h]; exact Nat.lt_succ_of_le hi
    simp [pageOf, hi']

mutual
/-- The pages of a tree with their contents. -/
def filePages : Tree → List (Pageno × NdxPage)
  | .leaf p es => [(p, pageOf es (List.replicate (es.length + 1) 0))]
  | .node p ss ks => (p, pageOf ss (ks.map MTree.page)) :: filePagesOf ks
/-- The pages of a list of trees with their contents. -/
def filePagesOf : List Tree → List (Pageno × NdxPage)
  | [] => []
  | k :: ks => filePages k ++ filePagesOf ks
end

/-- The file that holds a tree. -/
def fileOf (t : Tree) (p : Pageno) : NdxPage := ((filePages t).lookup p).getD zeroPage

theorem filePagesOf_eq : ∀ ks : List Tree, filePagesOf ks = ks.flatMap filePages
  | [] => rfl
  | k :: ks => by rw [filePagesOf, filePagesOf_eq ks, List.flatMap_cons]

theorem map_fst_filePages (t : Tree) : (filePages t).map Prod.fst = t.pages := by
  induction t using MTree.ind with
  | leaf p es => simp [filePages]
  | node p ss ks ih =>
    rw [filePages, filePagesOf_eq, List.map_cons, MTree.pages_node, List.map_flatMap]
    congr 1
    exact List.flatMap_congr ih

theorem lookup_of_mem {x : Pageno × NdxPage} : ∀ {l : List (Pageno × NdxPage)}, (l.map Prod.fst).Nodup → x ∈ l →
    l.lookup x.1 = some x.2
  | y :: l, hnd, hx => by
    rw [List.map_cons, List.nodup_cons] at hnd
    rw [List.lookup_cons]
    rcases List.mem_cons.1 hx with rfl | hx
    · simp
    · have hne : x.1 ≠ y.1 := fun h => hnd.1 (h ▸ List.mem_map_of_mem hx)
      simp only [beq_eq_false_iff_ne.2 hne]
      exact lookup_of_mem hnd.2 hx

theorem stored_of_pages {st : Ndx} {t : Tree} (hf : ∀ x ∈ filePages t, st.file x.1 = x.2)
    (h0 : ∀ p ∈ t.pages, p ≠ 0 ∧ p < st.hdr.pagecnt) (hs : t.Shape SameKey ∨ ∃ p, t = .leaf p []) : Stored st t := by
  induction t using MTree.ind with
  | leaf p es =>
    have hp := hf _ (by rw [filePages]; exact List.mem_singleton_self _)
    obtain ⟨h1, h2⟩ := h0 p (by simp)
    exact .leaf h1 h2 (by rw [hp, pageOf_ents]) (by rw [hp, pageOf_pnos (by simp)])
  | node p ss ks ih =>
    have hp := hf _ (by rw [filePages]; exact List.mem_cons_self)
    obtain ⟨h1, h2⟩ := h0 p (by simp)
    obtain ⟨hsep, hks⟩ : MTree.Sepd SameKey ss ks ∧ ∀ k ∈ ks, k.Shape SameKey := by simpa using hs
    refine .node h1 h2 (by rw [hp, pageOf_ents]) (by rw [hp, pageOf_pnos (by simpa using hsep.len)]) fun k hk => ?_
    refine ih k hk (fun x hx => hf x ?_) (fun q hq => h0 q ?_) (Or.inl (hks k hk))
    · rw [filePages, filePagesOf_eq]
      exact List.mem_cons_of_mem _ (List.mem_flatMap.2 ⟨k, hk, hx⟩)
    · rw [MTree.pages_node]
      exact List.mem_cons_of_mem _ (List.mem_flatMap.2 ⟨k, hk, hq⟩)

/-- The file of a tree holds it. -/
theorem stored_fileOf {st : Ndx} {t : Tree} (hf : st.file = fileOf t) (hnd : t.pages.Nodup)
    (h0 : ∀ p ∈ t.pages, p ≠ 0 ∧ p < st.hdr.pagecnt) (hs : t.Shape SameKey ∨ ∃ p, t = .leaf p []) : Stored st t :=
  stored_of_pages (fun x hx => by
    rw [hf, fileOf, lookup_of_mem (by rw [map_fst_filePages]; exact hnd) hx]; rfl) h0 hs

end Db3w
