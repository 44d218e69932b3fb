/-
Values packed without gaps. The bytes of an arena are the values of its owners one behind the other,
and each owner knows where its value begins. A value is added at the end; when one is cut out, what
follows moves up, and the places of what lies behind it are moved along.
-/
import Mathlib.Tactic

namespace Arena

variable {ι β : Type*} {enc : β → List UInt8} {bytes : List UInt8} {ptr ptr' : ι → Option Nat} {os a c : List (ι × β)} {e k : ι} {b : β}

/-- The bytes of some values. -/
def lay (enc : β → List UInt8) (os : List (ι × β)) : List UInt8 := os.flatMap fun o => enc o.2

/-- The values lie one behind the other, each at the place of its owner. -/
structure Packed (enc : β → List UInt8) (bytes : List UInt8) (ptr : ι → Option Nat) (os : List (ι × β)) : Prop where
  bytes_eq : bytes = lay enc os
  nodup : (os.map Prod.fst).Nodup
  at_ : ∀ a e b c, os = a ++ (e, b) :: c → ptr e = some (lay enc a).length

theorem lay_append (a c : List (ι × β)) : lay enc (a ++ c) = lay enc a ++ lay enc c := List.flatMap_append

theorem lay_cons (e : ι) (b : β) (c : List (ι × β)) : lay enc ((e, b) :: c) = enc b ++ lay enc c := List.flatMap_cons

/-- What is read where a value begins. -/
theorem Packed.drop (h : Packed enc bytes ptr os) (hos : os = a ++ (e, b) :: c) : ∃ p, ptr e = some p ∧ bytes.drop p = enc b ++ lay enc c := by
  refine ⟨_, h.at_ a e b c hos, ?_⟩
  rw [h.bytes_eq, hos, lay_append, List.drop_left' rfl, lay_cons]

/-- Only the places of the owners count. -/
theorem Packed.congr (h : Packed enc bytes ptr os) (heq : ∀ o ∈ os, ptr' o.1 = ptr o.1) : Packed enc bytes ptr' os := by
  refine ⟨h.bytes_eq, h.nodup, fun a e b c hos => ?_⟩
  rw [heq (e, b) (hos ▸ List.mem_append_right _ List.mem_cons_self)]
  exact h.at_ a e b c hos

/-- A value is added at the end. -/
theorem Packed.append (h : Packed enc bytes ptr os) (he : e ∉ os.map Prod.fst) (heq : ∀ o ∈ os, ptr' o.1 = ptr o.1)
    (hnew : ptr' e = some bytes.length) (b : β) : Packed enc (bytes ++ enc b) ptr' (os ++ [(e, b)]) := by
  refine ⟨?_, ?_, fun a k d c hos => ?_⟩
  · rw [lay_append, lay_cons, h.bytes_eq]
    exact (List.append_nil _).symm ▸ rfl
  · rw [List.map_append, List.nodup_append]
    refine ⟨h.nodup, List.nodup_singleton _, fun x hx y hy => ?_⟩
    rw [List.mem_singleton.mp hy]
    exact ne_of_mem_of_not_mem hx he
  · rcases List.eq_nil_or_concat c with rfl | ⟨c', o, rfl⟩
    · obtain ⟨rfl, hlast⟩ := List.append_inj' hos rfl
      cases hlast
      rw [hnew, h.bytes_eq]
    · rw [List.concat_eq_append, ← List.cons_append, ← List.append_assoc] at hos
      obtain ⟨hos', -⟩ := List.append_inj' hos rfl
      rw [heq (k, d) (hos' ▸ List.mem_append_right _ List.mem_cons_self)]
      exact h.at_ a k d c' hos'

/-- A value is cut out, and the places behind it are moved along. -/
theorem Packed.remove (henc : ∀ b, enc b ≠ []) (h : Packed enc bytes ptr (a ++ (e, b) :: c))
    (hptr : ∀ o ∈ a ++ c, ptr' o.1 = (ptr o.1).map fun q => if (lay enc a).length < q then q - (enc b).length else q) :
    Packed enc (bytes.take (lay enc a).length ++ bytes.drop ((lay enc a).length + (enc b).length)) ptr' (a ++ c) := by
  refine ⟨?_, ?_, fun a' k d c' hos => ?_⟩
  · rw [h.bytes_eq, lay_append, List.take_left' rfl, ← List.drop_drop, List.drop_left' rfl, lay_cons, List.drop_left' rfl, ← lay_append]
  · have := h.nodup
    rw [List.map_append, List.map_cons] at this
    rw [List.map_append]
    exact this.sublist (List.Sublist.append_left (List.sublist_cons_self _ _) _)
  · have hmem : (k, d) ∈ a ++ c := hos ▸ List.mem_append_right _ List.mem_cons_self
    rw [hptr (k, d) hmem]
    rcases List.append_eq_append_iff.mp hos with ⟨m, rfl, hc⟩ | ⟨m, rfl, hc⟩
    · -- behind what is cut out
      have hat := h.at_ (a ++ (e, b) :: m) k d c' (by rw [hc]; simp)
      rw [hat, Option.map_some, lay_append, lay_cons, lay_append]
      simp only [List.length_append]
      have hpos := List.length_pos_iff.mpr (henc b)
      rw [if_pos (by omega)]
      congr 1
      omega
    · cases m with
      | nil =>
        -- right behind it
        rw [List.append_nil] at h hptr hmem ⊢
        rw [List.nil_append] at hc
        have hat := h.at_ (a' ++ [(e, b)]) k d c' (by rw [← hc]; simp)
        rw [hat, Option.map_some, lay_append, lay_cons]
        simp only [List.length_append]
        have hpos := List.length_pos_iff.mpr (henc b)
        have hnil : (lay enc ([] : List (ι × β))).length = 0 := rfl
        rw [if_pos (by omega)]
        congr 1
        omega
      | cons o m =>
        obtain ⟨rfl, rfl⟩ := List.cons.inj hc
        have hat := h.at_ a' k d (m ++ (e, b) :: c) (by simp)
        rw [hat, Option.map_some, if_neg]
        rw [lay_append, List.length_append]
        omega

end Arena
