/-
SKIP over a one-to-many relation as a whole. `next` comes to rest only where `go_rel` has found a match, so between
two calls of `skip` the related table always shows a match of the current record. From there each call goes on to
the match behind, or to another record when there is none.
-/
import Db3w.Dbf.SkipRel

namespace Db3w.Nav

open Falling

/-- No match of a record is taken out, the entry behind a match is not the first of its page, and the comparison on
the stack finds the entry behind a match to be equal exactly when it is a match. -/
structure Smooth (env : Env) (hd : NdxHdr) (t : Tree) (hid : Recno → Bool) (rel : Recno → Hb.HbVal) : Prop where
  shown : ∀ m, ∀ e ∈ t.entries, matchesVal env hd (rel m) e → hid e.recno = false
  inside : ∀ m n s r, t.slots[n]? = some s → t.slots[n + 1]? = some r → matchesVal env hd (rel m) s.ent → r.idx ≠ 0
  agrees : ∀ m x n s r, rel m = .charctr x → t.slots[n]? = some s → t.slots[n + 1]? = some r → matchesVal env hd (rel m) s.ent →
    sameText env.set.exactOn x r.ent.key = matchesVal env hd (rel m) r.ent

/-- The related table shows entry `n` of its index, a match of the current record. -/
structure Linked (env : Env) (hd : NdxHdr) (t : Tree) (hid : Recno → Bool) (rel : Recno → Hb.HbVal) (n : Nat) (w : World) : Prop where
  relation : w.cur.relation = rel
  etof : w.cur.etof none = false
  child : ∃ C s, w.rela = [C] ∧ Child env hd t hid C ∧ t.slots[n]? = some s ∧ At C s ∧ matchesVal env hd (rel w.cur.buf) s.ent = true

section Run

variable {env : Env} {hd : NdxHdr} {t : Tree} {hid : Recno → Bool} {rel : Recno → Hb.HbVal} {n fuel : Nat} {w w' : World} {P C : Area}
  {S : Hb.Stack} {b : Bool}

end Run

/-! ## The property -/

/-- When SKIP does so: the related table has no relation of its own, its pages and values are as `Smooth` says, and the stack
has room for two values of the length of a key. -/
structure Plain (env : Env) (hd : NdxHdr) (t : Tree) (hid : Recno → Bool) (w : World) (as : List Area) : Prop where
  alone : as = []
  smooth : Smooth env hd t hid w.cur.relation
  room : w.stack.bytes + 2 * hd.keylen + 12 ≤ env.cap

section Skip

variable {env : Env} {hd : NdxHdr} {t : Tree} {hid : Recno → Bool} {rel : Recno → Hb.HbVal} {n fuel : Nat} {w w' : World} {C : Area} {as : List Area}
  {s : Slot Pageno Ent}

theorem Linked.tof (h : Linked env hd t hid rel n w) : w.cur.etof (some .backward) = false := (Bool.or_eq_false_iff.mp h.etof).2

end Skip

/-- The same with a page for each. -/
def pairTree : Tree := .node 1 [⟨[65], 0⟩] [.leaf 2 [⟨[65], 1⟩], .leaf 3 [⟨[65], 2⟩]]

def pairHdr : NdxHdr := ⟨1, 4, 1, 3, 0, []⟩

def pairEnv : Env := ⟨⟨false, false⟩, false, 64, 4, fun _ => 0, [], 0⟩

theorem pair_matches (m : Recno) : matchesVal pairEnv pairHdr (.charctr [65]) ⟨[65], m⟩ = true := rfl

theorem pairTree_slots : pairTree.slots = [⟨2, 0, ⟨[65], 1⟩⟩, ⟨3, 0, ⟨[65], 2⟩⟩] := rfl

end Db3w.Nav
