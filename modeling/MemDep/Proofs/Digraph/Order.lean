import MemDep.Proofs.Digraph
import Mathlib.Data.List.Chain

/-!
# The order of a depth-first search

A vertex stands in reverse postorder before the vertices that it has an arc to, unless one of those
leads back to it; the root stands first. When a vertex is put in order, what it has arcs to is in order
already, or still on the stack. The stack is a path, so whatever is on it leads to the vertex.
-/

namespace MemDep

namespace Digraph

open Relation

variable {g : Digraph}

/-- What a depth-first search keeps about its order. -/
structure Ordered (g : Digraph) (root : Nat) (order : List Nat) (stack : List (Nat × List Nat)) :
    Prop where
  path : (stack.map (·.1)).IsChain fun v u => g.Arc u v
  back : order.Pairwise fun u v => g.Arc v u → ReflTransGen g.Arc u v
  late : ∀ u v, u ∈ order → g.Arc u v → v ∈ order ∨ ReflTransGen g.Arc v u
  root : (stack.map (·.1)).getLast?.or order.head? = some root

namespace Ordered

variable {root : Nat} {marks : Array Bool} {order : List Nat} {stack : List (Nat × List Nat)}

theorem start (g : Digraph) (root : Nat) : Ordered g root [] [(root, g.next root)] :=
  ⟨List.isChain_singleton root, List.Pairwise.nil, by simp, rfl⟩

/-- Whatever is on the stack leads to its top. -/
theorem leads {v w : Nat} {todo : List Nat} (h : Ordered g root order ((v, todo) :: stack))
    (hw : w ∈ stack.map (·.1)) : ReflTransGen g.Arc w v := by
  have hpath : (v :: stack.map (·.1)).IsChain fun v u => ReflTransGen g.Arc u v :=
    h.path.imp fun _ _ huv => .single huv
  have htrans : Trans (fun v u => ReflTransGen g.Arc u v) (fun v u => ReflTransGen g.Arc u v)
      fun v u => ReflTransGen g.Arc u v := ⟨fun hvu huw => huw.trans hvu⟩
  exact hpath.rel_cons hw

theorem pop {v : Nat} (hs : Search g root marks order ((v, []) :: stack))
    (h : Ordered g root order ((v, []) :: stack)) : Ordered g root (v :: order) stack := by
  have hv : v ∉ order := by
    have hnodup := List.nodup_append.mp hs.nodup
    intro hmem
    exact hnodup.2.2 v hmem v (by simp) rfl
  constructor
  case path => exact h.path.tail
  case back =>
    refine List.pairwise_cons.mpr ⟨?_, h.back⟩
    intro u hu huv
    rcases h.late u v hu huv with hmem | hlead
    · exact absurd hmem hv
    · exact hlead
  case late =>
    intro u w hu huw
    rcases List.mem_cons.mp hu with rfl | hu
    · -- nothing is left to be looked at, so all that `u` has arcs to is marked
      have hw : Marked marks w := (hs.todo (u, []) (by simp) w huw).resolve_left (by simp)
      rcases (hs.marked w).mp hw with hmem | hmem
      · exact .inl (List.mem_cons_of_mem u hmem)
      · rcases List.mem_cons.mp hmem with rfl | hmem
        · exact .inr .refl
        · exact .inr (h.leads hmem)
    · rcases h.late u w hu huw with hmem | hlead
      · exact .inl (List.mem_cons_of_mem v hmem)
      · exact .inr hlead
  case root =>
    have hroot := h.root
    cases stack with
    | nil => simpa using hroot
    | cons e stack => simpa [List.getLast?_cons] using hroot

theorem push {v w : Nat} {rest : List Nat} (hvw : g.Arc v w)
    (h : Ordered g root order ((v, w :: rest) :: stack)) :
    Ordered g root order ((w, g.next w) :: (v, rest) :: stack) := by
  refine ⟨List.isChain_cons_cons.mpr ⟨hvw, h.path⟩, h.back, h.late, ?_⟩
  have hroot := h.root
  simpa [List.getLast?_cons] using hroot

theorem finish (hs : Search g root marks order stack) (h : Ordered g root order stack) :
    Ordered g root (g.finish marks order stack) [] := by
  induction marks, order, stack using finish.induct g with
  | case1 marks order =>
    rw [Digraph.finish]
    exact h
  | case2 marks order v stack ih =>
    rw [Digraph.finish]
    exact ih hs.pop (h.pop hs)
  | case3 marks order v w rest stack hw ih =>
    rw [Digraph.finish, if_pos hw]
    exact ih (hs.push hw) (h.push (hs.arc hw))
  | case4 marks order v w rest stack hw ih =>
    rw [Digraph.finish, if_neg hw]
    exact ih (hs.skip hw) ⟨h.path, h.back, h.late, h.root⟩

end Ordered

theorem ordered_reversePostorder {root : Nat} (h : root < g.size) :
    Ordered g root (g.reversePostorder root) [] := by
  unfold reversePostorder
  rw [if_pos h]
  exact (Ordered.start g root).finish (Search.start h)

/-- An arc leads back in the order only if its end leads to its start. -/
theorem pairwise_reversePostorder (g : Digraph) (root : Nat) :
    (g.reversePostorder root).Pairwise fun u v => g.Arc v u → ReflTransGen g.Arc u v := by
  by_cases h : root < g.size
  · exact (ordered_reversePostorder h).back
  · unfold reversePostorder
    rw [if_neg h]
    exact List.Pairwise.nil

/-- An arc whose end does not lead to its start leads forward in the order. -/
theorem before_reversePostorder {root u v : Nat} (hu : u ∈ g.reversePostorder root)
    (hv : v ∈ g.reversePostorder root) (huv : g.Arc u v) (hback : ¬ ReflTransGen g.Arc v u) :
    ∃ i j : Nat, i < j ∧ (g.reversePostorder root)[i]? = some u ∧
      (g.reversePostorder root)[j]? = some v := by
  obtain ⟨i, hi, rfl⟩ := List.mem_iff_getElem.mp hu
  obtain ⟨j, hj, rfl⟩ := List.mem_iff_getElem.mp hv
  refine ⟨i, j, ?_, List.getElem?_eq_getElem hi, List.getElem?_eq_getElem hj⟩
  rcases Nat.lt_trichotomy i j with hlt | rfl | hlt
  · exact hlt
  · exact absurd .refl hback
  · have hpairwise := List.pairwise_iff_getElem.mp (g.pairwise_reversePostorder root)
    exact absurd (hpairwise j i hj hi hlt huv) hback

theorem head?_reversePostorder {root : Nat} (h : root < g.size) :
    (g.reversePostorder root).head? = some root := by
  simpa using (ordered_reversePostorder h).root

end Digraph

end MemDep
