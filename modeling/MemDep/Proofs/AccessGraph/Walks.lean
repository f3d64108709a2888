import MemDep.AccessGraph.Defect
import MemDep.Proofs.Digraph.Order

/-!
# Walks of access graphs

What the checks of a graph say about its edges, and which nodes its traversals find. A graph
without a structural error has a root, and all its edges lead from nodes to nodes; if moreover no
edge is asymmetric, the successor and the predecessor lists describe the same edges.
-/

namespace MemDep

namespace AccessGraph

open Relation

variable {g : AccessGraph}

/-- The root leads to a node along successor edges. -/
def FromRoot (g : AccessGraph) (n : Nat) : Prop :=
  ∃ r, g.root = some r ∧ ReflTransGen (fun a b => b ∈ g.successors a) r n

/-- A walk of at least one successor edge between two nodes. The nodes strictly between its two ends
satisfy `inner`. -/
inductive Walk (g : AccessGraph) (inner : Nat → Prop) (a : Nat) : Nat → Prop where
  | edge {b : Nat} (h : b ∈ g.successors a) : Walk g inner a b
  | step {b c : Nat} (h : Walk g inner a b) (hb : inner b) (hc : c ∈ g.successors b) :
      Walk g inner a c

theorem Walk.mono {inner inner' : Nat → Prop} (himp : ∀ n, inner n → inner' n) {a b : Nat}
    (h : g.Walk inner a b) : g.Walk inner' a b := by
  induction h with
  | edge h => exact .edge h
  | step _ hb hc ih => exact .step ih (himp _ hb) hc

/-! ## What the checks say -/

theorem mem_successors {a b : Nat} :
    b ∈ g.successors a ↔ ∃ node, g.node? a = some node ∧ b ∈ node.successors := by
  unfold successors
  cases g.node? a <;> simp

theorem mem_predecessors {a b : Nat} :
    b ∈ g.predecessors a ↔ ∃ node, g.node? a = some node ∧ b ∈ node.predecessors := by
  unfold predecessors
  cases g.node? a <;> simp

theorem lt_of_node? {n : Nat} {node : AccessNode} (h : g.node? n = some node) : n < g.size :=
  (Array.getElem?_eq_some_iff.mp h).1

theorem lt_of_mem_successors {a b : Nat} (h : b ∈ g.successors a) : a < g.size := by
  obtain ⟨node, hnode, _⟩ := mem_successors.mp h
  exact lt_of_node? hnode

theorem lt_of_mem_predecessors {a b : Nat} (h : b ∈ g.predecessors a) : a < g.size := by
  obtain ⟨node, hnode, _⟩ := mem_predecessors.mp h
  exact lt_of_node? hnode

/-- A graph that an analysis accepts. -/
structure WellFormed (g : AccessGraph) : Prop where
  root : ∃ r, g.root = some r ∧ r < g.size
  unknownMemory_lt : unknownMemory < g.size
  id_eq : ∀ {n : Nat} {node : AccessNode}, g.node? n = some node → node.id = n
  successors_lt : ∀ {a b : Nat}, b ∈ g.successors a → b < g.size
  predecessors_lt : ∀ {a b : Nat}, b ∈ g.predecessors a → b < g.size

/-- The successor and the predecessor lists describe the same edges. -/
def Symmetric (g : AccessGraph) : Prop := ∀ a b, b ∈ g.successors a ↔ a ∈ g.predecessors b

theorem nodeError_eq_none {slot : Nat} {node : AccessNode} :
    g.nodeError slot node = none ↔
      node.id = slot ∧ ∀ m ∈ node.successors ++ node.predecessors, m < g.size := by
  unfold nodeError
  by_cases hid : node.id = slot
  · simp [hid, contains, or_imp, forall_and]
  · simp [hid]

theorem mem_zipIdx_nodes {n : Nat} {node : AccessNode} :
    (node, n) ∈ g.nodes.toList.zipIdx ↔ g.node? n = some node := by
  rw [List.mk_mem_zipIdx_iff_getElem?, Array.getElem?_toList]
  rfl

theorem mem_nodes {node : AccessNode} : node ∈ g.nodes.toList ↔ ∃ n, g.node? n = some node := by
  rw [Array.mem_toList_iff]
  exact Array.mem_iff_getElem?

/-- The checks pass if the root exists, node 0 is the unknown memory, and every node is in its place and
has edges within the graph only. -/
theorem structuralError_eq_none_iff : g.structuralError = none ↔
    (∃ r, g.root = some r ∧ r < g.size) ∧
      (g.node? unknownMemory).map AccessNode.kind = some .unknownMemory ∧
      ∀ n node, g.node? n = some node →
        node.id = n ∧ ∀ m ∈ node.successors ++ node.predecessors, m < g.size := by
  unfold structuralError
  cases g.root with
  | none => simp
  | some r =>
    by_cases hlt : r < g.size
    · by_cases hkind : (g.node? unknownMemory).map AccessNode.kind = some .unknownMemory
      · dsimp only
        rw [if_neg (by simp [contains, hlt]), if_neg (not_not.mpr hkind)]
        simp only [List.findSome?_eq_none_iff, Prod.forall, mem_zipIdx_nodes, nodeError_eq_none]
        rw [forall_comm]
        simp [hlt, hkind]
      · simp [contains, hlt, hkind]
    · simp [contains, hlt]

theorem wellFormed_of_structuralError (h : g.structuralError = none) : g.WellFormed := by
  obtain ⟨hroot, hkind, hnode⟩ := structuralError_eq_none_iff.mp h
  refine ⟨hroot, ?_, fun hn => (hnode _ _ hn).1, ?_, ?_⟩
  · cases hzero : g.node? unknownMemory with
    | none => simp [hzero] at hkind
    | some node => exact lt_of_node? hzero
  · intro a b hb
    obtain ⟨node, hn, hb⟩ := mem_successors.mp hb
    exact (hnode _ _ hn).2 b (List.mem_append_left _ hb)
  · intro a b hb
    obtain ⟨node, hn, hb⟩ := mem_predecessors.mp hb
    exact (hnode _ _ hn).2 b (List.mem_append_right _ hb)

/-- If nodes are in their places, then an edge is asymmetric exactly if one of its ends lists it and the
other one does not. -/
theorem mem_asymmetricEdges (hid : ∀ n node, g.node? n = some node → node.id = n) {a b : Nat} :
    (a, b) ∈ g.asymmetricEdges ↔ Xor (b ∈ g.successors a) (a ∈ g.predecessors b) := by
  constructor
  · intro h
    obtain ⟨node, hnode, h⟩ := List.mem_flatMap.mp h
    obtain ⟨n, hn⟩ := mem_nodes.mp hnode
    obtain rfl := hid n node hn
    rcases List.mem_append.mp h with h | h
    · obtain ⟨s, hs, heq⟩ := List.mem_map.mp h
      obtain ⟨hs, hnot⟩ := List.mem_filter.mp hs
      cases heq
      exact .inl ⟨mem_successors.mpr ⟨node, hn, hs⟩, by simpa [hasPredecessor] using hnot⟩
    · obtain ⟨p, hp, heq⟩ := List.mem_map.mp h
      obtain ⟨hp, hnot⟩ := List.mem_filter.mp hp
      cases heq
      exact .inr ⟨mem_predecessors.mpr ⟨node, hn, hp⟩, by simpa [hasSuccessor] using hnot⟩
  · rintro (⟨hb, hnot⟩ | ⟨ha, hnot⟩)
    · obtain ⟨node, hn, hb⟩ := mem_successors.mp hb
      refine List.mem_flatMap.mpr ⟨node, mem_nodes.mpr ⟨a, hn⟩, List.mem_append_left _ ?_⟩
      simp [hid a node hn, hasPredecessor, hb, hnot]
    · obtain ⟨node, hn, ha⟩ := mem_predecessors.mp ha
      refine List.mem_flatMap.mpr ⟨node, mem_nodes.mpr ⟨b, hn⟩, List.mem_append_right _ ?_⟩
      simp [hid b node hn, hasSuccessor, ha, hnot]

theorem WellFormed.symmetric (hg : g.WellFormed) (h : g.asymmetricEdges = []) : g.Symmetric := by
  intro a b
  by_contra hne
  have hmem : (a, b) ∈ g.asymmetricEdges :=
    (mem_asymmetricEdges fun _ _ => hg.id_eq).mpr ((xor_iff_not_iff _ _).mpr hne)
  rw [h] at hmem
  exact List.not_mem_nil hmem

/-! ## The nodes that the traversals find -/

def Reached (g : AccessGraph) (n : Nat) : Prop := Digraph.Marked g.reachable n

theorem reached_iff {n : Nat} :
    g.Reached n ↔ ∃ r, g.root = some r ∧ r < g.size ∧ ReflTransGen g.digraph.Arc r n := by
  unfold Reached reachable
  rw [Digraph.marked_reach]
  simp [digraph]

theorem reached_root {r : Nat} (hr : g.root = some r) (hlt : r < g.size) : g.Reached r :=
  reached_iff.mpr ⟨r, hr, hlt, .refl⟩

theorem Reached.lt {n : Nat} (h : g.Reached n) : n < g.size := by
  obtain ⟨r, _, hlt, hrn⟩ := reached_iff.mp h
  rcases ReflTransGen.cases_tail hrn with rfl | ⟨m, _, hmn⟩
  · exact hlt
  · exact hmn.2.2

theorem Reached.arc {a b : Nat} (h : g.Reached a) (hab : g.digraph.Arc a b) : g.Reached b := by
  obtain ⟨r, hr, hlt, hra⟩ := reached_iff.mp h
  exact reached_iff.mpr ⟨r, hr, hlt, hra.tail hab⟩

theorem Reached.successor {a b : Nat} (h : g.Reached a) (hb : b ∈ g.successors a)
    (hlt : b < g.size) : g.Reached b :=
  h.arc ⟨h.lt, hb, hlt⟩

theorem mem_reversePostorder {n : Nat} : n ∈ g.reversePostorder ↔ g.Reached n := by
  rw [reached_iff]
  unfold reversePostorder
  cases g.root with
  | none => simp
  | some r =>
    simp only [Digraph.mem_reversePostorder, Option.some.injEq, exists_eq_left']
    rfl

theorem nodup_reversePostorder (g : AccessGraph) : g.reversePostorder.Nodup := by
  unfold reversePostorder
  split
  · exact Digraph.nodup_reversePostorder _ _
  · exact List.nodup_nil

theorem head?_reversePostorder {r : Nat} (hr : g.root = some r) (hlt : r < g.size) :
    g.reversePostorder.head? = some r := by
  unfold reversePostorder
  rw [hr]
  exact Digraph.head?_reversePostorder hlt

theorem pairwise_reversePostorder (g : AccessGraph) : g.reversePostorder.Pairwise fun a b =>
    g.digraph.Arc b a → ReflTransGen g.digraph.Arc a b := by
  unfold reversePostorder
  split
  · exact Digraph.pairwise_reversePostorder _ _
  · exact List.Pairwise.nil

theorem before_reversePostorder {a b : Nat} (ha : g.Reached a) (hb : g.Reached b)
    (hab : g.digraph.Arc a b) (hback : ¬ ReflTransGen g.digraph.Arc b a) :
    ∃ i j : Nat, i < j ∧ g.reversePostorder[i]? = some a ∧ g.reversePostorder[j]? = some b := by
  rw [← mem_reversePostorder] at ha hb
  cases hroot : g.root with
  | none =>
    rw [reversePostorder, hroot] at ha
    exact absurd ha List.not_mem_nil
  | some r =>
    have horder : g.reversePostorder = g.digraph.reversePostorder r := by
      rw [reversePostorder, hroot]
    rw [horder] at ha hb ⊢
    exact Digraph.before_reversePostorder ha hb hab hback

/-- In an accepted graph the search finds the nodes that the root leads to. -/
theorem WellFormed.reached_iff_fromRoot (hg : g.WellFormed) {n : Nat} :
    g.Reached n ↔ g.FromRoot n := by
  rw [reached_iff]
  constructor
  · rintro ⟨r, hr, _, hrn⟩
    exact ⟨r, hr, ReflTransGen.mono (fun a b h => h.2.1) r n hrn⟩
  · rintro ⟨r, hr, hrn⟩
    obtain ⟨r', hr', hlt⟩ := hg.root
    obtain rfl : r = r' := Option.some.inj (hr ▸ hr')
    refine ⟨r, hr, hlt, ReflTransGen.mono ?_ r n hrn⟩
    intro a b h
    exact ⟨lt_of_mem_successors h, h, hg.successors_lt h⟩

theorem WellFormed.mem_reversePostorder_iff (hg : g.WellFormed) {n : Nat} :
    n ∈ g.reversePostorder ↔ g.FromRoot n :=
  mem_reversePostorder.trans hg.reached_iff_fromRoot

end AccessGraph

end MemDep
