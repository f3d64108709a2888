import MemDep.Proofs.PointsTo.Findings

/-!
# Graphs that the validator accepts

A points-to graph is well formed if its root and its operands exist, nodes are in their places and
have the operands that their kinds ask for, both ends of every edge list it, and the root leads to
every node that may not float. With connectivity checked, the validator finds nothing exactly on the
graphs that are well formed.

That a node has predecessors is not among these conditions. If the root leads to a node without any,
then it does so by an edge that the node does not list.
-/

namespace MemDep

open Relation

namespace PointerGraph

variable {g : PointerGraph} {s : ValidatorSettings} {n : Nat} {node : PointerNode}

/-- A graph with nothing wrong in it. -/
structure WellFormed (g : PointerGraph) : Prop where
  root_lt : ∀ r, g.root = some r → r < g.size
  id_eq : ∀ n node, g.node? n = some node → node.id = n
  accepts : ∀ n node, g.node? n = some node → node.kind.arity.Accepts node.operands
  operands_lt : ∀ n node, g.node? n = some node → ∀ m ∈ node.operands, m < g.size
  edge_iff : ∀ a b, b ∈ g.successors a ↔ a ∈ g.predecessors b
  edge_lt : ∀ a b, b ∈ g.successors a → a < g.size ∧ b < g.size
  fromRoot : ∀ n node, g.node? n = some node → node.kind.canFloat = false → g.FromRoot n

/-- If the root leads to a node that has to have predecessors and has none, then the last edge on the
way is listed by its start only. -/
theorem Disconnected.exists_unlisted (hn : g.node? n = some node) (hd : g.Disconnected n node)
    (hroot : g.FromRoot n) : ∃ m, n ∈ g.successors m ∧ m ∉ g.predecessors n := by
  obtain ⟨hpreds, hne, _⟩ := hd
  obtain ⟨r, hr, hwalk⟩ := hroot
  rcases ReflTransGen.cases_tail hwalk with rfl | ⟨m, _, hstep⟩
  · exact absurd hr hne
  · refine ⟨m, hstep, ?_⟩
    intro hlisted
    obtain ⟨node', hn', hlisted⟩ := mem_predecessors.mp hlisted
    obtain rfl : node = node' := Option.some.inj (hn.symm.trans hn')
    rw [hpreds] at hlisted
    exact List.not_mem_nil hlisted

theorem WellFormed.not_warrants (h : g.WellFormed) (f : Finding) : ¬ g.Warrants s f := by
  intro hf
  cases hf with
  | invalidOperands hn hnot => exact hnot (h.accepts _ _ hn)
  | missingOperand hn hm hlt => exact hlt (h.operands_lt _ _ hn _ hm)
  | invalidRoot hr hlt => exact hlt (h.root_lt _ hr)
  | misplaced hn hid => exact hid (h.id_eq _ _ hn)
  | noPredecessor _ hn hd =>
    have hroot := h.fromRoot _ _ hn hd.2.2
    obtain ⟨m, hstep, hnot⟩ := hd.exists_unlisted hn hroot
    exact hnot ((h.edge_iff _ _).mp hstep)
  | missingPredecessor hn hb hnot =>
    exact hnot ((h.edge_iff _ _).mp (mem_successors.mpr ⟨_, hn, hb⟩))
  | missingSuccessor hn ha hnot =>
    exact hnot ((h.edge_iff _ _).mpr (mem_predecessors.mpr ⟨_, hn, ha⟩))
  | unreachable _ hn hfloat hroot => exact hroot (h.fromRoot _ _ hn hfloat)

theorem wellFormed_of_not_warrants (hs : s.checkConnectivity = true) (h : ∀ f, ¬ g.Warrants s f) :
    g.WellFormed := by
  have hforward : ∀ a b, b ∈ g.successors a → a ∈ g.predecessors b := by
    intro a b hb
    obtain ⟨node, hn, hb⟩ := mem_successors.mp hb
    by_contra hnot
    exact h _ (.missingPredecessor hn hb hnot)
  have hbackward : ∀ a b, a ∈ g.predecessors b → b ∈ g.successors a := by
    intro a b ha
    obtain ⟨node, hn, ha⟩ := mem_predecessors.mp ha
    by_contra hnot
    exact h _ (.missingSuccessor hn ha hnot)
  refine ⟨?_, ?_, ?_, ?_, fun a b => ⟨hforward a b, hbackward a b⟩, ?_, ?_⟩
  · intro r hr
    by_contra hlt
    exact h _ (.invalidRoot hr hlt)
  · intro n node hn
    by_contra hid
    exact h _ (.misplaced hn hid)
  · intro n node hn
    by_contra hnot
    exact h _ (.invalidOperands hn hnot)
  · intro n node hn m hm
    by_contra hlt
    exact h _ (.missingOperand hn hm hlt)
  · intro a b hb
    exact ⟨lt_of_mem_successors hb, lt_of_mem_predecessors (hforward a b hb)⟩
  · intro n node hn hfloat
    by_contra hroot
    exact h _ (.unreachable hs hn hfloat hroot)

/-- With connectivity checked, the validator finds nothing exactly if the graph is well formed. With
any settings, it finds a node that lacks predecessors only if it also finds one that the root does
not lead to, or one that a successor of it does not list. -/
theorem validate_isEmpty_iff_wellFormed (g : PointerGraph) :
    ((g.validate ⟨true⟩).isEmpty = true ↔ g.WellFormed) ∧
    ∀ s kind id, .invalidEdges kind id .noPredecessor ∈ (g.validate s).findings →
      (∃ kind id, .unreachable kind id ∈ (g.validate s).findings) ∨
        ∃ kind id, .invalidEdges kind id .missingPredecessor ∈ (g.validate s).findings := by
  constructor
  · unfold Report.isEmpty
    rw [List.isEmpty_iff, List.eq_nil_iff_forall_not_mem]
    simp only [mem_findings_validate]
    exact ⟨wellFormed_of_not_warrants rfl, fun h f => h.not_warrants f⟩
  · intro s kind id hf
    simp only [mem_findings_validate] at hf ⊢
    cases hf with
    | @noPredecessor n node hs hn hd =>
      by_cases hroot : g.FromRoot n
      · obtain ⟨m, hstep, hnot⟩ := hd.exists_unlisted hn hroot
        obtain ⟨source, hm, hstep⟩ := mem_successors.mp hstep
        exact .inr ⟨_, _, .missingPredecessor hm hstep hnot⟩
      · exact .inl ⟨_, _, .unreachable hs hn hd.2.2 hroot⟩

/-- A loop that merges two allocations; the constant stands apart. -/
def mergeLoop : PointerGraph where
  nodes := #[
    ⟨0, .entry, [], [1], []⟩,
    ⟨1, .alloc, [], [2], [0]⟩,
    ⟨2, .alloc, [], [3], [1]⟩,
    ⟨3, .phi, [1, 2, 5], [4], [2, 4]⟩,
    ⟨4, .load, [3], [3], [3]⟩,
    ⟨5, .constant, [], [], []⟩]
  root := some 0

/-- The same loop, entered by an edge that the merge does not list. -/
def lostEntry : PointerGraph where
  nodes := #[
    ⟨0, .entry, [], [1], []⟩,
    ⟨1, .phi, [2], [], []⟩,
    ⟨2, .constant, [], [], []⟩]
  root := some 0

theorem validate_isEmpty_iff_wellFormed_mergeLoop : mergeLoop.WellFormed ∧
    ((∃ kind id, .unreachable kind id ∈ (lostEntry.validate ⟨true⟩).findings) ∨
      ∃ kind id, .invalidEdges kind id .missingPredecessor ∈ (lostEntry.validate ⟨true⟩).findings) := by
  have hempty : (mergeLoop.validate ⟨true⟩).isEmpty = true := by decide +kernel
  have hlost : .invalidEdges .phi 1 .noPredecessor ∈ (lostEntry.validate ⟨true⟩).findings := by
    decide +kernel
  exact ⟨(validate_isEmpty_iff_wellFormed mergeLoop).1.mp hempty,
    (validate_isEmpty_iff_wellFormed lostEntry).2 ⟨true⟩ .phi 1 hlost⟩

end PointerGraph

end MemDep
