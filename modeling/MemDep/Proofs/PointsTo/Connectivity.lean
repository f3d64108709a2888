import MemDep.Proofs.PointsTo.WellFormed

/-!
# Validating without connectivity

Connectivity is that nodes have predecessors and that the root leads to them. If it is not checked, then
the validator reports everything else that it would report, in the same order
(`validate_without_connectivity`). If both ends of every edge list it and the root leads to all nodes that
may not float, then the validator has nothing to say about connectivity.
-/

namespace MemDep

/-- The finding is on a node without predecessors, or on one that the root does not lead to. -/
def Finding.isConnectivity : Finding → Bool
  | unreachable _ _ | invalidEdges _ _ .noPredecessor => true
  | invalidOperands .. | invalidEdges _ _ .missingPredecessor | invalidEdges _ _ .missingSuccessor
  | missingOperand .. | misplaced .. | invalidRoot _ => false

namespace PointerGraph

variable {g : PointerGraph}

theorem isConnectivity_of_mem_operandFindings {node : PointerNode} {f : Finding}
    (hf : f ∈ g.operandFindings node) : f.isConnectivity = false := by
  rcases mem_operandFindings.mp hf with hf | ⟨m, _, _, rfl⟩
  · obtain ⟨_, rfl⟩ := arityFinding?_eq_some.mp hf
    rfl
  · rfl

theorem isConnectivity_of_mem_unreachableFindings {f : Finding} (hf : f ∈ g.unreachableFindings) :
    f.isConnectivity = true := by
  obtain ⟨_, _, _, _, _, rfl⟩ := mem_unreachableFindings.mp hf
  rfl

theorem filter_checkOperands :
    g.checkOperands.findings.filter (!·.isConnectivity) = g.checkOperands.findings := by
  rw [List.filter_eq_self]
  intro f hf
  obtain ⟨_, node, _, hf⟩ := mem_checkOperands.mp hf
  simp [isConnectivity_of_mem_operandFindings hf]

/-- Whether connectivity is checked makes a difference to one of the findings on the edges of a node
only, and leaves the others in their places. -/
theorem filter_edgeFindings (position : Nat) (node : PointerNode) :
    (g.edgeFindings ⟨true⟩ position node).filter (!·.isConnectivity) =
      g.edgeFindings ⟨false⟩ position node := by
  have hplace : (if node.id ≠ position then [Finding.misplaced node.kind node.id position] else
      []).filter (!·.isConnectivity) = if node.id ≠ position then
        [Finding.misplaced node.kind node.id position] else [] := by
    split <;> rfl
  have hentries : ∀ (l : List Nat) (defect : EdgeDefect), defect ≠ .noPredecessor →
      (l.map fun _ => Finding.invalidEdges node.kind node.id defect).filter (!·.isConnectivity) =
        l.map fun _ => Finding.invalidEdges node.kind node.id defect := by
    intro l defect hdefect
    rw [List.filter_eq_self]
    intro f hf
    obtain ⟨_, _, rfl⟩ := List.mem_map.mp hf
    cases defect with
    | noPredecessor => exact absurd rfl hdefect
    | missingPredecessor | missingSuccessor => rfl
  unfold edgeFindings
  rw [List.filter_append, List.filter_append, List.filter_append, hplace,
    hentries _ .missingPredecessor (by decide), hentries _ .missingSuccessor (by decide)]
  congr 3
  split <;> simp [Finding.isConnectivity]

theorem filter_checkEdges :
    (g.checkEdges ⟨true⟩).findings.filter (!·.isConnectivity) = (g.checkEdges ⟨false⟩).findings := by
  have hroot : g.rootFinding?.toList.filter (!·.isConnectivity) = g.rootFinding?.toList := by
    rw [List.filter_eq_self]
    intro f hf
    obtain ⟨r, _, _, rfl⟩ := rootFinding?_eq_some.mp (Option.mem_toList.mp hf)
    rfl
  have hunreachable : g.unreachableFindings.filter (!·.isConnectivity) = [] := by
    rw [List.filter_eq_nil_iff]
    intro f hf
    simp [isConnectivity_of_mem_unreachableFindings hf]
  unfold checkEdges
  simp only [List.filter_append, List.filter_flatMap, filter_edgeFindings, hroot, hunreachable,
    if_true, Bool.false_eq_true, if_false]

theorem filter_validate :
    (g.validate ⟨true⟩).findings.filter (!·.isConnectivity) = (g.validate ⟨false⟩).findings := by
  unfold validate
  rw [List.filter_append, filter_checkOperands, filter_checkEdges]

/-- If the root leads to a node that may not float, by edges that both their ends list, then nothing is
found on its connectivity. -/
theorem Warrants.isConnectivity_eq_false {s : ValidatorSettings} {f : Finding} (hf : g.Warrants s f)
    (hroot : ∀ n node, g.node? n = some node → node.kind.canFloat = false → g.FromRoot n)
    (hedges : ∀ a b, b ∈ g.successors a ↔ a ∈ g.predecessors b) : f.isConnectivity = false := by
  cases hf with
  | noPredecessor _ hn hd =>
    obtain ⟨m, hstep, hnot⟩ := hd.exists_unlisted hn (hroot _ _ hn hd.2.2)
    exact absurd ((hedges _ _).mp hstep) hnot
  | unreachable _ hn hfloat hnot => exact absurd (hroot _ _ hn hfloat) hnot
  | invalidOperands | missingOperand | invalidRoot | misplaced | missingPredecessor
  | missingSuccessor => rfl

/-- Without connectivity, the findings are those with connectivity but for the ones on connectivity, in
the same order, and the text is what the texts of these findings make. There is no difference if the root
leads to all nodes that may not float and both ends of every edge list it. -/
theorem validate_without_connectivity (g : PointerGraph) :
    (g.validate ⟨false⟩).findings = (g.validate ⟨true⟩).findings.filter (!·.isConnectivity) ∧
    (g.validate ⟨false⟩).text =
      String.join (((g.validate ⟨true⟩).findings.filter (!·.isConnectivity)).map Finding.text) ∧
    ((∀ n node, g.node? n = some node → node.kind.canFloat = false → g.FromRoot n) →
      (∀ a b, b ∈ g.successors a ↔ a ∈ g.predecessors b) → g.validate ⟨false⟩ = g.validate ⟨true⟩) := by
  refine ⟨filter_validate.symm, ?_, fun hroot hedges => ?_⟩
  · rw [filter_validate]
    rfl
  · have hsame : (g.validate ⟨true⟩).findings.filter (!·.isConnectivity) =
        (g.validate ⟨true⟩).findings := by
      rw [List.filter_eq_self]
      intro f hf
      simp [(mem_findings_validate.mp hf).isConnectivity_eq_false hroot hedges]
    rw [filter_validate] at hsame
    exact congrArg Report.mk hsame

/-- A line of control to a node that carries a wrong id and uses a node that does not exist. -/
def strayStore : PointerGraph where
  nodes := #[
    ⟨0, .entry, [], [1], []⟩,
    ⟨1, .alloc, [], [2], [0]⟩,
    ⟨7, .store, [1, 9], [], [1]⟩]
  root := some 0

theorem validate_without_connectivity_strayStore :
    (∀ n node, strayStore.node? n = some node → node.kind.canFloat = false →
      strayStore.FromRoot n) ∧
    (∀ a b, b ∈ strayStore.successors a ↔ a ∈ strayStore.predecessors b) ∧
    strayStore.validate ⟨false⟩ = strayStore.validate ⟨true⟩ := by
  have hmarked : ∀ n < strayStore.size, Digraph.Marked strayStore.reachable n := by
    unfold Digraph.Marked
    decide +kernel
  have hforward : ∀ a < strayStore.size, ∀ b ∈ strayStore.successors a,
      a ∈ strayStore.predecessors b := by
    decide +kernel
  have hbackward : ∀ b < strayStore.size, ∀ a ∈ strayStore.predecessors b,
      b ∈ strayStore.successors a := by
    decide +kernel
  have hroot : ∀ n node, strayStore.node? n = some node → node.kind.canFloat = false →
      strayStore.FromRoot n := by
    intro n node hn _
    have hlt := lt_of_node? hn
    exact (marked_reachable_iff hlt).mp (hmarked n hlt)
  have hedges : ∀ a b, b ∈ strayStore.successors a ↔ a ∈ strayStore.predecessors b := fun a b =>
    ⟨fun hb => hforward a (lt_of_mem_successors hb) b hb,
      fun ha => hbackward b (lt_of_mem_predecessors ha) a ha⟩
  exact ⟨hroot, hedges, (validate_without_connectivity strayStore).2.2 hroot hedges⟩

end PointerGraph

end MemDep
