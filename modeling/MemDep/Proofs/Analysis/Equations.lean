import MemDep.Proofs.Analysis.Reaching
import MemDep.Proofs.Reaching.Equations

/-!
# What a run by iteration solves

On every accepted graph, with asymmetric edges or not, a run by iteration ends with sets that satisfy
the equation of what leaves a node, at each node that the root leads to. What enters a node leaves
one of its predecessors. The converse holds for the predecessors that list the node as a successor,
and may fail for others: nobody tells the node that such a predecessor changed after its last visit.
-/

namespace MemDep

open ReachingDefinitions

namespace Analysis

variable {g : AccessGraph} {s : AnalysisSettings}

/-- On every accepted graph a run by iteration succeeds if nothing limits it. Whenever it succeeds, at
each node that the root leads to, the equation of what leaves it holds, and what enters it leaves a
predecessor. If all predecessors that the root leads to list the node as a successor, then the
equation of what enters it holds as well. -/
theorem run_satisfies_equations (hg : g.structuralError = none) (hssa : s.useSsa = false) :
    (s.maxIterations = none → ∃ a, (new g s).run = .ok a) ∧
    ∀ a, (new g s).run = .ok a → ∃ r, a.result? = some (.reaching r) ∧ ∀ n, g.FromRoot n →
      r.LeavingEquation (.ofGraph g s.fieldInsensitive) n ∧
      (∀ f ∈ r.facts n, ∃ m ∈ g.predecessors n, g.FromRoot m ∧ f ∈ r.factsAfter m) ∧
      (∀ m ∈ g.predecessors n, g.FromRoot m → n ∈ g.successors m →
        r.factsAfter m ⊆ r.facts n) ∧
      ((∀ m ∈ g.predecessors n, g.FromRoot m → n ∈ g.successors m) → r.EnteringEquation g n) := by
  have hwf := AccessGraph.wellFormed_of_structuralError hg
  refine ⟨exists_run_of_no_limit hg hssa, ?_⟩
  intro a ha
  obtain ⟨r, hr, rfl⟩ := exists_compute_of_run hssa ha
  have hsteady := steadyFor_of_compute hr
  refine ⟨r, rfl, ?_⟩
  intro n hn
  have hreached := hwf.reached_iff_fromRoot.mpr hn
  refine ⟨hsteady.leavingEquation hreached, ?_, ?_, hsteady.enteringEquation hwf hreached⟩
  · intro f hf
    obtain ⟨m, hpred, hm, hf⟩ := hsteady.exists_of_mem_facts hf
    exact ⟨m, hpred, hwf.reached_iff_fromRoot.mp hm, hf⟩
  · intro m hpred hm hsucc
    exact hsteady.factsAfter_subset hreached (hwf.reached_iff_fromRoot.mpr hm) hpred hsucc

/-- The load lists the store as a predecessor and is not listed by it. -/
def lateEdge : AccessGraph where
  nodes := #[
    ⟨0, .unknownMemory, [], [], [], [], []⟩,
    ⟨1, .alloc, [], [], [], [3, 2], []⟩,
    ⟨2, .load, [], [], [firstBytes 1 4], [], [1, 3]⟩,
    ⟨3, .store, [], [firstBytes 1 4], [], [], [1]⟩]
  root := some 1

theorem run_satisfies_equations_lateEdge : lateEdge.asymmetricEdges ≠ [] ∧
    ∃ a r, (new lateEdge (.ofPreset .balanced)).run = .ok a ∧ a.result? = some (.reaching r) ∧
      r.LeavingEquation (.ofGraph lateEdge false) 2 ∧ r.EnteringEquation lateEdge 3 := by
  obtain ⟨hruns, h⟩ := run_satisfies_equations (g := lateEdge) (s := .ofPreset .balanced)
    (by decide) rfl
  obtain ⟨a, ha⟩ := hruns rfl
  obtain ⟨r, hr, heq⟩ := h a ha
  obtain ⟨hleaving, -⟩ := heq 2 ⟨1, rfl, .single (by decide)⟩
  obtain ⟨-, -, -, hentering⟩ := heq 3 ⟨1, rfl, .single (by decide)⟩
  refine ⟨by decide, a, r, ha, hr, hleaving, hentering ?_⟩
  intro m hm _
  have hpreds : lateEdge.predecessors 3 = [1] := by decide
  rw [hpreds, List.mem_singleton] at hm
  rw [hm]
  decide

/-- The load is visited before the store and never again, so that what the store writes leaves a
predecessor of the load and does not enter it. -/
theorem not_enteringEquation_lateEdge : lateEdge.structuralError = none ∧ lateEdge.FromRoot 2 ∧
    ∃ a r, (new lateEdge (.ofPreset .balanced)).run = .ok a ∧ a.result? = some (.reaching r) ∧
      ¬ r.EnteringEquation lateEdge 2 := by
  have hsets : (ReachingDefinitions.compute lateEdge false none).map
      (fun r => (r.facts 2, r.factsAfter 3)) = some ([], [⟨3, 0⟩]) := by decide +kernel
  obtain ⟨r, hr, hr'⟩ := Option.map_eq_some_iff.mp hsets
  obtain ⟨hfacts, hafter⟩ := Prod.mk.inj hr'
  refine ⟨by decide, ⟨1, rfl, .single (by decide)⟩, _, r,
    run_of_compute (s := .ofPreset .balanced) (by decide) (by decide) rfl hr, rfl, ?_⟩
  intro h
  have hmem : (⟨3, 0⟩ : Fact) ∈ r.facts 2 := by
    refine (h _).mpr ⟨3, by decide, ⟨1, rfl, .single (by decide)⟩, ?_⟩
    rw [hafter]
    exact List.mem_singleton_self _
  rw [hfacts] at hmem
  exact List.not_mem_nil hmem

end Analysis

end MemDep
