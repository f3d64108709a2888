import MemDep.Proofs.AccessGraph.Accesses
import MemDep.Proofs.Reaching.Paths

/-!
# The equations of a graph

The equations of reaching definitions, written out for a node of a graph, and what the end of an
iteration says about them, with asymmetric edges or without.
-/

namespace MemDep

namespace ReachingDefinitions

open Iteration

variable {g : AccessGraph} {fieldInsensitive : Bool} {r : ReachingDefinitions}

/-- What leaves a node is what enters it and is not covered by one of its strong writes, together
with its own writes. -/
def LeavingEquation (t : Accesses) (r : ReachingDefinitions) (n : Nat) : Prop :=
  ∀ f, f ∈ r.factsAfter n ↔
    (f ∈ r.facts n ∧ ¬ ∃ site, (t.writes f.node)[f.write]? = some site ∧
      ∃ write ∈ t.writes n, write.strong = true ∧ write.region.covers site.region = true) ∨
    f.node = n ∧ f.write < (t.writes n).length

/-- What enters a node is what leaves those of its predecessors that the root leads to. -/
def EnteringEquation (g : AccessGraph) (r : ReachingDefinitions) (n : Nat) : Prop :=
  ∀ f, f ∈ r.facts n ↔ ∃ m ∈ g.predecessors n, g.FromRoot m ∧ f ∈ r.factsAfter m

theorem hiddenBy_eq_false_iff {p : Flow} {n : Nat} {f : Fact} :
    p.hiddenBy (p.accesses.strongWrites n) f = false ↔
      ¬ ∃ site, (p.accesses.writes f.node)[f.write]? = some site ∧
        ∃ write ∈ p.accesses.writes n, write.strong = true ∧
          write.region.covers site.region = true := by
  cases hsite : (p.accesses.writes f.node)[f.write]? with
  | none => simp [Flow.hiddenBy, Flow.region?, hsite]
  | some site =>
    have hpass := Flow.passes_iff hsite (n := n)
    unfold Flow.Passes at hpass
    rw [hpass]
    simp

/-- The end of an iteration belongs to a graph, and its invariant holds with nothing left to visit. -/
structure SteadyFor (g : AccessGraph) (fieldInsensitive : Bool) (r : ReachingDefinitions) : Prop where
  flow : r.flow = .ofGraph g fieldInsensitive
  steady : r.solution.Steady (.ofGraph g fieldInsensitive)
  worklist : r.solution.worklist = []

theorem steadyFor_of_compute {limit : Option Nat} (h : compute g fieldInsensitive limit = some r) :
    r.SteadyFor g fieldInsensitive := by
  obtain ⟨s, hs, rfl⟩ := Option.map_eq_some_iff.mp h
  obtain ⟨hsteady, _, hnil⟩ := steady_of_solve (scheduled_ofGraph g fieldInsensitive) hs
  exact ⟨rfl, hsteady, hnil⟩

theorem SteadyFor.leavingEquation (h : r.SteadyFor g fieldInsensitive) {n : Nat}
    (hn : g.Reached n) : r.LeavingEquation (.ofGraph g fieldInsensitive) n := by
  intro f
  have hout : r.factsAfter n = (Flow.ofGraph g fieldInsensitive).transfer n (r.facts n) :=
    h.steady.out_eq h.worklist (isReachable_iff.mpr hn)
  rw [hout, Flow.mem_transfer, hiddenBy_eq_false_iff, Flow.mem_generated]
  rfl

theorem SteadyFor.exists_of_mem_facts (h : r.SteadyFor g fieldInsensitive) {n : Nat} {f : Fact}
    (hf : f ∈ r.facts n) : ∃ m ∈ g.predecessors n, g.Reached m ∧ f ∈ r.factsAfter m := by
  obtain ⟨m, hm, hf⟩ := Flow.mem_meet.mp (h.steady.entering n hf)
  obtain ⟨hpred, hreached⟩ := List.mem_filter.mp hm
  exact ⟨m, hpred, isReachable_iff.mp hreached, hf⟩

theorem SteadyFor.factsAfter_subset (h : r.SteadyFor g fieldInsensitive) {m n : Nat}
    (hn : g.Reached n) (hm : g.Reached m) (hpred : m ∈ g.predecessors n)
    (hsucc : n ∈ g.successors m) : r.factsAfter m ⊆ r.facts n := by
  have hn' : (Flow.ofGraph g fieldInsensitive).isReachable n = true := isReachable_iff.mpr hn
  have hm' : (Flow.ofGraph g fieldInsensitive).isReachable m = true := isReachable_iff.mpr hm
  refine h.steady.current m n hn' ?_ (List.mem_filter.mpr ⟨hpred, hm'⟩)
    (List.mem_filter.mpr ⟨hsucc, hn'⟩)
  rw [h.worklist]
  exact List.not_mem_nil

theorem SteadyFor.enteringEquation (hg : g.WellFormed) (h : r.SteadyFor g fieldInsensitive) {n : Nat}
    (hn : g.Reached n)
    (hlisted : ∀ m ∈ g.predecessors n, g.FromRoot m → n ∈ g.successors m) :
    r.EnteringEquation g n := by
  intro f
  constructor
  · intro hf
    obtain ⟨m, hpred, hm, hf⟩ := h.exists_of_mem_facts hf
    exact ⟨m, hpred, hg.reached_iff_fromRoot.mp hm, hf⟩
  · rintro ⟨m, hpred, hm, hf⟩
    have hreached := hg.reached_iff_fromRoot.mpr hm
    exact h.factsAfter_subset hn hreached hpred (hlisted m hpred hm) hf

end ReachingDefinitions

end MemDep
