import MemDep.Proofs.Analysis.Basic
import MemDep.Proofs.Reaching.Paths

/-!
# Analyses by iteration

The answers of an analysis that has solved the equations of reaching definitions: the facts that
enter a node are those that some walk brings there.
-/

namespace MemDep

namespace Analysis

variable {g : AccessGraph} {s : AnalysisSettings}

/-- The analysis of a graph was run and has solved the equations. -/
structure ReachingOf (g : AccessGraph) (s : AnalysisSettings) (a : Analysis)
    (r : ReachingDefinitions) : Prop where
  eq : a = ⟨g, s, some (.reaching r)⟩
  exact : r.Exact g s.fieldInsensitive

theorem compute_new_of_not_useSsa (hssa : s.useSsa = false) : (new g s).compute =
    match ReachingDefinitions.compute g s.fieldInsensitive s.maxIterations with
    | some r => .ok (.reaching r)
    | none => .error (.iterationLimitExceeded (s.maxIterations.getD 0)) := by
  unfold compute new
  simp only [hssa]
  rfl

theorem run_of_compute (hg : g.structuralError = none) (hs : s.validate = .ok ())
    (hssa : s.useSsa = false) {r : ReachingDefinitions}
    (hr : ReachingDefinitions.compute g s.fieldInsensitive s.maxIterations = some r) :
    (new g s).run = .ok ⟨g, s, some (.reaching r)⟩ := by
  rw [run_new hg hs, compute_new_of_not_useSsa hssa, hr]
  rfl

/-- A run by iteration that succeeds leaves behind the solution that was computed. -/
theorem exists_compute_of_run (hssa : s.useSsa = false) {a : Analysis}
    (h : (new g s).run = .ok a) :
    ∃ r, ReachingDefinitions.compute g s.fieldInsensitive s.maxIterations = some r ∧
      a = ⟨g, s, some (.reaching r)⟩ := by
  obtain ⟨_, _, res, hres, rfl⟩ := of_run_eq_ok h
  rw [compute_new_of_not_useSsa hssa] at hres
  cases hr : ReachingDefinitions.compute g s.fieldInsensitive s.maxIterations with
  | none => simp [hr] at hres
  | some r =>
    obtain rfl : AnalysisResult.reaching r = res := by simpa [hr] using hres
    exact ⟨r, rfl, rfl⟩

theorem reachingOf_run (hedges : g.asymmetricEdges = []) (hssa : s.useSsa = false) {a : Analysis}
    (h : (new g s).run = .ok a) : ∃ r, ReachingOf g s a r := by
  obtain ⟨_, hg, _⟩ := of_run_eq_ok h
  have hwf := AccessGraph.wellFormed_of_structuralError hg
  obtain ⟨r, hr, ha⟩ := exists_compute_of_run hssa h
  exact ⟨r, ha, ReachingDefinitions.exact_of_compute hwf (hwf.symmetric hedges) hr⟩

theorem exists_run_of_no_limit (hg : g.structuralError = none) (hssa : s.useSsa = false)
    (hs : s.maxIterations = none) : ∃ a, (new g s).run = .ok a := by
  have hvalid := validate_of_no_limit hs
  obtain ⟨r, hr⟩ := ReachingDefinitions.exists_compute g s.fieldInsensitive
  rw [← hs] at hr
  exact ⟨_, run_of_compute hg hvalid hssa hr⟩

theorem ReachingOf.definitions_eq {a : Analysis} {r : ReachingDefinitions} (h : ReachingOf g s a r)
    {n : Nat} {region : Region} (hn : g.contains n = true) (hr : g.contains region.object = true) :
    a.definitions n region = .ok (r.definitions n region, a) := by
  rw [h.eq]
  exact definitions_reaching hn hr

theorem ReachingOf.enteringFacts_eq {a : Analysis} {r : ReachingDefinitions}
    (h : ReachingOf g s a r) {n : Nat} (hn : g.contains n = true) :
    a.enteringFacts n = .ok (r.facts n) := by
  rw [h.eq]
  unfold enteringFacts resultAt
  simp only [hn, if_true]
  rfl

/-- A call changes nothing where the equations have been solved. -/
theorem perform_reaching (r : ReachingDefinitions) (c : Call) :
    (perform ⟨g, s, some (.reaching r)⟩ c).2 = ⟨g, s, some (.reaching r)⟩ := by
  cases c with
  | run =>
    have hrun : run ⟨g, s, some (.reaching r)⟩ = .error .alreadyRun := run_of_result rfl
    simp only [Analysis.perform, hrun]
  | definitions n region =>
    rcases definitions_cases ⟨g, s, some (.reaching r)⟩ (.reaching r) rfl n region with
      ⟨e, he⟩ | ⟨hn, hr⟩
    · simp only [Analysis.perform, he]
    · simp only [Analysis.perform, definitions_reaching hn hr]
  | readDefinitions n => rfl

theorem performAll_reaching (r : ReachingDefinitions) (calls : List Call) :
    (performAll ⟨g, s, some (.reaching r)⟩ calls).2 = ⟨g, s, some (.reaching r)⟩ := by
  induction calls with
  | nil => rfl
  | cons c calls ih =>
    have hstep : (performAll ⟨g, s, some (.reaching r)⟩ (c :: calls)).2 =
        ((perform ⟨g, s, some (.reaching r)⟩ c).2.performAll calls).2 := rfl
    rw [hstep, perform_reaching r c, ih]

theorem ReachingOf.performAll {a : Analysis} {r : ReachingDefinitions} (h : ReachingOf g s a r)
    (calls : List Call) : (a.performAll calls).2 = a := by
  rw [h.eq]
  exact performAll_reaching r calls

theorem ReachingOf.mem_definitions {a : Analysis} {r : ReachingDefinitions}
    (h : ReachingOf g s a r) {n w : Nat} {region : Region} : w ∈ r.definitions n region ↔
      let t := Accesses.ofGraph g s.fieldInsensitive
      ∃ f, g.FactEnters t f n ∧ f.node = w ∧ ∃ site, (t.writes w)[f.write]? = some site ∧
        site.region.mayOverlap (t.normalize region) = true := by
  rw [ReachingDefinitions.mem_definitions, h.exact.flow]
  simp only [h.exact.mem_facts]
  rfl

/-- The facts that enter a node are exactly those that a walk brings there past nodes that do not
hide them, and the definitions of a region are the nodes of those among them that may overlap it. -/
theorem reaching_definitions_exact (hedges : g.asymmetricEdges = []) (hssa : s.useSsa = false)
    {a : Analysis} (hrun : (new g s).run = .ok a) {n : Nat} (hn : g.contains n = true) :
    let t := Accesses.ofGraph g s.fieldInsensitive
    (∃ facts, a.enteringFacts n = .ok facts ∧ Ascending.Sorted facts ∧
      ∀ f, f ∈ facts ↔ g.FactEnters t f n) ∧
    ∀ region : Region, g.contains region.object = true →
      ∃ nodes, a.definitions n region = .ok (nodes, a) ∧ Ascending.Sorted nodes ∧
        ∀ w, w ∈ nodes ↔ ∃ f, g.FactEnters t f n ∧ f.node = w ∧
          ∃ site, (t.writes w)[f.write]? = some site ∧
            site.region.mayOverlap (t.normalize region) = true := by
  obtain ⟨r, hr⟩ := reachingOf_run hedges hssa hrun
  refine ⟨⟨_, hr.enteringFacts_eq hn, hr.exact.sorted n, fun f => hr.exact.mem_facts⟩, ?_⟩
  intro region hobj
  refine ⟨_, hr.definitions_eq hn hobj, ?_, fun w => hr.mem_definitions⟩
  exact ReachingDefinitions.sorted_definitions (hr.exact.sorted n) region

/-- Both stores of the graph with a loop reach the load after the loop, since the second one does not
cover the first one; the load is no definition. -/
theorem reaching_definitions_exact_storeLoop : ∃ a, (new storeLoop (.ofPreset .balanced)).run = .ok a ∧
    (∃ facts, a.enteringFacts 5 = .ok facts ∧ ⟨2, 0⟩ ∈ facts) ∧
    ∃ nodes, a.definitions 5 (firstBytes 1 4) = .ok (nodes, a) ∧ 2 ∈ nodes ∧ 5 ∉ nodes := by
  obtain ⟨hw2, hw3, hw5⟩ := writes_storeLoop
  obtain ⟨a, ha⟩ := exists_run_of_no_limit (g := storeLoop) (s := .ofPreset .balanced) (by decide)
    rfl rfl
  obtain ⟨⟨facts, hfacts, _, hmem⟩, hdefs⟩ :=
    reaching_definitions_exact (by decide) rfl ha (n := 5) (by decide)
  obtain ⟨nodes, hnodes, _, hmem'⟩ := hdefs (firstBytes 1 4) (by decide)
  have hsite : ((Accesses.ofGraph storeLoop false).writes 2)[0]? = some ⟨firstBytes 1 4, true⟩ := by
    rw [hw2]
    rfl
  have henters : storeLoop.FactEnters (.ofGraph storeLoop false) ⟨2, 0⟩ 5 := by
    refine ⟨⟨1, rfl, .single (by decide)⟩, _, hsite, .step (.edge (b := 3) (by decide)) ?_ (by decide)⟩
    rintro ⟨write, hw, _⟩
    exact List.not_mem_nil (hw3 ▸ hw)
  refine ⟨a, ha, ⟨facts, hfacts, (hmem _).mpr henters⟩, nodes, hnodes, ?_, ?_⟩
  · exact (hmem' 2).mpr ⟨_, henters, rfl, _, hsite, by decide⟩
  · intro h5
    obtain ⟨f, _, _, site, hsite5, _⟩ := (hmem' 5).mp h5
    have hmem5 : site ∈ (Accesses.ofGraph storeLoop false).writes 5 := List.mem_of_getElem? hsite5
    exact List.not_mem_nil (hw5 ▸ hmem5)

end Analysis

end MemDep
