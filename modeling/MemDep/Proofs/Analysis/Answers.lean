import MemDep.Proofs.Analysis.History

/-!
# Answers of an analysis of either kind

After a run that succeeds, an analysis answers a question about a region by a function of the node and
the region alone, whatever it is asked in between. Which nodes the answer holds depends on the kind of
the analysis. Those of static single assignment form are always writes whose facts enter the node.
-/

namespace MemDep

namespace Analysis

variable {g : AccessGraph} {s : AnalysisSettings} {a : Analysis} {n w : Nat} {region : Region}

/-- After any calls, questions about nodes and objects of the graph are answered by a function. -/
def Answers (a : Analysis) (answer : Nat → Region → List Nat) : Prop :=
  ∀ (calls : List Call) (n : Nat) (region : Region), a.graph.contains n = true →
    a.graph.contains region.object = true →
      ∃ a', (a.performAll calls).2.definitions n region = .ok (answer n region, a')

/-- A node is among the definitions of a region that an analysis by iteration gives. -/
def GivenByFact (g : AccessGraph) (t : Accesses) (n : Nat) (region : Region) (w : Nat) : Prop :=
  ∃ f, g.FactEnters t f n ∧ f.node = w ∧ ∃ site, (t.writes w)[f.write]? = some site ∧
    site.region.mayOverlap (t.normalize region) = true

/-- A node is among the definitions of a region that an analysis in static single assignment form
gives. -/
def GivenBySearch (g : AccessGraph) (t : Accesses) (n : Nat) (region : Region) (w : Nat) : Prop :=
  Scope.FindsRegion ⟨t, .ofGraph g⟩ t.writtenObjects n region w

/-- A node is among the definitions of a region that an analysis with some settings gives. -/
def Gives (g : AccessGraph) (s : AnalysisSettings) (n : Nat) (region : Region) (w : Nat) : Prop :=
  let t := Accesses.ofGraph g s.fieldInsensitive
  if s.useSsa then GivenBySearch g t n region w else GivenByFact g t n region w

theorem gives_of_useSsa (hssa : s.useSsa = true) : Gives g s n region w ↔
    GivenBySearch g (.ofGraph g s.fieldInsensitive) n region w := by
  simp [Gives, hssa]

theorem gives_of_not_useSsa (hssa : s.useSsa = false) : Gives g s n region w ↔
    GivenByFact g (.ofGraph g s.fieldInsensitive) n region w := by
  simp [Gives, hssa]

theorem Gives.givenByFact (hg : g.WellFormed) (hsym : g.Symmetric) (h : Gives g s n region w) :
    GivenByFact g (.ofGraph g s.fieldInsensitive) n region w := by
  cases hssa : s.useSsa with
  | true => exact exists_factEnters_of_findsRegion hg hsym ((gives_of_useSsa hssa).mp h)
  | false => exact (gives_of_not_useSsa hssa).mp h

theorem graph_of_run (hrun : (new g s).run = .ok a) : a.graph = g := by
  obtain ⟨_, _, r, _, rfl⟩ := of_run_eq_ok hrun
  rfl

theorem exists_run (hg : g.structuralError = none) (hs : s.maxIterations = none) :
    ∃ a, (new g s).run = .ok a := by
  have hvalid := validate_of_no_limit hs
  cases hssa : s.useSsa with
  | true => exact ⟨_, run_of_useSsa hg hvalid hssa⟩
  | false => exact exists_run_of_no_limit hg hssa hs

theorem SsaOf.answers {m : MemorySsa} (h : SsaOf g s a m) :
    a.Answers fun n region => (m.definitions n region).1 := by
  intro calls n region hn hobj
  rw [h.graph_eq] at hn hobj
  obtain ⟨m', h'⟩ := h.performAll calls
  have hsame : (m'.definitions n region).1 = (m.definitions n region).1 :=
    h'.definitions_congr h n region
  rw [h'.definitions_eq hn hobj, hsame]
  exact ⟨_, rfl⟩

theorem ReachingOf.answers {r : ReachingDefinitions} (h : ReachingOf g s a r) :
    a.Answers r.definitions := by
  intro calls n region hn hobj
  have hgraph : a.graph = g := by rw [h.eq]
  rw [hgraph] at hn hobj
  rw [h.performAll calls]
  exact ⟨a, h.definitions_eq hn hobj⟩

/-- An analysis that has been run answers with ascending lists of the nodes that its kind gives. -/
theorem exists_answers (hedges : g.asymmetricEdges = []) (hrun : (new g s).run = .ok a) :
    ∃ answer, a.Answers answer ∧ ∀ n region, Ascending.Sorted (answer n region) ∧
      ∀ w, w ∈ answer n region ↔ Gives g s n region w := by
  cases hssa : s.useSsa with
  | true =>
    obtain ⟨hs, hg, _⟩ := of_run_eq_ok hrun
    rw [run_of_useSsa hg hs hssa] at hrun
    obtain rfl := Except.ok.inj hrun
    have hstart := ssaOf_run g s
    refine ⟨_, hstart.answers, fun n region => ⟨MemorySsa.sorted_definitions _ n region, fun w => ?_⟩⟩
    rw [gives_of_useSsa hssa]
    exact hstart.mem_definitions
  | false =>
    obtain ⟨r, hr⟩ := reachingOf_run hedges hssa hrun
    have hsorted := fun n => hr.exact.sorted n
    refine ⟨_, hr.answers, fun n region =>
      ⟨ReachingDefinitions.sorted_definitions (hsorted n) region, fun w => ?_⟩⟩
    rw [gives_of_not_useSsa hssa]
    exact hr.mem_definitions

end Analysis

end MemDep
