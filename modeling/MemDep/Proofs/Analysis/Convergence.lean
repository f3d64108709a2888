import MemDep.Proofs.Analysis.Equations
import MemDep.Proofs.Analysis.Limits
import MemDep.Proofs.Analysis.Termination
import MemDep.Proofs.Reaching.Growth

/-!
# How many visits a run makes

A run by iteration that nothing limits succeeds on every accepted graph, with asymmetric or repeated
edges or without. The sets that leave nodes only grow while it goes on, which bounds its visits by the
sizes of the graph. If no cycle can be reached from the root, it visits each node once, in an order in
which every edge leads forward.
-/

namespace MemDep

open Iteration Relation

namespace ReachingDefinitions

variable {g : AccessGraph} {fieldInsensitive : Bool} {limit : Option Nat} {r : ReachingDefinitions}

theorem exists_runs_of_compute (h : compute g fieldInsensitive limit = some r) :
    r.flow = .ofGraph g fieldInsensitive ∧ r.solution.worklist = [] ∧
      ∃ visited, Runs (.ofGraph g fieldInsensitive) (.start (.ofGraph g fieldInsensitive)) visited
        r.solution := by
  obtain ⟨t, ht, rfl⟩ := Option.map_eq_some_iff.mp h
  obtain ⟨visited, hruns, hnil⟩ := exists_runs_of_solve ht
  exact ⟨rfl, hnil, visited, hruns⟩

/-- The visits are those of any sequence that empties the worklist. -/
theorem compute_of_runs {t : Iteration} {visited : List Nat}
    (h : Runs (.ofGraph g fieldInsensitive) (.start (.ofGraph g fieldInsensitive)) visited t)
    (hnil : t.worklist = []) :
    compute g fieldInsensitive none = some ⟨.ofGraph g fieldInsensitive, t⟩ := by
  unfold compute
  dsimp only
  rw [h.solve_eq hnil (sound_start _)]
  rfl

end ReachingDefinitions

open ReachingDefinitions

namespace Analysis

variable {g : AccessGraph} {s : AnalysisSettings}

theorem length_writes_ofGraph (g : AccessGraph) (fieldInsensitive : Bool) (n : Nat) :
    ((Accesses.ofGraph g fieldInsensitive).writes n).length = (g.writes n).length := by
  rw [Accesses.writes_ofGraph, List.length_map]
  rfl

/-- On every accepted graph a run by iteration succeeds if nothing limits it. From each state that it
comes to, it goes on to its end; whatever state it comes to later, no set that leaves a node has lost a
fact. It makes at least one visit for each node that the root leads to, and in addition at most as
many for each successor that such a node lists as there are writes of such nodes, plus one. -/
theorem run_converges (hg : g.structuralError = none) (hssa : s.useSsa = false)
    (hlimit : s.maxIterations = none) :
    let p := Flow.ofGraph g s.fieldInsensitive
    ∃ a r, (new g s).run = .ok a ∧ a.result? = some (.reaching r) ∧
      (∀ before t, Runs p (.start p) before t →
        (∃ rest, Runs p t rest r.solution) ∧
        ∀ after u, Runs p t after u → ∀ n, t.out n ⊆ u.out n) ∧
      ∃ (nodes : Finset Nat) (visits largest : Nat), (∀ n, n ∈ nodes ↔ g.FromRoot n) ∧
        a.statistics = .reaching visits nodes.card largest ∧
        nodes.card ≤ visits ∧
        visits ≤ nodes.card + (∑ n ∈ nodes, (g.successors n).length) *
          ((∑ n ∈ nodes, (g.writes n).length) + 1) := by
  intro p
  have hwf := AccessGraph.wellFormed_of_structuralError hg
  have hp : Scheduled p := scheduled_ofGraph g s.fieldInsensitive
  obtain ⟨r, hr⟩ := exists_compute g s.fieldInsensitive
  obtain ⟨hflow, hnil, visited, hruns⟩ := exists_runs_of_compute hr
  rw [← hlimit] at hr
  refine ⟨_, r, run_of_compute hg (validate_of_no_limit hlimit) hssa hr, rfl, ?grows, ?bounds⟩
  case grows =>
    intro before t ht
    obtain ⟨rest, _, hrest⟩ := hruns.exists_rest hnil ht
    exact ⟨⟨rest, hrest⟩, fun after u hu n => hu.out_subset (ht.sound (sound_start p)) n⟩
  case bounds =>
    have hnodes : ∀ n, n ∈ g.reversePostorder.toFinset ↔ p.isReachable n = true := by
      intro n
      rw [List.mem_toFinset]
      exact hp.order n
    have hcard : g.reversePostorder.toFinset.card = r.reachableCount := by
      rw [List.toFinset_card_of_nodup g.nodup_reversePostorder]
      unfold reachableCount
      rw [hflow]
      rfl
    refine ⟨g.reversePostorder.toFinset, r.visits, r.largest, ?_, ?_, ?_, ?_⟩
    · intro n
      rw [List.mem_toFinset]
      exact hwf.mem_reversePostorder_iff
    · rw [hcard]
      rfl
    · exact hruns.card_le_visits hp hnodes hnil
    · have hle := hruns.visits_le hp hnodes
      have hwrites : ∀ n, (p.accesses.writes n).length = (g.writes n).length :=
        length_writes_ofGraph g s.fieldInsensitive
      simp only [hwrites] at hle
      exact hle

/-- Three nodes, six listed successors and one write, so that there are from three to fifteen visits. -/
theorem run_converges_tangle : tangle.asymmetricEdges ≠ [] ∧
    ∃ a visits largest, (new tangle (.ofPreset .balanced)).run = .ok a ∧
      a.statistics = .reaching visits 3 largest ∧ 3 ≤ visits ∧ visits ≤ 15 := by
  obtain ⟨a, r, hrun, -, -, nodes, visits, largest, hnodes, hstatistics, hleast, hmost⟩ :=
    run_converges (g := tangle) (s := .ofPreset .balanced) (by decide) rfl rfl
  have heq : nodes = {1, 2, 3} := by
    have horder : tangle.reversePostorder = [1, 2, 3] := by decide +kernel
    have hwf : tangle.WellFormed := AccessGraph.wellFormed_of_structuralError (by decide)
    ext n
    rw [hnodes, ← hwf.mem_reversePostorder_iff, horder]
    simp
  have hcard : nodes.card = 3 := by rw [heq]; rfl
  have hedges : ∑ n ∈ nodes, (tangle.successors n).length = 6 := by rw [heq]; decide
  have hwrites : ∑ n ∈ nodes, (tangle.writes n).length = 1 := by rw [heq]; decide
  rw [hcard, hedges, hwrites] at hmost
  rw [hcard] at hleast hstatistics
  exact ⟨by decide, a, visits, largest, hrun, hstatistics, hleast, hmost⟩

/-- Without cycles that the root leads to, edges lead forward in reverse postorder. -/
theorem forward_reversePostorder (hg : g.WellFormed)
    (hacyclic : ∀ n, g.FromRoot n → ¬ TransGen (fun a b => b ∈ g.successors a) n n)
    (fieldInsensitive : Bool) : Forward (.ofGraph g fieldInsensitive) g.reversePostorder := by
  have hroot : ∀ n, n ∈ g.reversePostorder → g.FromRoot n := fun n => hg.mem_reversePostorder_iff.mp
  have htarget : ∀ m n, n ∈ (Flow.ofGraph g fieldInsensitive).targets m →
      n ∈ g.successors m ∧ n ∈ g.reversePostorder := by
    intro m n hn
    obtain ⟨hsucc, hreached⟩ := List.mem_filter.mp hn
    exact ⟨hsucc, AccessGraph.mem_reversePostorder.mpr (isReachable_iff.mp hreached)⟩
  constructor
  case closed => exact fun m _ n hn => (htarget m n hn).2
  case irrefl => exact fun n hn hself => hacyclic n (hroot n hn) (.single (htarget n n hself).1)
  case later =>
    refine g.pairwise_reversePostorder.imp_of_mem ?_
    intro m n hm hn hback htargets
    obtain ⟨hsucc, _⟩ := htarget n m htargets
    have harc : g.digraph.Arc n m :=
      ⟨AccessGraph.lt_of_mem_successors hsucc, hsucc, hg.successors_lt hsucc⟩
    have hpath : ReflTransGen (fun a b => b ∈ g.successors a) m n :=
      ReflTransGen.mono (fun a b h => h.2.1) m n (hback harc)
    exact hacyclic n (hroot n hn) (TransGen.head' hsucc hpath)

/-- If the root leads to no cycle, then a run that nothing limits visits each node that the root leads
to exactly once, and a run with a limit in range succeeds exactly if the limit is at least the number of
these nodes. The sets that the visit of a node finds are those that the run ends with. They satisfy the
equation of what leaves the node; the one of what enters it holds too, if its predecessors list it as
a successor. -/
theorem visits_once_of_acyclic (hg : g.structuralError = none) (hssa : s.useSsa = false)
    (hacyclic : ∀ n, g.FromRoot n → ¬ TransGen (fun a b => b ∈ g.successors a) n n) :
    let p := Flow.ofGraph g s.fieldInsensitive
    ∃ nodes : List Nat, nodes.Nodup ∧ (∀ n, n ∈ nodes ↔ g.FromRoot n) ∧
      (∃ a r largest, (new g (s.withLimit none)).run = .ok a ∧ a.result? = some (.reaching r) ∧
        a.statistics = .reaching nodes.length nodes.length largest ∧
        Runs p (.start p) nodes r.solution ∧
        (∀ before n after, nodes = before ++ n :: after → ∃ t, Runs p (.start p) (before ++ [n]) t ∧
          t.entering n = r.facts n ∧ t.out n = r.factsAfter n) ∧
        ∀ n, g.FromRoot n → r.LeavingEquation (.ofGraph g s.fieldInsensitive) n ∧
          ((∀ m ∈ g.predecessors n, g.FromRoot m → n ∈ g.successors m) →
            r.EnteringEquation g n)) ∧
      ∀ limit, 1 ≤ limit → limit ≤ AnalysisSettings.iterationBound →
        ((∃ a, (new g (s.withLimit (some limit))).run = .ok a) ↔ nodes.length ≤ limit) := by
  intro p
  have hwf := AccessGraph.wellFormed_of_structuralError hg
  have hforward : Forward p g.reversePostorder :=
    forward_reversePostorder hwf hacyclic s.fieldInsensitive
  obtain ⟨t, hruns, hnil⟩ := hforward.exists_runs (s := .start p) rfl
  have hr := compute_of_runs hruns hnil
  have hvisits : t.visits = g.reversePostorder.length := by
    rw [hruns.visits_eq]
    exact Nat.zero_add _
  refine ⟨g.reversePostorder, g.nodup_reversePostorder, fun n => hwf.mem_reversePostorder_iff,
    ⟨_, ⟨p, t⟩, largest ⟨p, t⟩,
      run_of_compute (s := s.withLimit none) hg (validate_of_no_limit rfl) hssa hr, rfl, ?figures,
      hruns, ?sets, ?equations⟩, ?limits⟩
  case figures =>
    show Statistics.reaching t.visits g.reversePostorder.length _ = _
    rw [hvisits]
  case sets =>
    intro before n after hnodes
    have hnodup := g.nodup_reversePostorder
    rw [hnodes] at hruns hnodup
    exact hruns.exists_sets_eq_of_nodup hnodup
  case equations =>
    intro n hn
    have hsteady := steadyFor_of_compute hr
    have hreached := hwf.reached_iff_fromRoot.mpr hn
    exact ⟨hsteady.leavingEquation hreached, hsteady.enteringEquation hwf hreached⟩
  case limits =>
    intro limit hpos hle
    have hs := s.validate_withLimit hpos hle
    rw [exists_run_iff_visits_le (s := s.withLimit (some limit)) hg hs hssa rfl hr]
    show t.visits ≤ limit ↔ _
    rw [hvisits]

/-- The two branches meet again; one of the edges to them is listed twice. -/
def diamond : AccessGraph where
  nodes := #[
    ⟨0, .unknownMemory, [], [], [], [], []⟩,
    ⟨1, .alloc, [], [], [], [2, 3, 2], []⟩,
    ⟨2, .store, [], [firstBytes 1 4], [], [4], [1, 1]⟩,
    ⟨3, .store, [], [firstBytes 1 2], [], [4], [1]⟩,
    ⟨4, .load, [], [], [firstBytes 1 4], [], [2, 3]⟩]
  root := some 1

/-- A limit of four visits allows for one of each node, and a limit of three does not. -/
theorem visits_once_of_acyclic_diamond :
    (∃ a, (new diamond ⟨false, false, some 4⟩).run = .ok a) ∧
      ¬ ∃ a, (new diamond ⟨false, false, some 3⟩).run = .ok a := by
  have hlater : ∀ m n, n ∈ diamond.successors m → m < n := by
    intro m n hn
    have hm : m < 5 := AccessGraph.lt_of_mem_successors hn
    have hsuccessors : ∀ m < 5, ∀ n ∈ diamond.successors m, m < n := by decide
    exact hsuccessors m hm n hn
  have hacyclic : ∀ n, diamond.FromRoot n →
      ¬ TransGen (fun a b => b ∈ diamond.successors a) n n := by
    intro n _ hcycle
    have hlt : TransGen (· < ·) n n := TransGen.mono hlater n n hcycle
    rw [transGen_eq_self] at hlt
    exact Nat.lt_irrefl n hlt
  obtain ⟨nodes, hnodup, hnodes, -, hlimits⟩ := visits_once_of_acyclic (g := diamond)
    (s := ⟨false, false, none⟩) (by decide) rfl hacyclic
  have hcard : nodes.length = 4 := by
    have horder : diamond.reversePostorder = [1, 3, 2, 4] := by decide +kernel
    have hwf : diamond.WellFormed := AccessGraph.wellFormed_of_structuralError (by decide)
    have hperm : nodes.Perm [1, 3, 2, 4] := by
      refine (List.perm_ext_iff_of_nodup hnodup (by decide)).mpr fun n => ?_
      rw [hnodes, ← hwf.mem_reversePostorder_iff, horder]
    exact hperm.length_eq
  rw [hcard] at hlimits
  refine ⟨(hlimits 4 (by decide) (by decide)).mpr (Nat.le_refl 4), fun h => ?_⟩
  have hle := (hlimits 3 (by decide) (by decide)).mp h
  omega

end Analysis

end MemDep
