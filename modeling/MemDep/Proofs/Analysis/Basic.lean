import MemDep.Analysis
import MemDep.Proofs.AccessGraph.Accesses
import Mathlib.Tactic.Common

/-!
# Runs

When a run of an analysis succeeds, and what it leaves behind.
-/

namespace MemDep

namespace Analysis

variable {g : AccessGraph} {s : AnalysisSettings}

theorem validate_of_no_limit (hs : s.maxIterations = none) : s.validate = .ok () := by
  simp [AnalysisSettings.validate, AnalysisSettings.badLimit?, hs]

/-- What a run of an analysis that was not run before does, if settings and graph are accepted. -/
theorem run_new (hg : g.structuralError = none) (hs : s.validate = .ok ()) :
    (new g s).run = (new g s).compute.map fun r => ⟨g, s, some r⟩ := by
  unfold run
  simp only [new, hasRun, hs, hg, Option.isSome_none]
  cases compute ⟨g, s, none⟩ <;> rfl

theorem run_new_of_invalid_settings {cause : ConfigurationError} (hs : s.validate = .error cause) :
    (new g s).run = .error (.invalidSettings cause) := by
  unfold run
  simp only [new, hasRun, hs, Option.isSome_none]
  rfl

theorem run_new_of_defect {defect : GraphDefect} (hs : s.validate = .ok ())
    (hg : g.structuralError = some defect) : (new g s).run = .error (.invalidGraph defect) := by
  unfold run
  simp only [new, hasRun, hs, hg, Option.isSome_none]
  rfl

/-- A run that succeeds accepted the settings and the graph, and changed only the result. -/
theorem of_run_eq_ok {a : Analysis} (h : (new g s).run = .ok a) :
    s.validate = .ok () ∧ g.structuralError = none ∧
      ∃ r, (new g s).compute = .ok r ∧ a = ⟨g, s, some r⟩ := by
  cases hs : s.validate with
  | error cause => simp [run_new_of_invalid_settings hs] at h
  | ok =>
    cases hg : g.structuralError with
    | some defect => simp [run_new_of_defect hs hg] at h
    | none =>
      rw [run_new hg hs] at h
      cases hc : (new g s).compute with
      | error e => simp [hc, Except.map] at h
      | ok r =>
        rw [hc] at h
        exact ⟨rfl, rfl, r, rfl, (Except.ok.inj h).symm⟩

theorem run_of_result {a : Analysis} {r : AnalysisResult} (ha : a.result? = some r) :
    a.run = .error .alreadyRun := by
  unfold run hasRun
  rw [ha]
  rfl

/-- A question about a region is refused if the node or the object of the region does not exist. -/
theorem definitions_cases (a : Analysis) (r : AnalysisResult) (ha : a.result? = some r) (n : Nat)
    (region : Region) : (∃ e, a.definitions n region = .error e) ∨
      a.graph.contains n = true ∧ a.graph.contains region.object = true := by
  unfold definitions resultAt
  rw [ha]
  by_cases hn : a.graph.contains n = true
  · by_cases hr : a.graph.contains region.object = true
    · exact .inr ⟨hn, hr⟩
    · refine .inl ⟨.unknownNode region.object, ?_⟩
      simp only [hn, hr, if_true]
      rfl
  · refine .inl ⟨.unknownNode n, ?_⟩
    simp only [hn]
    rfl

theorem definitions_of_missing_node {a : Analysis} {r : AnalysisResult} (ha : a.result? = some r)
    {n : Nat} (hn : a.graph.contains n = false) (region : Region) :
    a.definitions n region = .error (.unknownNode n) := by
  unfold definitions resultAt
  simp only [ha, hn]
  rfl

theorem definitions_of_missing_object {a : Analysis} {r : AnalysisResult} (ha : a.result? = some r)
    {n : Nat} (hn : a.graph.contains n = true) {region : Region}
    (hobj : a.graph.contains region.object = false) :
    a.definitions n region = .error (.unknownNode region.object) := by
  unfold definitions resultAt
  simp only [ha, hn, hobj, if_true]
  rfl

theorem readDefinitions_of_missing_node {a : Analysis} {r : AnalysisResult}
    (ha : a.result? = some r) {n : Nat} (hn : a.graph.contains n = false) :
    a.readDefinitions n = .error (.unknownNode n) := by
  unfold readDefinitions resultAt
  simp only [ha, hn]
  rfl

theorem definitions_ssa {m : MemorySsa} {n : Nat} {region : Region} (hn : g.contains n = true)
    (hr : g.contains region.object = true) :
    definitions ⟨g, s, some (.ssa m)⟩ n region = .ok ((m.definitions n region).1,
      ⟨g, s, some (.ssa (m.definitions n region).2)⟩) := by
  unfold definitions resultAt
  simp only [hn, hr, if_true]
  rfl

theorem definitions_reaching {r : ReachingDefinitions} {n : Nat} {region : Region}
    (hn : g.contains n = true) (hr : g.contains region.object = true) :
    definitions ⟨g, s, some (.reaching r)⟩ n region =
      .ok (r.definitions n region, ⟨g, s, some (.reaching r)⟩) := by
  unfold definitions resultAt
  simp only [hn, hr, if_true]
  rfl

theorem readDefinitions_ssa {m : MemorySsa} {n : Nat} (hn : g.contains n = true) :
    readDefinitions ⟨g, s, some (.ssa m)⟩ n = .ok (m.readDefinitions n) := by
  unfold readDefinitions resultAt
  simp only [hn, if_true]
  rfl

theorem readDefinitions_reaching {r : ReachingDefinitions} {n : Nat} (hn : g.contains n = true) :
    readDefinitions ⟨g, s, some (.reaching r)⟩ n =
      ((g.reads n).mapM fun region =>
        if g.contains region.object then Except.ok (r.definitions n region)
        else Except.error (AnalysisError.unknownNode region.object)).map fun answers =>
          Ascending.ofList answers.flatten := by
  unfold readDefinitions resultAt
  simp only [hn, if_true]
  rfl

/-- The reply to a question about a region is its answer. -/
theorem fst_perform_definitions (a : Analysis) (n : Nat) (region : Region) :
    (a.perform (.definitions n region)).1 = (a.definitions n region).map Prod.fst := by
  unfold perform
  cases h : a.definitions n region <;> simp [h, Except.map]

/-! ## A graph with a loop -/

/-- The first bytes of an object. -/
def firstBytes (object count : Nat) : Region := ⟨object, .ofNat 0, .ofNat count⟩

/-- Node 2 writes four bytes of object 1, and node 4 in the loop after it overwrites two of them. -/
def storeLoop : AccessGraph where
  nodes := #[
    ⟨0, .unknownMemory, [], [], [], [], []⟩,
    ⟨1, .alloc, [], [], [], [2], []⟩,
    ⟨2, .store, [], [firstBytes 1 4], [], [3], [1]⟩,
    ⟨3, .noop, [], [], [], [4, 5], [2, 4]⟩,
    ⟨4, .store, [], [firstBytes 1 2], [], [3], [3]⟩,
    ⟨5, .load, [], [], [firstBytes 1 4], [], [3]⟩]
  root := some 1

theorem writes_storeLoop :
    (Accesses.ofGraph storeLoop false).writes 2 = [⟨firstBytes 1 4, true⟩] ∧
      (Accesses.ofGraph storeLoop false).writes 3 = [] ∧
      (Accesses.ofGraph storeLoop false).writes 5 = [] := by
  simp only [Accesses.writes_ofGraph]
  decide

end Analysis

end MemDep
