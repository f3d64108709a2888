import MemDep.Proofs.Analysis.Basic
import MemDep.Proofs.Checked.Form
import MemDep.Proofs.Checked.Iteration

/-!
# Analyses with checked indices

Runs and questions of an analysis whose sets, blocks and phis are in arrays. Node ids in questions
are compared with the size of the graph before anything is read, graphs are only analysed if they
have no defect, and no result changes the size of its arrays. So no graph, no settings and no
sequence of calls makes an analysis read or overwrite a slot that does not exist
(`no_index_out_of_range`).
-/

namespace MemDep

namespace Checked

/-- What a run computed. -/
inductive Result where
  /-- The solution of the equations. -/
  | reaching (s : Solution)
  /-- The static single assignment form. -/
  | ssa (f : Form)

/-- A graph with settings, and the result of the run. -/
structure Analysis where
  /-- The graph. -/
  graph : AccessGraph
  /-- The settings. -/
  settings : AnalysisSettings
  /-- The result, once there is one. -/
  result? : Option Result

/-! ## Questions to a solution -/

/-- The facts that enter a node. -/
def Solution.facts (s : Solution) (n : Nat) : Option (List Fact) := s.ins[n]?

/-- The definitions of a region where control enters a node, in ascending order. -/
def Solution.definitions (s : Solution) (n : Nat) (region : Region) : Option (List Nat) := do
  let query := s.flow.accesses.normalize region
  let relevant := (← s.facts n).filter fun f =>
    match s.flow.region? f with
    | some site => site.mayOverlap query
    | none => false
  return Ascending.squeeze (relevant.map (·.node))

/-- The definitions of several regions where control enters a node; refused if an object does not
exist. -/
def Solution.definitionsOfAll (s : Solution) (g : AccessGraph) (n : Nat) :
    List Region → Option (Except AnalysisError (List (List Nat)))
  | [] => some (.ok [])
  | region :: regions => do
    if !g.contains region.object then
      return .error (.unknownNode region.object)
    let nodes ← s.definitions n region
    return (← definitionsOfAll s g n regions).map (nodes :: ·)

/-! ## Runs and questions -/

namespace Analysis

/-- An analysis that has not been run. -/
def new (g : AccessGraph) (s : AnalysisSettings) : Analysis := ⟨g, s, none⟩

/-- What a run computes. -/
noncomputable def compute (a : Analysis) : Option (Except AnalysisError Result) := do
  let { useSsa, fieldInsensitive, maxIterations } := a.settings
  if useSsa then
    return .ok (.ssa (← Form.compute a.graph fieldInsensitive))
  else
    -- asymmetric edges are counted for a warning
    let _ ← asymmetricEdges a.graph
    match ← solve a.graph fieldInsensitive maxIterations with
    | some s => return .ok (.reaching s)
    | none => return .error (.iterationLimitExceeded (maxIterations.getD 0))

/-- Runs the analysis. -/
noncomputable def run (a : Analysis) : Option (Except AnalysisError Analysis) := do
  if a.result?.isSome then
    return .error .alreadyRun
  if let .error cause := a.settings.validate then
    return .error (.invalidSettings cause)
  if let some defect ← structuralError a.graph then
    return .error (.invalidGraph defect)
  return (← a.compute).map fun r => { a with result? := some r }

/-- The result, if there is one and the node exists. -/
def resultAt (a : Analysis) (n : Nat) : Except AnalysisError Result :=
  match a.result? with
  | none => .error .notRun
  | some r => if a.graph.contains n then .ok r else .error (.unknownNode n)

/-- The definitions of a region where control enters a node. -/
noncomputable def definitions (a : Analysis) (n : Nat) (region : Region) :
    Option (Except AnalysisError (List Nat × Analysis)) := do
  match a.resultAt n with
  | .error e => return .error e
  | .ok result =>
    if !a.graph.contains region.object then
      return .error (.unknownNode region.object)
    match result with
    | .reaching s => return .ok (← s.definitions n region, a)
    | .ssa f =>
      let (nodes, f) ← f.definitions n region
      return .ok (nodes, { a with result? := some (.ssa f) })

/-- The definitions of everything that a node reads. -/
def readDefinitions (a : Analysis) (n : Nat) : Option (Except AnalysisError (List Nat)) := do
  match a.resultAt n with
  | .error e => return .error e
  | .ok (.reaching s) =>
    let regions := ((a.graph.node? n).map AccessNode.reads).getD []
    return (← s.definitionsOfAll a.graph n regions).map fun answers =>
      Ascending.ofList answers.flatten
  | .ok (.ssa f) => return .ok (((f.read? n).map (·.writers)).getD [])

/-- The facts that enter a node; none in static single assignment form. -/
def enteringFacts (a : Analysis) (n : Nat) : Option (Except AnalysisError (List Fact)) := do
  match a.resultAt n with
  | .error e => return .error e
  | .ok (.reaching s) => return .ok (← s.facts n)
  | .ok (.ssa _) => return .ok []

/-- The definitions of everything that a node reads, as writes and phis; none if the equations were
solved instead. -/
def readDefs (a : Analysis) (n : Nat) : Except AnalysisError (List MemoryDef) :=
  (a.resultAt n).map fun
    | .reaching _ => []
    | .ssa f => ((f.read? n).map (·.defs)).getD []

/-- Performs a call. A refused call leaves the analysis as it was. -/
noncomputable def perform (a : Analysis) :
    MemDep.Analysis.Call → Option (MemDep.Analysis.Reply × Analysis)
  | .run => do
    match ← a.run with
    | .ok a' => return (.ok [], a')
    | .error e => return (.error e, a)
  | .definitions n region => do
    match ← a.definitions n region with
    | .ok (nodes, a') => return (.ok nodes, a')
    | .error e => return (.error e, a)
  | .readDefinitions n => do return (← a.readDefinitions n, a)

/-- Performs calls in order. -/
noncomputable def performAll (a : Analysis) :
    List MemDep.Analysis.Call → Option (List MemDep.Analysis.Reply × Analysis)
  | [] => some ([], a)
  | c :: calls => do
    let (reply, a) ← a.perform c
    let (replies, a) ← performAll a calls
    return (reply :: replies, a)

end Analysis

/-! ## The same analyses -/

/-- The same result, in arrays. -/
def Result.of : AnalysisResult → Result
  | .reaching r => .reaching (.of r)
  | .ssa m => .ssa (.of m)

/-- The same analysis, with its result in arrays. -/
def Analysis.of (a : MemDep.Analysis) : Analysis := ⟨a.graph, a.settings, a.result?.map .of⟩

/-- What the arrays of a result rely on. -/
def Fitting (g : AccessGraph) : AnalysisResult → Prop
  | .reaching r => r.solution.ins.size = g.size
  | .ssa m => m.Sound

/-- The result of an analysis fits its graph. -/
def Sized (a : MemDep.Analysis) : Prop := ∀ r, a.result? = some r → Fitting a.graph r

theorem sized_new (g : AccessGraph) (s : AnalysisSettings) : Sized (.new g s) := by
  intro r hr
  exact absurd hr (by simp [MemDep.Analysis.new])

theorem size_ins_of_compute {g : AccessGraph} {fieldInsensitive : Bool} {limit : Option Nat}
    {r : ReachingDefinitions}
    (h : ReachingDefinitions.compute g fieldInsensitive limit = some r) :
    r.solution.ins.size = g.size := by
  obtain ⟨s, hs, rfl⟩ := Option.map_eq_some_iff.mp h
  exact (Iteration.steady_of_solve (ReachingDefinitions.scheduled_ofGraph g fieldInsensitive)
    hs).1.size_ins

section Questions

variable {g : AccessGraph} {r : ReachingDefinitions} {n : Nat}

theorem facts_of (hsize : r.solution.ins.size = g.size) (hn : g.contains n = true) :
    (Solution.of r).facts n = some (r.facts n) := by
  have hlt : n < r.solution.ins.size := hsize ▸ of_decide_eq_true hn
  simp [Solution.facts, Solution.of, ReachingDefinitions.facts, hlt]

theorem definitions_of_reaching (hsize : r.solution.ins.size = g.size) (hn : g.contains n = true)
    (region : Region) : (Solution.of r).definitions n region = some (r.definitions n region) := by
  unfold Solution.definitions
  rw [facts_of hsize hn]
  rfl

theorem definitionsOfAll_of (hsize : r.solution.ins.size = g.size) (hn : g.contains n = true)
    (regions : List Region) : (Solution.of r).definitionsOfAll g n regions =
      some (regions.mapM fun region =>
        if g.contains region.object then .ok (r.definitions n region)
        else .error (.unknownNode region.object)) := by
  induction regions with
  | nil => rfl
  | cons region regions ih =>
    rw [Solution.definitionsOfAll, ih, definitions_of_reaching hsize hn, List.mapM_cons]
    cases g.contains region.object with
    | false => rfl
    | true =>
      simp only [Bool.not_true, Bool.false_eq_true, if_false, if_true]
      generalize (regions.mapM fun region =>
        if g.contains region.object then Except.ok (r.definitions n region)
        else Except.error (AnalysisError.unknownNode region.object)) = answers
      cases answers <;> rfl

end Questions

variable {a : MemDep.Analysis}

theorem resultAt_of (a : MemDep.Analysis) (n : Nat) :
    (Analysis.of a).resultAt n = (a.resultAt n).map Result.of := by
  unfold Analysis.resultAt MemDep.Analysis.resultAt
  simp only [Analysis.of]
  cases a.result? with
  | none => rfl
  | some r =>
    simp only [Option.map_some]
    split
    case isTrue hn => exact if_pos hn
    case isFalse hn => exact if_neg hn

theorem of_resultAt {n : Nat} {r : AnalysisResult} (h : a.resultAt n = .ok r) :
    a.result? = some r ∧ a.graph.contains n = true := by
  unfold MemDep.Analysis.resultAt at h
  split at h
  case h_1 => simp at h
  case h_2 r' hr =>
    split at h
    case isTrue hn =>
      obtain rfl := Except.ok.inj h
      exact ⟨hr, hn⟩
    case isFalse => simp at h

theorem compute_of (a : MemDep.Analysis) :
    (Analysis.of a).compute = some (a.compute.map Result.of) := by
  obtain ⟨g, ⟨useSsa, fieldInsensitive, limit⟩, result⟩ := a
  cases useSsa with
  | true =>
    simp only [Analysis.compute, Analysis.of, if_true, Form.compute_eq]
    rfl
  | false =>
    simp only [Analysis.compute, Analysis.of, MemDep.Analysis.compute, asymmetricEdges_eq, solve_eq,
      Bool.false_eq_true, if_false, Option.bind_eq_bind, Option.bind_some]
    cases ReachingDefinitions.compute g fieldInsensitive limit <;> rfl

theorem run_of (a : MemDep.Analysis) :
    (Analysis.of a).run = some (a.run.map Analysis.of) := by
  unfold Analysis.run MemDep.Analysis.run MemDep.Analysis.hasRun
  rw [compute_of]
  obtain ⟨g, s, result⟩ := a
  cases result with
  | some r => rfl
  | none =>
    cases hs : s.validate with
    | error cause => simp [Analysis.of, hs]; rfl
    | ok _ =>
      cases hg : g.structuralError with
      | some defect => simp [Analysis.of, hs, structuralError_eq, hg]; rfl
      | none =>
        simp only [Analysis.of, hs, structuralError_eq, hg, Option.map_none, Option.isSome_none,
          Bool.false_eq_true, if_false, Option.bind_eq_bind, Option.bind_some, Option.pure_def]
        cases MemDep.Analysis.compute ⟨g, s, none⟩ <;> rfl

theorem definitions_of_analysis (h : Sized a) (n : Nat) (region : Region) :
    (Analysis.of a).definitions n region =
      some ((a.definitions n region).map fun p => (p.1, .of p.2)) := by
  cases hr : a.resultAt n with
  | error e =>
    simp only [Analysis.definitions, MemDep.Analysis.definitions, resultAt_of, hr]
    rfl
  | ok r =>
    obtain ⟨hresult, hn⟩ := of_resultAt hr
    have hfit := h r hresult
    obtain ⟨g, s, result⟩ := a
    obtain rfl : result = some r := hresult
    unfold Analysis.definitions
    rw [resultAt_of, hr]
    cases hobj : g.contains region.object with
    | false =>
      rw [MemDep.Analysis.definitions_of_missing_object rfl hn hobj]
      simp only [Except.map, Analysis.of, hobj]
      rfl
    | true =>
      cases r with
      | reaching r =>
        rw [MemDep.Analysis.definitions_reaching hn hobj]
        simp only [Except.map, Analysis.of, Result.of, hobj, definitions_of_reaching hfit hn]
        rfl
      | ssa m =>
        rw [MemDep.Analysis.definitions_ssa hn hobj]
        simp only [Except.map, Analysis.of, Result.of, hobj, Form.definitions_of hfit]
        rfl

theorem readDefinitions_of (h : Sized a) (n : Nat) :
    (Analysis.of a).readDefinitions n = some (a.readDefinitions n) := by
  unfold Analysis.readDefinitions MemDep.Analysis.readDefinitions
  rw [resultAt_of]
  cases hr : a.resultAt n with
  | error e => rfl
  | ok r =>
    obtain ⟨hresult, hn⟩ := of_resultAt hr
    have hfit := h r hresult
    cases r with
    | reaching r =>
      simp only [Except.map, Analysis.of, Result.of, definitionsOfAll_of hfit hn]
      rfl
    | ssa m => rfl

theorem enteringFacts_of (h : Sized a) (n : Nat) :
    (Analysis.of a).enteringFacts n = some (a.enteringFacts n) := by
  unfold Analysis.enteringFacts MemDep.Analysis.enteringFacts
  rw [resultAt_of]
  cases hr : a.resultAt n with
  | error e => rfl
  | ok r =>
    obtain ⟨hresult, hn⟩ := of_resultAt hr
    have hfit := h r hresult
    cases r with
    | reaching r =>
      simp only [Except.map, Result.of, facts_of hfit hn]
      rfl
    | ssa m => rfl

theorem readDefs_of (a : MemDep.Analysis) (n : Nat) :
    (Analysis.of a).readDefs n = a.readDefs n := by
  unfold Analysis.readDefs MemDep.Analysis.readDefs
  rw [resultAt_of]
  cases a.resultAt n with
  | error e => rfl
  | ok r => cases r <;> rfl

theorem perform_of (h : Sized a) (c : MemDep.Analysis.Call) :
    (Analysis.of a).perform c = some ((a.perform c).1, .of (a.perform c).2) := by
  cases c with
  | run =>
    simp only [Analysis.perform, MemDep.Analysis.perform, run_of]
    cases a.run <;> rfl
  | definitions n region =>
    simp only [Analysis.perform, MemDep.Analysis.perform, definitions_of_analysis h]
    cases a.definitions n region <;> rfl
  | readDefinitions n =>
    simp only [Analysis.perform, MemDep.Analysis.perform, readDefinitions_of h]
    rfl

theorem sized_run (h : Sized a) {a' : MemDep.Analysis} (hrun : a.run = .ok a') : Sized a' := by
  obtain ⟨g, ⟨useSsa, fieldInsensitive, limit⟩, result⟩ := a
  cases result with
  | some r =>
    rw [MemDep.Analysis.run_of_result rfl] at hrun
    exact absurd hrun (by simp)
  | none =>
    obtain ⟨-, -, r, hr, rfl⟩ :=
      MemDep.Analysis.of_run_eq_ok (g := g) (s := ⟨useSsa, fieldInsensitive, limit⟩) hrun
    intro r' hr'
    obtain rfl := Option.some.inj hr'
    cases useSsa with
    | true =>
      obtain rfl := Except.ok.inj hr
      exact MemorySsa.sound_compute g fieldInsensitive
    | false =>
      cases hc : ReachingDefinitions.compute g fieldInsensitive limit with
      | some r =>
        simp only [MemDep.Analysis.compute, MemDep.Analysis.new, hc] at hr
        obtain rfl := Except.ok.inj hr
        exact size_ins_of_compute hc
      | none =>
        simp only [MemDep.Analysis.compute, MemDep.Analysis.new, hc] at hr
        exact absurd hr (by simp)

theorem sized_definitions (h : Sized a) {n : Nat} {region : Region} {nodes : List Nat}
    {a' : MemDep.Analysis} (hd : a.definitions n region = .ok (nodes, a')) : Sized a' := by
  obtain ⟨g, s, result⟩ := a
  cases result with
  | none =>
    refine absurd hd ?_
    simp [MemDep.Analysis.definitions, MemDep.Analysis.resultAt, bind, Except.bind]
  | some r =>
    rcases MemDep.Analysis.definitions_cases ⟨g, s, some r⟩ r rfl n region with ⟨e, he⟩ | ⟨hn, hobj⟩
    · exact absurd (he.symm.trans hd) (by simp)
    · cases r with
      | reaching r =>
        rw [MemDep.Analysis.definitions_reaching hn hobj] at hd
        obtain ⟨-, rfl⟩ := Prod.mk.inj (Except.ok.inj hd)
        exact h
      | ssa m =>
        rw [MemDep.Analysis.definitions_ssa hn hobj] at hd
        obtain ⟨-, rfl⟩ := Prod.mk.inj (Except.ok.inj hd)
        have hm : m.Sound := h (.ssa m) rfl
        intro r' hr'
        obtain rfl := Option.some.inj hr'
        exact hm.definitions n region

theorem sized_perform (h : Sized a) (c : MemDep.Analysis.Call) : Sized (a.perform c).2 := by
  cases c with
  | run =>
    unfold MemDep.Analysis.perform
    cases hrun : a.run with
    | ok a' => exact sized_run h hrun
    | error e => exact h
  | definitions n region =>
    cases hd : a.definitions n region with
    | ok p =>
      simp only [MemDep.Analysis.perform, hd]
      exact sized_definitions h hd
    | error e =>
      simp only [MemDep.Analysis.perform, hd]
      exact h
  | readDefinitions n => exact h

theorem performAll_of (h : Sized a) (calls : List MemDep.Analysis.Call) :
    (Analysis.of a).performAll calls = some ((a.performAll calls).1, .of (a.performAll calls).2) ∧
      Sized (a.performAll calls).2 := by
  induction calls generalizing a with
  | nil => exact ⟨rfl, h⟩
  | cons c calls ih =>
    obtain ⟨hrest, hsized⟩ := ih (sized_perform h c)
    refine ⟨?_, hsized⟩
    rw [Analysis.performAll, perform_of h]
    simp only [Option.bind_eq_bind, Option.bind_some, hrest]
    rfl

/-- Whatever the graph is, its traversals and checks, its accesses and its basic blocks are computed
without an index out of range, and so is every reply to every sequence of calls to an analysis of
it, for all settings; and then the facts that enter any node and the definitions of what it reads.
The results are those of the definitions by recursion. -/
theorem no_index_out_of_range (g : AccessGraph) :
    structuralError g = some g.structuralError ∧
    asymmetricEdges g = some g.asymmetricEdges ∧
    reachable g = some g.reachable ∧
    reversePostorder g = some g.reversePostorder ∧
    (∀ fieldInsensitive, accesses g fieldInsensitive = some (.ofGraph g fieldInsensitive)) ∧
    build g g.reachable = some (.of (.ofGraph g)) ∧
    ∀ (s : AnalysisSettings) (calls : List MemDep.Analysis.Call),
      let r := (MemDep.Analysis.new g s).performAll calls
      (Analysis.new g s).performAll calls = some (r.1, .of r.2) ∧
        ∀ n, (Analysis.of r.2).enteringFacts n = some (r.2.enteringFacts n) ∧
          (Analysis.of r.2).readDefs n = r.2.readDefs n := by
  refine ⟨structuralError_eq g, asymmetricEdges_eq g, reachable_eq g, reversePostorder_eq g,
    accesses_eq g, build_eq g, ?_⟩
  intro s calls r
  obtain ⟨hcalls, hsized⟩ := performAll_of (sized_new g s) calls
  exact ⟨hcalls, fun n => ⟨enteringFacts_of hsized n, readDefs_of _ n⟩⟩

end Checked

end MemDep
