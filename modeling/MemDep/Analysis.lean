import MemDep.AccessGraph.Defect
import MemDep.Reaching
import MemDep.Settings
import MemDep.Ssa

/-!
# Memory dependence analyses

An analysis holds a graph, settings and, once it has been run, a result: either the solution of the
reaching-definition equations or the graph's static single assignment form. Until then every
question is refused. A run fails if the settings or the graph are unfit, or if the limit on
iterations is reached; a failed run leaves the analysis as it was. What it has computed until then
is not kept, since no question is answered from it and the next run starts afresh. A second run is
refused.

Questions to a static single assignment form may add phis to it, so a question returns the analysis
that later ones are asked of.
-/

namespace MemDep

/-- Why a run or a question is refused. -/
inductive AnalysisError where
  /-- The analysis has not been run. -/
  | notRun
  /-- The analysis has been run before. -/
  | alreadyRun
  /-- There is no such node. -/
  | unknownNode (id : Nat)
  /-- The limit on iterations was reached. -/
  | iterationLimitExceeded (limit : Nat)
  /-- The graph cannot be analysed. -/
  | invalidGraph (defect : GraphDefect)
  /-- The settings are refused. -/
  | invalidSettings (cause : ConfigurationError)
deriving DecidableEq, Repr

/-- An error in words. -/
def AnalysisError.message : AnalysisError → String
  | notRun => "Analysis has not been run yet"
  | alreadyRun => "Analysis has already been run"
  | unknownNode id => s!"Node {id} is not part of the graph"
  | iterationLimitExceeded limit => s!"Fixpoint not reached within {limit} iterations"
  | invalidGraph defect => "Invalid read-write graph: " ++ defect.message
  | invalidSettings cause => "Invalid data dependence options: " ++ cause.message

/-- What a run computed. -/
inductive AnalysisResult where
  /-- The solution of the equations. -/
  | reaching (r : ReachingDefinitions)
  /-- The static single assignment form. -/
  | ssa (s : MemorySsa)

/-- A graph with settings, and the result of the run. -/
structure Analysis where
  /-- The graph. -/
  graph : AccessGraph
  /-- The settings. -/
  settings : AnalysisSettings
  /-- The result, once there is one. -/
  result? : Option AnalysisResult

namespace Analysis

/-- An analysis that has not been run. -/
def new (g : AccessGraph) (s : AnalysisSettings) : Analysis := ⟨g, s, none⟩

/-- The analysis has been run. -/
def hasRun (a : Analysis) : Bool := a.result?.isSome

/-! ## Runs -/

/-- What a run computes; a limit on iterations does not apply to the static single assignment
form. -/
def compute (a : Analysis) : Except AnalysisError AnalysisResult :=
  let { useSsa, fieldInsensitive, maxIterations } := a.settings
  if useSsa then
    .ok (.ssa (.compute a.graph fieldInsensitive))
  else
    match ReachingDefinitions.compute a.graph fieldInsensitive maxIterations with
    | some r => .ok (.reaching r)
    | none => .error (.iterationLimitExceeded (maxIterations.getD 0))

/-- Runs the analysis. The settings are checked first, then the graph. -/
def run (a : Analysis) : Except AnalysisError Analysis := do
  if a.hasRun then
    throw .alreadyRun
  if let .error cause := a.settings.validate then
    throw (.invalidSettings cause)
  if let some defect := a.graph.structuralError then
    throw (.invalidGraph defect)
  return { a with result? := some (← a.compute) }

/-! ## Questions -/

/-- The result, if there is one and the node exists. -/
def resultAt (a : Analysis) (n : Nat) : Except AnalysisError AnalysisResult :=
  match a.result? with
  | none => .error .notRun
  | some r => if a.graph.contains n then .ok r else .error (.unknownNode n)

/-- The definitions of a region where control enters a node: the nodes, in ascending order, with a
write that may be the last one to have touched some byte of the region. -/
def definitions (a : Analysis) (n : Nat) (region : Region) :
    Except AnalysisError (List Nat × Analysis) := do
  let result ← a.resultAt n
  if !a.graph.contains region.object then
    throw (.unknownNode region.object)
  match result with
  | .reaching r => return (r.definitions n region, a)
  | .ssa s =>
    let (nodes, s) := s.definitions n region
    return (nodes, { a with result? := some (.ssa s) })

/-- The definitions of everything that a node reads, in ascending order. The solution of the
equations is asked about each region that the graph says the node reads, and refuses regions of
objects that do not exist; the static single assignment form has resolved the reads before. -/
def readDefinitions (a : Analysis) (n : Nat) : Except AnalysisError (List Nat) := do
  match ← a.resultAt n with
  | .reaching r =>
    let regions := ((a.graph.node? n).map AccessNode.reads).getD []
    let answers ← regions.mapM fun region =>
      if a.graph.contains region.object then .ok (r.definitions n region)
      else .error (.unknownNode region.object)
    return Ascending.ofList answers.flatten
  | .ssa s => return s.readDefinitions n

/-- The facts that enter a node; none in static single assignment form. -/
def enteringFacts (a : Analysis) (n : Nat) : Except AnalysisError (List Fact) := do
  match ← a.resultAt n with
  | .reaching r => return r.facts n
  | .ssa _ => return []

/-- The definitions of everything that a node reads, as writes and phis; none if the equations were
solved instead. -/
def readDefs (a : Analysis) (n : Nat) : Except AnalysisError (List MemoryDef) := do
  match ← a.resultAt n with
  | .reaching _ => return []
  | .ssa s => return s.readDefs n

/-! ## Views of the result -/

/-- The phis of the static single assignment form. -/
def phiTable (a : Analysis) : PhiTable :=
  match a.result? with
  | some (.ssa s) => s.table
  | _ => .empty

/-- The basic blocks of the static single assignment form. -/
def blocks (a : Analysis) : BlockGraph :=
  match a.result? with
  | some (.ssa s) => s.scope.blocks
  | _ => .empty

/-- Figures about a result. -/
inductive Statistics where
  /-- The visits of the iteration, the reachable nodes, and the most facts that enter a node. -/
  | reaching (visits reachable largest : Nat)
  /-- The blocks, the phis, how many of them are trivial, and the nodes whose reads are resolved. -/
  | ssa (blocks phis trivial reads : Nat)
deriving DecidableEq, Repr

/-- Figures about the result; zeros if there is none. -/
def statistics (a : Analysis) : Statistics :=
  match a.result? with
  | some (.reaching r) => .reaching r.visits r.reachableCount r.largest
  | some (.ssa s) =>
    .ssa s.scope.blocks.count s.table.size s.table.trivialCount s.reads.length
  | none => if a.settings.useSsa then .ssa 0 0 0 0 else .reaching 0 0 0

/-! ## Sequences of calls -/

/-- Something that an analysis is asked to do. -/
inductive Call where
  /-- Run. -/
  | run
  /-- Find the definitions of a region at a node. -/
  | definitions (node : Nat) (region : Region)
  /-- Find the definitions of what a node reads. -/
  | readDefinitions (node : Nat)
deriving DecidableEq, Repr

/-- The answer to a call; a run that succeeds answers with no nodes. -/
abbrev Reply := Except AnalysisError (List Nat)

/-- Performs a call. A refused call leaves the analysis as it was. -/
def perform (a : Analysis) : Call → Reply × Analysis
  | .run =>
    match a.run with
    | .ok a' => (.ok [], a')
    | .error e => (.error e, a)
  | .definitions n region =>
    match a.definitions n region with
    | .ok (nodes, a') => (.ok nodes, a')
    | .error e => (.error e, a)
  | .readDefinitions n => (a.readDefinitions n, a)

/-- Performs calls in order. -/
def performAll (a : Analysis) : List Call → List Reply × Analysis
  | [] => ([], a)
  | c :: calls =>
    let (reply, a) := a.perform c
    let (replies, a) := performAll a calls
    (reply :: replies, a)

end Analysis

end MemDep
