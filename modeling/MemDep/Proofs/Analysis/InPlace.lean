import MemDep.Proofs.Analysis.Reaching

/-!
# Analyses that work in place

An analysis by iteration that keeps its sets in place. A run starts them afresh and overwrites them
visit by visit, so that a limit which stops it leaves behind whatever the visits have come to. Only the
mark that is set at the end of a run stands between these sets and the questions.

`Analysis` drops the sets of a run that is stopped. The two are told apart by no sequence of calls
(`InPlace.agrees_new`).
-/

namespace MemDep

namespace Iteration

variable {p : Flow} {limit : Option Nat} {s : Iteration}

/-- Visits nodes until the worklist is empty, or until more visits are needed than a limit allows:
the last state, and whether the worklist is empty. -/
def iterate (p : Flow) (limit : Option Nat) (s : Iteration) (h : s.Sound p) : Iteration × Bool :=
  match _hw : s.worklist with
  | [] => (s, true)
  | n :: rest =>
    if limit.any (· ≤ s.visits) then (s, false)
    else iterate p limit (visit p s n rest) (h.visit n rest)
termination_by s.work p
decreasing_by exact h.work_visit_lt _hw

theorem iterate_nil (hs : s.Sound p) (hnil : s.worklist = []) :
    iterate p limit s hs = (s, true) := by
  rw [iterate]
  split
  case h_1 => rfl
  case h_2 hw => simp [hw] at hnil

theorem iterate_cons (hs : s.Sound p) {n : Nat} {rest : List Nat} (hw : s.worklist = n :: rest) :
    iterate p limit s hs = if limit.any (· ≤ s.visits) then (s, false)
      else iterate p limit (visit p s n rest) (hs.visit n rest) := by
  rw [iterate]
  split
  case h_1 hnil => simp [hnil] at hw
  case h_2 n' rest' hw' =>
    obtain ⟨rfl, rfl⟩ := List.cons.inj (hw.symm.trans hw')
    rfl

/-- There is a solution exactly if the iteration is not stopped, and it is the last state then. -/
theorem solve_eq_iterate (hs : s.Sound p) : solve p limit s hs =
    if (iterate p limit s hs).2 then some (iterate p limit s hs).1 else none := by
  induction s, hs using solve.induct p limit with
  | case1 s hs hnil =>
    rw [solve_nil hs hnil, iterate_nil hs hnil]
    rfl
  | case2 s hs n rest hw hlimit =>
    rw [solve_cons hs hw, iterate_cons hs hw, if_pos hlimit, if_pos hlimit]
    rfl
  | case3 s hs n rest hw hlimit ih =>
    rw [solve_cons hs hw, iterate_cons hs hw, if_neg hlimit, if_neg hlimit]
    exact ih

end Iteration

namespace Analysis

/-- An analysis by iteration that keeps its sets in place. -/
structure InPlace where
  /-- The graph. -/
  graph : AccessGraph
  /-- The settings. -/
  settings : AnalysisSettings
  /-- The sets as the last visit left them. -/
  sets : ReachingDefinitions
  /-- A run has come to its end. -/
  final : Bool
  /-- Figures about the run that came to its end; zeros before. -/
  statistics : Statistics

namespace InPlace

/-- An analysis that has not been run has no sets. -/
def new (g : AccessGraph) (s : AnalysisSettings) : InPlace :=
  ⟨g, s, ⟨⟨g, ⟨#[], false⟩, #[]⟩, ⟨#[], #[], [], 0⟩⟩, false, .reaching 0 0 0⟩

/-- The sets after all visits that the limit allows, and whether there are none left to make. -/
def visited (g : AccessGraph) (s : AnalysisSettings) : ReachingDefinitions × Bool :=
  let p := Flow.ofGraph g s.fieldInsensitive
  let (t, emptied) := Iteration.iterate p s.maxIterations (.start p) (Iteration.sound_start p)
  (⟨p, t⟩, emptied)

/-- Overwrites the sets. They are marked as final unless the limit stops the iteration. -/
def overwrite (a : InPlace) : Except AnalysisError Unit × InPlace :=
  let (sets, emptied) := visited a.graph a.settings
  if emptied then
    (.ok (), { a with
      sets := sets
      final := true
      statistics := .reaching sets.visits sets.reachableCount sets.largest })
  else
    (.error (.iterationLimitExceeded (a.settings.maxIterations.getD 0)), { a with sets := sets })

/-- Runs the analysis. The settings are checked first, then the graph. -/
def run (a : InPlace) : Except AnalysisError Unit × InPlace :=
  if a.final then (.error .alreadyRun, a)
  else
    match a.settings.validate, a.graph.structuralError with
    | .error cause, _ => (.error (.invalidSettings cause), a)
    | .ok (), some defect => (.error (.invalidGraph defect), a)
    | .ok (), none => a.overwrite

/-- The sets are final and the node exists. -/
def checkReady (a : InPlace) (n : Nat) : Except AnalysisError Unit :=
  if !a.final then .error .notRun
  else if a.graph.contains n then .ok () else .error (.unknownNode n)

/-- The definitions of a region where control enters a node. -/
def definitions (a : InPlace) (n : Nat) (region : Region) : Except AnalysisError (List Nat) := do
  a.checkReady n
  if !a.graph.contains region.object then
    throw (.unknownNode region.object)
  return a.sets.definitions n region

/-- The definitions of everything that a node reads. -/
def readDefinitions (a : InPlace) (n : Nat) : Except AnalysisError (List Nat) := do
  a.checkReady n
  let answers ← (a.graph.reads n).mapM (a.definitions n)
  return Ascending.ofList answers.flatten

/-- The facts that enter a node. -/
def enteringFacts (a : InPlace) (n : Nat) : Except AnalysisError (List Fact) := do
  a.checkReady n
  return a.sets.facts n

/-- Performs a call. Only a run changes something. -/
def perform (a : InPlace) : Call → Reply × InPlace
  | .run => let (reply, a) := a.run; (reply.map fun _ => [], a)
  | .definitions n region => (a.definitions n region, a)
  | .readDefinitions n => (a.readDefinitions n, a)

/-- Performs calls in order. -/
def performAll (a : InPlace) : List Call → List Reply × InPlace
  | [] => ([], a)
  | c :: calls =>
    let (reply, a) := a.perform c
    let (replies, a) := performAll a calls
    (reply :: replies, a)

/-! ## Side by side -/

variable {g : AccessGraph} {s : AnalysisSettings} {a : Analysis} {b : InPlace}

/-- The states of the two analyses after the same calls. Before a run has come to its end, the sets may
be any. -/
inductive Tracks (g : AccessGraph) (s : AnalysisSettings) : InPlace → Analysis → Prop where
  | before (sets : ReachingDefinitions) :
    Tracks g s ⟨g, s, sets, false, .reaching 0 0 0⟩ (Analysis.new g s)
  | after (r : ReachingDefinitions) :
    Tracks g s ⟨g, s, r, true, .reaching r.visits r.reachableCount r.largest⟩
      ⟨g, s, some (.reaching r)⟩

theorem definitions_final {n : Nat} (hn : g.contains n = true) (r : ReachingDefinitions)
    (statistics : Statistics) (region : Region) :
    definitions ⟨g, s, r, true, statistics⟩ n region =
      if g.contains region.object then .ok (r.definitions n region)
      else .error (.unknownNode region.object) := by
  unfold definitions checkReady
  dsimp only
  rw [hn]
  cases g.contains region.object <;> rfl

theorem Tracks.definitions (h : Tracks g s b a) (n : Nat) (region : Region) :
    b.definitions n region = (a.definitions n region).map Prod.fst := by
  cases h with
  | before sets => rfl
  | after r =>
    cases hn : g.contains n with
    | false =>
      rw [definitions_of_missing_node rfl hn]
      unfold InPlace.definitions checkReady
      simp only [hn]
      rfl
    | true =>
      rw [definitions_final hn]
      cases hobj : g.contains region.object with
      | false =>
        rw [definitions_of_missing_object rfl hn hobj]
        rfl
      | true =>
        rw [definitions_reaching hn hobj]
        rfl

theorem Tracks.readDefinitions (h : Tracks g s b a) (n : Nat) :
    b.readDefinitions n = a.readDefinitions n := by
  cases h with
  | before sets => rfl
  | after r =>
    cases hn : g.contains n with
    | false =>
      rw [readDefinitions_of_missing_node rfl hn]
      unfold InPlace.readDefinitions checkReady
      simp only [hn]
      rfl
    | true =>
      rw [readDefinitions_reaching hn]
      unfold InPlace.readDefinitions checkReady
      rw [funext (definitions_final hn r _)]
      simp only [hn]
      rfl

theorem Tracks.enteringFacts (h : Tracks g s b a) (n : Nat) :
    b.enteringFacts n = a.enteringFacts n := by
  cases h with
  | before sets => rfl
  | after r =>
    unfold InPlace.enteringFacts checkReady Analysis.enteringFacts resultAt
    dsimp only
    cases g.contains n <;> rfl

theorem Tracks.hasRun (h : Tracks g s b a) : b.final = a.hasRun := by
  cases h <;> rfl

theorem Tracks.statistics (hssa : s.useSsa = false) (h : Tracks g s b a) :
    b.statistics = a.statistics := by
  cases h with
  | before sets =>
    unfold Analysis.statistics Analysis.new
    simp [hssa]
  | after r => rfl

theorem compute_eq_visited (g : AccessGraph) (s : AnalysisSettings) :
    ReachingDefinitions.compute g s.fieldInsensitive s.maxIterations =
      if (visited g s).2 then some (visited g s).1 else none := by
  unfold ReachingDefinitions.compute visited
  dsimp only
  rw [Iteration.solve_eq_iterate, apply_ite (Option.map _)]
  rfl

/-- A run overwrites whatever an earlier one has left behind. -/
theorem overwrite_of_compute {r : ReachingDefinitions}
    (hr : ReachingDefinitions.compute g s.fieldInsensitive s.maxIterations = some r)
    (sets : ReachingDefinitions) (final : Bool) (statistics : Statistics) :
    overwrite ⟨g, s, sets, final, statistics⟩ =
      (.ok (), ⟨g, s, r, true, .reaching r.visits r.reachableCount r.largest⟩) := by
  rw [compute_eq_visited] at hr
  obtain ⟨hemptied, hlast⟩ := Option.ite_none_right_eq_some.mp hr
  obtain rfl := Option.some.inj hlast
  unfold overwrite
  dsimp only
  rw [if_pos hemptied]

/-- A run that the limit stops leaves its sets behind, but does not mark them. -/
theorem overwrite_of_limit
    (hr : ReachingDefinitions.compute g s.fieldInsensitive s.maxIterations = none)
    (sets : ReachingDefinitions) (final : Bool) (statistics : Statistics) :
    overwrite ⟨g, s, sets, final, statistics⟩ =
      (.error (.iterationLimitExceeded (s.maxIterations.getD 0)),
        ⟨g, s, (visited g s).1, final, statistics⟩) := by
  have hstopped : ¬ (visited g s).2 = true := by
    intro hemptied
    rw [compute_eq_visited, if_pos hemptied] at hr
    nomatch hr
  unfold overwrite
  dsimp only
  rw [if_neg hstopped]

theorem Tracks.run (hssa : s.useSsa = false) (h : Tracks g s b a) :
    (b.perform .run).1 = (a.perform .run).1 ∧ Tracks g s (b.perform .run).2 (a.perform .run).2 := by
  unfold InPlace.perform Analysis.perform
  cases h with
  | after r =>
    rw [run_of_result rfl]
    exact ⟨rfl, .after r⟩
  | before sets =>
    unfold InPlace.run
    cases hs : s.validate with
    | error cause =>
      rw [run_new_of_invalid_settings hs]
      exact ⟨rfl, .before sets⟩
    | ok =>
      cases hg : g.structuralError with
      | some defect =>
        rw [run_new_of_defect hs hg]
        exact ⟨rfl, .before sets⟩
      | none =>
        rw [run_new hg hs, compute_new_of_not_useSsa hssa]
        cases hr : ReachingDefinitions.compute g s.fieldInsensitive s.maxIterations with
        | some r =>
          rw [overwrite_of_compute hr]
          exact ⟨rfl, .after r⟩
        | none =>
          rw [overwrite_of_limit hr]
          exact ⟨rfl, .before _⟩

theorem Tracks.perform (hssa : s.useSsa = false) (h : Tracks g s b a) (c : Call) :
    (b.perform c).1 = (a.perform c).1 ∧ Tracks g s (b.perform c).2 (a.perform c).2 := by
  cases c with
  | run => exact h.run hssa
  | definitions n region =>
    have hsame : ((a.perform (.definitions n region)).2) = a := by
      cases h with
      | before sets => rfl
      | after r => exact perform_reaching r _
    rw [fst_perform_definitions, hsame]
    exact ⟨h.definitions n region, h⟩
  | readDefinitions n => exact ⟨h.readDefinitions n, h⟩

theorem Tracks.performAll (hssa : s.useSsa = false) (h : Tracks g s b a) (calls : List Call) :
    (b.performAll calls).1 = (a.performAll calls).1 ∧
      Tracks g s (b.performAll calls).2 (a.performAll calls).2 := by
  induction calls generalizing a b with
  | nil => exact ⟨rfl, h⟩
  | cons c calls ih =>
    obtain ⟨hreply, hnext⟩ := h.perform hssa c
    obtain ⟨hreplies, hlast⟩ := ih hnext
    refine ⟨?_, hlast⟩
    simp only [InPlace.performAll, Analysis.performAll, hreply, hreplies]

/-- After any calls the two have replied alike, and tell the same about runs, facts and figures. -/
structure Agrees (b : InPlace) (a : Analysis) : Prop where
  replies : ∀ calls, (b.performAll calls).1 = (a.performAll calls).1
  hasRun : ∀ calls, (b.performAll calls).2.final = (a.performAll calls).2.hasRun
  enteringFacts : ∀ calls n,
    (b.performAll calls).2.enteringFacts n = (a.performAll calls).2.enteringFacts n
  statistics : ∀ calls, (b.performAll calls).2.statistics = (a.performAll calls).2.statistics

/-- Sets that a stopped run leaves behind cannot be observed. -/
theorem agrees_new (g : AccessGraph) (hssa : s.useSsa = false) :
    Agrees (.new g s) (.new g s) := by
  have htracks : ∀ calls, _ := (Tracks.before (g := g) (s := s) (new g s).sets).performAll hssa
  exact ⟨fun calls => (htracks calls).1, fun calls => (htracks calls).2.hasRun,
    fun calls n => (htracks calls).2.enteringFacts n, fun calls => (htracks calls).2.statistics hssa⟩

end InPlace

end Analysis

end MemDep
