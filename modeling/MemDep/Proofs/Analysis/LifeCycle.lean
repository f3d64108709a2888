import MemDep.Proofs.Analysis.InPlace

/-!
# The life cycle of an analysis

An analysis is in one of two phases. It stays as new until a run succeeds, which it may be asked for
any number of times, and it has a result from then on. The runs that fail all fail for the same
reason, which is determined by the graph and the settings; once there is a result, a run fails for
having been made before.

A run by iteration may fail in the middle of its loop, with its sets overwritten. The life cycle is
that of an analysis that keeps these sets as well, since it cannot be told from one that drops them.
-/

namespace MemDep

namespace Analysis

variable {g : AccessGraph} {s : AnalysisSettings} {a : Analysis} {e : AnalysisError}

/-! ## Why a run fails -/

/-- Why a run of a new analysis is refused. The settings come first, then the graph. -/
inductive Unfit (g : AccessGraph) (s : AnalysisSettings) : AnalysisError → Prop where
  | settings {cause : ConfigurationError} (hs : s.validate = .error cause) :
    Unfit g s (.invalidSettings cause)
  | graph {defect : GraphDefect} (hs : s.validate = .ok ()) (hg : g.structuralError = some defect) :
    Unfit g s (.invalidGraph defect)
  | limit {limit : Nat} {r : ReachingDefinitions} (hs : s.validate = .ok ())
      (hg : g.structuralError = none) (hssa : s.useSsa = false)
      (hlimit : s.maxIterations = some limit)
      (hr : ReachingDefinitions.compute g s.fieldInsensitive none = some r)
      (hlt : limit < r.visits) : Unfit g s (.iterationLimitExceeded limit)

theorem Unfit.ne_alreadyRun (h : Unfit g s e) : e ≠ .alreadyRun := by
  cases h <;> nofun

theorem run_new_of_unfit (h : Unfit g s e) : (new g s).run = .error e := by
  cases h with
  | settings hs => exact run_new_of_invalid_settings hs
  | graph hs hg => exact run_new_of_defect hs hg
  | limit hs hg hssa hlimit hr hlt =>
    have hnone := ReachingDefinitions.compute_eq_none_iff.mpr ⟨_, _, hlimit, hr, hlt⟩
    rw [run_new hg hs, compute_new_of_not_useSsa hssa, hnone, hlimit]
    rfl

theorem unfit_of_compute_new (hg : g.structuralError = none) (hs : s.validate = .ok ())
    (h : (new g s).compute = .error e) : Unfit g s e := by
  cases hssa : s.useSsa with
  | true => simp [compute, new, hssa] at h
  | false =>
    rw [compute_new_of_not_useSsa hssa] at h
    cases hc : ReachingDefinitions.compute g s.fieldInsensitive s.maxIterations with
    | some r => simp [hc] at h
    | none =>
      obtain ⟨limit, r, hlimit, hr, hlt⟩ := ReachingDefinitions.compute_eq_none_iff.mp hc
      rw [hc, hlimit] at h
      obtain rfl := Except.error.inj h
      exact .limit hs hg hssa hlimit hr hlt

theorem unfit_of_run_new (h : (new g s).run = .error e) : Unfit g s e := by
  cases hs : s.validate with
  | error cause =>
    rw [run_new_of_invalid_settings hs] at h
    obtain rfl := Except.error.inj h
    exact .settings hs
  | ok =>
    cases hg : g.structuralError with
    | some defect =>
      rw [run_new_of_defect hs hg] at h
      obtain rfl := Except.error.inj h
      exact .graph hs hg
    | none =>
      rw [run_new hg hs] at h
      cases hc : (new g s).compute with
      | ok r => simp [hc, Except.map] at h
      | error e' =>
        rw [hc] at h
        obtain rfl := Except.error.inj h
        exact unfit_of_compute_new hg hs hc

/-! ## Before the first result -/

/-- Nothing has been computed: there are no answers, no phis, and all figures are zero. -/
structure Silent (a : Analysis) : Prop where
  hasRun : a.hasRun = false
  definitions : ∀ n region, a.definitions n region = .error .notRun
  readDefinitions : ∀ n, a.readDefinitions n = .error .notRun
  enteringFacts : ∀ n, a.enteringFacts n = .error .notRun
  readDefs : ∀ n, a.readDefs n = .error .notRun
  statistics : a.statistics = if a.settings.useSsa then .ssa 0 0 0 0 else .reaching 0 0 0
  phiTable : a.phiTable = .empty
  blocks : a.blocks = .empty

theorem silent_new (g : AccessGraph) (s : AnalysisSettings) : (new g s).Silent :=
  ⟨rfl, fun _ _ => rfl, fun _ => rfl, fun _ => rfl, fun _ => rfl, rfl, rfl, rfl⟩

/-! ## One call -/

/-- The call was a run that succeeded. -/
def Call.Ran (c : Call) (reply : Reply) : Prop := c = .run ∧ reply.isOk = true

instance (c : Call) (reply : Reply) : Decidable (c.Ran reply) :=
  inferInstanceAs (Decidable (c = .run ∧ reply.isOk = true))

/-- The analysis has a result. -/
def Ready (g : AccessGraph) (s : AnalysisSettings) (a : Analysis) : Prop :=
  ∃ r, a = ⟨g, s, some r⟩

theorem Ready.hasRun (h : Ready g s a) : a.hasRun = true := by
  obtain ⟨r, rfl⟩ := h
  rfl

theorem Ready.perform_run (h : Ready g s a) : a.perform .run = (.error .alreadyRun, a) := by
  obtain ⟨r, rfl⟩ := h
  unfold Analysis.perform
  rw [run_of_result rfl]

theorem ready_definitions (r : AnalysisResult) (n : Nat) (region : Region) :
    Ready g s (perform ⟨g, s, some r⟩ (.definitions n region)).2 := by
  unfold perform
  dsimp only
  rcases definitions_cases ⟨g, s, some r⟩ r rfl n region with ⟨e, he⟩ | ⟨hn, hobj⟩
  · rw [he]
    exact ⟨r, rfl⟩
  · cases r with
    | reaching r =>
      rw [definitions_reaching hn hobj]
      exact ⟨.reaching r, rfl⟩
    | ssa m =>
      rw [definitions_ssa hn hobj]
      exact ⟨.ssa _, rfl⟩

theorem Ready.perform (h : Ready g s a) (c : Call) : Ready g s (a.perform c).2 := by
  cases c with
  | run =>
    rw [h.perform_run]
    exact h
  | definitions n region =>
    obtain ⟨r, rfl⟩ := h
    exact ready_definitions r n region
  | readDefinitions n => exact h

theorem perform_run_new_eq_error_iff :
    ((new g s).perform .run).1 = .error e ↔ Unfit g s e := by
  have hrun : ((new g s).perform .run).1 = .error e ↔ (new g s).run = .error e := by
    unfold perform
    cases (new g s).run <;> simp
  rw [hrun]
  exact ⟨unfit_of_run_new, run_new_of_unfit⟩

/-- A call leaves a new analysis as it is, unless it is a run that succeeds. -/
theorem perform_new (g : AccessGraph) (s : AnalysisSettings) (c : Call) :
    c.Ran ((new g s).perform c).1 ∧ Ready g s ((new g s).perform c).2 ∨
      ¬ c.Ran ((new g s).perform c).1 ∧ ((new g s).perform c).2 = new g s := by
  cases c with
  | definitions n region => exact .inr ⟨nofun, rfl⟩
  | readDefinitions n => exact .inr ⟨nofun, rfl⟩
  | run =>
    unfold perform
    cases h : (new g s).run with
    | error e => exact .inr ⟨nofun, rfl⟩
    | ok a =>
      obtain ⟨_, _, r, _, rfl⟩ := of_run_eq_ok h
      exact .inl ⟨⟨rfl, rfl⟩, r, rfl⟩

/-! ## Sequences of calls -/

/-- Some of the calls was a run that succeeded. -/
def Succeeded (calls : List Call) (replies : List Reply) : Prop :=
  ∃ p ∈ calls.zip replies, p.1.Ran p.2

instance (calls : List Call) (replies : List Reply) : Decidable (Succeeded calls replies) :=
  inferInstanceAs (Decidable (∃ p ∈ calls.zip replies, p.1.Ran p.2))

theorem succeeded_cons {c : Call} {calls : List Call} {reply : Reply} {replies : List Reply} :
    Succeeded (c :: calls) (reply :: replies) ↔ c.Ran reply ∨ Succeeded calls replies := by
  simp [Succeeded]

theorem Ready.performAll (h : Ready g s a) (calls : List Call) :
    Ready g s (a.performAll calls).2 := by
  induction calls generalizing a with
  | nil => exact h
  | cons c calls ih => exact ih (h.perform c)

/-- After any calls a new analysis has a result if one of them was a run that succeeded, and is as it
was otherwise. -/
theorem performAll_new (g : AccessGraph) (s : AnalysisSettings) (calls : List Call) :
    Succeeded calls ((new g s).performAll calls).1 ∧ Ready g s ((new g s).performAll calls).2 ∨
      ¬ Succeeded calls ((new g s).performAll calls).1 ∧
        ((new g s).performAll calls).2 = new g s := by
  induction calls with
  | nil => exact .inr ⟨by simp [Succeeded], rfl⟩
  | cons c calls ih =>
    simp only [performAll, succeeded_cons]
    rcases perform_new g s c with ⟨hran, hready⟩ | ⟨hran, hsame⟩
    · exact .inl ⟨.inl hran, hready.performAll calls⟩
    · rw [hsame]
      simpa only [hran, false_or] using ih

/-- If there is a reason for runs to fail, no calls change a new analysis. -/
theorem performAll_new_of_unfit (h : Unfit g s e) (calls : List Call) :
    ((new g s).performAll calls).2 = new g s := by
  induction calls with
  | nil => rfl
  | cons c calls ih =>
    rcases perform_new g s c with ⟨⟨rfl, hok⟩, _⟩ | ⟨_, hsame⟩
    · rw [perform_run_new_eq_error_iff.mpr h] at hok
      nomatch hok
    · simp only [performAll, hsame]
      exact ih

/-- For every graph, all settings and every sequence of calls, there is a result afterwards exactly if
one of the calls was a run that succeeded. As long as there is none, every question is refused for
want of a run, all figures are zero, and a run fails exactly for the reason that the graph and the
settings give, if they give one; whatever calls follow, it then fails for this reason again. Once
there is a result, every further run is refused for having been made before, and changes nothing. An
analysis by iteration that keeps the sets of failed runs does and tells the same throughout. -/
theorem life_cycle (g : AccessGraph) (s : AnalysisSettings) (calls : List Call) :
    let replies := ((new g s).performAll calls).1
    let a := ((new g s).performAll calls).2
    (a.hasRun = true ↔ Succeeded calls replies) ∧
    (¬ Succeeded calls replies → a.Silent ∧
      (∀ e, (a.perform .run).1 = .error e ↔ Unfit g s e) ∧
      ∀ e, (a.perform .run).1 = .error e → e ≠ .alreadyRun ∧
        ∀ more, ((a.performAll more).2.perform .run).1 = .error e ∧ (a.performAll more).2.Silent) ∧
    (Succeeded calls replies → ∀ more,
      let later := (a.performAll more).2
      later.hasRun = true ∧ later.perform .run = (.error .alreadyRun, later)) ∧
    (s.useSsa = false → InPlace.Agrees (.new g s) (new g s)) := by
  intro replies a
  rcases performAll_new g s calls with ⟨hran, hready⟩ | ⟨hran, hsame⟩
  · refine ⟨iff_of_true hready.hasRun hran, fun hnot => absurd hran hnot, fun _ more => ?_,
      InPlace.agrees_new g⟩
    have hlater := hready.performAll more
    exact ⟨hlater.hasRun, hlater.perform_run⟩
  · have ha : a = new g s := hsame
    rw [ha]
    refine ⟨iff_of_false nofun hran, fun _ => ⟨silent_new g s, ?_, ?_⟩, fun h => absurd h hran,
      InPlace.agrees_new g⟩
    · intro e
      exact perform_run_new_eq_error_iff
    · intro e he
      have hunfit := perform_run_new_eq_error_iff.mp he
      refine ⟨hunfit.ne_alreadyRun, fun more => ?_⟩
      rw [performAll_new_of_unfit hunfit more]
      exact ⟨he, silent_new g s⟩

/-- The loop takes more than one visit, so that with a limit of one all runs fail alike, and an analysis
that keeps their sets replies the same. The limit does not apply to static single assignment form,
where the first run succeeds and later ones fail. -/
theorem life_cycle_storeLoop :
    let calls := [.readDefinitions 5, .run, .definitions 99 (firstBytes 1 4), .run]
    let a := ((new storeLoop ⟨false, false, some 1⟩).performAll calls).2
    let b := ((new storeLoop ⟨true, false, some 1⟩).performAll calls).2
    (∀ more, ((a.performAll more).2.perform .run).1 = .error (.iterationLimitExceeded 1) ∧
      (a.performAll more).2.Silent) ∧
    (∀ more, ((InPlace.new storeLoop ⟨false, false, some 1⟩).performAll more).1 =
      ((new storeLoop ⟨false, false, some 1⟩).performAll more).1) ∧
    ∀ more, ((b.performAll more).2.perform .run).1 = .error .alreadyRun := by
  intro calls a b
  obtain ⟨_, hfails, _, hagrees⟩ := life_cycle storeLoop ⟨false, false, some 1⟩ calls
  obtain ⟨_, _, hrun, _⟩ := life_cycle storeLoop ⟨true, false, some 1⟩ calls
  obtain ⟨_, _, hagain⟩ := hfails (by decide +kernel)
  obtain ⟨_, hmore⟩ := hagain (.iterationLimitExceeded 1) (by decide +kernel)
  refine ⟨hmore, (hagrees rfl).replies, fun more => ?_⟩
  obtain ⟨_, hlater⟩ := hrun (by decide +kernel) more
  rw [hlater]

end Analysis

end MemDep
