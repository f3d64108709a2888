import MemDep.Proofs.Analysis.LifeCycle

/-!
# Limits on the visits of a run

A limit decides only whether a run by iteration succeeds. With a limit of at least as many visits as
are made without one, the run computes the same sets, and the analysis tells the same. With a smaller
limit every run fails, and every question is refused.
-/

namespace MemDep

/-- The same settings with another limit, or with none. -/
def AnalysisSettings.withLimit (s : AnalysisSettings) (limit : Option Nat) : AnalysisSettings :=
  { s with maxIterations := limit }

theorem AnalysisSettings.validate_withLimit (s : AnalysisSettings) {limit : Nat} (hpos : 1 ≤ limit)
    (hle : limit ≤ iterationBound) : (s.withLimit (some limit)).validate = .ok () := by
  have hne : limit ≠ 0 := by omega
  have hnot : ¬ iterationBound < limit := by omega
  simp [validate, badLimit?, withLimit, Option.filter_some, hne, hnot]

namespace Analysis

variable {g : AccessGraph} {s s' : AnalysisSettings} {limit : Nat} {r : ReachingDefinitions}

/-! ## Analyses with the same solution -/

/-- Two analyses tell the same, now and after any calls. -/
structure Alike (a b : Analysis) : Prop where
  enteringFacts : ∀ n, a.enteringFacts n = b.enteringFacts n
  definitions : ∀ n region,
    (a.definitions n region).map Prod.fst = (b.definitions n region).map Prod.fst
  readDefinitions : ∀ n, a.readDefinitions n = b.readDefinitions n
  readDefs : ∀ n, a.readDefs n = b.readDefs n
  statistics : a.statistics = b.statistics
  replies : ∀ calls, (a.performAll calls).1 = (b.performAll calls).1

theorem definitions_congr_settings (r : ReachingDefinitions) (n : Nat) (region : Region) :
    (definitions ⟨g, s, some (.reaching r)⟩ n region).map Prod.fst =
      (definitions ⟨g, s', some (.reaching r)⟩ n region).map Prod.fst := by
  cases hn : g.contains n with
  | false => rw [definitions_of_missing_node rfl hn, definitions_of_missing_node rfl hn]
  | true =>
    cases hobj : g.contains region.object with
    | false =>
      rw [definitions_of_missing_object rfl hn hobj, definitions_of_missing_object rfl hn hobj]
    | true =>
      rw [definitions_reaching hn hobj, definitions_reaching hn hobj]
      rfl

theorem reply_congr_settings (r : ReachingDefinitions) (c : Call) :
    (perform ⟨g, s, some (.reaching r)⟩ c).1 = (perform ⟨g, s', some (.reaching r)⟩ c).1 := by
  cases c with
  | run =>
    have hrun : ∀ s, run ⟨g, s, some (.reaching r)⟩ = .error .alreadyRun :=
      fun _ => run_of_result rfl
    simp only [perform, hrun]
  | definitions n region =>
    rw [fst_perform_definitions, fst_perform_definitions]
    exact definitions_congr_settings r n region
  | readDefinitions n => rfl

/-- What an analysis with a solution tells does not depend on its settings. -/
theorem alike_of_solution (g : AccessGraph) (s s' : AnalysisSettings) (r : ReachingDefinitions) :
    Alike ⟨g, s, some (.reaching r)⟩ ⟨g, s', some (.reaching r)⟩ := by
  refine ⟨fun _ => rfl, definitions_congr_settings r, fun _ => rfl, fun _ => rfl, rfl, ?_⟩
  intro calls
  induction calls with
  | nil => rfl
  | cons c calls ih =>
    have hreply : (perform ⟨g, s, some (.reaching r)⟩ c).1 =
        (perform ⟨g, s', some (.reaching r)⟩ c).1 := reply_congr_settings r c
    simp only [performAll, perform_reaching, ih, hreply]

/-! ## Runs with a limit -/

theorem run_of_visits_le (hg : g.structuralError = none) (hs : s.validate = .ok ())
    (hssa : s.useSsa = false) (hlimit : s.maxIterations = some limit)
    (hr : ReachingDefinitions.compute g s.fieldInsensitive none = some r)
    (hle : r.visits ≤ limit) : (new g s).run = .ok ⟨g, s, some (.reaching r)⟩ := by
  refine run_of_compute hg hs hssa ?_
  rw [hlimit, ReachingDefinitions.compute_some_limit, hr, Option.filter_some]
  exact if_pos (decide_eq_true hle)

/-- With a limit a run succeeds exactly if it allows for the visits that are made without one. -/
theorem exists_run_iff_visits_le (hg : g.structuralError = none) (hs : s.validate = .ok ())
    (hssa : s.useSsa = false) (hlimit : s.maxIterations = some limit)
    (hr : ReachingDefinitions.compute g s.fieldInsensitive none = some r) :
    (∃ a, (new g s).run = .ok a) ↔ r.visits ≤ limit := by
  constructor
  · rintro ⟨a, ha⟩
    by_contra hlt
    have hunfit : Unfit g s (.iterationLimitExceeded limit) :=
      .limit hs hg hssa hlimit hr (Nat.lt_of_not_le hlt)
    rw [run_new_of_unfit hunfit] at ha
    simp at ha
  · intro hle
    exact ⟨_, run_of_visits_le hg hs hssa hlimit hr hle⟩

/-- An analysis that cannot be run refuses everything. -/
theorem Unfit.exists_error_of_mem {e : AnalysisError} (h : Unfit g s e) (calls : List Call) :
    ∀ reply ∈ ((new g s).performAll calls).1, ∃ e', reply = .error e' := by
  induction calls with
  | nil => simp [performAll]
  | cons c calls ih =>
    have hsame : ((new g s).perform c).2 = new g s := performAll_new_of_unfit h [c]
    simp only [performAll, hsame, List.mem_cons]
    rintro reply (rfl | hreply)
    · cases c with
      | run => exact ⟨e, perform_run_new_eq_error_iff.mpr h⟩
      | definitions n region => exact ⟨.notRun, rfl⟩
      | readDefinitions n => exact ⟨.notRun, rfl⟩
    · exact ih reply hreply

/-- For every accepted graph, a run by iteration with a limit in range succeeds exactly if the limit is
at least the number of visits that the run without a limit makes. If it succeeds, then all sets, all
answers and all figures are those of the run without a limit. If it fails, then for exceeding the
limit, and whatever calls follow, all of them are refused and there is nothing to be seen. An analysis
that keeps the sets of the failed run shows no more. -/
theorem limit_decides_success (hg : g.structuralError = none) (hssa : s.useSsa = false)
    (hpos : 1 ≤ limit) (hle : limit ≤ AnalysisSettings.iterationBound) :
    let free := new g (s.withLimit none)
    let limited := new g (s.withLimit (some limit))
    ∃ a visits reachable largest, free.run = .ok a ∧
      a.statistics = .reaching visits reachable largest ∧
      ((∃ b, limited.run = .ok b) ↔ visits ≤ limit) ∧
      (∀ b, limited.run = .ok b → Alike b a) ∧
      (limit < visits → limited.run = .error (.iterationLimitExceeded limit) ∧
        ∀ calls, (limited.performAll calls).2.Silent ∧
          ∀ reply ∈ (limited.performAll calls).1, ∃ e, reply = .error e) ∧
      InPlace.Agrees (.new g (s.withLimit (some limit))) limited := by
  intro free limited
  have hs := s.validate_withLimit hpos hle
  obtain ⟨r, hr⟩ := ReachingDefinitions.exists_compute g s.fieldInsensitive
  have hfree : free.run = .ok ⟨g, s.withLimit none, some (.reaching r)⟩ :=
    run_of_compute (s := s.withLimit none) hg (validate_of_no_limit rfl) hssa hr
  have hiff : (∃ b, limited.run = .ok b) ↔ r.visits ≤ limit :=
    exists_run_iff_visits_le hg hs hssa rfl hr
  refine ⟨_, r.visits, r.reachableCount, r.largest, hfree, rfl, hiff, ?same, ?refused,
    InPlace.agrees_new g hssa⟩
  case same =>
    intro b hb
    have hrun : limited.run = .ok ⟨g, s.withLimit (some limit), some (.reaching r)⟩ :=
      run_of_visits_le hg hs hssa rfl hr (hiff.mp ⟨b, hb⟩)
    obtain rfl := Except.ok.inj (hrun.symm.trans hb)
    exact alike_of_solution g _ _ r
  case refused =>
    intro hlt
    have hunfit : Unfit g (s.withLimit (some limit)) (.iterationLimitExceeded limit) :=
      .limit hs hg hssa rfl hr hlt
    refine ⟨run_new_of_unfit hunfit, fun calls => ⟨?_, hunfit.exists_error_of_mem calls⟩⟩
    have hsame : (limited.performAll calls).2 = limited := performAll_new_of_unfit hunfit calls
    rw [hsame]
    exact silent_new g _

/-- The graph with a loop takes eight visits: a limit of eight changes nothing, and with a limit of seven
nothing is answered. -/
theorem limit_decides_success_storeLoop :
    (∃ b, (new storeLoop ⟨false, false, some 8⟩).run = .ok b ∧
      b.statistics = .reaching 8 5 2) ∧
    ∀ calls, ∀ reply ∈ ((new storeLoop ⟨false, false, some 7⟩).performAll calls).1,
      ∃ e, reply = .error e := by
  have hfigures : ∀ a, (new storeLoop ⟨false, false, none⟩).run = .ok a →
      a.statistics = .reaching 8 5 2 := by
    intro a ha
    have hrun : (new storeLoop ⟨false, false, none⟩).run.map statistics =
      .ok (.reaching 8 5 2) := by decide +kernel
    rw [ha] at hrun
    exact Except.ok.inj hrun
  constructor
  · obtain ⟨a, visits, _, _, ha, hstatistics, hiff, hsame, -⟩ :=
      limit_decides_success (g := storeLoop) (s := ⟨false, false, none⟩) (by decide) rfl
        (show 1 ≤ 8 by decide) (by decide)
    rw [hfigures a ha] at hstatistics
    injection hstatistics with hvisits
    obtain ⟨b, hb⟩ := hiff.mpr (by omega)
    exact ⟨b, hb, (hsame b hb).statistics.trans (hfigures a ha)⟩
  · obtain ⟨a, visits, _, _, ha, hstatistics, -, -, hrefused, -⟩ :=
      limit_decides_success (g := storeLoop) (s := ⟨false, false, none⟩) (by decide) rfl
        (show 1 ≤ 7 by decide) (by decide)
    rw [hfigures a ha] at hstatistics
    injection hstatistics with hvisits
    obtain ⟨-, hcalls⟩ := hrefused (by omega)
    exact fun calls => (hcalls calls).2

end Analysis

end MemDep
