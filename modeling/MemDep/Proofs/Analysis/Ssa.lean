import MemDep.Proofs.AccessGraph.Accesses
import MemDep.Proofs.Analysis.Basic
import MemDep.Proofs.Ssa.Paths

/-!
# Analyses in static single assignment form

The states of an analysis that has been run in static single assignment form: whatever calls it has
performed, its answers are exact for every byte of every object.
-/

namespace MemDep

namespace Analysis

variable {g : AccessGraph} {s : AnalysisSettings}

/-! ## Runs and calls -/

/-- The analysis of a graph was run and is in static single assignment form. -/
structure SsaOf (g : AccessGraph) (s : AnalysisSettings) (a : Analysis) (m : MemorySsa) : Prop where
  eq : a = ⟨g, s, some (.ssa m)⟩
  sound : m.Sound
  of : m.Of g s.fieldInsensitive

theorem run_of_useSsa (hg : g.structuralError = none) (hs : s.validate = .ok ())
    (hssa : s.useSsa = true) :
    (new g s).run = .ok ⟨g, s, some (.ssa (.compute g s.fieldInsensitive))⟩ := by
  rw [run_new hg hs]
  simp [compute, new, hssa, Except.map]

theorem ssaOf_run (g : AccessGraph) (s : AnalysisSettings) :
    SsaOf g s ⟨g, s, some (.ssa (.compute g s.fieldInsensitive))⟩
      (.compute g s.fieldInsensitive) :=
  ⟨rfl, MemorySsa.sound_compute g _, MemorySsa.of_compute g _⟩

theorem SsaOf.result {a : Analysis} {m : MemorySsa} (h : SsaOf g s a m) :
    a.result? = some (.ssa m) := by rw [h.eq]

theorem SsaOf.graph_eq {a : Analysis} {m : MemorySsa} (h : SsaOf g s a m) : a.graph = g := by
  rw [h.eq]

theorem SsaOf.definitions_eq {a : Analysis} {m : MemorySsa} (h : SsaOf g s a m) {n : Nat}
    {region : Region} (hn : g.contains n = true) (hr : g.contains region.object = true) :
    a.definitions n region = .ok ((m.definitions n region).1,
      ⟨g, s, some (.ssa (m.definitions n region).2)⟩) := by
  rw [h.eq]
  exact definitions_ssa hn hr

theorem SsaOf.readDefinitions_eq {a : Analysis} {m : MemorySsa} (h : SsaOf g s a m) {n : Nat}
    (hn : g.contains n = true) : a.readDefinitions n = .ok (m.readDefinitions n) := by
  rw [h.eq]
  exact readDefinitions_ssa hn

/-- A call changes at most the phis, and does so as a question for the definitions of a region. -/
theorem SsaOf.perform {a : Analysis} {m : MemorySsa} (h : SsaOf g s a m) (c : Call) :
    ∃ m', SsaOf g s (a.perform c).2 m' ∧
      (m' = m ∨ ∃ n region, c = .definitions n region ∧ m' = (m.definitions n region).2) := by
  cases c with
  | run =>
    refine ⟨m, ?_, .inl rfl⟩
    simp only [Analysis.perform, run_of_result h.result]
    exact h
  | definitions n region =>
    rcases definitions_cases a (.ssa m) h.result n region with ⟨e, he⟩ | ⟨hn, hr⟩
    · refine ⟨m, ?_, .inl rfl⟩
      simp only [Analysis.perform, he]
      exact h
    · rw [h.graph_eq] at hn hr
      refine ⟨(m.definitions n region).2, ?_, .inr ⟨n, region, rfl, rfl⟩⟩
      simp only [Analysis.perform, h.definitions_eq hn hr]
      exact ⟨rfl, h.sound.definitions n region, h.of.definitions n region⟩
  | readDefinitions n => exact ⟨m, h, .inl rfl⟩

/-- Calls keep what questions for the definitions of regions keep. -/
theorem SsaOf.performAll_keeps {keeps : MemorySsa → Prop}
    (hstep : ∀ m n region, m.Sound → keeps m → keeps (m.definitions n region).2) {a : Analysis}
    {m : MemorySsa} (h : SsaOf g s a m) (hm : keeps m) (calls : List Call) :
    ∃ m', SsaOf g s (a.performAll calls).2 m' ∧ keeps m' := by
  induction calls generalizing a m with
  | nil => exact ⟨m, h, hm⟩
  | cons c calls ih =>
    obtain ⟨m', h', hm'⟩ := h.perform c
    refine ih h' ?_
    rcases hm' with rfl | ⟨n, region, _, rfl⟩
    · exact hm
    · exact hstep m n region h.sound hm

theorem SsaOf.performAll {a : Analysis} {m : MemorySsa} (h : SsaOf g s a m) (calls : List Call) :
    ∃ m', SsaOf g s (a.performAll calls).2 m' := by
  obtain ⟨m', h', -⟩ := h.performAll_keeps (fun _ _ _ _ (_ : True) => trivial) trivial calls
  exact ⟨m', h'⟩

/-! ## Exact answers -/

theorem mem_bytes_iff {region : Region} {byte : Nat} : byte ∈ region.bytes ↔
    byte < Offset.limit ∧ ∀ i, region.interval? = some i → byte ∈ i := by
  unfold Region.bytes
  split
  case h_1 i hi =>
    rw [ByteSet.mem_ofInterval]
    constructor
    · intro hbyte
      refine ⟨Nat.lt_trans hbyte.2 (ByteRange.stop_lt_of_interval? hi), ?_⟩
      intro j hj
      rwa [← Option.some.inj (hi.symm.trans hj)]
    · intro h
      exact h.2 i hi
  case h_2 hnone => simp [ByteSet.mem_full, hnone]

/-- For an object that is not unknown memory, a search for a region goes by the bytes of it. -/
theorem findsRegion_iff_of_ne (hg : g.WellFormed) (hsym : g.Symmetric) {t : Accesses}
    {objects : List Nat} {n w : Nat} {region : Region} (hobj : region.object ≠ unknownMemory) :
    Scope.FindsRegion ⟨t, .ofGraph g⟩ objects n region w ↔ g.FromRoot w ∧
      ∃ byte < Offset.limit, (∀ i, (t.normalize region).interval? = some i → byte ∈ i) ∧
        (∃ write ∈ t.writes w, write.Touches region.object byte) ∧
        g.Walk (fun m => ¬ ∃ write ∈ t.writes m, write.Overwrites region.object byte) w n := by
  rw [Scope.findsRegion_iff_walk hsym, Accesses.object_normalize, if_neg hobj, hg.reached_iff_fromRoot]
  simp only [Accesses.Hides, Accesses.Defines, ne_eq, hobj, not_false_eq_true, true_and,
    mem_bytes_iff, and_assoc]

theorem SsaOf.mem_definitions {a : Analysis} {m : MemorySsa} (h : SsaOf g s a m) {n w : Nat}
    {region : Region} : w ∈ (m.definitions n region).1 ↔
      Scope.FindsRegion ⟨.ofGraph g s.fieldInsensitive, .ofGraph g⟩
        (Accesses.ofGraph g s.fieldInsensitive).writtenObjects n region w := by
  rw [h.sound.mem_definitions, h.of.scope, h.of.objects]

/-- The definitions of a region of an object are exactly the nodes that the root leads to and that,
for some byte of the region, may touch the byte and have a walk to the node that is asked about past
nodes without a strong write of known bytes that include it. This holds after any calls. -/
theorem ssa_definitions_exact (hg : g.structuralError = none) (hedges : g.asymmetricEdges = [])
    (hs : s.validate = .ok ()) (hssa : s.useSsa = true) :
    let t := Accesses.ofGraph g s.fieldInsensitive
    ∃ a, (new g s).run = .ok a ∧ ∀ (calls : List Call) (n : Nat) (region : Region),
      g.contains n = true → g.contains region.object = true → region.object ≠ unknownMemory →
        ∃ nodes a', (a.performAll calls).2.definitions n region = .ok (nodes, a') ∧
          Ascending.Sorted nodes ∧ ∀ w, w ∈ nodes ↔ g.FromRoot w ∧
            ∃ byte < Offset.limit, (∀ i, (t.normalize region).interval? = some i → byte ∈ i) ∧
              (∃ write ∈ t.writes w, write.Touches region.object byte) ∧
              g.Walk (fun m => ¬ ∃ write ∈ t.writes m, write.Overwrites region.object byte) w n := by
  intro t
  have hwf := AccessGraph.wellFormed_of_structuralError hg
  have hsym := hwf.symmetric hedges
  refine ⟨_, run_of_useSsa hg hs hssa, ?_⟩
  intro calls n region hn hr hobj
  obtain ⟨m, hm⟩ := (ssaOf_run g s).performAll calls
  refine ⟨_, _, hm.definitions_eq hn hr, m.sorted_definitions n region, ?_⟩
  intro w
  rw [hm.mem_definitions, findsRegion_iff_of_ne hwf hsym hobj]

/-- The load after the loop reads the last two bytes from the store before the loop, and nothing
from itself. -/
theorem ssa_definitions_exact_storeLoop : ∃ a, (new storeLoop (.ofPreset .fast)).run = .ok a ∧
    ∃ nodes a', a.definitions 5 (firstBytes 1 4) = .ok (nodes, a') ∧ 2 ∈ nodes ∧ 5 ∉ nodes := by
  obtain ⟨hw2, hw3, hw5⟩ := writes_storeLoop
  obtain ⟨a, ha, h⟩ := ssa_definitions_exact (g := storeLoop) (s := .ofPreset .fast) (by decide)
    (by decide) (by decide) rfl
  obtain ⟨nodes, a', hd, _, hmem⟩ := h [] 5 (firstBytes 1 4) (by decide) (by decide) (by decide)
  have hbytes : ∀ i, (firstBytes 1 4).interval? = some i → 2 ∈ i := by
    intro i hi
    obtain rfl : (⟨0, 4⟩ : Interval) = i := Option.some.inj hi
    decide
  refine ⟨a, ha, nodes, a', hd, (hmem 2).mpr ⟨⟨1, rfl, .single (by decide)⟩, 2, by decide, hbytes,
    ?_, ?_⟩, ?_⟩
  · exact ⟨⟨firstBytes 1 4, true⟩, hw2 ▸ List.mem_singleton_self _, .inr ⟨rfl, hbytes⟩⟩
  · refine .step (.edge (b := 3) (by decide)) ?_ (by decide)
    rintro ⟨write, hw, _⟩
    exact List.not_mem_nil (hw3 ▸ hw)
  · intro hnodes
    obtain ⟨_, _, _, _, ⟨write, hw, _⟩, _⟩ := (hmem 5).mp hnodes
    exact List.not_mem_nil (hw5 ▸ hw)

end Analysis

end MemDep
