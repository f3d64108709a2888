import MemDep.Proofs.Analysis.Answers

/-!
# Larger and smaller questions

An analysis of either kind gives at least as many definitions of a larger region as of a smaller one.
A region whose range is not fully known stands for its whole object, and unknown memory for every
object.
-/

namespace MemDep

variable {g : AccessGraph} {t : Accesses}

theorem Region.Within.normalize {r q : Region} (h : r.Within q) (t : Accesses) :
    (t.normalize r).Within (t.normalize q) := by
  unfold Accesses.normalize Accesses.see
  split
  case isTrue => exact within_of_interval?_eq_none h.object rfl
  case isFalse => exact h

theorem Region.Within.mem_bytes {r q : Region} (h : r.Within q) {byte : Nat}
    (hbyte : byte ∈ r.bytes) : byte ∈ q.bytes := by
  rw [Analysis.mem_bytes_iff] at hbyte ⊢
  refine ⟨hbyte.1, ?_⟩
  intro j hj
  obtain ⟨i, hi, henc⟩ := h.encloses j hj
  exact Interval.mem_of_encloses henc (hbyte.2 i hi)

namespace Analysis

variable {s : AnalysisSettings} {a : Analysis} {n w : Nat} {region region' : Region}

/-! ## Larger regions -/

theorem GivenBySearch.within (h : GivenBySearch g t n region w) (hle : region.Within region') :
    GivenBySearch g t n region' w := by
  obtain ⟨b, stop, hplace, hfinds⟩ := h
  have hseen := hle.normalize t
  refine ⟨b, stop, hplace, ?_⟩
  rw [← hseen.object]
  split at hfinds
  case isTrue hobj => rwa [if_pos hobj]
  case isFalse hobj =>
    obtain ⟨byte, hbyte, hfinds⟩ := hfinds
    rw [if_neg hobj]
    exact ⟨byte, hseen.mem_bytes hbyte, hfinds⟩

theorem GivenByFact.within (h : GivenByFact g t n region w) (hle : region.Within region') :
    GivenByFact g t n region' w := by
  obtain ⟨f, hf, hnode, site, hsite, hover⟩ := h
  exact ⟨f, hf, hnode, site, hsite, (hle.normalize t).mayOverlap hover⟩

theorem Gives.within (h : Gives g s n region w) (hle : region.Within region') :
    Gives g s n region' w := by
  cases hssa : s.useSsa with
  | true =>
    rw [gives_of_useSsa hssa] at h ⊢
    exact h.within hle
  | false =>
    rw [gives_of_not_useSsa hssa] at h ⊢
    exact h.within hle

/-! ## Unknown memory -/

/-- A write that is found for some object is found when unknown memory is searched for, among the
writes of its own object. -/
theorem GivenBySearch.of_unknown (hsym : g.Symmetric) (h : GivenBySearch g t n region w)
    (hobj : region'.object = unknownMemory) : GivenBySearch g t n region' w := by
  unfold GivenBySearch at h ⊢
  rw [Scope.findsRegion_iff_walk hsym, Accesses.object_normalize] at h ⊢
  obtain ⟨hreached, h⟩ := h
  refine ⟨hreached, ?_⟩
  rw [if_pos hobj]
  split at h
  case isTrue => exact h
  case isFalse =>
    obtain ⟨byte, hbyte, ⟨write, hwrite, htouches⟩, hwalk⟩ := h
    have hfull : byte ∈ ByteSet.full := ByteSet.mem_full.mpr (mem_bytes_iff.mp hbyte).1
    have hwritten := Accesses.mem_writtenObjects.mpr ⟨w, write, hwrite, rfl⟩
    rcases htouches with hunknown | ⟨hsame, hbytes⟩
    · have hnone : ∀ m, ¬ t.Hides write.region.object byte m := fun m hm => hm.1 hunknown
      exact ⟨_, hwritten, byte, hfull, ⟨write, hwrite, .inl hunknown⟩, hwalk.mono fun m _ => hnone m⟩
    · rw [← hsame] at hwalk
      exact ⟨_, hwritten, byte, hfull, ⟨write, hwrite, .inr ⟨rfl, hbytes⟩⟩, hwalk⟩

theorem GivenByFact.of_unknown (h : GivenByFact g t n region w)
    (hobj : region'.object = unknownMemory) : GivenByFact g t n region' w := by
  obtain ⟨f, hf, hnode, site, hsite, _⟩ := h
  have hseen : (t.normalize region').object = unknownMemory := by
    rw [Accesses.object_normalize, hobj]
  exact ⟨f, hf, hnode, site, hsite, Region.mayOverlap_of_unknownMemory hseen⟩

theorem Gives.of_unknown (hsym : g.Symmetric) (h : Gives g s n region w)
    (hobj : region'.object = unknownMemory) : Gives g s n region' w := by
  cases hssa : s.useSsa with
  | true =>
    rw [gives_of_useSsa hssa] at h ⊢
    exact h.of_unknown hsym hobj
  | false =>
    rw [gives_of_not_useSsa hssa] at h ⊢
    exact h.of_unknown hobj

/-- After a run that succeeds on a graph without asymmetric edges, an analysis of either kind answers
by a function of the node and the region, whatever it was asked before. The answers grow with the
region. A region whose range is not fully known has the answer of its whole object, which contains
the answers for all regions of the object; and the answer for unknown memory contains all answers. -/
theorem definitions_mono (hedges : g.asymmetricEdges = []) (hrun : (new g s).run = .ok a) :
    a.graph = g ∧ g.contains unknownMemory = true ∧ ∃ answer, a.Answers answer ∧ ∀ n,
      (∀ region region' : Region, region.object = region'.object →
        region'.range.covers region.range = true → answer n region ⊆ answer n region') ∧
      (∀ region : Region, region.range.offset = .unknown ∨ region.range.length = .unknown ∨
          Offset.limit ≤ region.range.offset.code + region.range.length.code →
        answer n region = answer n (.whole region.object)) ∧
      (∀ region : Region, answer n region ⊆ answer n (.whole region.object)) ∧
      ∀ region region' : Region, region'.object = unknownMemory →
        answer n region ⊆ answer n region' := by
  obtain ⟨_, hg, _⟩ := of_run_eq_ok hrun
  have hwf := AccessGraph.wellFormed_of_structuralError hg
  have hsym := hwf.symmetric hedges
  obtain ⟨answer, hanswers, hanswer⟩ := exists_answers hedges hrun
  have hmem : ∀ n region w, w ∈ answer n region ↔ Gives g s n region w :=
    fun n region w => (hanswer n region).2 w
  have hwithin : ∀ n (region region' : Region), region.Within region' →
      answer n region ⊆ answer n region' := by
    intro n region region' hle w hw
    rw [hmem] at hw ⊢
    exact hw.within hle
  have hwhole : ∀ region : Region, region.Within (.whole region.object) :=
    fun region => Region.within_of_interval?_eq_none rfl rfl
  refine ⟨graph_of_run hrun, by simpa [AccessGraph.contains] using hwf.unknownMemory_lt, answer,
    hanswers, fun n => ⟨?covers, ?unknownRange, fun region => hwithin n _ _ (hwhole region), ?unknownMemory⟩⟩
  case covers =>
    intro region region' hobj hcovers
    exact hwithin n _ _ (Region.within_of_covers hobj hcovers)
  case unknownRange =>
    intro region hrange
    have hnone : region.interval? = none := ByteRange.interval?_eq_none_iff.mpr hrange
    have hback : (Region.whole region.object).Within region :=
      Region.within_of_interval?_eq_none rfl hnone
    refine Ascending.eq_of_mem_iff (hanswer n _).1 (hanswer n _).1 fun w => ⟨?_, ?_⟩
    · exact fun hw => hwithin n _ _ (hwhole region) hw
    · exact fun hw => hwithin n _ _ hback hw
  case unknownMemory =>
    intro region region' hobj w hw
    rw [hmem] at hw ⊢
    exact hw.of_unknown hsym hobj

/-- At the load after the loop, two bytes, then four bytes, and then a byte of unknown memory are asked
for. -/
theorem definitions_mono_storeLoop : ∃ a, (new storeLoop (.ofPreset .fast)).run = .ok a ∧
    ∃ two four unknown a' b' c', a.definitions 5 (firstBytes 1 2) = .ok (two, a') ∧
      (a.performAll [.definitions 5 (firstBytes 1 2)]).2.definitions 5 (firstBytes 1 4) =
        .ok (four, b') ∧
      (a.performAll [.readDefinitions 5]).2.definitions 5 (firstBytes unknownMemory 1) =
        .ok (unknown, c') ∧
      two ⊆ four ∧ four ⊆ unknown := by
  obtain ⟨a, ha⟩ := exists_run (g := storeLoop) (s := .ofPreset .fast) (by decide) rfl
  obtain ⟨hgraph, _, answer, hanswers, hmono⟩ := definitions_mono (by decide) ha
  obtain ⟨hcovers, _, _, hunknown⟩ := hmono 5
  have hasked : ∀ calls object count, storeLoop.contains object = true → ∃ a',
      (a.performAll calls).2.definitions 5 (firstBytes object count) =
        .ok (answer 5 (firstBytes object count), a') :=
    fun calls object count hobj =>
      hanswers calls 5 (firstBytes object count) (by rw [hgraph]; decide) (by rwa [hgraph])
  obtain ⟨a', ha'⟩ := hasked [] 1 2 (by decide)
  obtain ⟨b', hb'⟩ := hasked [.definitions 5 (firstBytes 1 2)] 1 4 (by decide)
  obtain ⟨c', hc'⟩ := hasked [.readDefinitions 5] unknownMemory 1 (by decide)
  exact ⟨a, ha, _, _, _, a', b', c', ha', hb', hc', hcovers _ _ rfl (by decide), hunknown _ _ rfl⟩

end Analysis

end MemDep
