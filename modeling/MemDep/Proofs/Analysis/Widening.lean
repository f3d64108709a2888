import MemDep.Proofs.Analysis.Answers

/-!
# Ignoring byte ranges

When byte ranges are ignored, no write hides another one. The definitions of a region are then the
nodes from which control may flow there and that have a write to memory that may be the object asked
about, whichever kind of analysis is run. With byte ranges there are never more definitions.
-/

namespace MemDep

variable {g : AccessGraph}

/-! ## Writes without ranges -/

theorem Accesses.mayAlias_normalize (t : Accesses) {fieldInsensitive : Bool} (r q : Region) :
    (see fieldInsensitive r).mayAlias (t.normalize q) = r.mayAlias q := by
  simp only [Region.mayAlias, object_see, object_normalize]

/-- When byte ranges are ignored, no write is to known bytes. -/
theorem Accesses.interval?_of_mem_writes {n : Nat} {write : Write}
    (h : write ∈ (ofGraph g true).writes n) : write.region.interval? = none := by
  obtain ⟨w, _, rfl⟩ := mem_writes_ofGraph.mp h
  rfl

theorem Accesses.not_covers_of_mem_writes {n : Nat} {write : Write}
    (h : write ∈ (ofGraph g true).writes n) (site : Region) :
    write.region.covers site = false := by
  have hrange := interval?_of_mem_writes h
  unfold Region.interval? at hrange
  simp [Region.covers, ByteRange.covers, hrange]

theorem Accesses.not_hides (object byte n : Nat) : ¬ (ofGraph g true).Hides object byte n := by
  rintro ⟨_, write, hwrite, _, _, i, hi, _⟩
  rw [interval?_of_mem_writes hwrite] at hi
  exact absurd hi (by simp)

/-! ## Definitions -/

/-- A node that the root leads to has a write to memory that may be the object of a region, and a walk
leads from it to another node. -/
def AccessGraph.MayDefine (g : AccessGraph) (n : Nat) (region : Region) (w : Nat) : Prop :=
  g.FromRoot w ∧ g.Walk (fun _ => True) w n ∧
    ∃ write ∈ g.writes w, write.region.mayAlias region = true

namespace Analysis

variable {s : AnalysisSettings} {n w : Nat} {region : Region}

theorem mayDefine_of_givenByFact {fieldInsensitive : Bool}
    (h : GivenByFact g (.ofGraph g fieldInsensitive) n region w) : g.MayDefine n region w := by
  obtain ⟨f, ⟨hroot, _, _, hwalk⟩, rfl, site, hsite, hover⟩ := h
  obtain ⟨write, hwrite, rfl⟩ := Accesses.mem_writes_ofGraph.mp (List.mem_of_getElem? hsite)
  have halias := Region.mayAlias_of_mayOverlap hover
  rw [Accesses.mayAlias_normalize] at halias
  exact ⟨hroot, hwalk.mono fun _ _ => trivial, write, hwrite, halias⟩

/-- A write to memory that may be the object of a region, as an analysis sees it. -/
theorem exists_seen_of_mayDefine (h : g.MayDefine n region w) :
    ∃ site ∈ (Accesses.ofGraph g true).writes w,
      site.region.mayAlias ((Accesses.ofGraph g true).normalize region) = true := by
  obtain ⟨_, _, write, hwrite, halias⟩ := h
  refine ⟨_, Accesses.mem_writes_ofGraph.mpr ⟨write, hwrite, rfl⟩, ?_⟩
  rw [Accesses.mayAlias_normalize]
  exact halias

theorem givenByFact_of_mayDefine (h : g.MayDefine n region w) :
    GivenByFact g (.ofGraph g true) n region w := by
  obtain ⟨site, hmem, halias⟩ := exists_seen_of_mayDefine h
  obtain ⟨i, hi⟩ := List.mem_iff_getElem?.mp hmem
  obtain ⟨hroot, hwalk, _⟩ := h
  have hwalk' : g.Walk (fun m => ¬ ∃ write ∈ (Accesses.ofGraph g true).writes m,
      write.strong = true ∧ write.region.covers site.region = true) w n := by
    refine hwalk.mono fun m _ => ?_
    rintro ⟨write, hwrite, _, hcovers⟩
    rw [Accesses.not_covers_of_mem_writes hwrite] at hcovers
    exact Bool.false_ne_true hcovers
  have hover := Region.mayOverlap_of_mayAlias halias (Accesses.interval?_of_mem_writes hmem)
  exact ⟨⟨w, i⟩, ⟨hroot, site, hi, hwalk'⟩, rfl, site, hi, hover⟩

theorem givenBySearch_of_mayDefine (hg : g.WellFormed) (hsym : g.Symmetric)
    (h : g.MayDefine n region w) : GivenBySearch g (.ofGraph g true) n region w := by
  obtain ⟨site, hmem, halias⟩ := exists_seen_of_mayDefine h
  obtain ⟨hroot, hwalk, _⟩ := h
  have hrange := Accesses.interval?_of_mem_writes hmem
  have htouches : ∀ {object}, site.region.object = unknownMemory ∨ site.region.object = object →
      site.Touches object 0 := by
    rintro object (hobj | hobj)
    · exact .inl hobj
    · exact .inr ⟨hobj, by simp [hrange]⟩
  have hwalk' : ∀ object, g.Walk (fun m => ¬ (Accesses.ofGraph g true).Hides object 0 m) w n :=
    fun object => hwalk.mono fun m _ => Accesses.not_hides object 0 m
  have hfull : 0 ∈ ByteSet.full := ByteSet.mem_full.mpr (by decide)
  unfold GivenBySearch
  rw [Scope.findsRegion_iff_walk hsym, hg.reached_iff_fromRoot]
  refine ⟨hroot, ?_⟩
  split
  case isTrue hobj =>
    have hwritten := Accesses.mem_writtenObjects.mpr ⟨w, site, hmem, rfl⟩
    exact ⟨_, hwritten, 0, hfull, ⟨site, hmem, htouches (.inr rfl)⟩, hwalk' _⟩
  case isFalse hobj =>
    rw [Region.mayAlias_iff] at halias
    have hsite : site.region.object = unknownMemory ∨
        site.region.object = ((Accesses.ofGraph g true).normalize region).object := by tauto
    exact ⟨0, hfull, ⟨site, hmem, htouches hsite⟩, hwalk' _⟩

theorem gives_iff_mayDefine (hg : g.WellFormed) (hsym : g.Symmetric) (hs : s.fieldInsensitive = true) :
    Gives g s n region w ↔ g.MayDefine n region w := by
  constructor
  · intro h
    exact mayDefine_of_givenByFact (h.givenByFact hg hsym)
  · intro h
    cases hssa : s.useSsa with
    | true => rw [gives_of_useSsa hssa, hs]; exact givenBySearch_of_mayDefine hg hsym h
    | false => rw [gives_of_not_useSsa hssa, hs]; exact givenByFact_of_mayDefine h

/-- Analyses of either kind run on every accepted graph, if nothing limits them. If there are no
asymmetric edges, then there are ascending lists that hold, for each node and region, the nodes from
which a walk leads there and that have a write to memory that may be the object of the region, strong
or not. After any calls, an analysis of either kind that ignores byte ranges answers with these
lists, and one that does not with parts of them. -/
theorem definitions_eq_of_fieldInsensitive (hg : g.structuralError = none)
    (hedges : g.asymmetricEdges = []) :
    (∀ s : AnalysisSettings, s.maxIterations = none → ∃ a, (new g s).run = .ok a) ∧
    ∃ wide : Nat → Region → List Nat,
      (∀ n region, Ascending.Sorted (wide n region) ∧
        ∀ w, w ∈ wide n region ↔ g.FromRoot w ∧ g.Walk (fun _ => True) w n ∧
          ∃ write ∈ g.writes w, write.region.mayAlias region = true) ∧
      ∀ s a, (new g s).run = .ok a →
        (s.fieldInsensitive = true → a.Answers wide) ∧
        ∃ answer, a.Answers answer ∧ ∀ n region, answer n region ⊆ wide n region := by
  have hwf := AccessGraph.wellFormed_of_structuralError hg
  have hsym := hwf.symmetric hedges
  refine ⟨fun s hs => exists_run hg hs, ?_⟩
  obtain ⟨b, hb⟩ := exists_run (s := ⟨false, true, none⟩) hg rfl
  obtain ⟨wide, _, hwide⟩ := exists_answers hedges hb
  have hmem : ∀ n region w, w ∈ wide n region ↔ g.MayDefine n region w := by
    intro n region w
    rw [(hwide n region).2, gives_iff_mayDefine hwf hsym rfl]
  refine ⟨wide, fun n region => ⟨(hwide n region).1, hmem n region⟩, ?_⟩
  intro s a ha
  obtain ⟨answer, hanswers, hanswer⟩ := exists_answers hedges ha
  constructor
  · intro hs
    have hsame : answer = wide := by
      funext n region
      refine Ascending.eq_of_mem_iff (hanswer n region).1 (hwide n region).1 ?_
      intro w
      rw [(hanswer n region).2, hmem, gives_iff_mayDefine hwf hsym hs]
    exact hsame ▸ hanswers
  · refine ⟨answer, hanswers, ?_⟩
    intro n region w hw
    have hgives := ((hanswer n region).2 w).mp hw
    exact (hmem n region w).mpr (mayDefine_of_givenByFact (hgives.givenByFact hwf hsym))

/-- Both kinds of analysis are asked about no byte at all of the object that the loop writes. -/
theorem definitions_eq_of_fieldInsensitive_storeLoop : ∃ a b,
    (new storeLoop ⟨true, true, none⟩).run = .ok a ∧
      (new storeLoop ⟨false, true, none⟩).run = .ok b ∧
      ∃ nodes a' b', a.definitions 5 (firstBytes 1 0) = .ok (nodes, a') ∧
        b.definitions 5 (firstBytes 1 0) = .ok (nodes, b') ∧ 2 ∈ nodes ∧ 5 ∉ nodes := by
  obtain ⟨hruns, wide, hwide, hanswers⟩ :=
    definitions_eq_of_fieldInsensitive (g := storeLoop) (by decide) (by decide)
  obtain ⟨a, ha⟩ := hruns ⟨true, true, none⟩ rfl
  obtain ⟨b, hb⟩ := hruns ⟨false, true, none⟩ rfl
  have hgraph := graph_of_run ha
  have hgraph' := graph_of_run hb
  obtain ⟨a', ha'⟩ := (hanswers _ a ha).1 rfl [] 5 (firstBytes 1 0) (by rw [hgraph]; decide)
    (by rw [hgraph]; decide)
  obtain ⟨b', hb'⟩ := (hanswers _ b hb).1 rfl [] 5 (firstBytes 1 0) (by rw [hgraph']; decide)
    (by rw [hgraph']; decide)
  obtain ⟨_, hmem⟩ := hwide 5 (firstBytes 1 0)
  refine ⟨a, b, ha, hb, wide 5 (firstBytes 1 0), a', b', ha', hb', ?_, ?_⟩
  · have hwalk : storeLoop.Walk (fun _ => True) 2 5 :=
      .step (.edge (b := 3) (by decide)) trivial (by decide)
    have hwrite : ⟨firstBytes 1 4, true⟩ ∈ storeLoop.writes 2 := by decide
    exact (hmem 2).mpr ⟨⟨1, rfl, .single (by decide)⟩, hwalk, _, hwrite, by decide⟩
  · intro h5
    obtain ⟨_, _, write, hwrite, _⟩ := (hmem 5).mp h5
    have hnone : storeLoop.writes 5 = [] := by decide
    rw [hnone] at hwrite
    exact List.not_mem_nil hwrite

end Analysis

end MemDep
