import MemDep.Proofs.Analysis.Compare

/-!
# Graphs without partial overlap

The answers by iteration can be larger than those in static single assignment form only because some
write overlaps another one partially, or because its bytes or its object are not known. If every two
writes are to the same bytes or to different ones, then a write that hides one byte of another write
covers that write. A walk past nodes that do not hide the fact of a write is then one past nodes that
do not hide any of its bytes, and the two analyses give the same definitions.
-/

namespace MemDep

/-- The regions that the nodes of a graph write. -/
def AccessGraph.writtenRegions (g : AccessGraph) : List Region :=
  g.nodes.toList.flatMap fun node => node.writes.map (·.region)

/-- All writes are to known bytes of known objects, and no write overlaps another one partially. -/
structure AccessGraph.WritesApart (g : AccessGraph) : Prop where
  object_ne : ∀ r ∈ g.writtenRegions, r.object ≠ unknownMemory
  known : ∀ r ∈ g.writtenRegions, ∃ i, r.interval? = some i ∧ i.Nonempty
  apart : ∀ r ∈ g.writtenRegions, ∀ r' ∈ g.writtenRegions, r.object = r'.object →
    ∀ i i', r.interval? = some i → r'.interval? = some i' → i = i' ∨ ∀ byte ∈ i, byte ∉ i'

variable {g : AccessGraph}

theorem Accesses.region_mem_writtenRegions {n : Nat} {write : Write}
    (h : write ∈ (ofGraph g false).writes n) : write.region ∈ g.writtenRegions := by
  rw [writes_ofGraph] at h
  obtain ⟨w, hw, rfl⟩ := List.mem_map.mp h
  cases hn : g.node? n with
  | none =>
    rw [hn] at hw
    exact absurd hw List.not_mem_nil
  | some node =>
    rw [hn] at hw
    have hnode : node ∈ g.nodes.toList := Array.mem_toList_iff.mpr (Array.mem_of_getElem? hn)
    exact List.mem_flatMap.mpr ⟨node, hnode, List.mem_map.mpr ⟨w, hw, rfl⟩⟩

/-! ## Bytes of writes and queries -/

/-- A write that overwrites a byte that another write may touch covers the other write. -/
theorem AccessGraph.WritesApart.covers_of_overwrites (h : g.WritesApart) {write site : Write}
    (hwrite : write.region ∈ g.writtenRegions) (hsite : site.region ∈ g.writtenRegions)
    {object byte : Nat} (htouches : site.Touches object byte) (hover : write.Overwrites object byte) :
    write.strong = true ∧ write.region.covers site.region = true := by
  obtain ⟨hstrong, hobj, i, hi, hbi⟩ := hover
  obtain ⟨j, hj, -⟩ := h.known _ hsite
  have hne := h.object_ne _ hsite
  obtain ⟨hobj', hbyte⟩ := htouches.resolve_left hne
  have hsame : write.region.object = site.region.object := hobj.trans hobj'.symm
  have hij : i = j := by
    rcases h.apart _ hwrite _ hsite hsame i j hi hj with heq | hdisjoint
    · exact heq
    · exact absurd (hbyte j hj) (hdisjoint byte hbi)
  refine ⟨hstrong, ?_⟩
  unfold Region.covers ByteRange.covers
  simp only [Region.interval?] at hi hj
  rw [hi, hj, hij]
  simp [hsame, hne, Interval.encloses]

/-- A write and a query of one object that may overlap share a byte, if neither is empty. -/
theorem Region.exists_shared_byte {site query : Region} {j : Interval}
    (hover : site.range.mayOverlap query.range = true) (hj : site.interval? = some j)
    (hpos : j.Nonempty) (hquery : ∀ i, query.interval? = some i → i.Nonempty) :
    ∃ byte ∈ query.bytes, byte ∈ j := by
  have hbelow : j.stop < Offset.limit := ByteRange.stop_lt_of_interval? hj
  cases hi : query.interval? with
  | none =>
    refine ⟨j.start, Analysis.mem_bytes_iff.mpr ⟨Nat.lt_trans hpos hbelow, ?_⟩, Nat.le_refl _, hpos⟩
    intro i hi'
    rw [hi] at hi'
    exact absurd hi' (by simp)
  | some i =>
    have hcross : j.crosses i = true := by
      unfold ByteRange.mayOverlap at hover
      simp only [Region.interval?] at hi hj
      rw [hj, hi] at hover
      exact hover
    obtain ⟨byte, hbj, hbi⟩ := (Interval.crosses_iff hpos (hquery i hi)).mp hcross
    refine ⟨byte, Analysis.mem_bytes_iff.mpr ⟨Nat.lt_trans hbj.2 hbelow, ?_⟩, hbj⟩
    intro i' hi'
    rw [← Option.some.inj (hi.symm.trans hi')]
    exact hbi

/-- If the fact of a write enters a node, then a walk leads there past nodes that do not hide a byte of
the write. -/
theorem AccessGraph.WritesApart.walk_of_factEnters (h : g.WritesApart) {f : Fact} {n : Nat}
    (hf : g.FactEnters (.ofGraph g false) f n) {site : Write}
    (hsite : ((Accesses.ofGraph g false).writes f.node)[f.write]? = some site) {object byte : Nat}
    (htouches : site.Touches object byte) :
    g.Walk (fun m => ¬ (Accesses.ofGraph g false).Hides object byte m) f.node n := by
  obtain ⟨_, site', hsite', hwalk⟩ := hf
  obtain rfl : site' = site := Option.some.inj (hsite'.symm.trans hsite)
  refine hwalk.mono ?_
  rintro m hm ⟨-, write, hwrite, hover⟩
  have hregion := Accesses.region_mem_writtenRegions hwrite
  have hregion' := Accesses.region_mem_writtenRegions (List.mem_of_getElem? hsite)
  exact hm ⟨write, hwrite, h.covers_of_overwrites hregion hregion' htouches hover⟩

/-- A fact that enters a node and may overlap a region that is not empty is found by a search for that
region. -/
theorem AccessGraph.WritesApart.findsRegion_of_factEnters (h : g.WritesApart) (hg : g.WellFormed)
    (hsym : g.Symmetric) {f : Fact} {n : Nat} (hf : g.FactEnters (.ofGraph g false) f n)
    {site : Write} (hsite : ((Accesses.ofGraph g false).writes f.node)[f.write]? = some site)
    {region : Region} (hover : site.region.mayOverlap region = true)
    (hquery : ∀ i, region.interval? = some i → i.Nonempty) :
    Scope.FindsRegion ⟨.ofGraph g false, .ofGraph g⟩ (Accesses.ofGraph g false).writtenObjects n
      region f.node := by
  have hmem := List.mem_of_getElem? hsite
  have hregion := Accesses.region_mem_writtenRegions hmem
  have hne := h.object_ne _ hregion
  obtain ⟨j, hj, hpos⟩ := h.known _ hregion
  have htouches : ∀ byte ∈ j, site.Touches site.region.object byte := by
    intro byte hbyte
    refine .inr ⟨rfl, ?_⟩
    intro i hi
    rwa [← Option.some.inj (hj.symm.trans hi)]
  rw [Scope.findsRegion_iff_walk hsym]
  refine ⟨hg.reached_iff_fromRoot.mpr hf.1, ?_⟩
  have hseen : (Accesses.ofGraph g false).normalize region = region := rfl
  rw [hseen]
  by_cases hobj : region.object = unknownMemory
  · rw [if_pos hobj]
    have hbyte : j.start ∈ j := ⟨Nat.le_refl _, hpos⟩
    have hfull : j.start ∈ ByteSet.full :=
      ByteSet.mem_full.mpr (Nat.lt_trans hpos (ByteRange.stop_lt_of_interval? hj))
    have hwritten := Accesses.mem_writtenObjects.mpr ⟨f.node, site, hmem, rfl⟩
    exact ⟨_, hwritten, _, hfull, ⟨site, hmem, htouches _ hbyte⟩,
      h.walk_of_factEnters hf hsite (htouches _ hbyte)⟩
  · rw [if_neg hobj]
    obtain ⟨hsame, hrange⟩ : site.region.object = region.object ∧
        site.region.range.mayOverlap region.range = true := by
      simpa [Region.mayOverlap, hne, hobj] using hover
    obtain ⟨byte, hbyte, hbj⟩ := Region.exists_shared_byte hrange hj hpos hquery
    rw [← hsame]
    exact ⟨byte, hbyte, ⟨site, hmem, htouches byte hbj⟩,
      h.walk_of_factEnters hf hsite (htouches byte hbj)⟩

namespace Analysis

/-! ## Equal answers -/

theorem definitions_congr_of_writesApart (hw : g.WritesApart) (hg : g.WellFormed)
    (hsym : g.Symmetric) {s s' : AnalysisSettings} (hs : s.fieldInsensitive = false)
    (hs' : s'.fieldInsensitive = false) {a b : Analysis} {m : MemorySsa} {r : ReachingDefinitions}
    (hm : SsaOf g s a m) (hr : ReachingOf g s' b r) (n : Nat) {region : Region}
    (hquery : ∀ i, region.interval? = some i → i.Nonempty) :
    (m.definitions n region).1 = r.definitions n region := by
  refine Ascending.eq_of_mem_iff (m.sorted_definitions n region)
    (ReachingDefinitions.sorted_definitions (hr.exact.sorted n) region) ?_
  intro w
  rw [hm.mem_definitions, hs]
  constructor
  · intro hf
    rw [← hs'] at hf
    exact hr.mem_of_findsRegion hg hsym hf
  · intro hmem
    obtain ⟨f, hf, rfl, site, hsite, hover⟩ := hr.mem_definitions.mp hmem
    rw [hs'] at hf hsite hover
    exact hw.findsRegion_of_factEnters hg hsym hf hsite hover hquery

/-- Let all writes of an accepted graph without asymmetric edges be to known bytes of known objects,
every two of them in one object to the same bytes or to disjoint ones. Then both analyses run, and
after any runs that succeed and any calls they give the same definitions of each region that is not
known to be empty. -/
theorem definitions_eq_of_writesApart (hg : g.structuralError = none)
    (hedges : g.asymmetricEdges = []) (hw : g.WritesApart) :
    (∃ a b, (new g ⟨true, false, none⟩).run = .ok a ∧ (new g ⟨false, false, none⟩).run = .ok b) ∧
    ∀ limit limit' a b, (new g ⟨true, false, limit⟩).run = .ok a →
      (new g ⟨false, false, limit'⟩).run = .ok b →
      ∀ (calls calls' : List Call) (n : Nat) (region : Region), g.contains n = true →
        g.contains region.object = true → (∀ i, region.interval? = some i → i.Nonempty) →
        ∃ nodes a', (a.performAll calls).2.definitions n region = .ok (nodes, a') ∧
          (b.performAll calls').2.definitions n region = .ok (nodes, b) := by
  have hwf := AccessGraph.wellFormed_of_structuralError hg
  have hsym := hwf.symmetric hedges
  constructor
  · obtain ⟨b, hb⟩ := exists_run_of_no_limit (s := ⟨false, false, none⟩) hg rfl rfl
    exact ⟨_, b, run_of_useSsa hg (s := ⟨true, false, none⟩) rfl rfl, hb⟩
  · intro limit limit' a b ha hb calls calls' n region hn hobj hquery
    obtain ⟨hs, -⟩ := of_run_eq_ok ha
    rw [run_of_useSsa hg hs rfl] at ha
    obtain rfl := Except.ok.inj ha
    obtain ⟨r, hr⟩ := reachingOf_run hedges rfl hb
    obtain ⟨m, hm⟩ := (ssaOf_run g ⟨true, false, limit⟩).performAll calls
    have hsame := definitions_congr_of_writesApart hw hwf hsym rfl rfl hm hr n hquery
    refine ⟨_, _, hm.definitions_eq hn hobj, ?_⟩
    rw [hr.performAll calls', hr.definitions_eq hn hobj, hsame]

/-- In a loop the first and the second four bytes of an object are written, and after it the two in
the middle and two more are read. -/
def fieldLoop : AccessGraph where
  nodes := #[
    ⟨0, .unknownMemory, [], [], [], [], []⟩,
    ⟨1, .alloc, [], [], [], [2], []⟩,
    ⟨2, .store, [], [firstBytes 1 4], [], [3], [1]⟩,
    ⟨3, .store, [firstBytes 1 4], [⟨1, .ofNat 4, .ofNat 4⟩], [], [4, 5], [2, 4]⟩,
    ⟨4, .store, [], [firstBytes 1 4], [], [3], [3]⟩,
    ⟨5, .load, [], [], [⟨1, .ofNat 2, .ofNat 4⟩], [], [3]⟩]
  root := some 1

theorem writesApart_fieldLoop : fieldLoop.WritesApart := by
  have hregions : ∀ r ∈ fieldLoop.writtenRegions, r.object = 1 ∧
      (r.interval? = some ⟨0, 4⟩ ∨ r.interval? = some ⟨4, 8⟩) := by decide
  refine ⟨?_, ?_, ?_⟩
  · intro r hr
    rw [(hregions r hr).1]
    decide
  · intro r hr
    rcases (hregions r hr).2 with hi | hi
    · exact ⟨_, hi, by decide⟩
    · exact ⟨_, hi, by decide⟩
  · intro r hr r' hr' _ i i' hi hi'
    have hcases := (hregions r hr).2
    have hcases' := (hregions r' hr').2
    simp only [hi, hi', Option.some.injEq] at hcases hcases'
    rcases hcases with rfl | rfl <;> rcases hcases' with rfl | rfl <;>
      simp [Interval.mem_def] <;> omega

/-- A question that cuts across the bytes of both writes. -/
theorem definitions_eq_of_writesApart_fieldLoop : ∃ a b,
    (new fieldLoop (.ofPreset .fast)).run = .ok a ∧
      (new fieldLoop (.ofPreset .balanced)).run = .ok b ∧
      ∃ nodes a', a.definitions 5 ⟨1, .ofNat 2, .ofNat 4⟩ = .ok (nodes, a') ∧
        b.definitions 5 ⟨1, .ofNat 2, .ofNat 4⟩ = .ok (nodes, b) := by
  obtain ⟨⟨a, b, ha, hb⟩, h⟩ := definitions_eq_of_writesApart (g := fieldLoop) (by decide) (by decide)
    writesApart_fieldLoop
  refine ⟨a, b, ha, hb, h none none a b ha hb [] [] 5 ⟨1, .ofNat 2, .ofNat 4⟩ (by decide)
    (by decide) ?_⟩
  intro i hi
  obtain rfl : (⟨2, 6⟩ : Interval) = i := Option.some.inj hi
  decide

end Analysis

end MemDep
