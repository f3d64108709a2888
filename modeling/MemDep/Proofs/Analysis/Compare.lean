import MemDep.Proofs.Analysis.Reaching
import MemDep.Proofs.Analysis.Ssa
import MemDep.Proofs.Region

/-!
# The two analyses compared

Every definition that the static single assignment form gives is a definition of the solved
equations. A write that may touch a byte is a fact; a strong write that hides this fact covers the
byte, so a walk past nodes that do not hide the byte is one past nodes that do not hide the fact.
-/

namespace MemDep

variable {g : AccessGraph} {t : Accesses}

/-! ## Bytes and facts -/

/-- A strong write that covers a write overwrites the known bytes that it may touch. -/
theorem Write.overwrites_of_covers {write site : Write} {object byte : Nat}
    (hstrong : write.strong = true) (hcovers : write.region.covers site.region = true)
    (htouches : site.Touches object byte) :
    object ≠ unknownMemory ∧ write.Overwrites object byte := by
  obtain ⟨hobj, hne, i, j, hi, hj, henc⟩ := Region.covers_iff.mp hcovers
  rcases htouches with hunknown | ⟨hsite, hbyte⟩
  · exact absurd (hobj.trans hunknown) hne
  · have hmem : byte ∈ i := Interval.mem_of_encloses henc (hbyte j hj)
    exact ⟨hsite ▸ hobj ▸ hne, hstrong, hobj.trans hsite, i, hi, hmem⟩

/-- A write that may touch a byte of a region may overlap the region. -/
theorem Write.mayOverlap_of_touches {site : Write} {region : Region} {byte : Nat}
    (htouches : site.Touches region.object byte)
    (hbyte : ∀ i, region.interval? = some i → byte ∈ i) :
    site.region.mayOverlap region = true := by
  simp only [Region.mayOverlap, Bool.or_eq_true, Bool.and_eq_true, beq_iff_eq]
  rcases htouches with hunknown | ⟨hobj, hsite⟩
  · exact .inl (.inl hunknown)
  · refine .inr ⟨hobj, ByteRange.mayOverlap_iff.mpr fun i j hi hj => ?_⟩
    have hbi := hsite i hi
    have hbj := hbyte j hj
    rw [Interval.mem_def] at hbi hbj
    simp only [Interval.crosses, Bool.and_eq_true, decide_eq_true_eq]
    omega

/-- A walk past nodes that do not hide a byte brings along the fact of a write that may touch it. -/
theorem exists_factEnters (hg : g.WellFormed) {object byte n w : Nat} (hw : g.Reached w)
    (hd : t.Defines object byte w) (hwalk : g.Walk (fun m => ¬ t.Hides object byte m) w n) :
    ∃ f, g.FactEnters t f n ∧ f.node = w ∧ ∃ site, (t.writes w)[f.write]? = some site ∧
      site.Touches object byte := by
  obtain ⟨site, hsite, htouches⟩ := hd
  obtain ⟨i, hi⟩ := List.mem_iff_getElem?.mp hsite
  refine ⟨⟨w, i⟩, ⟨hg.reached_iff_fromRoot.mp hw, site, hi, hwalk.mono ?_⟩, rfl, site, hi,
    htouches⟩
  intro m hm
  rintro ⟨write, hwrite, hstrong, hcovers⟩
  obtain ⟨hne, hover⟩ := Write.overwrites_of_covers hstrong hcovers htouches
  exact hm ⟨hne, write, hwrite, hover⟩

/-- What a search for a region finds is a fact that enters the node and may overlap the region. -/
theorem exists_factEnters_of_findsRegion (hg : g.WellFormed) (hsym : g.Symmetric)
    {objects : List Nat} {n w : Nat} {region : Region}
    (h : Scope.FindsRegion ⟨t, .ofGraph g⟩ objects n region w) :
    ∃ f, g.FactEnters t f n ∧ f.node = w ∧ ∃ site, (t.writes w)[f.write]? = some site ∧
      site.region.mayOverlap (t.normalize region) = true := by
  obtain ⟨hw, h⟩ := (Scope.findsRegion_iff_walk hsym).mp h
  split at h
  case isTrue hobj =>
    obtain ⟨object, _, byte, _, hd, hwalk⟩ := h
    obtain ⟨f, hf, hnode, site, hsite, _⟩ := exists_factEnters hg hw hd hwalk
    exact ⟨f, hf, hnode, site, hsite, Region.mayOverlap_of_unknownMemory hobj⟩
  case isFalse =>
    obtain ⟨byte, hbyte, hd, hwalk⟩ := h
    obtain ⟨f, hf, hnode, site, hsite, htouches⟩ := exists_factEnters hg hw hd hwalk
    refine ⟨f, hf, hnode, site, hsite, Write.mayOverlap_of_touches htouches ?_⟩
    exact (Analysis.mem_bytes_iff.mp hbyte).2

namespace Analysis

variable {s : AnalysisSettings}

theorem mapM_eq_ok {α β : Type} {f : α → Except AnalysisError β} {k : α → β} {l : List α}
    (h : ∀ x ∈ l, f x = .ok (k x)) : l.mapM f = .ok (l.map k) := by
  induction l with
  | nil => rfl
  | cons x l ih =>
    rw [List.mapM_cons, h x List.mem_cons_self, ih fun y hy => h y (List.mem_cons_of_mem _ hy)]
    rfl

theorem ReachingOf.readDefinitions_eq {a : Analysis} {r : ReachingDefinitions}
    (h : ReachingOf g s a r) {n : Nat} (hn : g.contains n = true)
    (hreads : ∀ region ∈ ((g.node? n).map AccessNode.reads).getD [],
      g.contains region.object = true) :
    a.readDefinitions n = .ok (Ascending.ofList
      ((((g.node? n).map AccessNode.reads).getD []).map (r.definitions n)).flatten) := by
  have hreads : ∀ region ∈ g.reads n, g.contains region.object = true := hreads
  rw [h.eq, readDefinitions_reaching hn,
    mapM_eq_ok fun region hregion => if_pos (hreads region hregion)]
  rfl

theorem ReachingOf.mem_of_findsRegion (hg : g.WellFormed) (hsym : g.Symmetric) {a : Analysis}
    {r : ReachingDefinitions} (h : ReachingOf g s a r) {objects : List Nat} {n w : Nat}
    {region : Region} (hf : Scope.FindsRegion ⟨.ofGraph g s.fieldInsensitive, .ofGraph g⟩ objects n
      region w) : w ∈ r.definitions n region :=
  h.mem_definitions.mpr (exists_factEnters_of_findsRegion hg hsym hf)

/-- The region of a read is searched as the analysis sees it. -/
theorem findsRegion_see {fieldInsensitive : Bool} {objects : List Nat} {n w : Nat} {region : Region} :
    Scope.FindsRegion ⟨.ofGraph g fieldInsensitive, .ofGraph g⟩ objects n
        (Accesses.see fieldInsensitive region) w ↔
      Scope.FindsRegion ⟨.ofGraph g fieldInsensitive, .ofGraph g⟩ objects n region w := by
  have hsee : (Accesses.ofGraph g fieldInsensitive).normalize (Accesses.see fieldInsensitive region) =
      (Accesses.ofGraph g fieldInsensitive).normalize region := Accesses.see_see region
  unfold Scope.FindsRegion
  simp only [hsee]

/-- The definitions of what a node reads in static single assignment form are definitions of one of
its reads. -/
theorem SsaOf.findsRegion_of_mem_readDefinitions {a : Analysis} {m : MemorySsa} (h : SsaOf g s a m)
    {n w : Nat} (hw : w ∈ m.readDefinitions n) :
    ∃ region ∈ ((g.node? n).map AccessNode.reads).getD [],
      Scope.FindsRegion ⟨.ofGraph g s.fieldInsensitive, .ofGraph g⟩
        (Accesses.ofGraph g s.fieldInsensitive).writtenObjects n region w := by
  obtain ⟨seen, hseen, hf⟩ := h.sound.findsRegion_of_mem_readDefinitions hw
  rw [h.of.scope, h.of.objects] at hf
  rw [h.of.scope, Accesses.reads_ofGraph] at hseen
  obtain ⟨region, hregion, rfl⟩ := List.mem_map.mp hseen
  exact ⟨region, hregion, findsRegion_see.mp hf⟩

/-- Both analyses run on every accepted graph, and after any calls every answer in static single
assignment form is contained in the one by iteration: for each region of an object of the graph, and
for what a node reads if the objects of its reads are in the graph. -/
theorem ssa_definitions_subset (hg : g.structuralError = none) (hedges : g.asymmetricEdges = [])
    (fieldInsensitive : Bool) :
    ∃ a b, (new g ⟨true, fieldInsensitive, none⟩).run = .ok a ∧
      (new g ⟨false, fieldInsensitive, none⟩).run = .ok b ∧
      ∀ (calls calls' : List Call) (n : Nat), g.contains n = true →
        (∀ region : Region, g.contains region.object = true →
          ∃ x a' y b', (a.performAll calls).2.definitions n region = .ok (x, a') ∧
            (b.performAll calls').2.definitions n region = .ok (y, b') ∧ x ⊆ y) ∧
        ((∀ region ∈ ((g.node? n).map AccessNode.reads).getD [],
            g.contains region.object = true) →
          ∃ x y, (a.performAll calls).2.readDefinitions n = .ok x ∧
            (b.performAll calls').2.readDefinitions n = .ok y ∧ x ⊆ y) := by
  have hwf := AccessGraph.wellFormed_of_structuralError hg
  have hsym := hwf.symmetric hedges
  obtain ⟨b, hb⟩ := exists_run_of_no_limit (s := ⟨false, fieldInsensitive, none⟩) hg rfl rfl
  obtain ⟨r, hr⟩ := reachingOf_run hedges rfl hb
  refine ⟨_, b, run_of_useSsa hg (s := ⟨true, fieldInsensitive, none⟩) rfl rfl, hb, ?_⟩
  intro calls calls' n hn
  obtain ⟨m, hm⟩ := (ssaOf_run g ⟨true, fieldInsensitive, none⟩).performAll calls
  rw [hr.performAll calls']
  constructor
  · intro region hobj
    refine ⟨_, _, _, _, hm.definitions_eq hn hobj, hr.definitions_eq hn hobj, ?_⟩
    intro w hw
    exact hr.mem_of_findsRegion hwf hsym (hm.mem_definitions.mp hw)
  · intro hreads
    refine ⟨_, _, hm.readDefinitions_eq hn, hr.readDefinitions_eq hn hreads, ?_⟩
    intro w hw
    obtain ⟨region, hregion, hf⟩ := hm.findsRegion_of_mem_readDefinitions hw
    refine Ascending.mem_ofList.mpr (List.mem_flatten.mpr ?_)
    exact ⟨_, List.mem_map_of_mem hregion, hr.mem_of_findsRegion hwf hsym hf⟩

/-- At the load after the loop both analyses are asked about the two objects of the graph. -/
theorem ssa_definitions_subset_storeLoop : ∃ a b,
    (new storeLoop ⟨true, false, none⟩).run = .ok a ∧
      (new storeLoop ⟨false, false, none⟩).run = .ok b ∧
      (∃ x a' y b', a.definitions 5 (firstBytes 0 4) = .ok (x, a') ∧
        b.definitions 5 (firstBytes 0 4) = .ok (y, b') ∧ x ⊆ y) ∧
      ∃ x y, a.readDefinitions 5 = .ok x ∧ b.readDefinitions 5 = .ok y ∧ x ⊆ y := by
  obtain ⟨a, b, ha, hb, h⟩ := ssa_definitions_subset (g := storeLoop) (by decide) (by decide) false
  obtain ⟨hdefs, hreads⟩ := h [] [] 5 (by decide)
  exact ⟨a, b, ha, hb, hdefs (firstBytes 0 4) (by decide), hreads (by decide)⟩

end Analysis

end MemDep
