import MemDep.Proofs.Ssa.Demand
import MemDep.Ssa

/-!
# Answers of the static single assignment form

The writes behind the definitions that are given for some bytes at a place of a block are exactly
those that a search for one of these bytes finds there. A table that has grown since then gives the
same answer, so definitions from several look-ups can be put together and expanded at the end.
-/

namespace MemDep

namespace Scope

variable {sc : Scope} {object : Nat} {t : PhiTable}

/-! ## Writes behind definitions -/

theorem Correct.filled_of_nil (h : sc.Correct t []) {id : Nat} {p : Phi}
    (hp : t.phis[id]? = some p) : sc.Filled t p :=
  h.filled hp List.not_mem_nil

/-- The operands of phis lead only to writes that back the definition. -/
theorem Correct.of_behind (h : sc.Correct t []) {w : Nat} {d : MemoryDef} (hd : t.Behind w d)
    {goal : Nat → Prop} (hback : sc.Backed t goal d) : goal w := by
  induction hd generalizing goal with
  | write => exact hback
  | operand hmem _ ih =>
    obtain ⟨p, hp, hgoal⟩ := hback
    rw [PhiTable.operands_eq hp] at hmem
    exact hgoal w (ih ((h.filled_of_nil hp).sound _ hmem))

/-- What stands for a key has everything behind it that is behind the phi. -/
theorem behind_of_stands {key : PhiKey} {w : Nat}
    (hphi : ∀ id p, t.phis[id]? = some p → p.key = key → t.Behind w (.phi id)) {d : MemoryDef}
    (hd : t.Stands key d) : t.Behind w d := by
  obtain ⟨id, p, hp, hkey, rfl | hr⟩ := hd
  · exact hphi id p hp hkey
  · exact (hphi id p hp hkey).of_replacement? hp hr

/-- A walk leads to a write: it found the write, or left an interval open for which nothing can stand
that does not have the write behind it. -/
def Leads {count : Nat} (t : PhiTable) (object w : Nat) (r : Walk count) : Prop :=
  .write w ∈ r.found ∨ ∃ c i, r.Open c i ∧ ∀ d, t.Stands ⟨c, object, i⟩ d → t.Behind w d

/-- The definitions that answer a walk have everything behind them that the walk leads to. -/
theorem Answered.exists_behind {count : Nat} {r : Walk count} {defs : List MemoryDef} {w : Nat}
    (h : Answered t object r defs) (hr : Leads t object w r) : ∃ d ∈ defs, t.Behind w d := by
  rcases hr with hw | ⟨c, i, hi, hstands⟩
  · exact ⟨.write w, h.found _ hw, .write⟩
  · obtain ⟨d, hd, hsd⟩ := h.opened c i hi
    exact ⟨d, hd, hstands d hsd⟩

/-- A phi has everything behind it that the walks from the blocks before lead to. -/
theorem Correct.behind_phi (h : sc.Correct t []) {id w : Nat} {p : Phi}
    (hp : t.phis[id]? = some p) {a b : Fin sc.blocks.count} {i : Interval}
    (hkey : p.key = ⟨b, object, i⟩) (ha : a ∈ sc.blocks.predecessors b)
    (hr : Leads t object w (sc.walkFromEnd object i a)) : t.Behind w (.phi id) := by
  obtain ⟨c, hc, hans⟩ := (h.filled_of_nil hp).complete
  rw [hkey] at hc hans
  obtain rfl : b = c := Fin.ext hc
  obtain ⟨d, hd, hwd⟩ := (hans a ha).exists_behind hr
  have hmem : d ∈ t.operands id := by rwa [PhiTable.operands_eq hp]
  exact .operand hmem hwd

/-- A walk leads to whatever a search for an open byte finds. The induction follows the search; where
it enters a join, the phi there has answered the walks from the blocks before. -/
theorem Correct.leads_of_finds (hg : sc.blocks.Grounded) (h : sc.Correct t []) {byte w : Nat}
    {b : Fin sc.blocks.count} {stop : Nat} (hf : sc.Finds object byte w b stop) {opened : ByteSet}
    (hv : opened.Valid) (hbyte : byte ∈ opened) {found : List MemoryDef} {r : Walk sc.blocks.count}
    (hr : sc.Walks object b stop opened found r) : Leads t object w r := by
  induction hf generalizing opened found r with
  | write hn hw => exact .inl (hr.mem_found hv hbyte hn hw)
  | pass hn hh _ ih =>
    obtain ⟨found', hmem, hr'⟩ := hr.pass hv hbyte hn hh
    exact ih (hv.closeAll object _) hmem hr'
  | @enter a b ha _ ih =>
    rcases hr.enter ha with hr | hopen
    · exact ih hv hbyte hr
    · obtain ⟨i, hi, hbi⟩ := hopen byte hbyte
      refine .inr ⟨b, i, hi, fun d hd => behind_of_stands ?_ hd⟩
      intro id p hp hkey
      have hvi : i.Valid := by
        have hvp := (h.filled_of_nil hp).valid
        rwa [hkey] at hvp
      have hwalk := walks_walk hg object a (sc.blocks.nodes a).length (.ofInterval i)
      have hleads := ih (ByteSet.valid_ofInterval hvi.2) (ByteSet.mem_ofInterval.mpr hbi) hwalk
      exact h.behind_phi hp hkey ha hleads

/-! ## Answers -/

/-- Some definitions have exactly the wanted writes behind them, now and in every later table. -/
def Means (sc : Scope) (t : PhiTable) (wanted : Nat → Prop) (defs : List MemoryDef) : Prop :=
  ∀ {u : PhiTable}, t.Extends u → sc.Correct u [] → ∀ w, (∃ d ∈ defs, u.Behind w d) ↔ wanted w

/-- A look-up keeps a table correct and gives definitions of the wanted writes. -/
structure Resolved (sc : Scope) (t : PhiTable) (wanted : Nat → Prop)
    (r : PhiTable × List MemoryDef) : Prop where
  extends_table : t.Extends r.1
  correct : sc.Correct r.1 []
  means : sc.Means r.1 wanted r.2

theorem means_nil (sc : Scope) (t : PhiTable) : sc.Means t (fun _ => False) [] := by
  intro u _ _ w
  simp

theorem Means.addDefs {wanted wanted' : Nat → Prop} {found more : List MemoryDef} {v : PhiTable}
    (h : sc.Means t wanted found) (hv : t.Extends v) (h' : sc.Means v wanted' more) :
    sc.Means v (fun w => wanted w ∨ wanted' w) (addDefs found more) := by
  intro u hu hc w
  have hw := h (hv.trans hu) hc w
  have hw' := h' hu hc w
  simp only [mem_addDefs, or_and_right, exists_or, hw, hw']

theorem Resolved.congr {wanted wanted' : Nat → Prop} {r : PhiTable × List MemoryDef}
    (h : sc.Resolved t wanted r) (hw : ∀ w, wanted w ↔ wanted' w) : sc.Resolved t wanted' r :=
  ⟨h.extends_table, h.correct, fun hu hc w => (h.means hu hc w).trans (hw w)⟩

theorem Resolved.mem_expand {wanted : Nat → Prop} {r : PhiTable × List MemoryDef}
    (h : sc.Resolved t wanted r) {w : Nat} : w ∈ r.1.expand r.2 ↔ wanted w :=
  PhiTable.mem_expand.trans (h.means (.refl _) h.correct w)

/-- Definitions that answer a walk and are backed by what a search finds. -/
theorem Resolved.of_answered (hg : sc.blocks.Grounded) {b : Fin sc.blocks.count} {stop : Nat}
    {query : ByteSet} (hq : query.Valid) {r : PhiTable × List MemoryDef} (hext : t.Extends r.1)
    (hcorrect : sc.Correct r.1 []) (hans : Answered r.1 object (sc.walk object b stop query) r.2)
    (hback : ∀ d ∈ r.2,
      sc.Backed r.1 (fun w => ∃ byte ∈ query, sc.Finds object byte w b stop) d) :
    sc.Resolved t (fun w => ∃ byte ∈ query, sc.Finds object byte w b stop) r := by
  refine ⟨hext, hcorrect, fun {u} hu hc w => ⟨?_, ?_⟩⟩
  · rintro ⟨d, hd, hbd⟩
    exact hc.of_behind hbd ((hback d hd).mono hu.grows fun _ h => h)
  · rintro ⟨byte, hbyte, hf⟩
    have hleads := hc.leads_of_finds hg hf hq hbyte (walks_walk hg object b stop query)
    exact (hans.grows hu.grows).exists_behind hleads

theorem resolved_definitions (hg : sc.blocks.Grounded) (h : sc.Correct t []) (object : Nat)
    {b : Fin sc.blocks.count} {stop : Nat} (hstop : stop ≤ (sc.blocks.nodes b).length)
    {query : ByteSet} (hq : query.Valid) :
    sc.Resolved t (fun w => ∃ byte ∈ query, sc.Finds object byte w b stop)
      (sc.definitions object t b stop query hq) := by
  have hwalk := walks_walk hg object b stop query
  have hfound : ∀ u : PhiTable, ∀ d ∈ (sc.walk object b stop query).found,
      sc.Backed u (fun w => ∃ byte ∈ query, sc.Finds object byte w b stop) d := by
    intro u d hd
    rcases hwalk.found_sound hq hstop hd with hd | ⟨w, rfl, hw⟩
    · simp at hd
    · exact hw
  unfold definitions
  split
  case h_1 found hw =>
    rw [hw] at hfound
    refine .of_answered hg hq (.refl t) h ?_ (hfound t)
    rw [hw]
    exact ⟨fun _ hd => hd, fun _ _ hopen => hopen.elim⟩
  case h_2 found c opened hw =>
    have hvalid := sc.valid_of_walk hq hw
    have hr := (demand_result hg object).2.2 t c opened hvalid found [] h
    generalize (sc.demandAll object t c opened hvalid found).1 = r at hr
    rw [hw] at hfound
    refine .of_answered hg hq hr.extends_table hr.correct ?_ ?_
    · rw [hw]
      refine ⟨hr.kept, ?_⟩
      rintro c j ⟨rfl, hj⟩
      exact hr.stands j hj
    · refine hr.backed _ (hfound t) ?_
      intro i hi w hreach
      obtain ⟨byte, hbyte, hf⟩ := reaches_iff.mp hreach
      rw [hw] at hwalk
      obtain ⟨hmem, hf⟩ := hwalk.open_sound hq hstop ⟨rfl, hi⟩ hbyte hf
      exact ⟨byte, hmem, hf⟩

theorem resolved_definitionsOfAll (hg : sc.blocks.Grounded) {b : Fin sc.blocks.count} {stop : Nat}
    (hstop : stop ≤ (sc.blocks.nodes b).length) {objects : List Nat} {found : List MemoryDef}
    {wanted : Nat → Prop} (h : sc.Correct t []) (hfound : sc.Means t wanted found) :
    sc.Resolved t
      (fun w => wanted w ∨
        ∃ object ∈ objects, ∃ byte ∈ ByteSet.full, sc.Finds object byte w b stop)
      (sc.definitionsOfAll b stop objects t found) := by
  induction objects generalizing t found wanted with
  | nil =>
    refine ⟨.refl t, h, fun hu hc w => (hfound hu hc w).trans ?_⟩
    simp
  | cons object objects ih =>
    have hr := resolved_definitions hg h object hstop ByteSet.valid_full
    have hs := ih hr.correct (hfound.addDefs hr.extends_table hr.means)
    refine Resolved.congr ⟨hr.extends_table.trans hs.extends_table, hs.correct, hs.means⟩ ?_
    intro w
    simp only [List.mem_cons, exists_eq_or_imp, or_assoc]

/-! ## Regions -/

/-- A search from where control enters a node finds a write of `w` for a byte of a region. For a
region of unknown memory, each of the given objects is searched as a whole. -/
def FindsRegion (sc : Scope) (objects : List Nat) (n : Nat) (region : Region) (w : Nat) : Prop :=
  ∃ b stop, sc.blocks.place? n = some (b, stop) ∧
    if (sc.accesses.normalize region).object = unknownMemory then
      ∃ object ∈ objects, ∃ byte ∈ ByteSet.full, sc.Finds object byte w b stop
    else
      ∃ byte ∈ (sc.accesses.normalize region).bytes,
        sc.Finds (sc.accesses.normalize region).object byte w b stop

theorem findsRegion_iff {objects : List Nat} {n : Nat} {region : Region} {w stop : Nat}
    {b : Fin sc.blocks.count} (hp : sc.blocks.place? n = some (b, stop)) :
    sc.FindsRegion objects n region w ↔
      if (sc.accesses.normalize region).object = unknownMemory then
        ∃ object ∈ objects, ∃ byte ∈ ByteSet.full, sc.Finds object byte w b stop
      else
        ∃ byte ∈ (sc.accesses.normalize region).bytes,
          sc.Finds (sc.accesses.normalize region).object byte w b stop := by
  constructor
  · rintro ⟨c, stop', hc, h⟩
    obtain ⟨rfl, rfl⟩ := Prod.mk.inj (Option.some.inj (hc.symm.trans hp))
    exact h
  · intro h
    exact ⟨b, stop, hp, h⟩

/-- Searches in the scope end, and start at places within blocks. -/
structure Regular (sc : Scope) : Prop where
  grounded : sc.blocks.Grounded
  place_le : ∀ {n stop : Nat} {b : Fin sc.blocks.count},
    sc.blocks.place? n = some (b, stop) → stop ≤ (sc.blocks.nodes b).length

theorem regular_ofGraph (accesses : Accesses) (g : AccessGraph) :
    Regular ⟨accesses, .ofGraph g⟩ := by
  refine ⟨BlockGraph.grounded_ofGraph g, fun hp => ?_⟩
  exact Nat.le_of_lt (List.getElem?_eq_some_iff.mp (BlockGraph.place?_eq_some.mp hp)).1

theorem resolved_resolve (hr : sc.Regular) (objects : List Nat) (h : sc.Correct t []) (n : Nat)
    (region : Region) :
    sc.Resolved t (sc.FindsRegion objects n region) (sc.resolve objects t n region) := by
  unfold resolve
  split
  case h_1 hnone =>
    refine ⟨.refl t, h, ?_⟩
    intro _ _ w
    simp [FindsRegion, hnone]
  case h_2 b stop hp =>
    have hstop := hr.place_le hp
    simp only
    split
    case isTrue hobj =>
      refine (resolved_definitionsOfAll hr.grounded hstop h (sc.means_nil t)).congr ?_
      intro w
      rw [findsRegion_iff hp, if_pos hobj, false_or]
    case isFalse hobj =>
      refine (resolved_definitions hr.grounded h _ hstop _).congr ?_
      intro w
      rw [findsRegion_iff hp, if_neg hobj]

theorem resolved_resolveAll (hr : sc.Regular) (objects : List Nat) (n : Nat) (regions : List Region)
    {found : List MemoryDef} {wanted : Nat → Prop} (h : sc.Correct t [])
    (hfound : sc.Means t wanted found) :
    sc.Resolved t (fun w => wanted w ∨ ∃ region ∈ regions, sc.FindsRegion objects n region w)
      (sc.resolveAll objects n regions t found) := by
  induction regions generalizing t found wanted with
  | nil =>
    refine ⟨.refl t, h, fun hu hc w => (hfound hu hc w).trans ?_⟩
    simp
  | cons region regions ih =>
    have hr' := resolved_resolve hr objects h n region
    have hs := ih hr'.correct (hfound.addDefs hr'.extends_table hr'.means)
    have hext := hr'.extends_table.trans hs.extends_table
    refine Resolved.congr ⟨hext, hs.correct, hs.means⟩ ?_
    intro w
    simp only [List.mem_cons, exists_eq_or_imp, or_assoc]

end Scope

namespace MemorySsa

/-- What every state of the form satisfies: the table is correct, and the writers of the reads that
were resolved are those that a search finds. -/
structure Sound (s : MemorySsa) : Prop where
  regular : s.scope.Regular
  correct : s.scope.Correct s.table []
  writers : ∀ r ∈ s.reads, ∀ w, w ∈ r.writers ↔
    ∃ region ∈ s.scope.accesses.reads r.node, s.scope.FindsRegion s.objects r.node region w

/-- The form belongs to a graph: only phis and resolved reads are added to it. -/
structure Of (g : AccessGraph) (fieldInsensitive : Bool) (s : MemorySsa) : Prop where
  scope : s.scope = ⟨.ofGraph g fieldInsensitive, .ofGraph g⟩
  objects : s.objects = (Accesses.ofGraph g fieldInsensitive).writtenObjects

theorem Sound.resolveReads {s : MemorySsa} (h : s.Sound) (n : Nat) : (s.resolveReads n).Sound := by
  unfold MemorySsa.resolveReads
  split
  case h_1 => exact h
  case h_2 regions _ =>
    have hr := Scope.resolved_resolveAll h.regular s.objects n (s.scope.accesses.reads n) h.correct
      (s.scope.means_nil s.table)
    refine ⟨h.regular, hr.correct, ?_⟩
    intro r hmem w
    rcases List.mem_append.mp hmem with hmem | hmem
    · exact h.writers r hmem w
    · obtain rfl := List.mem_singleton.mp hmem
      exact hr.mem_expand.trans (by rw [false_or])

theorem Of.resolveReads {g : AccessGraph} {fieldInsensitive : Bool} {s : MemorySsa}
    (h : s.Of g fieldInsensitive) (n : Nat) : (s.resolveReads n).Of g fieldInsensitive := by
  unfold MemorySsa.resolveReads
  split
  · exact h
  · exact ⟨h.scope, h.objects⟩

theorem of_compute (g : AccessGraph) (fieldInsensitive : Bool) :
    (compute g fieldInsensitive).Of g fieldInsensitive := by
  unfold compute
  refine List.foldlRecOn _ _ ⟨rfl, rfl⟩ fun s h n _ => h.resolveReads n

theorem sound_compute (g : AccessGraph) (fieldInsensitive : Bool) :
    (compute g fieldInsensitive).Sound := by
  unfold compute
  refine List.foldlRecOn _ _ ?_ fun s h n _ => h.resolveReads n
  exact ⟨Scope.regular_ofGraph _ g, Scope.correct_empty _, by simp⟩

theorem Sound.definitions {s : MemorySsa} (h : s.Sound) (n : Nat) (region : Region) :
    (s.definitions n region).2.Sound :=
  ⟨h.regular, (Scope.resolved_resolve h.regular s.objects h.correct n region).correct, h.writers⟩

theorem Of.definitions {g : AccessGraph} {fieldInsensitive : Bool} {s : MemorySsa}
    (h : s.Of g fieldInsensitive) (n : Nat) (region : Region) :
    (s.definitions n region).2.Of g fieldInsensitive :=
  ⟨h.scope, h.objects⟩

theorem Sound.mem_definitions {s : MemorySsa} (h : s.Sound) {n : Nat} {region : Region} {w : Nat} :
    w ∈ (s.definitions n region).1 ↔ s.scope.FindsRegion s.objects n region w :=
  (Scope.resolved_resolve h.regular s.objects h.correct n region).mem_expand

theorem sorted_definitions (s : MemorySsa) (n : Nat) (region : Region) :
    Ascending.Sorted (s.definitions n region).1 :=
  PhiTable.sorted_expand _ _

/-- The definitions of what a node reads are what a search for one of its reads finds. -/
theorem Sound.findsRegion_of_mem_readDefinitions {s : MemorySsa} (h : s.Sound) {n w : Nat}
    (hw : w ∈ s.readDefinitions n) :
    ∃ region ∈ s.scope.accesses.reads n, s.scope.FindsRegion s.objects n region w := by
  unfold readDefinitions read? at hw
  cases hr : s.reads.find? (·.node = n) with
  | none => simp [hr] at hw
  | some r =>
    have hnode : r.node = n := by simpa using List.find?_some hr
    rw [hr] at hw
    have hwr := (h.writers r (List.mem_of_find?_eq_some hr) w).mp hw
    rwa [hnode] at hwr

end MemorySsa

end MemDep
