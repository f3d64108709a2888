import MemDep.Proofs.Ssa.Reads

/-!
# What is listed for a phi

Whoever asks for a key is given what the phi for the key stands for at that time, and since phis keep
their operands, it stands for the same in every later table (`Scope.Correct.find?_of_extends`). So the
definitions that answer a question are the writes that its walk found and, for each interval that the
walk left open, what the phi for the interval stands for. A phi that is replaced is replaced once:
what it stands for may be a trivial phi in turn.
-/

namespace MemDep

/-! ## What a phi stands for -/

theorem Phi.ne_of_replacement? {p : Phi} {id : Nat} {d : MemoryDef}
    (h : p.replacement? id = some d) : d ≠ .phi id := by
  unfold replacement? at h
  split at h
  case h_1 e he =>
    obtain rfl := Option.some.inj h
    have hmem : e ∈ p.operands.filter (· ≠ .phi id) := by rw [he]; exact List.mem_singleton_self e
    simpa using (List.mem_filter.mp hmem).2
  case h_2 => simp at h

namespace PhiTable

variable {t u : PhiTable}

theorem value_of_getElem? {id : Nat} {p : Phi} (hp : t.phis[id]? = some p) :
    t.value id = (p.replacement? id).getD (.phi id) := by
  simp [value, hp]

theorem isTrivial_of_getElem? {id : Nat} {p : Phi} (hp : t.phis[id]? = some p) :
    t.isTrivial id = (p.replacement? id).isSome := by
  simp [isTrivial, hp]

/-- A trivial phi that another phi stands for is what that phi was replaced by. -/
theorem replaced_of_find?_trivial {key : PhiKey} {id : Nat} (h : t.find? key = some (.phi id))
    (htrivial : t.isTrivial id = true) :
    ∃ q p, t.phis[q]? = some p ∧ q ≠ id ∧ p.replacement? q = some (.phi id) := by
  obtain ⟨q, hq, hvalue⟩ := Option.map_eq_some_iff.mp h
  obtain ⟨p, hp, -⟩ := key_of_id? hq
  rw [value_of_getElem? hp] at hvalue
  cases hr : p.replacement? q with
  | none =>
    rw [hr, Option.getD_none] at hvalue
    obtain rfl := MemoryDef.phi.inj hvalue
    rw [isTrivial_of_getElem? hp, hr] at htrivial
    exact absurd htrivial (by simp)
  | some d =>
    rw [hr, Option.getD_some] at hvalue
    subst hvalue
    refine ⟨q, p, hp, ?_, hr⟩
    rintro rfl
    exact Phi.ne_of_replacement? hr rfl

end PhiTable

namespace Scope

variable {sc : Scope} {object : Nat} {t u : PhiTable}

theorem Correct.find?_of_getElem? {pending : List Nat} (h : sc.Correct t pending) {id : Nat} {p : Phi}
    (hp : t.phis[id]? = some p) : t.find? p.key = some (t.value id) := by
  have hhas : t.Has p.key := ⟨p, Array.mem_of_getElem? hp, rfl⟩
  cases hid : t.id? p.key with
  | none =>
    have hnone : t.find? p.key = none := by simp [PhiTable.find?, hid]
    exact absurd hhas (PhiTable.not_has_of_find?_eq_none hnone)
  | some id' =>
    obtain ⟨q, hq, hkey⟩ := PhiTable.key_of_id? hid
    obtain rfl := h.unique hq hp hkey
    simp [PhiTable.find?, hid]

/-- A phi stands for the same in every later table. -/
theorem Correct.find?_of_extends (hu : sc.Correct u []) (hext : t.Extends u) {key : PhiKey}
    {d : MemoryDef} (h : t.find? key = some d) : u.find? key = some d := by
  obtain ⟨id, hid, rfl⟩ := Option.map_eq_some_iff.mp h
  obtain ⟨p, hp, rfl⟩ := PhiTable.key_of_id? hid
  have hp' := hext id p hp
  rw [hu.find?_of_getElem? hp', PhiTable.value_of_getElem? hp, PhiTable.value_of_getElem? hp']

/-! ## Look-ups -/

/-- A look-up returns what the phi for its key stands for. -/
theorem find?_demand (hg : sc.blocks.Grounded) (h : sc.Correct t []) (object : Nat)
    (b : Fin sc.blocks.count) {i : Interval} (hi : i.Valid) :
    (sc.demand object t b i hi).1.1.find? ⟨b, object, i⟩ =
      some (sc.demand object t b i hi).1.2 := by
  cases hfind : t.find? ⟨b, object, i⟩ with
  | some d =>
    rw [demand_of_some hfind]
    exact hfind
  | none =>
    have hcorrect := ((demand_result hg object).1 t b i hi [] h).correct
    have hnew : ¬ t.Has ⟨b, object, i⟩ := PhiTable.not_has_of_find?_eq_none hfind
    have hops := (demand_result hg object).2.1 (t.enter ⟨b, object, i⟩) (sc.blocks.predecessors b) i hi
      [] _ (h.enter hnew)
    rw [demand_of_none hfind] at hcorrect ⊢
    have hentered := hops.extends_table _ _ (t.getElem?_enter_self ⟨b, object, i⟩)
    exact hcorrect.find?_of_getElem? (PhiTable.getElem?_fill_self hentered _)

/-- A definition answers a walk: the walk found it, or it is what the phi for an interval stands for
that the walk left open. -/
def AnswersWalk {count : Nat} (t : PhiTable) (object : Nat) (r : Walk count) (d : MemoryDef) : Prop :=
  d ∈ r.found ∨ ∃ c i, r.Open c i ∧ t.find? ⟨c, object, i⟩ = some d

/-- Some definitions are those that are wanted of a table, in this table and in every later one. -/
def Lists (sc : Scope) (t : PhiTable) (wanted : PhiTable → MemoryDef → Prop)
    (defs : List MemoryDef) : Prop :=
  ∀ u : PhiTable, t.Extends u → sc.Correct u [] → ∀ d, d ∈ defs ↔ wanted u d

theorem lists_nil (sc : Scope) (t : PhiTable) : sc.Lists t (fun _ _ => False) [] := by
  intro u _ _ d
  simp

theorem Lists.grows {wanted : PhiTable → MemoryDef → Prop} {defs : List MemoryDef}
    (h : sc.Lists t wanted defs) (hu : t.Extends u) : sc.Lists u wanted defs :=
  fun v hv => h v (hu.trans hv)

theorem Lists.congr {wanted wanted' : PhiTable → MemoryDef → Prop} {defs : List MemoryDef}
    (h : sc.Lists t wanted defs) (hw : ∀ u d, wanted u d ↔ wanted' u d) : sc.Lists t wanted' defs :=
  fun u hu hc d => (h u hu hc d).trans (hw u d)

theorem Lists.addDefs {wanted wanted' : PhiTable → MemoryDef → Prop} {found more : List MemoryDef}
    (h : sc.Lists t wanted found) (h' : sc.Lists t wanted' more) :
    sc.Lists t (fun u d => wanted u d ∨ wanted' u d) (addDefs found more) := by
  intro u hu hc d
  rw [mem_addDefs, h u hu hc d, h' u hu hc d]

theorem lists_demandAll (hg : sc.blocks.Grounded) (h : sc.Correct t []) {b : Fin sc.blocks.count}
    {opened : List Interval} (hopened : ∀ i ∈ opened, i.Valid) {found : List MemoryDef}
    {wanted : PhiTable → MemoryDef → Prop} (hfound : sc.Lists t wanted found) :
    sc.Lists (sc.demandAll object t b opened hopened found).1.1
      (fun u d => wanted u d ∨ ∃ i ∈ opened, u.find? ⟨b, object, i⟩ = some d)
      (sc.demandAll object t b opened hopened found).1.2 := by
  induction opened generalizing t found wanted with
  | nil =>
    rw [demandAll]
    refine hfound.congr ?_
    intro u d
    simp
  | cons i rest ih =>
    have hi : i.Valid := hopened i List.mem_cons_self
    have hrest : ∀ j ∈ rest, j.Valid := fun j hj => hopened j (List.mem_cons_of_mem _ hj)
    have hfind := find?_demand hg h object b hi
    have hr := (demand_result hg object).1 t b i hi [] h
    rw [demandAll_cons hi hrest]
    generalize (sc.demand object t b i hi).1 = r at hfind hr
    have hadd : sc.Lists r.1 (fun u d => wanted u d ∨ u.find? ⟨b, object, i⟩ = some d)
        (addDef found r.2) := by
      intro u hu hc d
      have hsame := hc.find?_of_extends hu hfind
      rw [mem_addDef, hfound u (hr.extends_table.trans hu) hc]
      simp only [hsame, Option.some.injEq, eq_comm]
    refine (ih hr.correct hrest hadd).congr ?_
    intro u d
    simp only [List.mem_cons, exists_eq_or_imp, or_assoc]

theorem lists_definitions (hg : sc.blocks.Grounded) (h : sc.Correct t []) (object : Nat)
    (b : Fin sc.blocks.count) (stop : Nat) {query : ByteSet} (hq : query.Valid) :
    sc.Lists (sc.definitions object t b stop query hq).1
      (fun u => AnswersWalk u object (sc.walk object b stop query))
      (sc.definitions object t b stop query hq).2 := by
  unfold definitions
  split
  case h_1 found hw =>
    intro u _ _ d
    simp [AnswersWalk, hw, Walk.found, Walk.Open]
  case h_2 found c opened hw =>
    have hfound : sc.Lists t (fun _ d => d ∈ found) found := fun _ _ _ _ => Iff.rfl
    refine (lists_demandAll hg h (sc.valid_of_walk hq hw) hfound).congr ?_
    intro u d
    simp only [AnswersWalk, hw, Walk.found, Walk.Open]
    constructor
    · rintro (hd | ⟨i, hi, hd⟩)
      · exact .inl hd
      · exact .inr ⟨c, i, ⟨rfl, hi⟩, hd⟩
    · rintro (hd | ⟨_, i, ⟨rfl, hi⟩, hd⟩)
      · exact .inl hd
      · exact .inr ⟨i, hi, hd⟩

theorem lists_definitionsOfAll (hg : sc.blocks.Grounded) {b : Fin sc.blocks.count} {stop : Nat}
    (hstop : stop ≤ (sc.blocks.nodes b).length) {objects : List Nat} (h : sc.Correct t [])
    {found : List MemoryDef} {wanted : PhiTable → MemoryDef → Prop}
    (hfound : sc.Lists t wanted found) :
    sc.Lists (sc.definitionsOfAll b stop objects t found).1
      (fun u d => wanted u d ∨
        ∃ object ∈ objects, AnswersWalk u object (sc.walk object b stop .full) d)
      (sc.definitionsOfAll b stop objects t found).2 := by
  induction objects generalizing t found wanted with
  | nil =>
    refine hfound.congr ?_
    intro u d
    simp
  | cons object objects ih =>
    have hr := resolved_definitions hg h object hstop ByteSet.valid_full
    have hdefs := lists_definitions hg h object b stop ByteSet.valid_full
    refine (ih hr.correct ((hfound.grows hr.extends_table).addDefs hdefs)).congr ?_
    intro u d
    simp only [List.mem_cons, exists_eq_or_imp, or_assoc]

/-! ## Regions -/

/-- A definition answers a question for a region at a node: it answers the walk from the place of the
node, for the bytes of the region, or for some object as a whole if the region is one of unknown
memory. -/
def AnswersRegion (sc : Scope) (objects : List Nat) (n : Nat) (region : Region) (t : PhiTable)
    (d : MemoryDef) : Prop :=
  ∃ b stop, sc.blocks.place? n = some (b, stop) ∧
    let r := sc.accesses.normalize region
    if r.object = unknownMemory then
      ∃ object ∈ objects, AnswersWalk t object (sc.walk object b stop .full) d
    else
      AnswersWalk t r.object (sc.walk r.object b stop r.bytes) d

theorem answersRegion_iff {objects : List Nat} {n stop : Nat} {region : Region}
    {b : Fin sc.blocks.count} (hp : sc.blocks.place? n = some (b, stop)) {d : MemoryDef} :
    sc.AnswersRegion objects n region t d ↔
      let r := sc.accesses.normalize region
      if r.object = unknownMemory then
        ∃ object ∈ objects, AnswersWalk t object (sc.walk object b stop .full) d
      else
        AnswersWalk t r.object (sc.walk r.object b stop r.bytes) d := by
  constructor
  · rintro ⟨c, stop', hc, h⟩
    obtain ⟨rfl, rfl⟩ := Prod.mk.inj (Option.some.inj (hc.symm.trans hp))
    exact h
  · intro h
    exact ⟨b, stop, hp, h⟩

theorem lists_resolve (hr : sc.Regular) (objects : List Nat) (h : sc.Correct t []) (n : Nat)
    (region : Region) :
    sc.Lists (sc.resolve objects t n region).1 (sc.AnswersRegion objects n region)
      (sc.resolve objects t n region).2 := by
  unfold resolve
  split
  case h_1 hnone =>
    intro u _ _ d
    simp [AnswersRegion, hnone]
  case h_2 b stop hp =>
    simp only
    split
    case isTrue hobj =>
      refine (lists_definitionsOfAll hr.grounded (hr.place_le hp) h (sc.lists_nil t)).congr ?_
      intro u d
      rw [answersRegion_iff hp]
      simp [hobj]
    case isFalse hobj =>
      refine (lists_definitions hr.grounded h _ b stop _).congr ?_
      intro u d
      rw [answersRegion_iff hp]
      simp only [hobj, if_false]

theorem lists_resolveAll (hr : sc.Regular) (objects : List Nat) (n : Nat) (regions : List Region)
    (h : sc.Correct t []) {found : List MemoryDef} {wanted : PhiTable → MemoryDef → Prop}
    (hfound : sc.Lists t wanted found) :
    sc.Lists (sc.resolveAll objects n regions t found).1
      (fun u d => wanted u d ∨ ∃ region ∈ regions, sc.AnswersRegion objects n region u d)
      (sc.resolveAll objects n regions t found).2 := by
  induction regions generalizing t found wanted with
  | nil =>
    refine hfound.congr ?_
    intro u d
    simp
  | cons region regions ih =>
    have hresolved := resolved_resolve hr objects h n region
    have hadd := (hfound.grows hresolved.extends_table).addDefs (lists_resolve hr objects h n region)
    refine (ih hresolved.correct hadd).congr ?_
    intro u d
    simp only [List.mem_cons, exists_eq_or_imp, or_assoc]

/-- What answers a question is a write, or what the phi for some key stands for. -/
theorem AnswersRegion.exists_find? (hr : sc.Regular) {objects : List Nat} {n id : Nat}
    {region : Region} (h : sc.AnswersRegion objects n region t (.phi id)) :
    ∃ key, t.find? key = some (.phi id) := by
  have hwalk : ∀ {object b stop query}, sc.blocks.place? n = some (b, stop) → query.Valid →
      AnswersWalk t object (sc.walk object b stop query) (.phi id) →
        ∃ key, t.find? key = some (.phi id) := by
    rintro object b stop query hp hq (hfound | ⟨c, i, -, hfind⟩)
    · rcases (walks_walk hr.grounded object b stop query).found_sound hq (hr.place_le hp) hfound with
        hnil | ⟨w, hw, -⟩
      · exact absurd hnil List.not_mem_nil
      · exact absurd hw (by simp)
    · exact ⟨_, hfind⟩
  obtain ⟨b, stop, hp, h⟩ := h
  simp only at h
  split at h
  · obtain ⟨object, -, h⟩ := h
    exact hwalk hp ByteSet.valid_full h
  · exact hwalk hp (Region.valid_bytes _) h

end Scope

namespace MemorySsa

variable {m : MemorySsa} {g : AccessGraph}

/-- The definitions of the reads that were resolved are what answers them. -/
def ReadsListed (m : MemorySsa) : Prop :=
  ∀ r ∈ m.reads, m.scope.Lists m.table (fun u d => ∃ region ∈ m.scope.accesses.reads r.node,
    m.scope.AnswersRegion m.objects r.node region u d) r.defs

theorem ReadsListed.resolveReads (hs : m.Sound) (h : m.ReadsListed) (n : Nat) :
    (m.resolveReads n).ReadsListed := by
  unfold MemorySsa.resolveReads
  split
  case h_1 => exact h
  case h_2 =>
    have hresolved := Scope.resolved_resolveAll hs.regular m.objects n (m.scope.accesses.reads n)
      hs.correct (m.scope.means_nil m.table)
    have hlists := Scope.lists_resolveAll hs.regular m.objects n (m.scope.accesses.reads n) hs.correct
      (m.scope.lists_nil m.table)
    intro r hr
    rcases List.mem_append.mp hr with hr | hr
    · exact (h r hr).grows hresolved.extends_table
    · obtain rfl := List.mem_singleton.mp hr
      refine hlists.congr ?_
      intro u d
      rw [false_or]

theorem readsListed_compute (g : AccessGraph) (fieldInsensitive : Bool) :
    (compute g fieldInsensitive).ReadsListed := by
  have hboth : (compute g fieldInsensitive).Sound ∧ (compute g fieldInsensitive).ReadsListed := by
    unfold compute
    refine List.foldlRecOn (motive := fun m : MemorySsa => m.Sound ∧ m.ReadsListed) _ _ ?_ ?_
    · exact ⟨⟨Scope.regular_ofGraph _ g, Scope.correct_empty _, by simp⟩, by simp [ReadsListed]⟩
    · intro m h n _
      exact ⟨h.1.resolveReads n, h.2.resolveReads h.1 n⟩
  exact hboth.2

theorem ReadsListed.definitions (hs : m.Sound) (h : m.ReadsListed) (n : Nat) (region : Region) :
    (m.definitions n region).2.ReadsListed :=
  fun r hr => Scope.Lists.grows (h r hr)
    (Scope.resolved_resolve hs.regular m.objects hs.correct n region).extends_table

theorem Of.reached_of_place? {fieldInsensitive : Bool} (h : m.Of g fieldInsensitive) {n : Nat}
    {place : Fin m.scope.blocks.count × Nat} (hp : m.scope.blocks.place? n = some place) :
    g.Reached n := by
  obtain ⟨scope, objects, table, reads⟩ := m
  obtain rfl := h.scope
  exact (BlockGraph.placed_of_getElem? (BlockGraph.place?_eq_some.mp hp)).reached

/-- The definitions of what a node reads are those that answer its reads. -/
theorem mem_readDefs (hs : m.Sound) {fieldInsensitive : Bool} (hof : m.Of g fieldInsensitive)
    (hr : m.ReadsResolved g) (h : m.ReadsListed) {n : Nat} {d : MemoryDef} : d ∈ m.readDefs n ↔
      ∃ region ∈ m.scope.accesses.reads n, m.scope.AnswersRegion m.objects n region m.table d := by
  unfold readDefs read?
  cases hfind : m.reads.find? (·.node = n) with
  | some r =>
    have hnode : r.node = n := by simpa using List.find?_some hfind
    have hlists := h r (List.mem_of_find?_eq_some hfind) m.table (.refl _) hs.correct d
    rw [hnode] at hlists
    simpa using hlists
  | none =>
    refine ⟨fun hd => absurd hd (by simp), ?_⟩
    rintro ⟨region, hregion, b, stop, hp, -⟩
    have hn : g.Reached n := hof.reached_of_place? hp
    obtain ⟨r, hmem, hnode⟩ := hr.complete n hn (List.ne_nil_of_mem hregion)
    exact absurd hnode (by simpa using List.find?_eq_none.mp hfind r hmem)

end MemorySsa

end MemDep
