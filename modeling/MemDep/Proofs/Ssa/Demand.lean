import MemDep.Proofs.Ssa.Phi
import MemDep.Proofs.Ssa.Walk
import MemDep.Ssa.Demand

/-!
# What a look-up finds

The invariant of look-ups is `Scope.Correct`: the phis of a table that are not pending have operands
that agree with a search for single bytes. It speaks about one step only. A write among the operands
is found by a search from the start of the block; a phi among them leads to nothing else either; and
whatever the walk from a predecessor found or left open is among the operands. A look-up adds phis
that satisfy this (`Scope.demand_result`), with the phis that are being looked up pending.

When nothing is pending, the writes behind a phi are exactly those that a search finds: one inclusion
is by induction on the operands that lead to a write, the other one by induction on the search.
-/

namespace MemDep

namespace Scope

variable {sc : Scope} {object : Nat} {t u : PhiTable}

/-! ## Operands that agree with a search -/

/-- A search for a byte of the interval of a key, from the start of its block, finds a write of `w`. -/
def Reaches (sc : Scope) (key : PhiKey) (w : Nat) : Prop :=
  ∃ b : Fin sc.blocks.count, key.block = b.val ∧
    ∃ byte ∈ key.bytes, sc.Finds key.object byte w b 0

/-- A definition leads only to writes that satisfy `goal`: it is such a write, or a phi for a key
from which a search finds only such writes. -/
def Backed (sc : Scope) (t : PhiTable) (goal : Nat → Prop) : MemoryDef → Prop
  | .write w => goal w
  | .phi id => ∃ p, t.phis[id]? = some p ∧ ∀ w, sc.Reaches p.key w → goal w

/-- What a walk found is among some definitions, and so is something that stands for each interval
that it left open. -/
structure Answered {count : Nat} (t : PhiTable) (object : Nat) (r : Walk count)
    (defs : List MemoryDef) : Prop where
  found : ∀ d ∈ r.found, d ∈ defs
  opened : ∀ c i, r.Open c i → ∃ d ∈ defs, t.Stands ⟨c, object, i⟩ d

/-- The walk that looks for an interval at the end of a block. -/
def walkFromEnd (sc : Scope) (object : Nat) (i : Interval) (a : Fin sc.blocks.count) :
    Walk sc.blocks.count :=
  sc.walk object a (sc.blocks.nodes a).length (.ofInterval i)

/-- A phi has its operands, and they agree with a search. -/
structure Filled (sc : Scope) (t : PhiTable) (p : Phi) : Prop where
  valid : p.key.bytes.Valid
  sound : ∀ d ∈ p.operands, sc.Backed t (sc.Reaches p.key) d
  complete : ∃ b : Fin sc.blocks.count, p.key.block = b.val ∧ ∀ a ∈ sc.blocks.predecessors b,
    Answered t p.key.object (sc.walkFromEnd p.key.object p.key.bytes a) p.operands

/-- All phis of a table agree with a search, except for those that are pending and have no operands
yet. No two phis have the same key. -/
structure Correct (sc : Scope) (t : PhiTable) (pending : List Nat) : Prop where
  lt : ∀ id ∈ pending, id < t.size
  unfilled : ∀ {id : Nat} {p : Phi}, t.phis[id]? = some p → id ∈ pending → p.operands = []
  filled : ∀ {id : Nat} {p : Phi}, t.phis[id]? = some p → id ∉ pending → sc.Filled t p
  unique : ∀ {id id' : Nat} {p q : Phi}, t.phis[id]? = some p → t.phis[id']? = some q →
    p.key = q.key → id = id'

theorem Backed.mono {goal goal' : Nat → Prop} {d : MemoryDef} (h : sc.Backed t goal d)
    (hg : t.Grows u) (hgoal : ∀ w, goal w → goal' w) : sc.Backed u goal' d := by
  cases d with
  | write w => exact hgoal w h
  | phi id =>
    obtain ⟨p, hp, h⟩ := h
    obtain ⟨q, hq, hkey⟩ := hg.keys hp
    exact ⟨q, hq, fun w hw => hgoal w (h w (hkey ▸ hw))⟩

theorem Answered.grows {count : Nat} {r : Walk count} {defs : List MemoryDef}
    (h : Answered t object r defs) (hg : t.Grows u) : Answered u object r defs := by
  refine ⟨h.found, ?_⟩
  intro c i hi
  obtain ⟨d, hd, hs⟩ := h.opened c i hi
  exact ⟨d, hd, hg.stands hs⟩

theorem Filled.grows {p : Phi} (h : sc.Filled t p) (hg : t.Grows u) : sc.Filled u p := by
  obtain ⟨b, hb, hans⟩ := h.complete
  exact ⟨h.valid, fun d hd => (h.sound d hd).mono hg fun _ hw => hw,
    b, hb, fun a ha => (hans a ha).grows hg⟩

theorem correct_empty (sc : Scope) : sc.Correct .empty [] := by
  constructor <;> simp [PhiTable.empty]

/-- What stands for a key leads only to what a search from there finds. -/
theorem Correct.backed {pending : List Nat} (h : sc.Correct t pending) {key : PhiKey} {d : MemoryDef}
    (hd : t.Stands key d) : sc.Backed t (sc.Reaches key) d := by
  obtain ⟨id, p, hp, rfl, rfl | hr⟩ := hd
  · exact ⟨p, hp, fun w hw => hw⟩
  · by_cases hid : id ∈ pending
    · rw [Phi.replacement?_of_nil (h.unfilled hp hid)] at hr
      simp at hr
    · exact (h.filled hp hid).sound d (Phi.mem_of_replacement? hr)

theorem Correct.enter {pending : List Nat} (h : sc.Correct t pending) {key : PhiKey}
    (hkey : ¬ t.Has key) : sc.Correct (t.enter key) (t.size :: pending) := by
  have hgrows := (t.extends_enter key).grows
  have hcases : ∀ {id : Nat} {p : Phi}, (t.enter key).phis[id]? = some p →
      id = t.size ∧ p = ⟨key, []⟩ ∨ t.phis[id]? = some p := by
    intro id p hp
    rw [PhiTable.getElem?_enter] at hp
    split at hp
    case isTrue hid => exact .inl ⟨hid, (Option.some.inj hp).symm⟩
    case isFalse => exact .inr hp
  have hnew : ∀ {id : Nat} {p : Phi}, t.phis[id]? = some p → p.key ≠ key :=
    fun hp he => hkey ⟨_, Array.mem_of_getElem? hp, he⟩
  refine ⟨?_, ?_, ?_,
    ?_⟩
  · intro id hid
    have hsize := t.size_enter key
    rcases List.mem_cons.mp hid with rfl | hid
    · omega
    · have hlt := h.lt id hid
      omega
  · intro id p hp hid
    rcases hcases hp with ⟨_, rfl⟩ | hp
    · rfl
    · rcases List.mem_cons.mp hid with rfl | hid
      · exact absurd (PhiTable.lt_of_getElem? hp) (Nat.lt_irrefl _)
      · exact h.unfilled hp hid
  · intro id p hp hid
    rcases hcases hp with ⟨rfl, _⟩ | hp
    · exact absurd List.mem_cons_self hid
    · exact (h.filled hp fun hmem => hid (List.mem_cons_of_mem _ hmem)).grows hgrows
  · intro id id' p q hp hq he
    rcases hcases hp with ⟨rfl, rfl⟩ | hp <;> rcases hcases hq with ⟨rfl, rfl⟩ | hq
    · rfl
    · exact absurd he.symm (hnew hq)
    · exact absurd he (hnew hp)
    · exact h.unique hp hq he

theorem Correct.fill {pending : List Nat} {id : Nat} (h : sc.Correct t (id :: pending))
    (hid : id ∉ pending) {p : Phi} (hp : t.phis[id]? = some p) {operands : List MemoryDef}
    (hfilled : sc.Filled t { p with operands }) : sc.Correct (t.fill id operands) pending := by
  have hgrows := PhiTable.grows_fill hp (h.unfilled hp List.mem_cons_self) operands
  have hcases : ∀ {i : Nat} {q : Phi}, (t.fill id operands).phis[i]? = some q →
      i = id ∧ q = { p with operands } ∨ i ≠ id ∧ t.phis[i]? = some q := by
    intro i q hq
    rw [PhiTable.getElem?_fill] at hq
    split at hq
    case isTrue hi =>
      subst hi
      rw [hp] at hq
      exact .inl ⟨rfl, (Option.some.inj hq).symm⟩
    case isFalse hi => exact .inr ⟨hi, hq⟩
  have hkeys : ∀ {i : Nat} {q : Phi}, (t.fill id operands).phis[i]? = some q →
      ∃ q', t.phis[i]? = some q' ∧ q'.key = q.key := by
    intro i q hq
    rcases hcases hq with ⟨rfl, rfl⟩ | ⟨_, hq⟩
    · exact ⟨p, hp, rfl⟩
    · exact ⟨q, hq, rfl⟩
  refine ⟨?_, ?_, ?_,
    ?_⟩
  · intro i hi
    rw [PhiTable.size_fill]
    exact h.lt i (List.mem_cons_of_mem _ hi)
  · intro i q hq hi
    rcases hcases hq with ⟨rfl, _⟩ | ⟨_, hq⟩
    · exact absurd hi hid
    · exact h.unfilled hq (List.mem_cons_of_mem _ hi)
  · intro i q hq hi
    rcases hcases hq with ⟨rfl, rfl⟩ | ⟨hne, hq⟩
    · exact hfilled.grows hgrows
    · refine (h.filled hq ?_).grows hgrows
      intro hmem
      exact (List.mem_cons.mp hmem).elim hne hi
  · intro i j q q' hq hq' he
    obtain ⟨r, hr, hkey⟩ := hkeys hq
    obtain ⟨r', hr', hkey'⟩ := hkeys hq'
    exact h.unique hr hr' (by rw [hkey, hkey', he])

/-! ## Looking up keys -/

structure DemandResult (sc : Scope) (pending : List Nat) (t : PhiTable) (key : PhiKey)
    (r : PhiTable × MemoryDef) : Prop where
  extends_table : t.Extends r.1
  correct : sc.Correct r.1 pending
  stands : r.1.Stands key r.2

structure OperandsResult (sc : Scope) (object : Nat) (pending : List Nat) (t : PhiTable)
    (blocks : List (Fin sc.blocks.count)) (i : Interval) (found : List MemoryDef)
    (r : PhiTable × List MemoryDef) : Prop where
  extends_table : t.Extends r.1
  correct : sc.Correct r.1 pending
  kept : ∀ d ∈ found, d ∈ r.2
  answered : ∀ a ∈ blocks, Answered r.1 object (sc.walkFromEnd object i a) r.2
  backed : ∀ goal : Nat → Prop, (∀ d ∈ found, sc.Backed t goal d) →
    (∀ a ∈ blocks, ∀ byte ∈ i, ∀ w, sc.Finds object byte w a (sc.blocks.nodes a).length → goal w) →
      ∀ d ∈ r.2, sc.Backed r.1 goal d

structure DemandAllResult (sc : Scope) (object : Nat) (pending : List Nat) (t : PhiTable)
    (b : Fin sc.blocks.count) (opened : List Interval) (found : List MemoryDef)
    (r : PhiTable × List MemoryDef) : Prop where
  extends_table : t.Extends r.1
  correct : sc.Correct r.1 pending
  kept : ∀ d ∈ found, d ∈ r.2
  stands : ∀ i ∈ opened, ∃ d ∈ r.2, r.1.Stands ⟨b, object, i⟩ d
  backed : ∀ goal : Nat → Prop, (∀ d ∈ found, sc.Backed t goal d) →
    (∀ i ∈ opened, ∀ w, sc.Reaches ⟨b, object, i⟩ w → goal w) → ∀ d ∈ r.2, sc.Backed r.1 goal d

theorem reaches_iff {b : Fin sc.blocks.count} {i : Interval} {w : Nat} :
    sc.Reaches ⟨b, object, i⟩ w ↔ ∃ byte ∈ i, sc.Finds object byte w b 0 := by
  constructor
  · rintro ⟨c, hc, h⟩
    obtain rfl : b = c := Fin.ext hc
    exact h
  · intro h
    exact ⟨b, rfl, h⟩

/-- The definitions that a walk from the end of a block found lead to what a search finds. -/
theorem backed_of_mem_walkFromEnd (hg : sc.blocks.Grounded) {i : Interval} (hi : i.Valid)
    {a : Fin sc.blocks.count} {goal : Nat → Prop}
    (hgoal : ∀ byte ∈ i, ∀ w, sc.Finds object byte w a (sc.blocks.nodes a).length → goal w)
    {d : MemoryDef} (hd : d ∈ (sc.walkFromEnd object i a).found) : sc.Backed t goal d := by
  have hwalk := walks_walk hg object a (sc.blocks.nodes a).length (.ofInterval i)
  rcases hwalk.found_sound (ByteSet.valid_ofInterval hi.2) (Nat.le_refl _) hd with
    hd | ⟨w, rfl, byte, hbyte, hf⟩
  · simp at hd
  · exact hgoal byte (ByteSet.mem_ofInterval.mp hbyte) w hf

/-- What is found from an interval that such a walk left open is found from the end of the block. -/
theorem finds_of_reaches (hg : sc.blocks.Grounded) {i : Interval} (hi : i.Valid)
    {a c : Fin sc.blocks.count} {j : Interval} (hj : (sc.walkFromEnd object i a).Open c j) {w : Nat}
    (hw : sc.Reaches ⟨c, object, j⟩ w) :
    ∃ byte ∈ i, sc.Finds object byte w a (sc.blocks.nodes a).length := by
  obtain ⟨byte, hbyte, hf⟩ := reaches_iff.mp hw
  have hwalk := walks_walk hg object a (sc.blocks.nodes a).length (.ofInterval i)
  obtain ⟨hmem, hf⟩ := hwalk.open_sound (ByteSet.valid_ofInterval hi.2) (Nat.le_refl _) hj hbyte hf
  exact ⟨byte, ByteSet.mem_ofInterval.mp hmem, hf⟩

/-! ### One step of a look-up -/

theorem demand_of_some {b : Fin sc.blocks.count} {i : Interval} {hi : i.Valid} {d : MemoryDef}
    (h : t.find? ⟨b, object, i⟩ = some d) : (sc.demand object t b i hi).1 = (t, d) := by
  rw [demand]
  split
  case h_1 d' hd' => rw [Option.some.inj (hd'.symm.trans h)]
  case h_2 hnone => simp [h] at hnone

theorem demand_of_none {b : Fin sc.blocks.count} {i : Interval} {hi : i.Valid}
    (h : t.find? ⟨b, object, i⟩ = none) :
    (sc.demand object t b i hi).1 =
      let r := (sc.operands object (t.enter ⟨b, object, i⟩) (sc.blocks.predecessors b) i hi []).1
      (r.1.fill t.size r.2, (r.1.fill t.size r.2).value t.size) := by
  rw [demand]
  split
  case h_1 d' hd' => simp [h] at hd'
  case h_2 => rfl

theorem DemandResult.of_some {pending : List Nat} (h : sc.Correct t pending)
    {b : Fin sc.blocks.count} {i : Interval} {hi : i.Valid} {d : MemoryDef}
    (hd : t.find? ⟨b, object, i⟩ = some d) :
    sc.DemandResult pending t ⟨b, object, i⟩ (sc.demand object t b i hi).1 := by
  rw [demand_of_some hd]
  exact ⟨.refl t, h, PhiTable.stands_of_find? hd⟩

/-- A new phi is pending while its operands are looked up. -/
theorem DemandResult.of_none {pending : List Nat} (h : sc.Correct t pending)
    {b : Fin sc.blocks.count} {i : Interval} {hi : i.Valid} (hnone : t.find? ⟨b, object, i⟩ = none)
    (hr : sc.OperandsResult object (t.size :: pending) (t.enter ⟨b, object, i⟩)
      (sc.blocks.predecessors b) i []
      (sc.operands object (t.enter ⟨b, object, i⟩) (sc.blocks.predecessors b) i hi []).1) :
    sc.DemandResult pending t ⟨b, object, i⟩ (sc.demand object t b i hi).1 := by
  rw [demand_of_none hnone]
  generalize (sc.operands object (t.enter ⟨b, object, i⟩) (sc.blocks.predecessors b) i hi []).1 = r
    at hr
  have hp := hr.extends_table _ _ (t.getElem?_enter_self ⟨b, object, i⟩)
  have hfilled : sc.Filled r.1 ⟨⟨b, object, i⟩, r.2⟩ := by
    refine ⟨hi, hr.backed _ (by simp) ?_, b, rfl, hr.answered⟩
    intro a ha byte hbyte w hf
    exact reaches_iff.mpr ⟨byte, hbyte, .enter ha hf⟩
  refine ⟨?_, hr.correct.fill ?_ hp hfilled, ?_⟩
  · exact ((t.extends_enter _).trans hr.extends_table).fill (Nat.le_refl _) r.2
  · intro hmem
    exact absurd (h.lt _ hmem) (Nat.lt_irrefl _)
  · exact PhiTable.stands_value (PhiTable.getElem?_fill_self hp r.2)

theorem OperandsResult.nil {pending : List Nat} (h : sc.Correct t pending) {i : Interval}
    {hi : i.Valid} {found : List MemoryDef} : sc.OperandsResult object pending t [] i found
      (sc.operands object t [] i hi found).1 := by
  rw [operands]
  exact ⟨.refl t, h, fun _ hd => hd, by simp, fun goal hfound _ => hfound⟩

theorem operands_of_done {a : Fin sc.blocks.count} {rest : List (Fin sc.blocks.count)} {i : Interval}
    {hi : i.Valid} {found defs : List MemoryDef} (hw : sc.walkFromEnd object i a = .done defs) :
    sc.operands object t (a :: rest) i hi found =
      sc.operands object t rest i hi (addDefs found defs) := by
  rw [operands]
  split
  case h_1 defs' hdefs =>
    obtain rfl := Walk.done.inj (hdefs.symm.trans hw)
    rfl
  case h_2 hj => exact absurd (hj.symm.trans hw) (by simp)

theorem operands_of_join {a b : Fin sc.blocks.count} {rest : List (Fin sc.blocks.count)}
    {i : Interval} {hi : i.Valid} {found defs : List MemoryDef} {opened : List Interval}
    (hw : sc.walkFromEnd object i a = .join defs b opened) (hopened : ∀ j ∈ opened, j.Valid) :
    (sc.operands object t (a :: rest) i hi found).1 =
      let r := (sc.demandAll object t b opened hopened defs).1
      (sc.operands object r.1 rest i hi (addDefs found r.2)).1 := by
  rw [operands]
  split
  case h_1 hd => exact absurd (hd.symm.trans hw) (by simp)
  case h_2 defs' b' opened' hj =>
    obtain ⟨rfl, rfl, rfl⟩ := Walk.join.inj (hj.symm.trans hw)
    rfl

theorem OperandsResult.done (hg : sc.blocks.Grounded) {pending : List Nat} {a : Fin sc.blocks.count}
    {rest : List (Fin sc.blocks.count)} {i : Interval} {hi : i.Valid} {found defs : List MemoryDef}
    (hw : sc.walkFromEnd object i a = .done defs)
    (hr : sc.OperandsResult object pending t rest i (addDefs found defs)
      (sc.operands object t rest i hi (addDefs found defs)).1) :
    sc.OperandsResult object pending t (a :: rest) i found
      (sc.operands object t (a :: rest) i hi found).1 := by
  rw [operands_of_done hw]
  refine ⟨hr.extends_table, hr.correct, fun d hd => hr.kept d (mem_addDefs.mpr (.inl hd)), ?_, ?_⟩
  · refine List.forall_mem_cons.mpr ⟨?_, hr.answered⟩
    rw [hw]
    exact ⟨fun d hd => hr.kept d (mem_addDefs.mpr (.inr hd)), fun _ _ hopen => hopen.elim⟩
  · intro goal hfound hgoal
    refine hr.backed goal ?_ fun c hc => hgoal c (List.mem_cons_of_mem _ hc)
    intro d hd
    rcases mem_addDefs.mp hd with hd | hd
    · exact hfound d hd
    · exact backed_of_mem_walkFromEnd hg hi (hgoal a List.mem_cons_self) (hw ▸ hd)

theorem OperandsResult.join (hg : sc.blocks.Grounded) {pending : List Nat}
    {a b : Fin sc.blocks.count} {rest : List (Fin sc.blocks.count)} {i : Interval} {hi : i.Valid}
    {found defs : List MemoryDef} {opened : List Interval}
    (hw : sc.walkFromEnd object i a = .join defs b opened) (hopened : ∀ j ∈ opened, j.Valid)
    (hr : sc.DemandAllResult object pending t b opened defs
      (sc.demandAll object t b opened hopened defs).1)
    (hs : let r := (sc.demandAll object t b opened hopened defs).1
      sc.OperandsResult object pending r.1 rest i (addDefs found r.2)
        (sc.operands object r.1 rest i hi (addDefs found r.2)).1) :
    sc.OperandsResult object pending t (a :: rest) i found
      (sc.operands object t (a :: rest) i hi found).1 := by
  rw [operands_of_join hw hopened]
  generalize (sc.demandAll object t b opened hopened defs).1 = r at hr hs
  simp only at hs ⊢
  generalize (sc.operands object r.1 rest i hi (addDefs found r.2)).1 = s at hs
  have hkept : ∀ d ∈ r.2, d ∈ s.2 := by
    intro d hd
    exact hs.kept d (mem_addDefs.mpr (.inr hd))
  refine ⟨hr.extends_table.trans hs.extends_table, hs.correct,
    fun d hd => hs.kept d (mem_addDefs.mpr (.inl hd)), ?_, ?_⟩
  · refine List.forall_mem_cons.mpr ⟨?_, hs.answered⟩
    rw [hw]
    refine ⟨fun d hd => hkept d (hr.kept d hd), ?_⟩
    rintro c j ⟨rfl, hj⟩
    obtain ⟨d, hd, hstands⟩ := hr.stands j hj
    exact ⟨d, hkept d hd, hs.extends_table.grows.stands hstands⟩
  · intro goal hfound hgoal
    have hgoal_a := hgoal a List.mem_cons_self
    refine hs.backed goal ?_ fun c hc => hgoal c (List.mem_cons_of_mem _ hc)
    intro d hd
    rcases mem_addDefs.mp hd with hd | hd
    · exact (hfound d hd).mono hr.extends_table.grows fun _ h => h
    · refine hr.backed goal ?_ ?_ d hd
      · intro e he
        exact backed_of_mem_walkFromEnd hg hi hgoal_a (hw ▸ he)
      · intro j hj w hreach
        have hopen : (sc.walkFromEnd object i a).Open b j := by
          rw [hw]
          exact ⟨rfl, hj⟩
        obtain ⟨byte, hbyte, hf⟩ := finds_of_reaches hg hi hopen hreach
        exact hgoal_a byte hbyte w hf

theorem DemandAllResult.nil {pending : List Nat} (h : sc.Correct t pending) {b : Fin sc.blocks.count}
    {hopened : ∀ i ∈ ([] : List Interval), i.Valid} {found : List MemoryDef} :
    sc.DemandAllResult object pending t b [] found
      (sc.demandAll object t b [] hopened found).1 := by
  rw [demandAll]
  exact ⟨.refl t, h, fun _ hd => hd, by simp, fun goal hfound _ => hfound⟩

theorem demandAll_cons {b : Fin sc.blocks.count} {i : Interval} {rest : List Interval}
    {hopened : ∀ j ∈ i :: rest, j.Valid} {found : List MemoryDef} (hi : i.Valid)
    (hrest : ∀ j ∈ rest, j.Valid) :
    (sc.demandAll object t b (i :: rest) hopened found).1 =
      let r := (sc.demand object t b i hi).1
      (sc.demandAll object r.1 b rest hrest (addDef found r.2)).1 := by
  rw [demandAll]

theorem DemandAllResult.cons {pending : List Nat} {b : Fin sc.blocks.count} {i : Interval}
    {rest : List Interval} {hopened : ∀ j ∈ i :: rest, j.Valid} {found : List MemoryDef}
    (hi : i.Valid) (hrest : ∀ j ∈ rest, j.Valid)
    (hr : sc.DemandResult pending t ⟨b, object, i⟩ (sc.demand object t b i hi).1)
    (hs : let r := (sc.demand object t b i hi).1
      sc.DemandAllResult object pending r.1 b rest (addDef found r.2)
        (sc.demandAll object r.1 b rest hrest (addDef found r.2)).1) :
    sc.DemandAllResult object pending t b (i :: rest) found
      (sc.demandAll object t b (i :: rest) hopened found).1 := by
  rw [demandAll_cons hi hrest]
  generalize (sc.demand object t b i hi).1 = r at hr hs
  simp only at hs ⊢
  generalize (sc.demandAll object r.1 b rest hrest (addDef found r.2)).1 = s at hs
  refine ⟨hr.extends_table.trans hs.extends_table, hs.correct,
    fun d hd => hs.kept d (mem_addDef.mpr (.inl hd)), ?_, ?_⟩
  · refine List.forall_mem_cons.mpr ⟨?_, hs.stands⟩
    exact ⟨r.2, hs.kept _ (mem_addDef.mpr (.inr rfl)), hs.extends_table.grows.stands hr.stands⟩
  · intro goal hfound hgoal
    refine hs.backed goal ?_ fun j hj => hgoal j (List.mem_cons_of_mem _ hj)
    intro d hd
    rcases mem_addDef.mp hd with hd | rfl
    · exact (hfound d hd).mono hr.extends_table.grows fun _ h => h
    · exact (hr.correct.backed hr.stands).mono (PhiTable.Extends.refl r.1).grows
        (hgoal i List.mem_cons_self)

/-! ### Whole look-ups -/

/-- A look-up keeps a table correct, and finds what stands for its key. -/
theorem demand_result (hg : sc.blocks.Grounded) (object : Nat) :
    (∀ t (b : Fin sc.blocks.count) i hi pending, sc.Correct t pending →
      sc.DemandResult pending t ⟨b, object, i⟩ (sc.demand object t b i hi).1) ∧
    (∀ t blocks i hi found pending, sc.Correct t pending →
      sc.OperandsResult object pending t blocks i found (sc.operands object t blocks i hi found).1) ∧
    (∀ t b opened hopened found pending, sc.Correct t pending →
      sc.DemandAllResult object pending t b opened found
        (sc.demandAll object t b opened hopened found).1) := by
  refine demand.mutual_induct sc object
    (fun t b i hi => ∀ pending, sc.Correct t pending →
      sc.DemandResult pending t ⟨b, object, i⟩ (sc.demand object t b i hi).1)
    (fun t blocks i hi found => ∀ pending, sc.Correct t pending →
      sc.OperandsResult object pending t blocks i found (sc.operands object t blocks i hi found).1)
    (fun t b opened hopened found => ∀ pending, sc.Correct t pending →
      sc.DemandAllResult object pending t b opened found
        (sc.demandAll object t b opened hopened found).1) ?_ ?_ ?_ ?_ ?_ ?_ ?_
  -- one key: it has a phi, or a new one is entered and filled
  · intro t b i hi d hd pending h
    exact .of_some h hd
  · intro t b i hi hnone ih pending h
    have hnew : ¬ t.Has ⟨b, object, i⟩ := PhiTable.not_has_of_find?_eq_none hnone
    exact .of_none h hnone (ih _ (h.enter hnew))
  -- the operands of a phi: the walk from the next block ends by itself or at a join
  · intro t i hi found pending h
    exact .nil h
  · intro t i hi found a rest defs hw ih pending h
    exact .done hg hw (ih pending h)
  · intro t i hi found a rest defs b opened hw hopened r ih _ ih' pending h
    have hr := ih pending h
    exact .join hg hw hopened hr (ih' pending hr.correct)
  -- the intervals at a join, one after the other
  · intro t b found hopened _ pending h
    exact .nil h
  · intro t b found i rest hopened r _ ih _ _ ih' pending h
    have hr := ih pending h
    exact .cons _ _ hr (ih' pending hr.correct)

end Scope

end MemDep
