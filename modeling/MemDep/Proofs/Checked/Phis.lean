import MemDep.Proofs.Analysis.Replacements
import MemDep.Proofs.Checked.Analysis
import MemDep.Proofs.Ssa.Joins

/-!
# What holds of stored phis

The ids, marks and counters of the phis that an analysis stores are kept up to date one at a time
while look-ups are nested. Between calls they agree with each other and with the graph
(`Form.Settled`), and no call changes a phi that was stored before (`phis_settled`).
-/

namespace MemDep

namespace Checked

/-- A stored phi has its position as its id, and is not empty. At least two blocks come before its
own, or one if that is the entry. Its operands are distinct, and are phis that exist and nodes that
the root leads to with a write that may touch one of its bytes. It is marked as trivial if exactly
one operand is not the phi itself. -/
structure StoredPhi.Settled (g : AccessGraph) (fieldInsensitive : Bool) (f : Form) (k : Nat)
    (p : StoredPhi) : Prop where
  id : p.id = k
  bytes : p.key.bytes.start < p.key.bytes.stop
  join : ∃ b, f.blocks.blocks[p.key.block]? = some b ∧ b.predecessors.Nodup ∧
    (2 ≤ b.predecessors.length ∨
      f.blocks.entry = some p.key.block ∧ 1 ≤ b.predecessors.length)
  nodup : p.operands.Nodup
  phi : ∀ i, .phi i ∈ p.operands → i < f.store.phis.size
  write : ∀ n, .write n ∈ p.operands → g.FromRoot n ∧
    ∃ w ∈ (Accesses.ofGraph g fieldInsensitive).writes n,
      ∃ byte ∈ p.key.bytes, w.Touches p.key.object byte
  trivial : p.isTrivial = true ↔ ∃! d, d ∈ p.operands ∧ d ≠ .phi k

/-- What holds of the phis of a form between calls. -/
structure Form.Settled (g : AccessGraph) (fieldInsensitive : Bool) (f : Form) : Prop where
  phis : ∀ (k : Nat) (p : StoredPhi), f.store.phis[k]? = some p → p.Settled g fieldInsensitive f k
  unique : ∀ (j k : Nat) (p q : StoredPhi), f.store.phis[j]? = some p →
    f.store.phis[k]? = some q → p.key = q.key → j = k
  created : f.store.created = f.store.phis.size
  trivials : f.store.trivials = f.store.phis.countP (·.isTrivial)

/-! ## Stores of tables -/

variable {t u : PhiTable}

theorem exists_of_getElem?_of {k : Nat} {p : StoredPhi} (h : (Store.of t).phis[k]? = some p) :
    ∃ q, t.phis[k]? = some q ∧ p = ⟨k, q.key, q.operands, (q.replacement? k).isSome⟩ := by
  simp only [Store.of, Array.getElem?_mapIdx] at h
  obtain ⟨q, hq, rfl⟩ := Option.map_eq_some_iff.mp h
  exact ⟨q, hq, rfl⟩

theorem trivials_of (t : PhiTable) :
    (Store.of t).trivials = (Store.of t).phis.countP (·.isTrivial) := by
  have hmarks : (Store.of t).phis.toList.map (·.isTrivial) =
      (List.range t.size).map t.isTrivial := by
    refine List.ext_getElem? fun k => ?_
    rw [List.getElem?_map, List.getElem?_map, Array.getElem?_toList]
    cases hp : t.phis[k]? with
    | none =>
      have hk : t.size ≤ k := Array.getElem?_eq_none_iff.mp hp
      rw [Array.getElem?_eq_none (by rwa [size_of]),
        List.getElem?_eq_none (by rwa [List.length_range])]
      rfl
    | some p =>
      have hk : k < t.size := PhiTable.lt_of_getElem? hp
      rw [getElem?_of hp, List.getElem?_range hk, Option.map_some, Option.map_some,
        PhiTable.isTrivial_of_getElem? hp]
  calc (Store.of t).trivials
    _ = ((List.range t.size).map t.isTrivial).countP id := by
      rw [List.countP_map]
      rfl
    _ = (Store.of t).phis.toList.countP (·.isTrivial) := by
      rw [← hmarks, List.countP_map]
      rfl
    _ = (Store.of t).phis.countP (·.isTrivial) := Array.countP_toList

theorem prefix_of_extends (h : t.Extends u) :
    (Store.of t).phis.toList <+: (Store.of u).phis.toList := by
  rw [List.prefix_iff_getElem?]
  intro k hk
  have hget := List.getElem?_eq_getElem hk
  rw [Array.getElem?_toList] at hget
  obtain ⟨q, hq, hp⟩ := exists_of_getElem?_of hget
  rw [Array.getElem?_toList, getElem?_of (h k q hq), hp]

/-! ## Forms of graphs -/

section Settled

variable {g : AccessGraph} {fieldInsensitive : Bool} {m : MemorySsa}

theorem exists_block_of_join {bg : BlockGraph} {b : Fin bg.count} (h : bg.Join b)
    (hnodup : (bg.predecessors b).Nodup) :
    ∃ block, (Blocks.of bg).blocks[b.val]? = some block ∧ block.predecessors.Nodup ∧
      (2 ≤ block.predecessors.length ∨
        (Blocks.of bg).entry = some b.val ∧ 1 ≤ block.predecessors.length) := by
  refine ⟨_, getElem?_blocks bg b, hnodup.map Fin.val_injective, ?_⟩
  rw [List.length_map]
  refine h.imp_right ?_
  rintro ⟨he, hpred⟩
  exact ⟨by rw [Blocks.of, he]; rfl, hpred⟩

theorem nodup_predecessors_of (hof : m.Of g fieldInsensitive) (b : Fin m.scope.blocks.count) :
    (m.scope.blocks.predecessors b).Nodup := by
  obtain ⟨scope, objects, table, reads⟩ := m
  obtain rfl := hof.scope
  exact BlockGraph.nodup_predecessors b

/-- Writes among the operands of a phi are in nodes that a search for one of its bytes finds. -/
theorem fromRoot_of_mem_operands (hg : g.WellFormed) (h : m.Sound) (hof : m.Of g fieldInsensitive)
    {id n : Nat} {p : Phi} (hp : m.table.phis[id]? = some p) (hn : .write n ∈ p.operands) :
    g.FromRoot n ∧ ∃ w ∈ (Accesses.ofGraph g fieldInsensitive).writes n,
      ∃ byte ∈ p.key.bytes, w.Touches p.key.object byte := by
  obtain ⟨scope, objects, table, reads⟩ := m
  obtain rfl := hof.scope
  obtain ⟨b, -, byte, hbyte, hf⟩ := (h.correct.filled_of_nil hp).sound _ hn
  obtain ⟨hreached, w, hw, htouch⟩ := Scope.reached_of_finds hf
  exact ⟨hg.reached_iff_fromRoot.mp hreached, w, hw, byte, hbyte, htouch⟩

theorem settled_of (hg : g.WellFormed) (h : m.Sound) (hof : m.Of g fieldInsensitive)
    (hproper : m.table.Proper m.scope.blocks) : (Form.of m).Settled g fieldInsensitive := by
  refine ⟨?_, ?_, ?_, trivials_of m.table⟩
  · intro k p hk
    obtain ⟨q, hq, rfl⟩ := exists_of_getElem?_of hk
    have hfilled := h.correct.filled_of_nil hq
    obtain ⟨⟨b, hb, hjoin⟩, hnodup⟩ := hproper k q hq
    refine ⟨rfl, hfilled.valid.1, ?_, hnodup, ?_, ?_, Phi.isSome_replacement?_iff hnodup k⟩
    · rw [hb]
      exact exists_block_of_join hjoin (nodup_predecessors_of hof b)
    · intro i hi
      obtain ⟨r, hr, -⟩ := hfilled.sound _ hi
      exact (size_of m.table).symm ▸ PhiTable.lt_of_getElem? hr
    · intro n hn
      exact fromRoot_of_mem_operands hg h hof hq hn
  · intro j k p q hj hk hkey
    obtain ⟨p', hp', rfl⟩ := exists_of_getElem?_of hj
    obtain ⟨q', hq', rfl⟩ := exists_of_getElem?_of hk
    exact h.correct.unique hp' hq' hkey
  · exact (size_of m.table).symm

end Settled

/-! ## Calls -/

section Calls

variable {g : AccessGraph} {s : AnalysisSettings} {m : MemorySsa}

/-- The definitions of what a node reads depend only on the reads that were resolved. -/
theorem readDefs_congr {m' : MemorySsa} (h : m'.reads = m.reads) (n : Nat) :
    MemDep.Analysis.readDefs ⟨g, s, some (.ssa m')⟩ n =
        MemDep.Analysis.readDefs ⟨g, s, some (.ssa m)⟩ n ∧
      MemDep.Analysis.readDefinitions ⟨g, s, some (.ssa m')⟩ n =
        MemDep.Analysis.readDefinitions ⟨g, s, some (.ssa m)⟩ n := by
  have hdefs : m'.readDefs n = m.readDefs n := by
    simp only [MemorySsa.readDefs, MemorySsa.read?, h]
  have hwriters : m'.readDefinitions n = m.readDefinitions n := by
    simp only [MemorySsa.readDefinitions, MemorySsa.read?, h]
  unfold MemDep.Analysis.readDefs MemDep.Analysis.readDefinitions MemDep.Analysis.resultAt
  cases g.contains n with
  | false => exact ⟨rfl, rfl⟩
  | true => exact ⟨congrArg Except.ok hdefs, congrArg Except.ok hwriters⟩

/-- A question adds phis to the table, and leaves what is there as it is. -/
theorem extends_definitions (h : m.Sound) (n : Nat) (region : Region) :
    m.table.Extends (m.definitions n region).2.table :=
  (Scope.resolved_resolve h.regular m.objects h.correct n region).extends_table

/-- After a run in static single assignment form and any calls, what the arrays hold is the form that
the analysis has come to, and its phis are settled. More calls store phis after those that are there,
which they leave as they are; nor do they change the definitions of what any node reads. -/
theorem phis_settled {a : MemDep.Analysis} (hssa : s.useSsa = true)
    (hrun : (MemDep.Analysis.new g s).run = .ok a) (calls : List MemDep.Analysis.Call) :
    let r := a.performAll calls
    ∃ m, r.2 = ⟨g, s, some (.ssa m)⟩ ∧
      (Analysis.new g s).run = some (.ok (.of a)) ∧
      (Analysis.of a).performAll calls = some (r.1, ⟨g, s, some (.ssa (.of m))⟩) ∧
      (Form.of m).Settled g s.fieldInsensitive ∧
      ∀ more, ∃ m', (r.2.performAll more).2 = ⟨g, s, some (.ssa m')⟩ ∧
        (Form.of m).store.phis.toList <+: (Form.of m').store.phis.toList ∧
        ∀ n, (r.2.performAll more).2.readDefs n = r.2.readDefs n ∧
          (r.2.performAll more).2.readDefinitions n = r.2.readDefinitions n := by
  intro r
  obtain ⟨hs, hg, -⟩ := MemDep.Analysis.of_run_eq_ok hrun
  have hchecked : (Analysis.new g s).run = some ((MemDep.Analysis.new g s).run.map .of) :=
    run_of (.new g s)
  rw [hrun] at hchecked
  obtain ⟨hcalls, -⟩ := performAll_of (sized_run (sized_new g s) hrun) calls
  obtain rfl : ⟨g, s, some (.ssa (.compute g s.fieldInsensitive))⟩ = a := by
    rw [MemDep.Analysis.run_of_useSsa hg hs hssa] at hrun
    exact Except.ok.inj hrun
  obtain ⟨m, hm, hproper⟩ := (MemDep.Analysis.ssaOf_run g s).performAll_keeps
    (fun m n region hs h => MemorySsa.proper_definitions hs.regular.grounded h n region)
    (MemorySsa.proper_compute g _) calls
  have hr : r.2 = ⟨g, s, some (.ssa m)⟩ := hm.eq
  have hwf := AccessGraph.wellFormed_of_structuralError hg
  rw [hm.eq] at hcalls
  refine ⟨m, hr, hchecked, hcalls, settled_of hwf hm.sound hm.of hproper, ?_⟩
  intro more
  obtain ⟨m', hm', hext, hreads⟩ := hm.performAll_keeps
    (fun m' n region hs (h : m.table.Extends m'.table ∧ m'.reads = m.reads) =>
      ⟨h.1.trans (extends_definitions hs n region), h.2⟩)
    ⟨.refl m.table, rfl⟩ more
  refine ⟨m', hm'.eq, prefix_of_extends hext, fun n => ?_⟩
  rw [hm'.eq, hr]
  exact readDefs_congr hreads n

open MemDep.Analysis (nestedLoop nestedTable) in
/-- The nested loops have a phi each, and both are trivial. -/
theorem phis_settled_nestedLoop : ∃ a m, (MemDep.Analysis.new nestedLoop (.ofPreset .fast)).run =
      .ok a ∧ a.result? = some (.ssa m) ∧ (Form.of m).Settled nestedLoop false ∧
    (Form.of m).store.created = 2 ∧ (Form.of m).store.trivials = 2 := by
  have hrun := MemDep.Analysis.run_of_useSsa (g := nestedLoop) (s := .ofPreset .fast) (by decide)
    (by decide) rfl
  obtain ⟨m, hm, -, -, hsettled, -⟩ := phis_settled rfl hrun []
  obtain rfl : MemorySsa.compute nestedLoop false = m :=
    AnalysisResult.ssa.inj (Option.some.inj (congrArg MemDep.Analysis.result? hm))
  obtain ⟨objects, writers, writers', hcompute⟩ := MemDep.Analysis.exists_compute_nestedLoop
  have htable := congrArg MemorySsa.table hcompute
  have hsize : nestedTable.size = 2 := by decide +kernel
  have htrivial : nestedTable.trivialCount = 2 := by decide +kernel
  exact ⟨_, _, hrun, rfl, hsettled, (congrArg PhiTable.size htable).trans hsize,
    (congrArg PhiTable.trivialCount htable).trans htrivial⟩

end Calls

end Checked

end MemDep
