import MemDep.Proofs.Analysis.Ssa
import MemDep.Proofs.Ssa.Machine
import MemDep.Proofs.Ssa.Replaced

/-!
# Trivial phis among the definitions of reads

What a read is said to be defined by is settled when its phis have their operands: where a phi is
trivial, its replacement is listed. Around nested loops the replacement can be a phi that is still
open and turns out to be trivial later. It is listed all the same, since what was handed out is not
replaced again; so a trivial phi is listed only as the replacement of another one.
-/

namespace MemDep

namespace Analysis

variable {g : AccessGraph} {s : AnalysisSettings}

theorem SsaOf.readDefs_eq {a : Analysis} {m : MemorySsa} (h : SsaOf g s a m) {n : Nat}
    (hn : g.contains n = true) : a.readDefs n = .ok (m.readDefs n) := by
  unfold readDefs resultAt
  rw [h.result, h.graph_eq, hn]
  rfl

theorem SsaOf.phiTable_eq {a : Analysis} {m : MemorySsa} (h : SsaOf g s a m) :
    a.phiTable = m.table := by
  unfold phiTable
  rw [h.result]

/-- What building the form leaves behind about reads, and calls keep. -/
structure ReadsSettled (g : AccessGraph) (m : MemorySsa) : Prop where
  resolved : m.ReadsResolved g
  listed : m.ReadsListed

theorem SsaOf.readsSettled (calls : List Call) :
    ∃ m, SsaOf g s (Analysis.performAll ⟨g, s, some (.ssa (.compute g s.fieldInsensitive))⟩ calls).2 m ∧
      ReadsSettled g m := by
  refine (ssaOf_run g s).performAll_keeps (fun m n region hs h => ?_) ?_ calls
  · exact ⟨h.resolved.definitions n region, h.listed.definitions hs n region⟩
  · exact ⟨MemorySsa.readsResolved_compute g _, MemorySsa.readsListed_compute g _⟩

/-- After a run and any calls, what is listed for a node answers its reads: it is what walks from the
node find, and for each interval that a walk leaves open at a join what the phi for the interval
stands for, which is its replacement if it is trivial. A trivial phi that is listed has replaced
another one. -/
theorem readDefs_replaced_once (hg : g.structuralError = none) (hs : s.validate = .ok ())
    (hssa : s.useSsa = true) :
    let sc : Scope := ⟨.ofGraph g s.fieldInsensitive, .ofGraph g⟩
    ∃ a, (new g s).run = .ok a ∧ ∀ (calls : List Call) (n : Nat), g.contains n = true →
      let a' := (a.performAll calls).2
      ∃ defs, a'.readDefs n = .ok defs ∧
        (∀ d, d ∈ defs ↔ ∃ region ∈ sc.accesses.reads n,
          sc.AnswersRegion sc.accesses.writtenObjects n region a'.phiTable d) ∧
        (∀ (id : Nat) (p : Phi), a'.phiTable.phis[id]? = some p →
          a'.phiTable.find? p.key = some ((p.replacement? id).getD (.phi id))) ∧
        ∀ id, .phi id ∈ defs → a'.phiTable.isTrivial id = true →
          ∃ q p, a'.phiTable.phis[q]? = some p ∧ q ≠ id ∧ p.replacement? q = some (.phi id) := by
  intro sc
  refine ⟨_, run_of_useSsa hg hs hssa, ?_⟩
  intro calls n hn
  obtain ⟨m, h, hsettled⟩ := SsaOf.readsSettled (g := g) (s := s) calls
  have hmem : ∀ d, d ∈ m.readDefs n ↔ ∃ region ∈ sc.accesses.reads n,
      sc.AnswersRegion sc.accesses.writtenObjects n region m.table d := by
    intro d
    rw [MemorySsa.mem_readDefs h.sound h.of hsettled.resolved hsettled.listed, h.of.scope, h.of.objects]
  refine ⟨m.readDefs n, h.readDefs_eq hn, ?_⟩
  rw [h.phiTable_eq]
  refine ⟨hmem, ?_, ?_⟩
  · intro id p hp
    rw [h.sound.correct.find?_of_getElem? hp, PhiTable.value_of_getElem? hp]
  · intro id hid htrivial
    obtain ⟨region, -, hanswers⟩ := (hmem _).mp hid
    obtain ⟨key, hkey⟩ := hanswers.exists_find? (Scope.regular_ofGraph _ g)
    exact PhiTable.replaced_of_find?_trivial hkey htrivial

/-! ## Nested loops -/

/-- The loop of node 4 is inside the loop of nodes 3 and 4. -/
def nestedLoop : AccessGraph where
  nodes := #[
    ⟨0, .unknownMemory, [], [], [], [], []⟩,
    ⟨1, .alloc, [], [], [], [2], []⟩,
    ⟨2, .store, [], [firstBytes 1 4], [], [3], [1]⟩,
    ⟨3, .load, [], [], [firstBytes 1 4], [4], [2, 4]⟩,
    ⟨4, .load, [], [], [firstBytes 1 4], [3, 4], [3, 4]⟩]
  root := some 1

/-- At the inner load, the walk stops at the join of the inner loop. -/
theorem readDefs_replaced_once_nestedLoop : ∃ a, (new nestedLoop (.ofPreset .fast)).run = .ok a ∧
    ∃ defs, a.readDefs 4 = .ok defs ∧ ∀ id, .phi id ∈ defs → a.phiTable.isTrivial id = true →
      ∃ q p, a.phiTable.phis[q]? = some p ∧ q ≠ id ∧ p.replacement? q = some (.phi id) := by
  obtain ⟨a, ha, h⟩ := readDefs_replaced_once (g := nestedLoop) (s := .ofPreset .fast) (by decide)
    (by decide) rfl
  obtain ⟨defs, hdefs, -, -, hreplaced⟩ := h [] 4 (by decide)
  exact ⟨a, ha, defs, hdefs, hreplaced⟩

/-- The scope of the graph. -/
def nestedScope : Scope := ⟨.ofGraph nestedLoop false, .ofGraph nestedLoop⟩

/-- The block of the outer load. -/
def outerBlock : Fin nestedScope.blocks.count := ⟨1, by decide +kernel⟩

/-- The block of the inner load. -/
def innerBlock : Fin nestedScope.blocks.count := ⟨2, by decide +kernel⟩

/-- The look-up of what the loads read, at the start of a block. -/
def lookLoad (t : PhiTable) (b : Fin nestedScope.blocks.count) : Machine nestedScope.blocks.count :=
  nestedScope.runFor 1 30 (nestedScope.start t b 0 (firstBytes 1 4).bytes)

/-- Resolving the read of a load at the start of a block. -/
theorem resolveReads_nestedScope {objects : List Nat} {t : PhiTable} {reads : List ResolvedRead}
    {n : Nat} {b : Fin nestedScope.blocks.count} {found : List MemoryDef}
    (hreads : nestedScope.accesses.reads n = [firstBytes 1 4])
    (hp : nestedScope.blocks.place? n = some (b, 0))
    (hfound : Scope.answer? (lookLoad t b) = some found) :
    let u := (lookLoad t b).table
    MemorySsa.resolveReads ⟨nestedScope, objects, t, reads⟩ n =
      ⟨nestedScope, objects, u, reads ++ [⟨n, addDefs [] found, u.expand (addDefs [] found)⟩]⟩ := by
  have hg : nestedScope.blocks.Grounded := BlockGraph.grounded_ofGraph nestedLoop
  have hresolve : nestedScope.resolve objects t n (firstBytes 1 4) = ((lookLoad t b).table, found) := by
    unfold Scope.resolve
    rw [hp]
    exact Scope.definitions_eq_runFor hg (Region.valid_bytes _) hfound
  unfold MemorySsa.resolveReads
  simp only [hreads, Scope.resolveAll, hresolve]

/-- Only the loads read something. -/
theorem compute_nestedLoop : ∃ objects, MemorySsa.compute nestedLoop false =
    .resolveReads (.resolveReads ⟨nestedScope, objects, .empty, []⟩ 3) 4 := by
  have horder : nestedLoop.reversePostorder = [1, 2, 3, 4] := by decide +kernel
  have halloc : nestedScope.accesses.reads 1 = [] := by decide +kernel
  have hstore : nestedScope.accesses.reads 2 = [] := by decide +kernel
  have hskip : ∀ {m : MemorySsa} {n : Nat}, m.scope.accesses.reads n = [] → m.resolveReads n = m := by
    intro m n hn
    unfold MemorySsa.resolveReads
    rw [hn]
  refine ⟨nestedScope.accesses.writtenObjects, ?_⟩
  unfold MemorySsa.compute
  rw [horder, List.foldl_cons, hskip halloc, List.foldl_cons, hskip hstore]
  rfl

/-- The phis that the reads of the loads need. -/
def nestedTable : PhiTable := (lookLoad (lookLoad .empty outerBlock).table innerBlock).table

/-- The outer load is given the store, and the inner load the phi of the outer loop. -/
theorem exists_compute_nestedLoop : ∃ objects writers writers',
    MemorySsa.compute nestedLoop false =
      ⟨nestedScope, objects, nestedTable, [⟨3, [.write 2], writers⟩, ⟨4, [.phi 0], writers'⟩]⟩ := by
  have houter : nestedScope.blocks.place? 3 = some (outerBlock, 0) := by decide +kernel
  have hinner : nestedScope.blocks.place? 4 = some (innerBlock, 0) := by decide +kernel
  have hwrite : Scope.answer? (lookLoad .empty outerBlock) = some [.write 2] := by decide +kernel
  have hphi : Scope.answer? (lookLoad (lookLoad .empty outerBlock).table innerBlock) =
      some [.phi 0] := by decide +kernel
  obtain ⟨objects, hcompute⟩ := compute_nestedLoop
  rw [resolveReads_nestedScope (by decide +kernel) houter hwrite,
    resolveReads_nestedScope (by decide +kernel) hinner hphi] at hcompute
  exact ⟨objects, _, _, hcompute⟩

/-- The outer load finds the store, since the phi of the outer loop is trivial. The inner load is
given the phi of the outer loop, by which the phi of the inner loop was replaced before it was known
to be trivial. -/
theorem trivial_phi_listed_nestedLoop : nestedLoop.structuralError = none ∧
    nestedLoop.asymmetricEdges = [] ∧
    ∃ a, (new nestedLoop (.ofPreset .fast)).run = .ok a ∧ a.readDefs 3 = .ok [.write 2] ∧
      a.readDefs 4 = .ok [.phi 0] ∧ a.phiTable.isTrivial 0 = true := by
  have htrivial : nestedTable.isTrivial 0 = true := by decide +kernel
  obtain ⟨objects, writers, writers', hcompute⟩ := exists_compute_nestedLoop
  have hssa := ssaOf_run nestedLoop (.ofPreset .fast)
  refine ⟨by decide, by decide, _, run_of_useSsa (by decide) (by decide) rfl, ?_, ?_, ?_⟩
  · rw [hssa.readDefs_eq (by decide)]
    exact congrArg (fun m => Except.ok (m.readDefs 3)) hcompute
  · rw [hssa.readDefs_eq (by decide)]
    exact congrArg (fun m => Except.ok (m.readDefs 4)) hcompute
  · rw [hssa.phiTable_eq]
    exact (congrArg (fun m => m.table.isTrivial 0) hcompute).trans htrivial

end Analysis

end MemDep
