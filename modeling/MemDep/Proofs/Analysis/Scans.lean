import MemDep.Proofs.Analysis.Ssa

/-!
# Scans of blocks, place by place

What a scan of the nodes before a place of a block finds and leaves open, told by the places of the
nodes. A node is found if one of its writes may touch a byte that was open and that no node between it
and the place hides; that the scan ends early when no byte is left loses nothing
(`Analysis.scanBlock_exact`).
-/

namespace MemDep

/-- No node at a place from `first` on and before `stop` hides a byte of an object. -/
def Accesses.Spares (t : Accesses) (object byte : Nat) (nodes : List Nat) (first stop : Nat) : Prop :=
  ∀ i n, first ≤ i → i < stop → nodes[i]? = some n → ¬ t.Hides object byte n

/-- What the scan of the nodes before place `stop` has to give. Nodes are added once, and only such as
stand there. A node is found if it was, or if it may touch an open byte that the nodes after it spare;
for unknown memory that is to write unknown memory, and some byte to be open. The bytes that stay open
are those that all nodes spare, and the scan says that nothing is left if there is a node and none of
the bytes is spared. -/
structure ExactScan (t : Accesses) (object : Nat) (nodes : List Nat) (stop : Nat) (opened : ByteSet)
    (found : List MemoryDef) (r : Scan) : Prop where
  added : ∃ added : List Nat, r.found = found ++ added.map .write ∧ added.Nodup ∧
    ∀ n ∈ added, n ∈ nodes.take stop ∧ .write n ∉ found
  write : ∀ i n, i < stop → nodes[i]? = some n → (.write n ∈ r.found ↔ .write n ∈ found ∨
    ∃ byte ∈ opened, t.Spares object byte nodes (i + 1) stop ∧ t.Defines object byte n)
  unknown : object = unknownMemory → ∀ i n, i < stop → nodes[i]? = some n →
    (.write n ∈ r.found ↔ .write n ∈ found ∨
      (∃ byte, byte ∈ opened) ∧ ∃ w ∈ t.writes n, w.region.object = unknownMemory)
  remaining : ∀ byte, byte ∈ r.opened ↔ byte ∈ opened ∧ t.Spares object byte nodes 0 stop
  covered : r.covered = true ↔ nodes.take stop ≠ [] ∧
    ∀ byte ∈ opened, ¬ t.Spares object byte nodes 0 stop

namespace Accesses

variable {t : Accesses} {object byte : Nat} {nodes : List Nat} {first stop : Nat}

theorem spares_succ (hle : first ≤ stop) : t.Spares object byte nodes first (stop + 1) ↔
    t.Spares object byte nodes first stop ∧
      ∀ n, nodes[stop]? = some n → ¬ t.Hides object byte n := by
  constructor
  · intro h
    refine ⟨fun i n hi hlt hn => h i n hi (by omega) hn, fun n hn => ?_⟩
    exact h stop n hle (Nat.lt_succ_self stop) hn
  · rintro ⟨hbefore, hlast⟩ i n hi hlt hn
    by_cases heq : i = stop
    · subst heq
      exact hlast n hn
    · exact hbefore i n hi (by omega) hn

theorem spares_self : t.Spares object byte nodes stop stop := by
  intro i n hi hlt
  omega

theorem spares_zero_iff : t.Spares object byte nodes 0 stop ↔
    ∀ n ∈ nodes.take stop, ¬ t.Hides object byte n := by
  constructor
  · intro h n hn
    obtain ⟨i, hi⟩ := List.mem_iff_getElem?.mp hn
    rw [List.getElem?_take] at hi
    split at hi
    case isTrue hlt => exact h i n (Nat.zero_le i) hlt hi
    case isFalse => exact absurd hi (by simp)
  · intro h i n _ hlt hn
    refine h n (List.mem_of_getElem? (i := i) ?_)
    rw [List.getElem?_take_of_lt hlt, hn]

/-- Nothing certainly overwrites unknown memory. -/
theorem spares_unknownMemory : t.Spares unknownMemory byte nodes first stop :=
  fun _ _ _ _ _ hhides => hhides.1 rfl

theorem defines_unknownMemory_iff {n : Nat} : t.Defines unknownMemory byte n ↔
    ∃ w ∈ t.writes n, w.region.object = unknownMemory := by
  refine exists_congr fun w => and_congr_right fun _ => ?_
  exact ⟨fun h => h.elim id And.left, .inl⟩

end Accesses

namespace Scope

variable {sc : Scope} {object : Nat} {nodes : List Nat} {opened : ByteSet} {found : List MemoryDef}

/-- By the places of nodes, the nodes that are seen. -/
theorem sees_reverse_take_iff {byte w stop : Nat} :
    sc.Sees object byte w (nodes.take stop).reverse ↔ ∃ i < stop, nodes[i]? = some w ∧
      sc.accesses.Spares object byte nodes (i + 1) stop ∧ sc.accesses.Defines object byte w := by
  induction stop with
  | zero => simp [Sees]
  | succ stop ih =>
    have hbefore : ∀ i < stop, (sc.accesses.Spares object byte nodes (i + 1) (stop + 1) ↔
        sc.accesses.Spares object byte nodes (i + 1) stop ∧
          ∀ n, nodes[stop]? = some n → ¬ sc.accesses.Hides object byte n) :=
      fun i hi => Accesses.spares_succ hi
    rw [List.take_add_one]
    cases hlast : nodes[stop]? with
    | none =>
      simp only [hlast, reduceCtorEq, false_implies, implies_true, and_true] at hbefore
      simp only [Option.toList_none, List.append_nil, ih]
      constructor
      · rintro ⟨i, hi, hn, hspares, hdef⟩
        exact ⟨i, by omega, hn, (hbefore i hi).mpr hspares, hdef⟩
      · rintro ⟨i, hi, hn, hspares, hdef⟩
        have hne : i ≠ stop := by
          rintro rfl
          simp [hlast] at hn
        have hlt : i < stop := by omega
        exact ⟨i, hlt, hn, (hbefore i hlt).mp hspares, hdef⟩
    | some n =>
      simp only [hlast, Option.some.injEq, forall_eq'] at hbefore
      simp only [Option.toList_some, List.reverse_append, List.reverse_singleton,
        List.singleton_append, Sees, ih]
      constructor
      · rintro (⟨rfl, hdef⟩ | ⟨hhides, i, hi, hn, hspares, hdef⟩)
        · exact ⟨stop, Nat.lt_succ_self stop, hlast, Accesses.spares_self, hdef⟩
        · exact ⟨i, by omega, hn, (hbefore i hi).mpr ⟨hspares, hhides⟩, hdef⟩
      · rintro ⟨i, hi, hn, hspares, hdef⟩
        by_cases heq : i = stop
        · subst heq
          exact .inl ⟨Option.some.inj (hlast.symm.trans hn), hdef⟩
        · have hlt : i < stop := by omega
          obtain ⟨hspares, hhides⟩ := (hbefore i hlt).mp hspares
          exact .inr ⟨hhides, i, hlt, hn, hspares, hdef⟩

/-- A scan adds nodes in the order in which it comes to them. -/
theorem exists_added_scan (sc : Scope) (object : Nat) (nodes : List Nat) (opened : ByteSet)
    (found : List MemoryDef) : ∃ added : List Nat,
      (sc.scan object nodes opened found).found = found ++ added.map .write ∧
      added.Sublist nodes ∧ ∀ n ∈ added, .write n ∉ found := by
  induction nodes generalizing opened found with
  | nil => exact ⟨[], by simp [scan], List.Sublist.refl _, by simp⟩
  | cons n before ih =>
    -- what is found up to this node
    have hnode : ∃ now : List Nat,
        (if (sc.accesses.writes n).any fun w => w.region.mayDefine object opened then
          addDef found (.write n) else found) = found ++ now.map .write ∧
        now.Sublist [n] ∧ ∀ m ∈ now, .write m ∉ found := by
      by_cases hnew : (sc.accesses.writes n).any (fun w => w.region.mayDefine object opened) = true ∧
          .write n ∉ found
      · refine ⟨[n], ?_, List.Sublist.refl _, ?_⟩
        · rw [if_pos hnew.1, addDef, if_neg hnew.2]
          rfl
        · intro m hm
          exact List.mem_singleton.mp hm ▸ hnew.2
      · refine ⟨[], ?_, List.nil_sublist _, by simp⟩
        rw [List.map_nil, List.append_nil, addDef]
        split
        case isTrue hany =>
          have hlisted : .write n ∈ found := by
            by_contra hnot
            exact hnew ⟨hany, hnot⟩
          rw [if_pos hlisted]
        case isFalse => rfl
    obtain ⟨now, hnow, hsub, hfresh⟩ := hnode
    simp only [scan, hnow]
    split
    case isTrue =>
      exact ⟨now, rfl, hsub.trans (List.sublist_append_left [n] before), hfresh⟩
    case isFalse =>
      obtain ⟨rest, hrest, hsubrest, hfreshrest⟩ :=
        ih (closeAll object (sc.accesses.writes n) opened) (found ++ now.map .write)
      refine ⟨now ++ rest, ?_, hsub.append hsubrest, ?_⟩
      · rw [hrest, List.map_append, List.append_assoc]
      · intro m hm
        rcases List.mem_append.mp hm with hm | hm
        · exact hfresh m hm
        · intro hmem
          exact hfreshrest m hm (List.mem_append_left _ hmem)

theorem covered_scan_iff (h : opened.Valid) :
    (sc.scan object nodes opened found).covered = true ↔
      nodes ≠ [] ∧ ∀ byte ∈ opened, ∃ n ∈ nodes, sc.accesses.Hides object byte n := by
  induction nodes generalizing opened found with
  | nil => simp [scan]
  | cons n before ih =>
    have hmem : ∀ byte, byte ∈ closeAll object (sc.accesses.writes n) opened ↔
        byte ∈ opened ∧ ¬ sc.accesses.Hides object byte n := fun byte => mem_closeAll
    have hvalid := h.closeAll object (sc.accesses.writes n)
    simp only [scan]
    split
    case isTrue hempty =>
      have hnone := (ByteSet.isEmpty_iff hvalid).mp hempty
      refine iff_of_true rfl ⟨List.cons_ne_nil n before, fun byte hbyte => ?_⟩
      by_contra hspared
      have hhides : ¬ sc.accesses.Hides object byte n :=
        fun hhides => hspared ⟨n, List.mem_cons_self, hhides⟩
      exact hnone byte ((hmem byte).mpr ⟨hbyte, hhides⟩)
    case isFalse hsome =>
      rw [ih hvalid]
      constructor
      · rintro ⟨-, hrest⟩
        refine ⟨List.cons_ne_nil n before, fun byte hbyte => ?_⟩
        by_cases hhides : sc.accesses.Hides object byte n
        · exact ⟨n, List.mem_cons_self, hhides⟩
        · obtain ⟨m, hm, hhidden⟩ := hrest byte ((hmem byte).mpr ⟨hbyte, hhides⟩)
          exact ⟨m, List.mem_cons_of_mem n hm, hhidden⟩
      · rintro ⟨-, hall⟩
        have hrest : ∀ byte ∈ closeAll object (sc.accesses.writes n) opened,
            ∃ m ∈ before, sc.accesses.Hides object byte m := by
          intro byte hbyte
          obtain ⟨hopen, hhides⟩ := (hmem byte).mp hbyte
          obtain ⟨m, hm, hhidden⟩ := hall byte hopen
          rcases List.mem_cons.mp hm with rfl | hm
          · exact absurd hhidden hhides
          · exact ⟨m, hm, hhidden⟩
        refine ⟨?_, hrest⟩
        rintro rfl
        refine hsome ((ByteSet.isEmpty_iff hvalid).mpr fun byte hbyte => ?_)
        obtain ⟨m, hm, -⟩ := hrest byte hbyte
        exact absurd hm List.not_mem_nil

theorem exactScan_scan (h : opened.Valid) (hnodes : nodes.Nodup) (stop : Nat) :
    ExactScan sc.accesses object nodes stop opened found
      (sc.scan object (nodes.take stop).reverse opened found) := by
  have hwrite : ∀ i n, i < stop → nodes[i]? = some n →
      (.write n ∈ (sc.scan object (nodes.take stop).reverse opened found).found ↔
        .write n ∈ found ∨ ∃ byte ∈ opened,
          sc.accesses.Spares object byte nodes (i + 1) stop ∧ sc.accesses.Defines object byte n) := by
    intro i n hi hn
    rw [mem_found_scan h]
    refine or_congr_right ⟨?_, ?_⟩
    · rintro ⟨w, hw, byte, hbyte, hsees⟩
      obtain rfl := MemoryDef.write.inj hw
      obtain ⟨j, -, hj, hspares, hdef⟩ := sees_reverse_take_iff.mp hsees
      -- the node has one place in the block
      obtain ⟨hlt, -⟩ := List.getElem?_eq_some_iff.mp hn
      obtain rfl : i = j := (List.getElem?_inj hlt hnodes).mp (hn.trans hj.symm)
      exact ⟨byte, hbyte, hspares, hdef⟩
    · rintro ⟨byte, hbyte, hspares, hdef⟩
      exact ⟨n, rfl, byte, hbyte, sees_reverse_take_iff.mpr ⟨i, hi, hn, hspares, hdef⟩⟩
  constructor
  case added =>
    obtain ⟨added, hfound, hsub, hfresh⟩ :=
      exists_added_scan sc object (nodes.take stop).reverse opened found
    have htake : (nodes.take stop).Nodup := hnodes.sublist (List.take_sublist stop nodes)
    refine ⟨added, hfound, hsub.nodup (List.nodup_reverse.mpr htake), fun n hn => ?_⟩
    exact ⟨List.mem_reverse.mp (hsub.subset hn), hfresh n hn⟩
  case write => exact hwrite
  case unknown =>
    rintro rfl i n hi hn
    rw [hwrite i n hi hn]
    simp only [Accesses.spares_unknownMemory, Accesses.defines_unknownMemory_iff, true_and,
      exists_and_right]
  case remaining =>
    intro byte
    rw [mem_opened_scan h, Accesses.spares_zero_iff]
    simp only [List.mem_reverse]
  case covered =>
    rw [covered_scan_iff h]
    simp only [Accesses.spares_zero_iff, ne_eq, List.reverse_eq_nil_iff, List.mem_reverse,
      not_forall, not_not, exists_prop]

end Scope

theorem BlockGraph.nodup_nodes {g : AccessGraph} (b : Fin (ofGraph g).count) :
    ((ofGraph g).nodes b).Nodup := by
  rw [List.nodup_iff_getElem?_ne_getElem?]
  intro i j hij hj heq
  have hn : ((ofGraph g).nodes b)[j]? = some ((ofGraph g).nodes b)[j] :=
    List.getElem?_eq_getElem hj
  have hplace := (place_unique (heq.trans hn) hn).2
  omega

namespace Analysis

variable {g : AccessGraph} {s : AnalysisSettings} {a : Analysis}

/-- After a run in static single assignment form and any calls, scans of blocks up to any place are
exact for any bytes of any object. -/
theorem scanBlock_exact (hssa : s.useSsa = true) (hrun : (new g s).run = .ok a)
    (calls : List Call) : ∃ m, (a.performAll calls).2.result? = some (.ssa m) ∧
      m.scope.accesses = .ofGraph g s.fieldInsensitive ∧ m.scope.blocks = .ofGraph g ∧
      ∀ (object : Nat) (b : Fin m.scope.blocks.count) (stop : Nat) (opened : ByteSet)
        (found : List MemoryDef), opened.Valid →
        ExactScan m.scope.accesses object (m.scope.blocks.nodes b) stop opened found
          (m.scope.scanBlock object b stop opened found) := by
  obtain ⟨hs, hg, -⟩ := of_run_eq_ok hrun
  obtain rfl : ⟨g, s, some (.ssa (.compute g s.fieldInsensitive))⟩ = a := by
    rw [run_of_useSsa hg hs hssa] at hrun
    exact Except.ok.inj hrun
  obtain ⟨m, hm⟩ := (ssaOf_run g s).performAll calls
  obtain ⟨scope, objects, table, reads⟩ := m
  obtain rfl := hm.of.scope
  refine ⟨_, hm.result, rfl, rfl, ?_⟩
  intro object b stop opened found hvalid
  exact Scope.exactScan_scan hvalid (BlockGraph.nodup_nodes b) stop

/-- Node 2 writes the first four bytes of object 1, so a scan for them from the end of the first block
ends there, before it comes to node 1. -/
theorem scanBlock_exact_storeLoop : ∃ a m, (new storeLoop (.ofPreset .fast)).run = .ok a ∧
    (a.performAll [.readDefinitions 5]).2.result? = some (.ssa m) ∧
      ∃ b, m.scope.blocks.nodes b = [1, 2] ∧
        let r := m.scope.scanBlock 1 b 2 (.ofInterval ⟨0, 4⟩) []
        r.covered = true ∧ .write 2 ∈ r.found ∧ .write 1 ∉ r.found := by
  have hrun := run_of_useSsa (g := storeLoop) (s := .ofPreset .fast) (by decide) (by decide) rfl
  obtain ⟨m, hm, haccesses, hblocks, hexact⟩ := scanBlock_exact rfl hrun [.readDefinitions 5]
  refine ⟨_, m, hrun, hm, ?_⟩
  obtain ⟨⟨accesses, blocks⟩, objects, table, reads⟩ := m
  obtain rfl : accesses = .ofGraph storeLoop false := haccesses
  obtain rfl : blocks = .ofGraph storeLoop := hblocks
  obtain ⟨b, hb⟩ : ∃ b, (BlockGraph.ofGraph storeLoop).nodes b = [1, 2] :=
    ⟨⟨0, by decide +kernel⟩, by decide +kernel⟩
  have hscan := hexact 1 b 2 (.ofInterval ⟨0, 4⟩) [] (ByteSet.valid_ofInterval (by decide))
  have hmem : ∀ byte, byte ∈ ByteSet.ofInterval ⟨0, 4⟩ ↔ byte ∈ (⟨0, 4⟩ : Interval) :=
    fun byte => ByteSet.mem_ofInterval
  have hhides : ∀ byte ∈ ByteSet.ofInterval ⟨0, 4⟩,
      (Accesses.ofGraph storeLoop false).Hides 1 byte 2 := by
    intro byte hbyte
    refine ⟨by decide, ⟨firstBytes 1 4, true⟩, ?_, rfl, rfl, ⟨0, 4⟩, rfl, (hmem byte).mp hbyte⟩
    exact writes_storeLoop.1 ▸ List.mem_singleton_self _
  refine ⟨b, hb, ?_, ?_, ?_⟩
  · refine hscan.covered.mpr ⟨?_, fun byte hbyte hspared => ?_⟩
    · simp [hb]
    · exact hspared 1 2 (Nat.zero_le 1) (by decide) (by simp [hb]) (hhides byte hbyte)
  · have hzero : 0 ∈ ByteSet.ofInterval ⟨0, 4⟩ := (hmem 0).mpr (by decide)
    refine (hscan.write 1 2 (by decide) (by simp [hb])).mpr (.inr ⟨0, hzero, ?_, ?_⟩)
    · exact Accesses.spares_self
    · obtain ⟨-, w, hw, -, hobject, i, hi, hbyte⟩ := hhides 0 hzero
      refine ⟨w, hw, .inr ⟨hobject, fun j hj => ?_⟩⟩
      exact Option.some.inj (hi.symm.trans hj) ▸ hbyte
  · intro hfound
    rcases (hscan.write 0 1 (by decide) (by simp [hb])).mp hfound with hfound | ⟨byte, hbyte, h, -⟩
    · exact absurd hfound List.not_mem_nil
    · exact h 1 2 (by decide) (by decide) (by simp [hb]) (hhides byte hbyte)

end Analysis

end MemDep
