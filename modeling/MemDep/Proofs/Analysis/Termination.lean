import MemDep.Proofs.Analysis.Ssa
import MemDep.Proofs.Ssa.Keys

/-!
# Termination in static single assignment form

Nothing that an analysis in static single assignment form does depends on a bound for its steps.
Chains end where nothing continues them, going back through single predecessors ends, and the
machine that looks definitions up halts. No key is opened twice, whatever the sequence of calls, and
the ends of keys are among the known ends of the accesses and of the regions asked about.
-/

namespace MemDep

open Relation

variable {g : AccessGraph} {fieldInsensitive : Bool}

/-! ## The ends of the accesses -/

def Accesses.regions (t : Accesses) (n : Nat) : List Region :=
  (t.writes n).map (·.region) ++ t.reads n

def Accesses.knownEnds (t : Accesses) : List Nat :=
  (List.range t.nodes.size).flatMap fun n => (t.regions n).flatMap Region.knownEnds

theorem Accesses.mem_knownEnds {t : Accesses} {n k : Nat} {r : Region} (hr : r ∈ t.regions n)
    (hk : k ∈ r.knownEnds) : k ∈ t.knownEnds := by
  have hn : n < t.nodes.size := by
    by_contra hn
    have hnone : t.nodes[n]? = none := Array.getElem?_eq_none (by omega)
    simp [regions, writes, reads, hnone] at hr
  exact List.mem_flatMap.mpr ⟨n, List.mem_range.mpr hn, List.mem_flatMap.mpr ⟨r, hr, hk⟩⟩

theorem Region.mem_knownEnds {r : Region} {i : Interval} (hi : r.interval? = some i) :
    i.start ∈ r.knownEnds ∧ i.stop ∈ r.knownEnds := by
  simp [knownEnds, hi]

/-- A read is searched for as the analysis sees it. -/
theorem Accesses.normalize_of_mem_reads {n : Nat} {r : Region}
    (hr : r ∈ (ofGraph g fieldInsensitive).reads n) :
    (ofGraph g fieldInsensitive).normalize r = r := by
  rw [reads_ofGraph] at hr
  obtain ⟨region, _, rfl⟩ := List.mem_map.mp hr
  exact see_see region

namespace MemorySsa

variable {ends : Nat → Prop} {m : MemorySsa}

theorem Of.grounded (h : m.Of g fieldInsensitive) : m.scope.blocks.Grounded := by
  rw [h.scope]
  exact BlockGraph.grounded_ofGraph g

theorem Of.bounds (h : m.Of g fieldInsensitive) (hfull : Interval.Within ends ⟨0, Offset.limit⟩)
    (hends : ∀ k ∈ (Accesses.ofGraph g fieldInsensitive).knownEnds, ends k) :
    m.scope.Bounds ends := by
  rw [h.scope]
  refine ⟨hfull, ?_⟩
  intro n w hw i hi
  have hmem : w.region ∈ (Accesses.ofGraph g fieldInsensitive).regions n :=
    List.mem_append_left _ (List.mem_map_of_mem hw)
  obtain ⟨hstart, hstop⟩ := Region.mem_knownEnds hi
  exact ⟨hends _ (Accesses.mem_knownEnds hmem hstart), hends _ (Accesses.mem_knownEnds hmem hstop)⟩

theorem opens_compute (hfull : Interval.Within ends ⟨0, Offset.limit⟩)
    (hends : ∀ k ∈ (Accesses.ofGraph g fieldInsensitive).knownEnds, ends k) :
    PhiTable.empty.Opens ends (compute g fieldInsensitive).table := by
  suffices h : (compute g fieldInsensitive).Of g fieldInsensitive ∧
      PhiTable.empty.Opens ends (compute g fieldInsensitive).table from h.2
  unfold compute
  refine List.foldlRecOn
    (motive := fun m : MemorySsa => m.Of g fieldInsensitive ∧ PhiTable.empty.Opens ends m.table)
    _ _ ⟨⟨rfl, rfl⟩, .refl _⟩ ?_
  intro m h n _
  obtain ⟨hof, hm⟩ := h
  refine ⟨hof.resolveReads n, hm.trans ?_⟩
  refine opens_resolveReads hof.grounded (hof.bounds hfull hends) ?_
  intro region hregion k hk
  rw [hof.scope] at hregion hk
  rw [Accesses.normalize_of_mem_reads hregion] at hk
  exact hends k (Accesses.mem_knownEnds (List.mem_append_right _ hregion) hk)

end MemorySsa

namespace Analysis

variable {s : AnalysisSettings}

def Call.knownEnds (t : Accesses) : Call → List Nat
  | .definitions _ region => (t.normalize region).knownEnds
  | _ => []

/-- Where intervals may end after some calls: at the ends of a whole object, of the accesses of the
graph, and of the regions that were asked about. -/
def endsAfter (t : Accesses) (calls : List Call) : List Nat :=
  0 :: Offset.limit :: t.knownEnds ++ calls.flatMap (Call.knownEnds t)

/-- Calls open keys with ends among those of the regions that they ask about. -/
theorem SsaOf.opens_performAll (ends : Nat → Prop) (hfull : Interval.Within ends ⟨0, Offset.limit⟩)
    (hends : ∀ k ∈ (Accesses.ofGraph g s.fieldInsensitive).knownEnds, ends k) {a : Analysis}
    {m : MemorySsa} (h : SsaOf g s a m) (calls : List Call)
    (hcalls : ∀ c ∈ calls, ∀ k ∈ c.knownEnds (.ofGraph g s.fieldInsensitive), ends k) :
    ∃ m', SsaOf g s (a.performAll calls).2 m' ∧ m.table.Opens ends m'.table := by
  induction calls generalizing a m with
  | nil => exact ⟨m, h, .refl _⟩
  | cons c calls ih =>
    obtain ⟨hc, hcalls⟩ := List.forall_mem_cons.mp hcalls
    obtain ⟨m', h', hstep⟩ := h.perform c
    obtain ⟨m'', h'', hopens⟩ := ih h' hcalls
    refine ⟨m'', h'', PhiTable.Opens.trans ?_ hopens⟩
    rcases hstep with rfl | ⟨n, region, rfl, rfl⟩
    · exact .refl _
    · refine MemorySsa.opens_definitions h.of.grounded (h.of.bounds hfull hends) n ?_
      intro k hk
      rw [h.of.scope] at hk
      exact hc k hk

theorem performAll_append (a : Analysis) (calls more : List Call) :
    (a.performAll (calls ++ more)).2 = ((a.performAll calls).2.performAll more).2 := by
  induction calls generalizing a with
  | nil => rfl
  | cons c calls ih => exact ih (a.perform c).2

/-- After a run and some calls, all keys were opened with ends where intervals may end. -/
theorem exists_opens_performAll (g : AccessGraph) (s : AnalysisSettings) (calls : List Call) :
    let t := Accesses.ofGraph g s.fieldInsensitive
    ∃ m, SsaOf g s
        (performAll ⟨g, s, some (.ssa (.compute g s.fieldInsensitive))⟩ calls).2 m ∧
      PhiTable.empty.Opens (· ∈ endsAfter t calls) m.table := by
  intro t
  have hfull : Interval.Within (· ∈ endsAfter t calls) ⟨0, Offset.limit⟩ :=
    ⟨by simp [endsAfter], by simp [endsAfter]⟩
  have hends : ∀ k ∈ t.knownEnds, k ∈ endsAfter t calls := by
    intro k hk
    simp [endsAfter, hk]
  have hcalls : ∀ c ∈ calls, ∀ k ∈ c.knownEnds t, k ∈ endsAfter t calls := by
    intro c hc k hk
    exact List.mem_append_right _ (List.mem_flatMap.mpr ⟨c, hc, hk⟩)
  obtain ⟨m, hm, hopens⟩ := (ssaOf_run g s).opens_performAll _ hfull hends calls hcalls
  exact ⟨m, hm, (MemorySsa.opens_compute hfull hends).trans hopens⟩

theorem SsaOf.keys_performAll {a : Analysis} {m : MemorySsa} (h : SsaOf g s a m)
    (calls : List Call) : ∃ m', SsaOf g s (a.performAll calls).2 m' ∧
      m.table.keys <+: m'.table.keys := by
  obtain ⟨m', hm', hopens⟩ := h.opens_performAll (fun _ => True) ⟨trivial, trivial⟩
    (fun _ _ => trivial) calls fun _ _ _ _ => trivial
  exact ⟨m', hm', hopens.initial⟩

/-- For every accepted graph, also with asymmetric edges, the run succeeds and nothing depends on a
bound. No chain is cut off. The entry block leads to every block, and going back through single
predecessors never comes back to a block. From every table, the machine that looks definitions up
halts with the answer of the look-up. And after any calls, the keys that were opened are distinct,
later calls only open keys after them, and all their ends are known ends of accesses or questions. -/
theorem ssa_look_ups_terminate (hg : g.structuralError = none) (hs : s.validate = .ok ())
    (hssa : s.useSsa = true) :
    let t := Accesses.ofGraph g s.fieldInsensitive
    let sc : Scope := ⟨t, .ofGraph g⟩
    (∀ c ∈ g.chains, ∀ n, c.getLast? = some n → g.continuation? g.reachable n = none) ∧
    (∃ e, sc.blocks.entry = some e ∧
      ∀ b, ReflTransGen (fun a b => b ∈ sc.blocks.successors a) e b) ∧
    sc.blocks.Grounded ∧
    (∀ (object : Nat) (table : PhiTable) (b : Fin sc.blocks.count) (stop : Nat) (query : ByteSet)
      (hq : query.Valid), sc.Halts object (sc.start table b stop query)
        ⟨(sc.definitions object table b stop query hq).1, [],
          .defs (sc.definitions object table b stop query hq).2⟩) ∧
    ∃ a, (new g s).run = .ok a ∧ ∀ calls, ∃ m, (a.performAll calls).2.result? = some (.ssa m) ∧
      m.scope = sc ∧ m.table.keys.Nodup ∧
      (∀ key ∈ m.table.keys,
        key.bytes.start ∈ endsAfter t calls ∧ key.bytes.stop ∈ endsAfter t calls) ∧
      ∀ more, ∃ m', (a.performAll (calls ++ more)).2.result? = some (.ssa m') ∧
        m.table.keys <+: m'.table.keys := by
  intro t sc
  have hwf := AccessGraph.wellFormed_of_structuralError hg
  have hgrounded : sc.blocks.Grounded := BlockGraph.grounded_ofGraph g
  refine ⟨?chains, ?entry, hgrounded, ?halts, _, run_of_useSsa hg hs hssa, fun calls => ?keys⟩
  case chains =>
    intro c hc n hn
    exact AccessGraph.continuation?_of_getLast? hc hn
  case entry =>
    obtain ⟨r, hr, hlt⟩ := hwf.root
    obtain ⟨e, he⟩ := BlockGraph.exists_entry hr hlt
    exact ⟨e, he, BlockGraph.reaches_of_entry he⟩
  case halts =>
    intro object table b stop query hq
    exact Scope.halts_start hgrounded table b stop query hq
  case keys =>
    obtain ⟨m, hm, hopens⟩ := exists_opens_performAll g s calls
    have hwithin : m.table.Within (· ∈ endsAfter t calls) :=
      hopens.within fun key hkey => absurd hkey List.not_mem_nil
    refine ⟨m, by rw [hm.eq], hm.of.scope, hopens.nodup List.nodup_nil, hwithin, ?_⟩
    intro more
    obtain ⟨m', hm', hmore⟩ := hm.keys_performAll more
    rw [performAll_append]
    exact ⟨m', by rw [hm'.eq], hmore⟩

/-- A loop with two entries. Node 2 also leads to itself, which it lists twice as a successor and
not at all as a predecessor. -/
def tangle : AccessGraph where
  nodes := #[
    ⟨0, .unknownMemory, [], [], [], [], []⟩,
    ⟨1, .alloc, [], [], [], [2, 3], []⟩,
    ⟨2, .store, [], [firstBytes 1 2], [], [3, 2, 2], [1, 3]⟩,
    ⟨3, .load, [], [], [firstBytes 1 4], [2], [1, 2]⟩]
  root := some 1

/-- When the load has been resolved and eight bytes are asked for, intervals end at these numbers. -/
theorem ssa_look_ups_terminate_tangle : tangle.asymmetricEdges ≠ [] ∧
    ∃ a, (new tangle (.ofPreset .fast)).run = .ok a ∧
      ∃ m, (a.performAll [.definitions 2 (firstBytes 1 8)]).2.result? = some (.ssa m) ∧
        m.table.keys.Nodup ∧ ∀ key ∈ m.table.keys, key.bytes.stop ∈ [0, Offset.limit, 2, 4, 8] := by
  obtain ⟨_, _, _, _, a, ha, h⟩ := ssa_look_ups_terminate (g := tangle) (s := .ofPreset .fast)
    (by decide) (by decide) rfl
  obtain ⟨m, hm, _, hnodup, hends, _⟩ := h [.definitions 2 (firstBytes 1 8)]
  have hnumbers : ∀ k ∈ endsAfter (.ofGraph tangle false) [.definitions 2 (firstBytes 1 8)],
      k ∈ [0, Offset.limit, 2, 4, 8] := by
    simp only [endsAfter, Accesses.knownEnds, Accesses.regions, Accesses.writes_ofGraph,
      Accesses.reads_ofGraph]
    simp only [Accesses.ofGraph, Array.size_map]
    decide
  exact ⟨by decide, a, ha, m, hm, hnodup, fun key hkey => hnumbers _ (hends key hkey).2⟩

end Analysis

end MemDep
