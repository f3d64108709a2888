import MemDep.Proofs.Analysis.Compare
import MemDep.Proofs.Analysis.Termination
import MemDep.Proofs.Ssa.Reads

/-!
# Answers and earlier calls

In static single assignment form a question may add phis to the table, and replaces those that turn
out to be trivial. The answers do not show it: after a run a call gets the same reply whatever calls
were made before. In particular, what was resolved for the reads of a node when the form was built
is what a question for each of these reads gives at any time, put together.

The graph may have asymmetric edges. The answers then need not be those that its walks give, but
they are still those of a search through its blocks, and no search looks at the table.
-/

namespace MemDep

variable {g : AccessGraph}

namespace Analysis

variable {s : AnalysisSettings} {a b : Analysis} {m m' : MemorySsa}

/-! ## One answer -/

/-- Two forms of one graph give the same definitions of a region. -/
theorem SsaOf.definitions_congr (h : SsaOf g s a m) (h' : SsaOf g s b m') (n : Nat)
    (region : Region) : (m.definitions n region).1 = (m'.definitions n region).1 := by
  refine Ascending.eq_of_mem_iff (m.sorted_definitions n region) (m'.sorted_definitions n region) ?_
  intro w
  rw [h.mem_definitions, h'.mem_definitions]

theorem SsaOf.mem_readDefinitions (h : SsaOf g s a m) (hr : m.ReadsResolved g) {n w : Nat} :
    w ∈ m.readDefinitions n ↔ ∃ region ∈ g.reads n, w ∈ (m.definitions n region).1 := by
  rw [h.sound.mem_readDefinitions h.of hr, h.of.scope, h.of.objects, Accesses.reads_ofGraph]
  simp only [h.mem_definitions]
  constructor
  · rintro ⟨seen, hseen, hf⟩
    obtain ⟨region, hregion, rfl⟩ := List.mem_map.mp hseen
    exact ⟨region, hregion, findsRegion_see.mp hf⟩
  · rintro ⟨region, hregion, hf⟩
    exact ⟨_, List.mem_map_of_mem hregion, findsRegion_see.mpr hf⟩

theorem SsaOf.readDefinitions_eq_union (h : SsaOf g s a m) (hr : m.ReadsResolved g) (n : Nat) :
    m.readDefinitions n =
      Ascending.ofList ((g.reads n).map fun region => (m.definitions n region).1).flatten := by
  refine Ascending.eq_of_mem_iff (hr.sorted_readDefinitions n) (Ascending.sorted_ofList _) ?_
  intro w
  rw [h.mem_readDefinitions hr, Ascending.mem_ofList, List.mem_flatten]
  constructor
  · rintro ⟨region, hregion, hw⟩
    exact ⟨_, List.mem_map_of_mem hregion, hw⟩
  · rintro ⟨nodes, hnodes, hw⟩
    obtain ⟨region, hregion, rfl⟩ := List.mem_map.mp hnodes
    exact ⟨region, hregion, hw⟩

theorem SsaOf.readDefinitions_congr (h : SsaOf g s a m) (hr : m.ReadsResolved g)
    (h' : SsaOf g s b m') (hr' : m'.ReadsResolved g) (n : Nat) :
    m.readDefinitions n = m'.readDefinitions n := by
  have hsame : (fun region => (m.definitions n region).1) =
      fun region => (m'.definitions n region).1 :=
    funext fun region => h.definitions_congr h' n region
  rw [h.readDefinitions_eq_union hr, h'.readDefinitions_eq_union hr', hsame]

/-! ## Replies -/

theorem SsaOf.definitions_reply_congr (h : SsaOf g s a m) (h' : SsaOf g s b m') (n : Nat)
    (region : Region) :
    (a.definitions n region).map Prod.fst = (b.definitions n region).map Prod.fst := by
  have hgraph := h.graph_eq
  have hgraph' := h'.graph_eq
  cases hn : g.contains n with
  | false =>
    rw [definitions_of_missing_node h.result (by rw [hgraph, hn]),
      definitions_of_missing_node h'.result (by rw [hgraph', hn])]
  | true =>
    cases hobj : g.contains region.object with
    | false =>
      rw [definitions_of_missing_object h.result (by rw [hgraph, hn]) (by rw [hgraph, hobj]),
        definitions_of_missing_object h'.result (by rw [hgraph', hn]) (by rw [hgraph', hobj])]
    | true =>
      rw [h.definitions_eq hn hobj, h'.definitions_eq hn hobj]
      simp only [Except.map, h.definitions_congr h' n region]

theorem SsaOf.readDefinitions_reply_congr (h : SsaOf g s a m) (hr : m.ReadsResolved g)
    (h' : SsaOf g s b m') (hr' : m'.ReadsResolved g) (n : Nat) :
    a.readDefinitions n = b.readDefinitions n := by
  cases hn : g.contains n with
  | false =>
    rw [readDefinitions_of_missing_node h.result (by rw [h.graph_eq, hn]),
      readDefinitions_of_missing_node h'.result (by rw [h'.graph_eq, hn])]
  | true =>
    rw [h.readDefinitions_eq hn, h'.readDefinitions_eq hn, h.readDefinitions_congr hr h' hr' n]

/-- Two analyses of one graph in static single assignment form reply alike. -/
theorem SsaOf.reply_congr (h : SsaOf g s a m) (hr : m.ReadsResolved g) (h' : SsaOf g s b m')
    (hr' : m'.ReadsResolved g) (c : Call) : (a.perform c).1 = (b.perform c).1 := by
  cases c with
  | run =>
    unfold Analysis.perform
    rw [run_of_result h.result, run_of_result h'.result]
  | definitions n region =>
    rw [fst_perform_definitions, fst_perform_definitions, h.definitions_reply_congr h']
  | readDefinitions n => exact h.readDefinitions_reply_congr hr h' hr' n

/-! ## Sequences of calls -/

theorem SsaOf.readsResolved_performAll (h : SsaOf g s a m) (hr : m.ReadsResolved g)
    (calls : List Call) :
    ∃ m', SsaOf g s (a.performAll calls).2 m' ∧ m'.ReadsResolved g :=
  h.performAll_keeps (fun _ n region _ hr => hr.definitions n region) hr calls

/-- For every accepted graph, also with asymmetric edges, the run succeeds, and after it no reply
depends on the calls before. What a node is said to read from, if the objects of its reads are in the
graph, is at any time what questions for each of its reads give, in ascending order and each node
once. -/
theorem ssa_replies_independent_of_history (hg : g.structuralError = none)
    (hs : s.validate = .ok ()) (hssa : s.useSsa = true) :
    ∃ a, (new g s).run = .ok a ∧ ∀ calls calls' : List Call,
      (∀ c, ((a.performAll calls).2.perform c).1 = ((a.performAll calls').2.perform c).1) ∧
      ∀ n, g.contains n = true → (∀ region ∈ g.reads n, g.contains region.object = true) →
        ∃ answers, ((g.reads n).mapM fun region =>
            ((a.performAll calls).2.definitions n region).map Prod.fst) = .ok answers ∧
          (a.performAll calls).2.readDefinitions n = .ok (Ascending.ofList answers.flatten) := by
  refine ⟨_, run_of_useSsa hg hs hssa, ?_⟩
  intro calls calls'
  have hstart := MemorySsa.readsResolved_compute g s.fieldInsensitive
  obtain ⟨m, h, hr⟩ := (ssaOf_run g s).readsResolved_performAll hstart calls
  obtain ⟨m', h', hr'⟩ := (ssaOf_run g s).readsResolved_performAll hstart calls'
  refine ⟨fun c => h.reply_congr hr h' hr' c, ?_⟩
  intro n hn hreads
  refine ⟨(g.reads n).map fun region => (m.definitions n region).1, ?_, ?_⟩
  · refine mapM_eq_ok fun region hregion => ?_
    rw [h.definitions_eq hn (hreads region hregion)]
    rfl
  · rw [h.readDefinitions_eq hn, h.readDefinitions_eq_union hr]

/-- Around a loop with two entries and asymmetric edges, a question for eight bytes does not change
what the load reads. -/
theorem ssa_replies_independent_of_history_tangle :
    ∃ a, (new tangle (.ofPreset .fast)).run = .ok a ∧
      let later := (a.performAll [.definitions 2 (firstBytes 1 8)]).2
      (later.perform (.definitions 3 (firstBytes 1 4))).1 =
        (a.perform (.definitions 3 (firstBytes 1 4))).1 ∧
      ∃ answers, ([firstBytes 1 4].mapM fun region =>
          (later.definitions 3 region).map Prod.fst) = .ok answers ∧
        later.readDefinitions 3 = .ok (Ascending.ofList answers.flatten) := by
  obtain ⟨a, ha, h⟩ := ssa_replies_independent_of_history (g := tangle) (s := .ofPreset .fast)
    (by decide) (by decide) rfl
  obtain ⟨hreply, hreads⟩ := h [.definitions 2 (firstBytes 1 8)] []
  exact ⟨a, ha, hreply _, hreads 3 (by decide) (by decide)⟩

end Analysis

end MemDep
