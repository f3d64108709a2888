import MemDep.Proofs.AccessGraph.Accesses
import MemDep.Proofs.Ascending
import MemDep.Proofs.Reaching.Iteration

/-!
# Facts and walks of the graph

In a graph without asymmetric edges, a fact enters a node in the solution of the equations exactly
if a walk leads there from its own node past nodes that do not hide it. No set ever holds another
fact, which is an invariant of the iteration; that all these facts are found follows from the
equations by induction on the walk.
-/

namespace MemDep

variable {g : AccessGraph} {t : Accesses}

/-- A fact enters a node along a walk: its node is one that the root leads to and has this write, and
no node between the two ends has a strong write that covers it. -/
def AccessGraph.FactEnters (g : AccessGraph) (t : Accesses) (f : Fact) (n : Nat) : Prop :=
  g.FromRoot f.node ∧ ∃ site, (t.writes f.node)[f.write]? = some site ∧
    g.Walk (fun m => ¬ ∃ write ∈ t.writes m, write.strong = true ∧
      write.region.covers site.region = true) f.node n

namespace Flow

variable {p : Flow} {f : Fact}

def Passes (p : Flow) (f : Fact) (n : Nat) : Prop :=
  p.hiddenBy (p.accesses.strongWrites n) f = false

theorem mem_strongWrites {n : Nat} {r : Region} : r ∈ t.strongWrites n ↔
    ∃ write ∈ t.writes n, write.strong = true ∧ write.region = r := by
  simp [Accesses.strongWrites, and_assoc]

theorem region?_eq {site : Write} (h : (p.accesses.writes f.node)[f.write]? = some site) :
    p.region? f = some site.region := by
  simp [region?, h]

theorem passes_iff {site : Write} (h : (p.accesses.writes f.node)[f.write]? = some site) {n : Nat} :
    p.Passes f n ↔ ¬ ∃ write ∈ p.accesses.writes n, write.strong = true ∧
      write.region.covers site.region = true := by
  unfold Passes hiddenBy
  rw [region?_eq h, Bool.eq_false_iff, ne_eq, List.any_eq_true]
  constructor
  · rintro hnot ⟨write, hw, hs, hc⟩
    exact hnot ⟨write.region, mem_strongWrites.mpr ⟨write, hw, hs, rfl⟩, hc⟩
  · rintro hnot ⟨r, hr, hc⟩
    obtain ⟨write, hw, hs, rfl⟩ := mem_strongWrites.mp hr
    exact hnot ⟨write, hw, hs, hc⟩

theorem mem_generated_iff {n : Nat} : f ∈ p.generated n ↔
    f.node = n ∧ ∃ site, (p.accesses.writes n)[f.write]? = some site := by
  rw [mem_generated, ← Option.isSome_iff_exists]
  simp

end Flow

namespace Iteration

variable {p : Flow} {s : Iteration}

/-- Every fact that leaves a node was generated there or has a walk to it, and passes it. -/
def Justified (p : Flow) (s : Iteration) : Prop :=
  ∀ n, ∀ f ∈ s.out n, p.isReachable f.node = true ∧ f ∈ p.generated f.node ∧
    (f.node = n ∨ p.graph.Walk (p.Passes f) f.node n ∧ p.Passes f n)

theorem justified_start (p : Flow) : Justified p (start p) := by
  intro n f hf
  simp [out, out?_start] at hf

/-- What enters a node comes along a walk. -/
theorem Justified.of_mem_meet (hp : Coherent p) (h : Justified p s) {n : Nat} {f : Fact}
    (hf : f ∈ p.meet s.out n) : p.isReachable f.node = true ∧ f ∈ p.generated f.node ∧
      p.graph.Walk (p.Passes f) f.node n := by
  obtain ⟨m, hm, hf⟩ := Flow.mem_meet.mp hf
  have hmn : n ∈ p.graph.successors m := (hp.symmetric m n).mpr (List.mem_filter.mp hm).1
  obtain ⟨hr, hg, rfl | ⟨hwalk, hpass⟩⟩ := h m f hf
  · exact ⟨hr, hg, .edge hmn⟩
  · exact ⟨hr, hg, .step hwalk hpass hmn⟩

theorem Justified.visit (hp : Coherent p) (h : Justified p s) {n : Nat}
    (hn : p.isReachable n = true) (rest : List Nat) : Justified p (Iteration.visit p s n rest) := by
  intro m f hf
  unfold out at hf
  rw [out?_visit] at hf
  split at hf
  case isTrue hm =>
    rcases Flow.mem_transfer.mp hf with ⟨hf, hpass⟩ | hf
    · obtain ⟨hr, hg, hwalk⟩ := h.of_mem_meet hp hf
      rw [hm.1]
      exact ⟨hr, hg, .inr ⟨hwalk, hpass⟩⟩
    · obtain rfl := (Flow.mem_generated.mp hf).1
      exact ⟨hn, hf, .inl hm.1.symm⟩
  case isFalse => exact h m f hf

/-- The end of an iteration: the equations hold, and all facts have walks to their places. -/
structure Final (p : Flow) (s : Iteration) : Prop where
  sound : s.Sound p
  solved : ∀ n, p.isReachable n = true → Solved p s n
  idle : ∀ n, p.isReachable n = false → (s.ins[n]?).getD [] = []
  justified : Justified p s

theorem final_of_solve (hp : Coherent p) {limit : Option Nat} {hs : (start p).Sound p}
    (h : solve p limit (start p) hs = some s) : Final p s := by
  have hstep : ∀ s n rest, s.worklist = n :: rest → s.Sound p ∧ s.Steady p ∧ Justified p s →
      (visit p s n rest).Sound p ∧ (visit p s n rest).Steady p ∧ Justified p (visit p s n rest) := by
    intro s n rest hw hs
    obtain ⟨hsound, hsteady, hjust⟩ := hs
    have hn : p.isReachable n = true := hsteady.reachable n (by simp [hw])
    exact ⟨hsound.visit n rest, hsteady.visit hp.toScheduled hsound hw, hjust.visit hp hn rest⟩
  obtain ⟨⟨hsound, hsteady, hjust⟩, _, hnil⟩ :=
    of_solve hstep h ⟨sound_start p, steady_start hp.toScheduled, justified_start p⟩
  exact ⟨hsound, fun n hn => hsteady.solved hp hsound hnil hn, hsteady.idle, hjust⟩

theorem Final.entering_eq (h : Final p s) {n : Nat} (hn : p.isReachable n = true) :
    (s.ins[n]?).getD [] = p.meet s.out n := by
  rw [(h.solved n hn).ins]
  rfl

theorem Final.out_eq (h : Final p s) {n : Nat} (hn : p.isReachable n = true) :
    s.out n = p.transfer n (p.meet s.out n) := by
  unfold out
  rw [(h.solved n hn).out]
  rfl

/-- A solution holds the facts that have a walk to a node. -/
theorem Final.mem_meet_of_walk (h : Final p s) (hp : Coherent p) {f : Fact}
    (hr : p.isReachable f.node = true) (hf : f ∈ p.generated f.node) {n : Nat}
    (hwalk : p.graph.Walk (p.Passes f) f.node n) : f ∈ p.meet s.out n := by
  induction hwalk with
  | edge hn =>
    have hmem : f ∈ s.out f.node := by
      rw [h.out_eq hr]
      exact Flow.mem_transfer.mpr (.inr hf)
    exact Flow.mem_meet.mpr ⟨f.node, List.mem_filter.mpr ⟨(hp.symmetric _ _).mp hn, hr⟩, hmem⟩
  | @step m n hwalk hpass hn ih =>
    have hm : p.isReachable m = true := hp.reachable_of_walk hr hwalk
    have hmem : f ∈ s.out m := by
      rw [h.out_eq hm]
      exact Flow.mem_transfer.mpr (.inl ⟨ih, hpass⟩)
    exact Flow.mem_meet.mpr ⟨m, List.mem_filter.mpr ⟨(hp.symmetric _ _).mp hn, hm⟩, hmem⟩

/-- In the end the facts that enter a node are those that have a walk to it. -/
theorem Final.mem_entering_iff (h : Final p s) (hp : Coherent p) {f : Fact} {n : Nat} :
    f ∈ (s.ins[n]?).getD [] ↔ p.isReachable f.node = true ∧ f ∈ p.generated f.node ∧
      p.graph.Walk (p.Passes f) f.node n := by
  by_cases hn : p.isReachable n = true
  · rw [h.entering_eq hn]
    constructor
    · exact h.justified.of_mem_meet hp
    · rintro ⟨hr, hf, hwalk⟩
      exact h.mem_meet_of_walk hp hr hf hwalk
  · rw [h.idle n (Bool.eq_false_iff.mpr hn)]
    constructor
    · intro hf
      exact absurd hf List.not_mem_nil
    · rintro ⟨hr, _, hwalk⟩
      exact absurd (hp.reachable_of_walk hr hwalk) hn

theorem Final.sorted_entering (h : Final p s) (n : Nat) :
    Ascending.Sorted ((s.ins[n]?).getD []) := by
  by_cases hn : p.isReachable n = true
  · rw [h.entering_eq hn]
    exact Flow.sorted_meet h.sound.out_sorted n
  · rw [h.idle n (Bool.eq_false_iff.mpr hn)]
    exact List.Pairwise.nil

end Iteration

namespace ReachingDefinitions

theorem isReachable_iff {fieldInsensitive : Bool} {n : Nat} :
    (Flow.ofGraph g fieldInsensitive).isReachable n = true ↔ g.Reached n := by
  simp [Flow.isReachable, Flow.ofGraph, AccessGraph.Reached, Digraph.Marked]

theorem scheduled_ofGraph (g : AccessGraph) (fieldInsensitive : Bool) :
    Iteration.Scheduled (.ofGraph g fieldInsensitive) := by
  refine ⟨fun n hn => (isReachable_iff.mp hn).lt, ?_⟩
  intro n
  rw [isReachable_iff]
  exact AccessGraph.mem_reversePostorder

theorem coherent_ofGraph (hsym : g.Symmetric) (fieldInsensitive : Bool) :
    Iteration.Coherent (.ofGraph g fieldInsensitive) := by
  refine ⟨scheduled_ofGraph g fieldInsensitive, hsym, ?_⟩
  intro m n hm hn
  have hlt : n < g.size := AccessGraph.lt_of_mem_predecessors ((hsym m n).mp hn)
  exact isReachable_iff.mpr ((isReachable_iff.mp hm).successor hn hlt)

structure Exact (g : AccessGraph) (fieldInsensitive : Bool) (r : ReachingDefinitions) : Prop where
  flow : r.flow = .ofGraph g fieldInsensitive
  sorted : ∀ n, Ascending.Sorted (r.facts n)
  mem_facts : ∀ {n : Nat} {f : Fact},
    f ∈ r.facts n ↔ g.FactEnters (.ofGraph g fieldInsensitive) f n

theorem factEnters_iff (hg : g.WellFormed) {fieldInsensitive : Bool} {f : Fact} {n : Nat} :
    g.FactEnters (.ofGraph g fieldInsensitive) f n ↔
      let p := Flow.ofGraph g fieldInsensitive
      p.isReachable f.node = true ∧ f ∈ p.generated f.node ∧
        g.Walk (p.Passes f) f.node n := by
  simp only [AccessGraph.FactEnters, isReachable_iff, hg.reached_iff_fromRoot, Flow.mem_generated_iff,
    true_and]
  have hpass : ∀ {site : Write},
      ((Accesses.ofGraph g fieldInsensitive).writes f.node)[f.write]? = some site →
        ∀ m, (Flow.ofGraph g fieldInsensitive).Passes f m ↔
          ¬ ∃ write ∈ (Accesses.ofGraph g fieldInsensitive).writes m, write.strong = true ∧
            write.region.covers site.region = true :=
    fun hsite _ => Flow.passes_iff hsite
  constructor
  · rintro ⟨hr, site, hsite, hwalk⟩
    exact ⟨hr, ⟨site, hsite⟩, hwalk.mono fun m => (hpass hsite m).mpr⟩
  · rintro ⟨hr, ⟨site, hsite⟩, hwalk⟩
    exact ⟨hr, site, hsite, hwalk.mono fun m => (hpass hsite m).mp⟩

theorem exact_of_compute (hg : g.WellFormed) (hsym : g.Symmetric) {fieldInsensitive : Bool}
    {limit : Option Nat} {r : ReachingDefinitions} (h : compute g fieldInsensitive limit = some r) :
    r.Exact g fieldInsensitive := by
  obtain ⟨s, hs, rfl⟩ := Option.map_eq_some_iff.mp h
  have hp := coherent_ofGraph hsym fieldInsensitive
  have hfinal := Iteration.final_of_solve hp hs
  refine ⟨rfl, hfinal.sorted_entering, ?_⟩
  intro n f
  rw [factEnters_iff hg]
  exact hfinal.mem_entering_iff hp

/-! ## Definitions -/

theorem mem_definitions {r : ReachingDefinitions} {n w : Nat} {region : Region} :
    w ∈ r.definitions n region ↔ ∃ f ∈ r.facts n, f.node = w ∧
      ∃ site, (r.flow.accesses.writes w)[f.write]? = some site ∧
        site.region.mayOverlap (r.flow.accesses.normalize region) = true := by
  unfold definitions
  simp only [Ascending.mem_squeeze, List.mem_map, List.mem_filter]
  constructor
  · rintro ⟨f, ⟨hf, hover⟩, rfl⟩
    refine ⟨f, hf, rfl, ?_⟩
    split at hover
    case h_1 site hsite =>
      obtain ⟨write, hwrite, rfl⟩ := Option.map_eq_some_iff.mp hsite
      exact ⟨write, hwrite, hover⟩
    case h_2 => simp at hover
  · rintro ⟨f, hf, rfl, site, hsite, hover⟩
    refine ⟨f, ⟨hf, ?_⟩, rfl⟩
    rw [Flow.region?_eq hsite]
    exact hover

theorem sorted_definitions {r : ReachingDefinitions} {n : Nat}
    (h : Ascending.Sorted (r.facts n)) (region : Region) :
    Ascending.Sorted (r.definitions n region) := by
  refine Ascending.sorted_squeeze (List.Pairwise.map _ ?_ (h.filter _))
  intro a b hab
  rw [Fact.lt_def] at hab
  omega

end ReachingDefinitions

end MemDep
