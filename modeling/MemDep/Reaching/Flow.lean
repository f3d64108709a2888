import MemDep.AccessGraph.Accesses

/-!
# The equations of reaching definitions

A fact names a write of a node, and says that the write may be the last one to have touched some
byte. Facts flow along edges: what enters a node is what leaves its reachable predecessors, and
what leaves a node is what enters it without the facts that the node hides, together with the
node's own writes. A node hides a fact if one of its strong writes covers the whole write.

Both steps are monotone (`meet_mono`, `transfer_mono`), and every fact is one of the finitely many
writes of the graph (`transfer_subset_facts`); this is why solving the equations by iteration ends.
-/

namespace MemDep

/-- A write, by its node and its position in `Accesses.writes` of that node. -/
structure Fact where
  /-- The node that writes. -/
  node : Nat
  /-- Which of its writes. -/
  write : Nat
deriving DecidableEq, Repr

namespace Fact

/-- Facts are ordered by node and then by write. -/
instance : LT Fact where
  lt a b := a.node < b.node ∨ a.node = b.node ∧ a.write < b.write

theorem lt_def {a b : Fact} : a < b ↔ a.node < b.node ∨ a.node = b.node ∧ a.write < b.write :=
  Iff.rfl

instance : DecidableLT Fact := fun a b =>
  inferInstanceAs (Decidable (a.node < b.node ∨ a.node = b.node ∧ a.write < b.write))

instance : StrictLinear Fact where
  irrefl a h := by rw [lt_def] at h; omega
  trans h k := by rw [lt_def] at *; omega
  connected a b := by
    obtain ⟨m, i⟩ := a
    obtain ⟨n, j⟩ := b
    simp only [lt_def, Fact.mk.injEq]
    omega

end Fact

/-- The data that the equations are made of. -/
structure Flow where
  /-- The graph. -/
  graph : AccessGraph
  /-- What its nodes read and write. -/
  accesses : Accesses
  /-- The nodes that take part. -/
  reachable : Array Bool

namespace Flow

/-- The equations of a graph, for the nodes that its root leads to. -/
def ofGraph (g : AccessGraph) (fieldInsensitive : Bool) : Flow :=
  ⟨g, .ofGraph g fieldInsensitive, g.reachable⟩

/-- The node takes part. -/
def isReachable (p : Flow) (n : Nat) : Bool := p.reachable[n]? == some true

/-- The nodes that facts come to `n` from. -/
def sources (p : Flow) (n : Nat) : List Nat := (p.graph.predecessors n).filter p.isReachable

/-- The nodes that facts go to from `n`. -/
def targets (p : Flow) (n : Nat) : List Nat := (p.graph.successors n).filter p.isReachable

/-- The region that a fact is about. -/
def region? (p : Flow) (f : Fact) : Option Region := (p.accesses.writes f.node)[f.write]?.map (·.region)

/-- One of the given regions covers the write that a fact names. -/
def hiddenBy (p : Flow) (strong : List Region) (f : Fact) : Bool :=
  match p.region? f with
  | some r => strong.any (·.covers r)
  | none => false

/-- The facts of a node's own writes. -/
def generated (p : Flow) (n : Nat) : List Fact :=
  (List.range (p.accesses.writes n).length).map (Fact.mk n)

/-- The facts that enter a node, given those that leave each node. -/
def meet (p : Flow) (out : Nat → List Fact) (n : Nat) : List Fact :=
  Ascending.unionAll ((p.sources n).map out)

/-- The facts that leave a node, given those that enter it. -/
def transfer (p : Flow) (n : Nat) (incoming : List Fact) : List Fact :=
  let strong := p.accesses.strongWrites n
  Ascending.union (incoming.filter fun f => !p.hiddenBy strong f) (p.generated n)

/-- Every fact of the graph. -/
def facts (p : Flow) : List Fact :=
  (List.range p.accesses.nodes.size).flatMap p.generated

/-! ## Membership -/

theorem mem_meet {p : Flow} {out : Nat → List Fact} {n : Nat} {f : Fact} :
    f ∈ p.meet out n ↔ ∃ m ∈ p.sources n, f ∈ out m := by
  simp only [meet, Ascending.mem_unionAll, List.mem_map]
  constructor
  · rintro ⟨_, ⟨m, hm, rfl⟩, hf⟩
    exact ⟨m, hm, hf⟩
  · rintro ⟨m, hm, hf⟩
    exact ⟨_, ⟨m, hm, rfl⟩, hf⟩

theorem mem_transfer {p : Flow} {n : Nat} {incoming : List Fact} {f : Fact} :
    f ∈ p.transfer n incoming ↔
      f ∈ incoming ∧ p.hiddenBy (p.accesses.strongWrites n) f = false ∨ f ∈ p.generated n := by
  simp [transfer]

theorem mem_generated {p : Flow} {n : Nat} {f : Fact} :
    f ∈ p.generated n ↔ f.node = n ∧ f.write < (p.accesses.writes n).length := by
  obtain ⟨m, i⟩ := f
  simp only [generated, List.mem_map, List.mem_range, Fact.mk.injEq]
  constructor
  · rintro ⟨j, hj, rfl, rfl⟩
    exact ⟨rfl, hj⟩
  · rintro ⟨rfl, hi⟩
    exact ⟨i, hi, rfl, rfl⟩

theorem generated_subset_facts (p : Flow) (n : Nat) : p.generated n ⊆ p.facts := by
  intro f hf
  refine List.mem_flatMap.2 ⟨n, List.mem_range.2 ?_, hf⟩
  have hlt := (mem_generated.1 hf).2
  by_cases hn : n < p.accesses.nodes.size
  · exact hn
  · simp [Accesses.writes, Array.getElem?_eq_none (Nat.le_of_not_lt hn)] at hlt

theorem transfer_subset_facts {p : Flow} {n : Nat} {incoming : List Fact}
    (h : incoming ⊆ p.facts) : p.transfer n incoming ⊆ p.facts := by
  intro f hf
  rcases mem_transfer.1 hf with ⟨hf, _⟩ | hf
  · exact h hf
  · exact p.generated_subset_facts n hf

/-! ## Monotonicity -/

theorem meet_mono {p : Flow} {out out' : Nat → List Fact} (h : ∀ n, out n ⊆ out' n)
    (n : Nat) : p.meet out n ⊆ p.meet out' n := by
  intro f hf
  obtain ⟨m, hm, hf⟩ := mem_meet.1 hf
  exact mem_meet.2 ⟨m, hm, h m hf⟩

theorem transfer_mono {p : Flow} {n : Nat} {k l : List Fact} (h : k ⊆ l) :
    p.transfer n k ⊆ p.transfer n l := by
  intro f hf
  rcases mem_transfer.1 hf with ⟨hf, hk⟩ | hf
  · exact mem_transfer.2 (.inl ⟨h hf, hk⟩)
  · exact mem_transfer.2 (.inr hf)

/-! ## Order -/

theorem sorted_generated (p : Flow) (n : Nat) : Ascending.Sorted (p.generated n) := by
  refine List.Pairwise.map (Fact.mk n) (fun i j h => ?_) List.pairwise_lt_range
  exact Or.inr ⟨rfl, h⟩

theorem sorted_meet {p : Flow} {out : Nat → List Fact} (h : ∀ n, Ascending.Sorted (out n))
    (n : Nat) : Ascending.Sorted (p.meet out n) := by
  refine Ascending.sorted_unionAll fun l hl => ?_
  obtain ⟨m, _, rfl⟩ := List.mem_map.1 hl
  exact h m

theorem sorted_transfer {p : Flow} {n : Nat} {incoming : List Fact}
    (h : Ascending.Sorted incoming) : Ascending.Sorted (p.transfer n incoming) :=
  Ascending.sorted_union (h.filter _) (p.sorted_generated n)

end Flow

end MemDep
