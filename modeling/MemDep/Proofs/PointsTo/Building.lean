import MemDep.Proofs.PointsTo.Findings

/-!
# Adding edges to points-to graphs

Graphs are built by edits, and some of them add only one end of an edge. Adding an edge asks the first
end alone whether the edge is there, so what it does at the second end depends on whether the two ends
agree: if they do, both list the edge afterwards, and neither list gets a duplicate
(`addEdge_links_iff_agree`). If they do not, the second end lists the edge either not at all or once
more. Every edit keeps the ends of an edge in agreement unless it adds a single end of this very edge.
-/

namespace MemDep

namespace PointerGraph

variable {g : PointerGraph} {a b c d n : Nat}

/-! ## What the edits do to the lists -/

@[simp]
theorem size_pushSuccessor : (g.pushSuccessor a b).size = g.size := Array.size_modify

@[simp]
theorem successors_addNode (kind : PointerKind) (operands : List Nat) :
    (g.addNode kind operands).2.successors n = g.successors n := by
  unfold addNode successors node? size
  rw [Array.getElem?_push]
  split <;> simp_all

@[simp]
theorem predecessors_addNode (kind : PointerKind) (operands : List Nat) :
    (g.addNode kind operands).2.predecessors n = g.predecessors n := by
  unfold addNode predecessors node? size
  rw [Array.getElem?_push]
  split <;> simp_all

theorem successors_pushSuccessor (ha : a < g.size) :
    (g.pushSuccessor a b).successors n =
      if n = a then g.successors a ++ [b] else g.successors n := by
  unfold pushSuccessor successors node?
  rw [Array.getElem?_modify]
  by_cases hn : n = a
  · subst hn
    have : g.nodes[n]? = some g.nodes[n] := Array.getElem?_eq_getElem ha
    simp [this]
  · simp [hn, Ne.symm hn]

@[simp]
theorem predecessors_pushSuccessor : (g.pushSuccessor a b).predecessors n = g.predecessors n := by
  unfold pushSuccessor predecessors node?
  rw [Array.getElem?_modify]
  cases g.nodes[n]? <;> split <;> rfl

@[simp]
theorem successors_pushPredecessor : (g.pushPredecessor b a).successors n = g.successors n := by
  unfold pushPredecessor successors node?
  rw [Array.getElem?_modify]
  cases g.nodes[n]? <;> split <;> rfl

theorem predecessors_pushPredecessor (hb : b < g.size) :
    (g.pushPredecessor b a).predecessors n =
      if n = b then g.predecessors b ++ [a] else g.predecessors n := by
  unfold pushPredecessor predecessors node?
  rw [Array.getElem?_modify]
  by_cases hn : n = b
  · subst hn
    have : g.nodes[n]? = some g.nodes[n] := Array.getElem?_eq_getElem hb
    simp [this]
  · simp [hn, Ne.symm hn]

theorem mem_successors_pushSuccessor (hc : c < g.size) :
    b ∈ (g.pushSuccessor c d).successors a ↔ b ∈ g.successors a ∨ a = c ∧ b = d := by
  rw [successors_pushSuccessor hc]
  by_cases ha : a = c <;> simp [ha]

theorem mem_predecessors_pushPredecessor (hd : d < g.size) :
    a ∈ (g.pushPredecessor d c).predecessors b ↔ a ∈ g.predecessors b ∨ b = d ∧ a = c := by
  rw [predecessors_pushPredecessor hd]
  by_cases hb : b = d <;> simp [hb]

/-! ## Adding an edge -/

theorem addEdge_of_not_lt (h : ¬ (a < g.size ∧ b < g.size)) : g.addEdge a b = (false, g) := by
  simp [addEdge, contains, h]

theorem addEdge_of_mem (hb : b < g.size) (h : b ∈ g.successors a) : g.addEdge a b = (true, g) := by
  simp [addEdge, contains, lt_of_mem_successors h, hb, h]

theorem addEdge_of_not_mem (ha : a < g.size) (hb : b < g.size) (h : b ∉ g.successors a) :
    g.addEdge a b = (true, (g.pushSuccessor a b).pushPredecessor b a) := by
  simp [addEdge, contains, ha, hb, h]

theorem addEdge_fst : (g.addEdge a b).1 = true ↔ a < g.size ∧ b < g.size := by
  unfold addEdge contains
  split <;> simp_all
  split <;> rfl

/-- What a list holds more than once, it held as often before. -/
def NoNewDuplicate (before after : List Nat) : Prop :=
  ∀ x, 1 < after.count x → after.count x ≤ before.count x

theorem NoNewDuplicate.refl (l : List Nat) : NoNewDuplicate l l := fun _ _ => Nat.le_refl _

theorem noNewDuplicate_concat {l : List Nat} {x : Nat} :
    NoNewDuplicate l (l ++ [x]) ↔ x ∉ l := by
  constructor
  · intro h hx
    have hcount := h x
    have hpos := List.count_pos_iff.mpr hx
    simp only [List.count_append, List.count_singleton_self] at hcount
    omega
  · intro hx y
    by_cases hy : y = x
    · subst hy
      simp [List.count_append, List.count_eq_zero.mpr hx]
    · simp [List.count_append, Ne.symm hy]

/-- The first end of an edge lists it, and only its successors and the predecessors of the second end
may have changed. -/
structure Adds (g g' : PointerGraph) (a b : Nat) : Prop where
  successor : b ∈ g'.successors a
  successors_once : NoNewDuplicate (g.successors a) (g'.successors a)
  successors_ne : ∀ n, n ≠ a → g'.successors n = g.successors n
  predecessors_ne : ∀ n, n ≠ b → g'.predecessors n = g.predecessors n

/-- The second end of an edge lists it as well. -/
structure Links (g g' : PointerGraph) (a b : Nat) : Prop extends Adds g g' a b where
  predecessor : a ∈ g'.predecessors b
  predecessors_once : NoNewDuplicate (g.predecessors b) (g'.predecessors b)

/-- Both ends of an edge list it, or none does. -/
def Agree (g : PointerGraph) (a b : Nat) : Prop := b ∈ g.successors a ↔ a ∈ g.predecessors b

theorem Adds.refl (h : b ∈ g.successors a) : Adds g g a b :=
  ⟨h, .refl _, fun _ _ => rfl, fun _ _ => rfl⟩

theorem adds_push (ha : a < g.size) (hb : b < g.size) (h : b ∉ g.successors a) :
    Adds g ((g.pushSuccessor a b).pushPredecessor b a) a b where
  successor := by
    rw [successors_pushPredecessor, mem_successors_pushSuccessor ha]
    exact .inr ⟨rfl, rfl⟩
  successors_once := by
    rw [successors_pushPredecessor, successors_pushSuccessor ha, if_pos rfl]
    exact noNewDuplicate_concat.mpr h
  successors_ne n hn := by
    rw [successors_pushPredecessor, successors_pushSuccessor ha, if_neg hn]
  predecessors_ne n hn := by
    rw [predecessors_pushPredecessor (by simpa using hb), if_neg hn, predecessors_pushSuccessor]

theorem addEdge_adds (ha : a < g.size) (hb : b < g.size) : Adds g (g.addEdge a b).2 a b := by
  by_cases h : b ∈ g.successors a
  · rw [addEdge_of_mem hb h]
    exact .refl h
  · rw [addEdge_of_not_mem ha hb h]
    exact adds_push ha hb h

/-- If the first end lists the edge, nothing is added; if it does not, both ends get it. Either is right
exactly if the second end is in the same state. -/
theorem addEdge_links_iff (ha : a < g.size) (hb : b < g.size) :
    Links g (g.addEdge a b).2 a b ↔ g.Agree a b := by
  by_cases h : b ∈ g.successors a
  · -- nothing changes, so the second end had better list the edge already
    rw [addEdge_of_mem hb h]
    constructor
    · intro hlinks
      exact iff_of_true h hlinks.predecessor
    · intro hagree
      exact ⟨.refl h, hagree.mp h, .refl _⟩
  · -- both ends get the edge, so the second end must not list it yet
    rw [addEdge_of_not_mem ha hb h]
    have hpredecessors : ((g.pushSuccessor a b).pushPredecessor b a).predecessors b =
        g.predecessors b ++ [a] := by
      rw [predecessors_pushPredecessor (by simpa using hb), if_pos rfl, predecessors_pushSuccessor]
    constructor
    · intro hlinks
      have honce := hlinks.predecessors_once
      rw [hpredecessors] at honce
      exact iff_of_false h (noNewDuplicate_concat.mp honce)
    · intro hagree
      refine ⟨adds_push ha hb h, ?_, ?_⟩
      · simp [hpredecessors]
      · rw [hpredecessors]
        exact noNewDuplicate_concat.mpr (mt hagree.mpr h)

/-! ## Edits -/

/-- An operation that builds a graph. -/
inductive Edit where
  | addNode (kind : PointerKind) (operands : List Nat)
  | addEdge (a b : Nat)
  | addPath (path : List Nat)
  | addSuccessorOnly (a b : Nat)
  | addPredecessorOnly (b a : Nat)
  | setRoot (n : Nat)

namespace Edit

/-- The graph after an edit. -/
def apply (g : PointerGraph) : Edit → PointerGraph
  | addNode kind operands => (g.addNode kind operands).2
  | addEdge a b => (g.addEdge a b).2
  | addPath path => g.addPath path
  | addSuccessorOnly a b => (g.addSuccessorOnly a b).2
  | addPredecessorOnly b a => (g.addPredecessorOnly b a).2
  | setRoot n => (g.setRoot n).2

/-- The edit adds a single end of the edge. -/
def Halves (a b : Nat) : Edit → Prop
  | addSuccessorOnly c d | addPredecessorOnly d c => a = c ∧ b = d
  | addNode _ _ | addEdge _ _ | addPath _ | setRoot _ => False

end Edit

/-- The graph after a sequence of edits. -/
def built (edits : List Edit) : PointerGraph := edits.foldl Edit.apply .empty

theorem Agree.addEdge (h : g.Agree a b) (c d : Nat) : (g.addEdge c d).2.Agree a b := by
  by_cases hlt : c < g.size ∧ d < g.size
  · by_cases hmem : d ∈ g.successors c
    · rwa [addEdge_of_mem hlt.2 hmem]
    · rw [addEdge_of_not_mem hlt.1 hlt.2 hmem]
      unfold Agree at h ⊢
      rw [successors_pushPredecessor, mem_successors_pushSuccessor hlt.1,
        mem_predecessors_pushPredecessor (by simpa using hlt.2), predecessors_pushSuccessor, h,
        and_comm]
  · rwa [addEdge_of_not_lt hlt]

theorem Agree.addPath (h : g.Agree a b) (path : List Nat) : (g.addPath path).Agree a b := by
  induction path generalizing g with
  | nil => exact h
  | cons c path ih =>
    cases path with
    | nil => exact h
    | cons d path => exact ih (h.addEdge c d)

theorem Agree.addSuccessorOnly (h : g.Agree a b) (hne : ¬ (a = c ∧ b = d)) :
    (g.addSuccessorOnly c d).2.Agree a b := by
  unfold PointerGraph.addSuccessorOnly
  split
  case isTrue hlt =>
    have hc : c < g.size := by simp_all [contains]
    unfold Agree at h ⊢
    rw [mem_successors_pushSuccessor hc, predecessors_pushSuccessor, or_iff_left hne, h]
  case isFalse => exact h

theorem Agree.addPredecessorOnly (h : g.Agree a b) (hne : ¬ (a = c ∧ b = d)) :
    (g.addPredecessorOnly d c).2.Agree a b := by
  unfold PointerGraph.addPredecessorOnly
  split
  case isTrue hlt =>
    have hd : d < g.size := by simp_all [contains]
    unfold Agree at h ⊢
    rw [successors_pushPredecessor, mem_predecessors_pushPredecessor hd, and_comm, or_iff_left hne, h]
  case isFalse => exact h

/-- The lists do not depend on the root. -/
theorem Agree.setRoot (h : g.Agree a b) (n : Nat) : (g.setRoot n).2.Agree a b := by
  unfold PointerGraph.setRoot
  split <;> exact h

/-- Agreement is kept by an edit that does not add a single end of the edge. -/
theorem Agree.apply (h : g.Agree a b) {e : Edit} (he : ¬ e.Halves a b) :
    (Edit.apply g e).Agree a b := by
  cases e with
  | addNode kind operands =>
    unfold Agree at h ⊢
    simpa [Edit.apply] using h
  | addEdge c d => exact h.addEdge c d
  | addPath path => exact h.addPath path
  | addSuccessorOnly c d => exact h.addSuccessorOnly he
  | addPredecessorOnly d c => exact h.addPredecessorOnly he
  | setRoot n => exact h.setRoot n

theorem Agree.foldl (h : g.Agree a b) {edits : List Edit} (hedits : ∀ e ∈ edits, ¬ e.Halves a b) :
    (edits.foldl Edit.apply g).Agree a b := by
  induction edits generalizing g with
  | nil => exact h
  | cons e edits ih =>
    rw [List.forall_mem_cons] at hedits
    exact ih (h.apply hedits.1) hedits.2

theorem agree_built {edits : List Edit} (h : ∀ e ∈ edits, ¬ e.Halves a b) :
    (built edits).Agree a b :=
  Agree.foldl (by simp [Agree, empty, successors, predecessors, node?]) h

/-- Adding an edge succeeds if both its ends are nodes, and changes nothing otherwise. If it succeeds, the
first end lists the edge, without a new duplicate, and the lists of other nodes stay. The second end
does as well exactly if the two ends agreed before, and they do unless a single end of the edge was
added on its own. -/
theorem addEdge_links_iff_agree (edits : List Edit) (a b : Nat) :
    let g := built edits
    let r := g.addEdge a b
    (r.1 = true ↔ a < g.size ∧ b < g.size) ∧ (r.1 = false → r.2 = g) ∧
      (r.1 = true → Adds g r.2 a b ∧ (Links g r.2 a b ↔ g.Agree a b)) ∧
      ((∀ e ∈ edits, ¬ e.Halves a b) → g.Agree a b) := by
  intro g r
  refine ⟨addEdge_fst, ?_, ?_, agree_built⟩
  · intro hfail
    have hlt : ¬ (a < g.size ∧ b < g.size) := by
      rw [← addEdge_fst]
      simpa using hfail
    simp only [r, addEdge_of_not_lt hlt]
  · intro hok
    obtain ⟨ha, hb⟩ := addEdge_fst.mp hok
    exact ⟨addEdge_adds ha hb, addEdge_links_iff ha hb⟩

/-- Two nodes on a path, and a third one. -/
def shortPath : List Edit :=
  [.addNode .entry [], .addNode .alloc [], .addNode .ret [], .addPath [0, 1]]

/-- A path gets one more edge. -/
theorem addEdge_links_iff_agree_shortPath :
    Links (built shortPath) ((built shortPath).addEdge 1 2).2 1 2 := by
  obtain ⟨_, _, hadded, hagree⟩ := addEdge_links_iff_agree shortPath 1 2
  exact (hadded (by decide)).2.mpr (hagree (by simp [shortPath, Edit.Halves]))

/-- Two nodes, with an edge that only its first end lists. -/
def halfEdge : List Edit := [.addNode .alloc [], .addNode .noop [], .addSuccessorOnly 0 1]

/-- Adding the edge succeeds, and the second end still does not list it. -/
theorem not_links_halfEdge : ((built halfEdge).addEdge 0 1).1 = true ∧
    ¬ Links (built halfEdge) ((built halfEdge).addEdge 0 1).2 0 1 :=
  ⟨by decide, fun h => absurd h.predecessor (by decide)⟩

end PointerGraph

end MemDep
