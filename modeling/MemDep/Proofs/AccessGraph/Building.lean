import Mathlib.Data.List.Induction
import MemDep.Proofs.AccessGraph.Walks

/-!
# Building access graphs

A graph that is built by edits from the unknown memory alone is in order, whatever ids the edits name:
nodes are in their places, edges stay within the graph, and both ends of an edge list it, once. Adding
an edge asks its first end alone whether the edge is there; that is enough, as both ends list it or none
does. So the checks of such a graph find no asymmetric edge, and nothing else either once a root is set
(`built_orderly_and_checks_exact`). In a graph that was not built like this but passes the checks, the
asymmetric edges are those that exactly one of their ends lists.
-/

namespace MemDep

/-- The node with one more successor. -/
def AccessNode.pushSuccessor (b : Nat) (node : AccessNode) : AccessNode :=
  { node with successors := node.successors ++ [b] }

/-- The node with one more predecessor. -/
def AccessNode.pushPredecessor (a : Nat) (node : AccessNode) : AccessNode :=
  { node with predecessors := node.predecessors ++ [a] }

namespace AccessGraph

variable {g : AccessGraph} {a b m n : Nat}

/-! ## Changing and adding nodes -/

@[simp]
theorem size_modify (f : AccessNode → AccessNode) : (g.modify n f).size = g.size := Array.size_modify

@[simp]
theorem root_modify (f : AccessNode → AccessNode) : (g.modify n f).root = g.root := rfl

theorem node?_modify (f : AccessNode → AccessNode) :
    (g.modify n f).node? m = if n = m then (g.node? m).map f else g.node? m :=
  Array.getElem?_modify

/-- What a change of nodes keeps of each node can be read off the graph as before. -/
theorem map_node?_modify {α : Type} (view : AccessNode → α) (f : AccessNode → AccessNode)
    (hf : ∀ node, view (f node) = view node) :
    ((g.modify n f).node? m).map view = (g.node? m).map view := by
  rw [node?_modify]
  cases g.node? m <;> split <;> simp [hf]

theorem successors_modify (f : AccessNode → AccessNode)
    (hf : ∀ node, (f node).successors = node.successors) :
    (g.modify n f).successors m = g.successors m := by
  unfold successors
  rw [map_node?_modify AccessNode.successors f hf]

theorem predecessors_modify (f : AccessNode → AccessNode)
    (hf : ∀ node, (f node).predecessors = node.predecessors) :
    (g.modify n f).predecessors m = g.predecessors m := by
  unfold predecessors
  rw [map_node?_modify AccessNode.predecessors f hf]

theorem exists_node? (h : n < g.size) : ∃ node, g.node? n = some node :=
  ⟨g.nodes[n], Array.getElem?_eq_getElem h⟩

/-- A list that every node has, where one node gets an entry more. -/
theorem getD_map_node?_modify (view : AccessNode → List Nat) (f : AccessNode → AccessNode)
    (hf : ∀ node, view (f node) = view node ++ [b]) (ha : a < g.size) :
    (((g.modify a f).node? m).map view).getD [] =
      ((g.node? m).map view).getD [] ++ if m = a then [b] else [] := by
  rw [node?_modify]
  by_cases hm : m = a
  · obtain ⟨node, hn⟩ := exists_node? ha
    simp [hm, hn, hf]
  · simp [hm, Ne.symm hm]

theorem successors_pushSuccessor (ha : a < g.size) :
    (g.modify a (.pushSuccessor b)).successors m = g.successors m ++ if m = a then [b] else [] :=
  getD_map_node?_modify AccessNode.successors (.pushSuccessor b) (fun _ => rfl) ha

theorem predecessors_pushPredecessor (hb : b < g.size) :
    (g.modify b (.pushPredecessor a)).predecessors m =
      g.predecessors m ++ if m = b then [a] else [] :=
  getD_map_node?_modify AccessNode.predecessors (.pushPredecessor a) (fun _ => rfl) hb

@[simp]
theorem size_addNode (kind : NodeKind) : (g.addNode kind).2.size = g.size + 1 := Array.size_push _

theorem node?_addNode (kind : NodeKind) :
    (g.addNode kind).2.node? m = if m = g.size then some (.bare g.size kind) else g.node? m :=
  Array.getElem?_push

theorem node?_size : g.node? g.size = none := by
  simp [node?, size]

@[simp]
theorem successors_addNode (kind : NodeKind) :
    (g.addNode kind).2.successors m = g.successors m := by
  unfold successors
  rw [node?_addNode]
  by_cases hm : m = g.size
  · simp [hm, node?_size, AccessNode.bare]
  · simp [hm]

@[simp]
theorem predecessors_addNode (kind : NodeKind) :
    (g.addNode kind).2.predecessors m = g.predecessors m := by
  unfold predecessors
  rw [node?_addNode]
  by_cases hm : m = g.size
  · simp [hm, node?_size, AccessNode.bare]
  · simp [hm]

/-! ## Adding an edge -/

/-- The graph with an edge more, listed by both its ends. -/
def linked (g : AccessGraph) (a b : Nat) : AccessGraph :=
  (g.modify a (.pushSuccessor b)).modify b (.pushPredecessor a)

theorem addEdge_of_not_lt (h : ¬ (a < g.size ∧ b < g.size)) : g.addEdge a b = (false, g) := by
  simp [addEdge, contains, h]

theorem addEdge_of_mem (hb : b < g.size) (h : b ∈ g.successors a) : g.addEdge a b = (true, g) := by
  simp [addEdge, contains, lt_of_mem_successors h, hb, h]

theorem addEdge_of_not_mem (ha : a < g.size) (hb : b < g.size) (h : b ∉ g.successors a) :
    g.addEdge a b = (true, g.linked a b) := by
  simp only [addEdge, contains, ha, hb, h]
  rfl

@[simp]
theorem size_linked : (g.linked a b).size = g.size := by
  simp [linked]

/-- An edge more changes nothing but the lists of edges. -/
theorem map_node?_linked {α : Type} (view : AccessNode → α)
    (hsuccessor : ∀ node, view (node.pushSuccessor b) = view node)
    (hpredecessor : ∀ node, view (node.pushPredecessor a) = view node) :
    ((g.linked a b).node? m).map view = (g.node? m).map view := by
  unfold linked
  rw [map_node?_modify view _ hpredecessor, map_node?_modify view _ hsuccessor]

theorem successors_linked (ha : a < g.size) :
    (g.linked a b).successors m = g.successors m ++ if m = a then [b] else [] := by
  unfold linked
  rw [successors_modify (.pushPredecessor a) fun _ => rfl, successors_pushSuccessor ha]

theorem predecessors_linked (hb : b < g.size) :
    (g.linked a b).predecessors m = g.predecessors m ++ if m = b then [a] else [] := by
  unfold linked
  rw [predecessors_pushPredecessor (by simpa using hb),
    predecessors_modify (.pushSuccessor b) fun _ => rfl]

theorem mem_successors_linked (ha : a < g.size) :
    n ∈ (g.linked a b).successors m ↔ n ∈ g.successors m ∨ m = a ∧ n = b := by
  rw [successors_linked ha]
  by_cases hm : m = a <;> simp [hm]

theorem mem_predecessors_linked (hb : b < g.size) :
    m ∈ (g.linked a b).predecessors n ↔ m ∈ g.predecessors n ∨ m = a ∧ n = b := by
  rw [predecessors_linked hb]
  by_cases hn : n = b <;> simp [hn]

theorem count_successors_linked (ha : a < g.size) :
    ((g.linked a b).successors m).count n =
      (g.successors m).count n + if m = a ∧ n = b then 1 else 0 := by
  rw [successors_linked ha, List.count_append]
  by_cases hm : m = a
  · simp [hm, List.count_singleton, eq_comm (a := b)]
  · simp [hm]

theorem count_predecessors_linked (hb : b < g.size) :
    ((g.linked a b).predecessors n).count m =
      (g.predecessors n).count m + if m = a ∧ n = b then 1 else 0 := by
  rw [predecessors_linked hb, List.count_append]
  by_cases hn : n = b
  · simp [hn, List.count_singleton, eq_comm (a := a)]
  · simp [hn]

/-! ## Graphs in order -/

/-- Nodes are in their places, the first of them is the unknown memory, the root and all edges are within
the graph, and both ends of an edge list it, once. -/
structure Orderly (g : AccessGraph) : Prop where
  id_eq : ∀ n, n < g.size → (g.node? n).map AccessNode.id = some n
  kind_unknownMemory : (g.node? unknownMemory).map AccessNode.kind = some .unknownMemory
  root_lt : ∀ r, g.root = some r → r < g.size
  successors_lt : ∀ a b, b ∈ g.successors a → b < g.size
  predecessors_lt : ∀ a b, a ∈ g.predecessors b → a < g.size
  count_eq : ∀ a b, (g.successors a).count b = (g.predecessors b).count a
  count_le_one : ∀ a b, (g.successors a).count b ≤ 1

theorem successors_initial : initial.successors n = [] := by
  cases n <;> rfl

theorem predecessors_initial : initial.predecessors n = [] := by
  cases n <;> rfl

theorem orderly_initial : initial.Orderly := by
  refine ⟨by decide, by decide, by simp [initial], ?_, ?_, ?_, ?_⟩
  all_goals simp [successors_initial, predecessors_initial]

namespace Orderly

/-- The order of a graph is about neither what nodes read nor what they write. -/
theorem modify (h : g.Orderly) (n : Nat) {f : AccessNode → AccessNode}
    (hid : ∀ node, (f node).id = node.id) (hkind : ∀ node, (f node).kind = node.kind)
    (hsuccessors : ∀ node, (f node).successors = node.successors)
    (hpredecessors : ∀ node, (f node).predecessors = node.predecessors) : (g.modify n f).Orderly := by
  refine ⟨?_, ?_, ?_, ?_, ?_, ?_, ?_⟩
  all_goals simp only [root_modify, size_modify, map_node?_modify _ f hid,
    map_node?_modify _ f hkind, successors_modify f hsuccessors, predecessors_modify f hpredecessors]
  exacts [h.id_eq, h.kind_unknownMemory, h.root_lt, h.successors_lt, h.predecessors_lt, h.count_eq,
    h.count_le_one]

theorem addNode (h : g.Orderly) (kind : NodeKind) : (g.addNode kind).2.Orderly := by
  have hpos : unknownMemory ≠ g.size := by
    intro hzero
    have hkind := h.kind_unknownMemory
    rw [hzero, node?_size] at hkind
    simp at hkind
  refine ⟨?_, ?_, ?_, ?_, ?_, ?_, ?_⟩
  · intro n hn
    rw [node?_addNode]
    by_cases hsize : n = g.size
    · simp [hsize, AccessNode.bare]
    · rw [if_neg hsize]
      rw [size_addNode] at hn
      exact h.id_eq n (by omega)
  · rw [node?_addNode, if_neg hpos]
    exact h.kind_unknownMemory
  · intro r hr
    have := h.root_lt r hr
    rw [size_addNode]
    omega
  · intro a b hb
    have := h.successors_lt a b (by simpa using hb)
    rw [size_addNode]
    omega
  · intro a b ha
    have := h.predecessors_lt a b (by simpa using ha)
    rw [size_addNode]
    omega
  · simpa using h.count_eq
  · simpa using h.count_le_one

/-- As both ends list the same edges, one that the first end does not list is new at both ends. -/
theorem linked (h : g.Orderly) (ha : a < g.size) (hb : b < g.size) (hnew : b ∉ g.successors a) :
    (g.linked a b).Orderly := by
  refine ⟨?_, ?_, ?_, ?_, ?_, ?_, ?_⟩
  · intro n hn
    rw [map_node?_linked AccessNode.id (fun _ => rfl) fun _ => rfl]
    exact h.id_eq n (by simpa using hn)
  · rw [map_node?_linked AccessNode.kind (fun _ => rfl) fun _ => rfl]
    exact h.kind_unknownMemory
  · intro r hr
    rw [size_linked]
    exact h.root_lt r hr
  · intro m n hn
    rw [size_linked]
    rcases (mem_successors_linked ha).mp hn with hn | ⟨_, rfl⟩
    · exact h.successors_lt m n hn
    · exact hb
  · intro m n hm
    rw [size_linked]
    rcases (mem_predecessors_linked hb).mp hm with hm | ⟨rfl, _⟩
    · exact h.predecessors_lt m n hm
    · exact ha
  · intro m n
    rw [count_successors_linked ha, count_predecessors_linked hb, h.count_eq]
  · intro m n
    rw [count_successors_linked ha]
    split
    case isTrue hend =>
      obtain ⟨rfl, rfl⟩ := hend
      rw [List.count_eq_zero.mpr hnew]
    case isFalse => exact h.count_le_one m n

theorem addEdge (h : g.Orderly) (a b : Nat) : (g.addEdge a b).2.Orderly := by
  by_cases hlt : a < g.size ∧ b < g.size
  · by_cases hmem : b ∈ g.successors a
    · rwa [addEdge_of_mem hlt.2 hmem]
    · rw [addEdge_of_not_mem hlt.1 hlt.2 hmem]
      exact h.linked hlt.1 hlt.2 hmem
  · rwa [addEdge_of_not_lt hlt]

theorem addPath (h : g.Orderly) (path : List Nat) : (g.addPath path).Orderly := by
  induction path generalizing g with
  | nil => exact h
  | cons a path ih =>
    cases path with
    | nil => exact h
    | cons b path => exact ih (h.addEdge a b)

theorem addWrite (h : g.Orderly) (n : Nat) (w : Write) : (g.addWrite n w).2.Orderly := by
  unfold AccessGraph.addWrite
  split
  · refine h.modify n ?_ ?_ ?_ ?_ <;> intro node <;> split <;> rfl
  · exact h

theorem addRead (h : g.Orderly) (n : Nat) (r : Region) : (g.addRead n r).2.Orderly := by
  unfold AccessGraph.addRead
  split
  · exact h.modify n (fun _ => rfl) (fun _ => rfl) (fun _ => rfl) fun _ => rfl
  · exact h

theorem setRoot (h : g.Orderly) (n : Nat) : (g.setRoot n).2.Orderly := by
  unfold AccessGraph.setRoot
  split
  case isTrue hn =>
    refine { h with root_lt := ?_ }
    intro r hr
    obtain rfl : n = r := Option.some.inj hr
    change n < g.size
    simpa [contains] using hn
  case isFalse => exact h

theorem id_of_node? (h : g.Orderly) (n : Nat) (node : AccessNode) (hn : g.node? n = some node) :
    node.id = n := by
  have hid := h.id_eq n (lt_of_node? hn)
  rw [hn] at hid
  exact Option.some.inj hid

theorem symmetric (h : g.Orderly) : g.Symmetric := by
  intro a b
  rw [← List.count_pos_iff, ← List.count_pos_iff, h.count_eq]

theorem asymmetricEdges_eq_nil (h : g.Orderly) : g.asymmetricEdges = [] := by
  rw [List.eq_nil_iff_forall_not_mem]
  rintro ⟨a, b⟩ hmem
  rw [mem_asymmetricEdges h.id_of_node?, xor_iff_not_iff] at hmem
  exact hmem (h.symmetric a b)

/-- In a graph in order, the root is all that the check of the structure can miss. -/
theorem structuralError_eq_none_iff (h : g.Orderly) : g.structuralError = none ↔ ∃ r, g.root = some r := by
  rw [AccessGraph.structuralError_eq_none_iff]
  constructor
  · rintro ⟨⟨r, hr, _⟩, _⟩
    exact ⟨r, hr⟩
  · rintro ⟨r, hr⟩
    refine ⟨⟨r, hr, h.root_lt r hr⟩, h.kind_unknownMemory, ?_⟩
    intro n node hn
    refine ⟨h.id_of_node? n node hn, fun m hm => ?_⟩
    rcases List.mem_append.mp hm with hm | hm
    · exact h.successors_lt n m (mem_successors.mpr ⟨node, hn, hm⟩)
    · exact h.predecessors_lt m n (mem_predecessors.mpr ⟨node, hn, hm⟩)

end Orderly

/-! ## Edits -/

/-- An operation that builds a graph. -/
inductive Edit where
  | addNode (kind : NodeKind)
  | addStore (w : Write)
  | addLoad (r : Region)
  | addWrite (n : Nat) (w : Write)
  | addRead (n : Nat) (r : Region)
  | addEdge (a b : Nat)
  | addPath (path : List Nat)
  | setRoot (n : Nat)

namespace Edit

/-- Whether an edit succeeds, and the graph after it. A new node is always added, and a path as far as
its nodes exist. -/
def apply (g : AccessGraph) : Edit → Bool × AccessGraph
  | addNode kind => (true, (g.addNode kind).2)
  | addStore w => (true, (g.addStore w).2)
  | addLoad r => (true, (g.addLoad r).2)
  | addWrite n w => g.addWrite n w
  | addRead n r => g.addRead n r
  | addEdge a b => g.addEdge a b
  | addPath path => (true, g.addPath path)
  | setRoot n => g.setRoot n

/-- The edit is one of nodes that do not all exist. -/
def Misses (g : AccessGraph) : Edit → Prop
  | addWrite n _ | addRead n _ | setRoot n => ¬ n < g.size
  | addEdge a b => ¬ (a < g.size ∧ b < g.size)
  | addNode _ | addStore _ | addLoad _ | addPath _ => False

/-- An edit fails only because of missing nodes, and then it changes nothing. -/
theorem apply_cases (g : AccessGraph) (e : Edit) :
    (¬ e.Misses g ∧ (e.apply g).1 = true) ∨ (e.Misses g ∧ e.apply g = (false, g)) := by
  cases e with
  | addNode _ | addStore _ | addLoad _ | addPath _ => exact .inl ⟨not_false, rfl⟩
  | addWrite n w =>
    by_cases hn : n < g.size <;> simp [Misses, apply, AccessGraph.addWrite, contains, hn]
  | addRead n r =>
    by_cases hn : n < g.size <;> simp [Misses, apply, AccessGraph.addRead, contains, hn]
  | addEdge a b =>
    by_cases hlt : a < g.size ∧ b < g.size
    · refine .inl ⟨not_not.mpr hlt, ?_⟩
      by_cases hmem : b ∈ g.successors a
      · simp [apply, addEdge_of_mem hlt.2 hmem]
      · simp [apply, addEdge_of_not_mem hlt.1 hlt.2 hmem]
    · exact .inr ⟨hlt, addEdge_of_not_lt hlt⟩
  | setRoot n =>
    by_cases hn : n < g.size <;> simp [Misses, apply, AccessGraph.setRoot, contains, hn]

theorem apply_eq_false_iff {e : Edit} : (e.apply g).1 = false ↔ e.Misses g := by
  rcases e.apply_cases g with ⟨hnot, happly⟩ | ⟨hmiss, happly⟩
  · simp [hnot, happly]
  · simp [hmiss, happly]

theorem apply_of_misses {e : Edit} (h : e.Misses g) : (e.apply g).2 = g := by
  rcases e.apply_cases g with ⟨hnot, _⟩ | ⟨_, happly⟩
  · exact absurd h hnot
  · rw [happly]

end Edit

theorem Orderly.apply (h : g.Orderly) (e : Edit) : (e.apply g).2.Orderly := by
  cases e with
  | addNode kind => exact h.addNode kind
  | addStore w => exact (h.addNode .store).addWrite _ w
  | addLoad r => exact (h.addNode .load).addRead _ r
  | addWrite n w => exact h.addWrite n w
  | addRead n r => exact h.addRead n r
  | addEdge a b => exact h.addEdge a b
  | addPath path => exact h.addPath path
  | setRoot n => exact h.setRoot n

/-! ## Sequences of edits -/

/-- The graph after a sequence of edits. -/
def built (edits : List Edit) : AccessGraph := edits.foldl (fun g e => (e.apply g).2) initial

theorem built_concat (edits : List Edit) (e : Edit) :
    built (edits ++ [e]) = (e.apply (built edits)).2 := by
  simp [built]

theorem orderly_built (edits : List Edit) : (built edits).Orderly := by
  induction edits using List.reverseRecOn with
  | nil => exact orderly_initial
  | append_singleton edits e ih =>
    rw [built_concat]
    exact ih.apply e

/-- One of the edits sets the root, and succeeds. -/
def SetsRoot (edits : List Edit) : Prop :=
  ∃ before n, before ++ [.setRoot n] <+: edits ∧ ((built before).setRoot n).1 = true

theorem setsRoot_concat {edits : List Edit} {e : Edit} : SetsRoot (edits ++ [e]) ↔
    SetsRoot edits ∨ ∃ n, e = .setRoot n ∧ ((built edits).setRoot n).1 = true := by
  unfold SetsRoot
  simp only [List.prefix_concat_iff]
  constructor
  · rintro ⟨before, n, heq | hpre, hok⟩
    · obtain ⟨rfl, he⟩ := List.append_inj' heq rfl
      exact .inr ⟨n, (List.singleton_inj.mp he).symm, hok⟩
    · exact .inl ⟨before, n, hpre, hok⟩
  · rintro (⟨before, n, hpre, hok⟩ | ⟨n, rfl, hok⟩)
    · exact ⟨before, n, .inr hpre, hok⟩
    · exact ⟨edits, n, .inl rfl, hok⟩

theorem root_addEdge : (g.addEdge a b).2.root = g.root := by
  by_cases hlt : a < g.size ∧ b < g.size
  · by_cases hmem : b ∈ g.successors a
    · rw [addEdge_of_mem hlt.2 hmem]
    · rw [addEdge_of_not_mem hlt.1 hlt.2 hmem]
      rfl
  · rw [addEdge_of_not_lt hlt]

theorem root_addPath (path : List Nat) : (g.addPath path).root = g.root := by
  induction path generalizing g with
  | nil => rfl
  | cons a path ih =>
    cases path with
    | nil => rfl
    | cons b path => exact ih.trans root_addEdge

theorem root_addWrite (w : Write) : (g.addWrite n w).2.root = g.root := by
  unfold addWrite
  split <;> rfl

theorem root_addRead (r : Region) : (g.addRead n r).2.root = g.root := by
  unfold addRead
  split <;> rfl

/-- A graph has a root once one was set: no edit takes it away. -/
theorem exists_root_apply {e : Edit} : (∃ r, (e.apply g).2.root = some r) ↔
    (∃ r, g.root = some r) ∨ ∃ n, e = .setRoot n ∧ (g.setRoot n).1 = true := by
  cases e with
  | setRoot n =>
    by_cases hn : g.contains n <;> simp [Edit.apply, setRoot, hn]
  | addNode kind => simp [Edit.apply, addNode]
  | addStore w => simp [Edit.apply, addStore, root_addWrite, addNode]
  | addLoad r => simp [Edit.apply, addLoad, root_addRead, addNode]
  | addWrite n w => simp [Edit.apply, root_addWrite]
  | addRead n r => simp [Edit.apply, root_addRead]
  | addEdge a b => simp [Edit.apply, root_addEdge]
  | addPath path => simp [Edit.apply, root_addPath]

theorem exists_root_built (edits : List Edit) :
    (∃ r, (built edits).root = some r) ↔ SetsRoot edits := by
  induction edits using List.reverseRecOn with
  | nil => simp [built, initial, SetsRoot]
  | append_singleton edits e ih => rw [built_concat, exists_root_apply, ih, setsRoot_concat]

/-- A graph that is built by edits is in order. The checks find no asymmetric edge in it, and no other
fault exactly if some edit has set the root. An edit of it fails exactly if it misses a node, and then
changes nothing. In every graph that passes the check of its structure, built like this or not, the
asymmetric edges are those that exactly one of their ends lists. -/
theorem built_orderly_and_checks_exact :
    (∀ edits, (built edits).Orderly ∧ (built edits).asymmetricEdges = [] ∧
      ((built edits).structuralError = none ↔ SetsRoot edits) ∧
      ∀ e : Edit, ((e.apply (built edits)).1 = false ↔ e.Misses (built edits)) ∧
        ((e.apply (built edits)).1 = false → (e.apply (built edits)).2 = built edits)) ∧
    ∀ g : AccessGraph, g.structuralError = none →
      ∀ a b, (a, b) ∈ g.asymmetricEdges ↔ Xor (b ∈ g.successors a) (a ∈ g.predecessors b) := by
  constructor
  · intro edits
    have horder := orderly_built edits
    refine ⟨horder, horder.asymmetricEdges_eq_nil, ?_, fun e => ⟨Edit.apply_eq_false_iff, ?_⟩⟩
    · rw [horder.structuralError_eq_none_iff, exists_root_built]
    · intro hfail
      exact Edit.apply_of_misses (Edit.apply_eq_false_iff.mp hfail)
  · intro g hg a b
    have hwf := wellFormed_of_structuralError hg
    exact mem_asymmetricEdges fun _ _ => hwf.id_eq

/-- A loop that is entered and stored to; some of the edits fail, and one edge is added twice. -/
def loopEdits : List Edit :=
  [.addNode .alloc, .addStore ⟨.whole 1, true⟩, .addEdge 1 2, .addEdge 2 9, .addEdge 2 2, .setRoot 9,
    .addPath [1, 2, 2], .setRoot 1, .addLoad (.whole 1)]

/-- A loop of two nodes; the edge back to the first one is listed by the second one only. -/
def unmatchedLoop : AccessGraph where
  nodes := #[.bare 0 .unknownMemory, ⟨1, .alloc, [], [], [], [2], []⟩, ⟨2, .load, [], [], [], [1], [1]⟩]
  root := some 1

theorem built_orderly_and_checks_exact_loopEdits :
    (built loopEdits).structuralError = none ∧
    ((Edit.addEdge 2 9).apply (built loopEdits)).2 = built loopEdits ∧
    (2, 1) ∈ unmatchedLoop.asymmetricEdges ∧ (1, 2) ∉ unmatchedLoop.asymmetricEdges := by
  obtain ⟨hbuilt, hexact⟩ := built_orderly_and_checks_exact
  obtain ⟨_, _, hroot, hedits⟩ := hbuilt loopEdits
  have hunmatched := hexact unmatchedLoop (by decide)
  refine ⟨hroot.mpr ⟨loopEdits.take 7, 1, ⟨[.addLoad (.whole 1)], rfl⟩, by decide⟩,
    (hedits (.addEdge 2 9)).2 (by decide), ?_, ?_⟩
  · rw [hunmatched]
    decide
  · rw [hunmatched]
    decide

end AccessGraph

end MemDep
