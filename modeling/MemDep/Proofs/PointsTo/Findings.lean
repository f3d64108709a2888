import MemDep.PointsTo.Validate
import MemDep.Proofs.Digraph

/-!
# What the checks of points-to graphs find

For each check of the validator, what it finds. Nothing is assumed of the graph: edges may lead out of
it, ids may be wrong, and the root may be missing.
-/

namespace MemDep

open Relation

/-- Operands are what is asked for. -/
def Arity.Accepts (operands : List Nat) : Arity → Prop
  | exactly count => operands.length = count
  | merge => operands ≠ [] ∧ operands.Nodup
  | unchecked => True

namespace PointerGraph

variable {g : PointerGraph} {s : ValidatorSettings} {n : Nat} {node : PointerNode} {f : Finding}

/-! ## Nodes and edges -/

theorem lt_of_node? (h : g.node? n = some node) : n < g.size :=
  (Array.getElem?_eq_some_iff.mp h).1

theorem mem_zipIdx_nodes : (node, n) ∈ g.nodes.toList.zipIdx ↔ g.node? n = some node := by
  rw [List.mk_mem_zipIdx_iff_getElem?, Array.getElem?_toList]
  rfl

theorem mem_nodes : node ∈ g.nodes.toList ↔ ∃ n, g.node? n = some node := by
  rw [Array.mem_toList_iff]
  exact Array.mem_iff_getElem?

theorem mem_successors {a b : Nat} :
    b ∈ g.successors a ↔ ∃ node, g.node? a = some node ∧ b ∈ node.successors := by
  unfold successors
  cases g.node? a <;> simp

theorem mem_predecessors {a b : Nat} :
    b ∈ g.predecessors a ↔ ∃ node, g.node? a = some node ∧ b ∈ node.predecessors := by
  unfold predecessors
  cases g.node? a <;> simp

theorem lt_of_mem_successors {a b : Nat} (h : b ∈ g.successors a) : a < g.size := by
  obtain ⟨node, hnode, _⟩ := mem_successors.mp h
  exact lt_of_node? hnode

theorem lt_of_mem_predecessors {a b : Nat} (h : b ∈ g.predecessors a) : a < g.size := by
  obtain ⟨node, hnode, _⟩ := mem_predecessors.mp h
  exact lt_of_node? hnode

/-! ## Reachability -/

/-- The root leads to a node along successor edges. -/
def FromRoot (g : PointerGraph) (n : Nat) : Prop :=
  ∃ r, g.root = some r ∧ ReflTransGen (fun a b => b ∈ g.successors a) r n

/-- A walk to a node of the graph is one within the graph: only nodes have successors. -/
theorem arcs_of_successors {a b : Nat} (hb : b < g.size)
    (h : ReflTransGen (fun a b => b ∈ g.successors a) a b) :
    a < g.size ∧ ReflTransGen g.digraph.Arc a b := by
  induction h with
  | refl => exact ⟨hb, .refl⟩
  | tail _ hstep ih =>
    have hlt := lt_of_mem_successors hstep
    obtain ⟨ha, hwalk⟩ := ih hlt
    exact ⟨ha, hwalk.tail ⟨hlt, hstep, hb⟩⟩

/-- The search marks the nodes that the root leads to. -/
theorem marked_reachable_iff (hn : n < g.size) :
    Digraph.Marked g.reachable n ↔ g.FromRoot n := by
  unfold reachable
  rw [Digraph.marked_reach]
  constructor
  · rintro ⟨r, hr, _, hrn⟩
    exact ⟨r, by simpa using hr, ReflTransGen.mono (fun a b h => h.2.1) r n hrn⟩
  · rintro ⟨r, hr, hrn⟩
    obtain ⟨hlt, hrn⟩ := arcs_of_successors hn hrn
    exact ⟨r, by simpa using hr, hlt, hrn⟩

/-! ## What warrants a finding -/

/-- A node that has to have predecessors and has none. -/
def Disconnected (g : PointerGraph) (n : Nat) (node : PointerNode) : Prop :=
  node.predecessors = [] ∧ g.root ≠ some n ∧ node.kind.canFloat = false

/-- The findings that a graph warrants, each with what is wrong. -/
inductive Warrants (g : PointerGraph) (s : ValidatorSettings) : Finding → Prop where
  | invalidOperands {n : Nat} {node : PointerNode} (hn : g.node? n = some node)
      (h : ¬ node.kind.arity.Accepts node.operands) :
      Warrants g s (.invalidOperands node.kind node.id node.operands
        (node.kind.arity = .merge ∧ ¬ node.operands.Nodup))
  | missingOperand {n m : Nat} {node : PointerNode} (hn : g.node? n = some node)
      (hm : m ∈ node.operands) (h : ¬ m < g.size) :
      Warrants g s (.missingOperand node.kind node.id m)
  | invalidRoot {r : Nat} (hr : g.root = some r) (h : ¬ r < g.size) : Warrants g s (.invalidRoot r)
  | misplaced {n : Nat} {node : PointerNode} (hn : g.node? n = some node) (h : node.id ≠ n) :
      Warrants g s (.misplaced node.kind node.id n)
  | noPredecessor {n : Nat} {node : PointerNode} (hs : s.checkConnectivity = true)
      (hn : g.node? n = some node) (h : g.Disconnected n node) :
      Warrants g s (.invalidEdges node.kind node.id .noPredecessor)
  | missingPredecessor {n b : Nat} {node : PointerNode} (hn : g.node? n = some node)
      (hb : b ∈ node.successors) (h : n ∉ g.predecessors b) :
      Warrants g s (.invalidEdges node.kind node.id .missingPredecessor)
  | missingSuccessor {n a : Nat} {node : PointerNode} (hn : g.node? n = some node)
      (ha : a ∈ node.predecessors) (h : n ∉ g.successors a) :
      Warrants g s (.invalidEdges node.kind node.id .missingSuccessor)
  | unreachable {n : Nat} {node : PointerNode} (hs : s.checkConnectivity = true)
      (hn : g.node? n = some node) (hfloat : node.kind.canFloat = false) (h : ¬ g.FromRoot n) :
      Warrants g s (.unreachable node.kind node.id)

/-! ## The checks -/

theorem arityFinding?_eq_some : arityFinding? node = some f ↔
    ¬ node.kind.arity.Accepts node.operands ∧ f = .invalidOperands node.kind node.id node.operands
      (node.kind.arity = .merge ∧ ¬ node.operands.Nodup) := by
  unfold arityFinding?
  rw [PointerNode.hasDuplicateOperand_eq, eq_comm (a := f)]
  cases harity : node.kind.arity with
  | exactly count =>
    by_cases hcount : node.operands.length = count <;> simp [Arity.Accepts, hcount]
  | merge =>
    by_cases hnil : node.operands = []
    · simp [Arity.Accepts, hnil]
    · by_cases hnodup : node.operands.Nodup <;> simp [Arity.Accepts, hnil, hnodup]
  | unchecked => simp [Arity.Accepts]

theorem mem_operandFindings : f ∈ g.operandFindings node ↔ arityFinding? node = some f ∨
    ∃ m ∈ node.operands, ¬ m < g.size ∧ f = .missingOperand node.kind node.id m := by
  unfold operandFindings
  simp [contains, and_assoc, eq_comm (a := f)]

theorem rootFinding?_eq_some :
    g.rootFinding? = some f ↔ ∃ r, g.root = some r ∧ ¬ r < g.size ∧ f = .invalidRoot r := by
  unfold rootFinding?
  simp [contains, Option.filter_eq_some_iff, and_assoc, eq_comm (a := f)]

theorem mem_edgeFindings : f ∈ g.edgeFindings s n node ↔
    (node.id ≠ n ∧ f = .misplaced node.kind node.id n) ∨
    ((s.checkConnectivity = true ∧ g.Disconnected n node) ∧
      f = .invalidEdges node.kind node.id .noPredecessor) ∨
    (∃ b ∈ node.successors, n ∉ g.predecessors b ∧
      f = .invalidEdges node.kind node.id .missingPredecessor) ∨
    ∃ a ∈ node.predecessors, n ∉ g.successors a ∧
      f = .invalidEdges node.kind node.id .missingSuccessor := by
  unfold edgeFindings Disconnected
  simp only [List.mem_append, List.mem_map, List.mem_filter, List.mem_ite_nil_right,
    List.mem_singleton, List.contains_eq_mem, List.isEmpty_iff, Bool.and_eq_true,
    Bool.not_eq_true', decide_eq_false_iff_not, bne_iff_ne, and_assoc, or_assoc, eq_comm (a := f)]

theorem mem_unreachableFindings : f ∈ g.unreachableFindings ↔
    ∃ n node, g.node? n = some node ∧ node.kind.canFloat = false ∧ ¬ g.FromRoot n ∧
      f = .unreachable node.kind node.id := by
  unfold unreachableFindings
  simp only [List.mem_filterMap, Prod.exists, mem_zipIdx_nodes]
  constructor
  · rintro ⟨node, n, hn, hf⟩
    split at hf
    case isTrue => simp at hf
    case isFalse hnot =>
      rw [Bool.or_eq_true, not_or, decide_eq_true_eq, ← Digraph.Marked,
        marked_reachable_iff (lt_of_node? hn), Bool.not_eq_true] at hnot
      exact ⟨n, node, hn, hnot.2, hnot.1, (Option.some.inj hf).symm⟩
  · rintro ⟨n, node, hn, hfloat, hroot, rfl⟩
    rw [← marked_reachable_iff (lt_of_node? hn), Digraph.Marked] at hroot
    exact ⟨node, n, hn, by simp [hroot, hfloat]⟩

theorem mem_checkOperands : f ∈ g.checkOperands.findings ↔
    ∃ n node, g.node? n = some node ∧ f ∈ g.operandFindings node := by
  unfold checkOperands
  simp only [List.mem_flatMap, mem_nodes]
  constructor
  · rintro ⟨node, ⟨n, hn⟩, hf⟩
    exact ⟨n, node, hn, hf⟩
  · rintro ⟨n, node, hn, hf⟩
    exact ⟨node, ⟨n, hn⟩, hf⟩

theorem mem_checkEdges : f ∈ (g.checkEdges s).findings ↔ g.rootFinding? = some f ∨
    (∃ n node, g.node? n = some node ∧ f ∈ g.edgeFindings s n node) ∨
    s.checkConnectivity = true ∧ f ∈ g.unreachableFindings := by
  unfold checkEdges
  simp only [List.mem_append, Option.mem_toList, List.mem_flatMap, Prod.exists, mem_zipIdx_nodes,
    or_assoc]
  refine or_congr Iff.rfl (or_congr exists_comm ?_)
  split <;> simp [*]

/-- The validator reports the findings that the graph warrants, and no others. -/
theorem mem_findings_validate : f ∈ (g.validate s).findings ↔ g.Warrants s f := by
  unfold validate
  rw [List.mem_append, mem_checkOperands, mem_checkEdges]
  constructor
  · rintro (⟨n, node, hn, hf⟩ | hf | ⟨n, node, hn, hf⟩ | ⟨hs, hf⟩)
    · rcases mem_operandFindings.mp hf with hf | ⟨m, hm, hlt, rfl⟩
      · obtain ⟨hnot, rfl⟩ := arityFinding?_eq_some.mp hf
        exact .invalidOperands hn hnot
      · exact .missingOperand hn hm hlt
    · obtain ⟨r, hr, hlt, rfl⟩ := rootFinding?_eq_some.mp hf
      exact .invalidRoot hr hlt
    · rcases mem_edgeFindings.mp hf with ⟨hid, rfl⟩ | ⟨⟨hs, hd⟩, rfl⟩ | ⟨b, hb, hnot, rfl⟩ |
        ⟨a, ha, hnot, rfl⟩
      · exact .misplaced hn hid
      · exact .noPredecessor hs hn hd
      · exact .missingPredecessor hn hb hnot
      · exact .missingSuccessor hn ha hnot
    · obtain ⟨n, node, hn, hfloat, hroot, rfl⟩ := mem_unreachableFindings.mp hf
      exact .unreachable hs hn hfloat hroot
  · intro hf
    cases hf with
    | invalidOperands hn hnot =>
      exact .inl ⟨_, _, hn, mem_operandFindings.mpr (.inl (arityFinding?_eq_some.mpr ⟨hnot, rfl⟩))⟩
    | missingOperand hn hm hlt =>
      exact .inl ⟨_, _, hn, mem_operandFindings.mpr (.inr ⟨_, hm, hlt, rfl⟩)⟩
    | invalidRoot hr hlt => exact .inr (.inl (rootFinding?_eq_some.mpr ⟨_, hr, hlt, rfl⟩))
    | misplaced hn hid =>
      exact .inr (.inr (.inl ⟨_, _, hn, mem_edgeFindings.mpr (.inl ⟨hid, rfl⟩)⟩))
    | noPredecessor hs hn hd =>
      exact .inr (.inr (.inl ⟨_, _, hn, mem_edgeFindings.mpr (.inr (.inl ⟨⟨hs, hd⟩, rfl⟩))⟩))
    | missingPredecessor hn hb hnot =>
      exact .inr (.inr (.inl ⟨_, _, hn,
        mem_edgeFindings.mpr (.inr (.inr (.inl ⟨_, hb, hnot, rfl⟩)))⟩))
    | missingSuccessor hn ha hnot =>
      exact .inr (.inr (.inl ⟨_, _, hn,
        mem_edgeFindings.mpr (.inr (.inr (.inr ⟨_, ha, hnot, rfl⟩)))⟩))
    | unreachable hs hn hfloat hroot =>
      exact .inr (.inr (.inr ⟨hs, mem_unreachableFindings.mpr ⟨_, _, hn, hfloat, hroot, rfl⟩⟩))

end PointerGraph

end MemDep
