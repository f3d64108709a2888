import MemDep.PointsTo.Report

/-!
# Validating points-to graphs

The validator looks at every node and reports everything that is wrong. Operands are checked node
by node: first their number, then each of them. Edges are checked after that: the root, then each
node's place and edges, and at last, if connectivity is asked for, whether the root leads to it.

Edges and operands name positions; a node that carries a wrong id still counts at its position.
-/

namespace MemDep

namespace PointerGraph

/-! ## Operands -/

/-- Whether the operands of a node are what its kind asks for. -/
def arityFinding? (n : PointerNode) : Option Finding :=
  match n.kind.arity with
  | .merge =>
    if n.operands.isEmpty then some (.invalidOperands n.kind n.id n.operands false)
    else if n.hasDuplicateOperand then some (.invalidOperands n.kind n.id n.operands true)
    else none
  | .exactly count =>
    if n.operands.length = count then none
    else some (.invalidOperands n.kind n.id n.operands false)
  | .unchecked => none

/-- What is wrong with the operands of a node. -/
def operandFindings (g : PointerGraph) (n : PointerNode) : List Finding :=
  (arityFinding? n).toList ++
    (n.operands.filter (!g.contains ·)).map (.missingOperand n.kind n.id ·)

/-- Checks the operands of all nodes. -/
def checkOperands (g : PointerGraph) : Report := ⟨g.nodes.toList.flatMap g.operandFindings⟩

/-! ## Edges -/

/-- Whether the root exists. -/
def rootFinding? (g : PointerGraph) : Option Finding :=
  (g.root.filter (!g.contains ·)).map .invalidRoot

/-- What is wrong with the place and the edges of a node. -/
def edgeFindings (g : PointerGraph) (s : ValidatorSettings) (position : Nat) (n : PointerNode) :
    List Finding :=
  (if n.id ≠ position then [.misplaced n.kind n.id position] else []) ++
    (if s.checkConnectivity && n.predecessors.isEmpty && g.root != some position &&
        !n.kind.canFloat then
      [.invalidEdges n.kind n.id .noPredecessor] else []) ++
    (n.successors.filter fun b => !(g.predecessors b).contains position).map
      (fun _ => .invalidEdges n.kind n.id .missingPredecessor) ++
    (n.predecessors.filter fun a => !(g.successors a).contains position).map
      (fun _ => .invalidEdges n.kind n.id .missingSuccessor)

/-- The nodes that the root does not lead to, unless they may float. -/
def unreachableFindings (g : PointerGraph) : List Finding :=
  let reachable := g.reachable
  g.nodes.toList.zipIdx.filterMap fun (n, position) =>
    if reachable[position]? = some true || n.kind.canFloat then none
    else some (.unreachable n.kind n.id)

/-- Checks the root and the edges of all nodes. -/
def checkEdges (g : PointerGraph) (s : ValidatorSettings) : Report :=
  ⟨g.rootFinding?.toList ++
    g.nodes.toList.zipIdx.flatMap (fun (n, position) => g.edgeFindings s position n) ++
    (if s.checkConnectivity then g.unreachableFindings else [])⟩

/-- Checks operands and edges. -/
def validate (g : PointerGraph) (s : ValidatorSettings) : Report :=
  ⟨g.checkOperands.findings ++ (g.checkEdges s).findings⟩

end PointerGraph

end MemDep
