import MemDep.AccessGraph.Basic

/-!
# Defects of access graphs

A graph that was read from outside may be malformed. `structuralError` finds the first defect that
makes a graph unfit for analysis; `asymmetricEdges` lists the edges that only one of their two ends
knows about, which an analysis tolerates.
-/

namespace MemDep

/-- Why a graph cannot be analysed. -/
inductive GraphDefect where
  /-- No root is set. -/
  | noRoot
  /-- The root is none of the `size` nodes. -/
  | rootMissing (root size : Nat)
  /-- Node 0 is not the unknown memory. -/
  | noUnknownMemory
  /-- A node carries another id than its position. -/
  | misplaced (id : Nat) (slot : Nat)
  /-- A node has an edge to or from a node that does not exist. -/
  | dangling (id other : Nat)
deriving DecidableEq, Repr

/-- A defect in words. -/
def GraphDefect.message : GraphDefect → String
  | noRoot => "graph has no root"
  | rootMissing root size => s!"root {root} is not a node of the graph ({size} nodes)"
  | noUnknownMemory => "node 0 is not the UNKNOWN_MEMORY object"
  | misplaced id slot => s!"node {id} is stored at slot {slot}"
  | dangling id other => s!"node {id} has an edge to missing node {other}"

namespace AccessGraph

/-- What is wrong with one node: its id is checked first, then its successors and its predecessors
in their order. -/
def nodeError (g : AccessGraph) (slot : Nat) (n : AccessNode) : Option GraphDefect :=
  if n.id ≠ slot then
    some (.misplaced n.id slot)
  else
    ((n.successors ++ n.predecessors).find? (!g.contains ·)).map (.dangling n.id)

/-- The first defect: of the root, of node 0, and then of the nodes in order. -/
def structuralError (g : AccessGraph) : Option GraphDefect :=
  match g.root with
  | none => some .noRoot
  | some root =>
    if !g.contains root then
      some (.rootMissing root g.size)
    else if (g.node? unknownMemory).map AccessNode.kind ≠ some .unknownMemory then
      some .noUnknownMemory
    else
      g.nodes.toList.zipIdx.findSome? fun (n, slot) => g.nodeError slot n

/-- The node at position `a` lists `b` as a successor. -/
def hasSuccessor (g : AccessGraph) (a b : Nat) : Bool := (g.successors a).contains b

/-- The node at position `b` lists `a` as a predecessor. -/
def hasPredecessor (g : AccessGraph) (b a : Nat) : Bool := (g.predecessors b).contains a

/-- The edges that exactly one end lists, each as often as that end lists it. Nodes are taken in
order, the successors of each before its predecessors. -/
def asymmetricEdges (g : AccessGraph) : List (Nat × Nat) :=
  g.nodes.toList.flatMap fun n =>
    (n.successors.filter fun s => !g.hasPredecessor s n.id).map (n.id, ·) ++
      (n.predecessors.filter fun p => !g.hasSuccessor p n.id).map (·, n.id)

end AccessGraph

end MemDep
