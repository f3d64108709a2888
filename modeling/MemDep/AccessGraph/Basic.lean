import MemDep.Digraph
import MemDep.Region

/-!
# Access graphs

A control-flow graph whose nodes read and write memory. Nodes sit in an array and name each other
by position. Every node lists the nodes that control may flow to and those it may come from; both
lists are data, and in a graph that was read from outside they may disagree, name nodes that do not
exist, or sit under a wrong id. Graphs that are built with the operations below have none of these
defects, see `AccessGraph.structuralError` and `AccessGraph.asymmetricEdges`.

Node 0 of a built graph is the unknown memory.
-/

namespace MemDep

/-- What a node of an access graph does. -/
inductive NodeKind where
  /-- Allocates on the stack. -/
  | alloc
  /-- Allocates on the heap. -/
  | dynAlloc
  /-- A global variable. -/
  | global
  /-- Writes memory. -/
  | store
  /-- Reads memory. -/
  | load
  /-- A merge that was already in the program. -/
  | phi
  /-- A call. -/
  | call
  /-- A return. -/
  | ret
  /-- Nothing. -/
  | noop
  /-- The memory whose object is not known. -/
  | unknownMemory
deriving DecidableEq, Repr, Inhabited

namespace NodeKind

/-- Every kind. -/
def all : List NodeKind :=
  [alloc, dynAlloc, global, store, load, phi, call, ret, noop, unknownMemory]

/-- The name of a kind in written graphs. -/
def name : NodeKind → String
  | alloc => "Alloc"
  | dynAlloc => "DynAlloc"
  | global => "Global"
  | store => "Store"
  | load => "Load"
  | phi => "Phi"
  | call => "Call"
  | ret => "Return"
  | noop => "Noop"
  | unknownMemory => "UnknownMemory"

/-- The kind with a given name. -/
def ofName? (s : String) : Option NodeKind := all.find? (·.name == s)

/-- A node of this kind is a memory object. -/
def isMemoryObject : NodeKind → Bool
  | alloc | dynAlloc | global | unknownMemory => true
  | store | load | phi | call | ret | noop => false

theorem mem_all (k : NodeKind) : k ∈ all := by cases k <;> decide

theorem ofName?_name (k : NodeKind) : ofName? k.name = some k := by cases k <;> decide

end NodeKind

/-- A write of a node. A strong write always happens and overwrites its whole region; a weak write
may happen, and hides nothing. -/
structure Write where
  /-- What is written. -/
  region : Region
  /-- Whether it certainly is. -/
  strong : Bool
deriving DecidableEq, Repr

/-- A node of an access graph. -/
structure AccessNode where
  /-- The id that the node carries; in a well-formed graph its position. -/
  id : Nat
  /-- What the node does. -/
  kind : NodeKind
  /-- The regions it may write. -/
  weakWrites : List Region
  /-- The regions it certainly writes. -/
  strongWrites : List Region
  /-- The regions it reads. -/
  reads : List Region
  /-- The nodes that control may flow to. -/
  successors : List Nat
  /-- The nodes that control may come from. -/
  predecessors : List Nat
deriving DecidableEq, Repr, Inhabited

namespace AccessNode

/-- A node without accesses and edges. -/
def bare (id : Nat) (kind : NodeKind) : AccessNode := ⟨id, kind, [], [], [], [], []⟩

/-- All writes in a fixed order, the weak ones first. Positions in this list name writes. -/
def writes (n : AccessNode) : List Write :=
  n.weakWrites.map (⟨·, false⟩) ++ n.strongWrites.map (⟨·, true⟩)

/-- The node reads something. -/
def isRead (n : AccessNode) : Bool := !n.reads.isEmpty

/-- The node writes something. -/
def isWrite (n : AccessNode) : Bool := !n.weakWrites.isEmpty || !n.strongWrites.isEmpty

end AccessNode

/-- A control-flow graph with memory accesses. -/
structure AccessGraph where
  /-- The nodes, each at its position. -/
  nodes : Array AccessNode
  /-- Where control starts. -/
  root : Option Nat
deriving DecidableEq, Repr

namespace AccessGraph

/-- The graph of the unknown memory alone. -/
def initial : AccessGraph := ⟨#[.bare unknownMemory .unknownMemory], none⟩

instance : Inhabited AccessGraph := ⟨initial⟩

/-- The number of nodes, the unknown memory included. -/
def size (g : AccessGraph) : Nat := g.nodes.size

/-- There is no node besides the unknown memory. -/
def isEmpty (g : AccessGraph) : Bool := g.size ≤ 1

/-- The id names a node of the graph. -/
def contains (g : AccessGraph) (n : Nat) : Bool := n < g.size

/-- The node at a position. -/
def node? (g : AccessGraph) (n : Nat) : Option AccessNode := g.nodes[n]?

/-- The successors of the node at a position, none if there is no such node. -/
def successors (g : AccessGraph) (n : Nat) : List Nat :=
  ((g.node? n).map AccessNode.successors).getD []

/-- The predecessors of the node at a position, none if there is no such node. -/
def predecessors (g : AccessGraph) (n : Nat) : List Nat :=
  ((g.node? n).map AccessNode.predecessors).getD []

/-! ## Building -/

/-- Adds a node without accesses and edges; returns its id. -/
def addNode (g : AccessGraph) (kind : NodeKind) : Nat × AccessGraph :=
  (g.size, { g with nodes := g.nodes.push (.bare g.size kind) })

/-- Changes the node at a position. -/
def modify (g : AccessGraph) (n : Nat) (f : AccessNode → AccessNode) : AccessGraph :=
  { g with nodes := g.nodes.modify n f }

/-- Adds a weak or a strong write to a node; says whether there is such a node. -/
def addWrite (g : AccessGraph) (n : Nat) (w : Write) : Bool × AccessGraph :=
  if g.contains n then
    (true, g.modify n fun node =>
      if w.strong then { node with strongWrites := node.strongWrites ++ [w.region] }
      else { node with weakWrites := node.weakWrites ++ [w.region] })
  else
    (false, g)

/-- Adds a read to a node; says whether there is such a node. -/
def addRead (g : AccessGraph) (n : Nat) (r : Region) : Bool × AccessGraph :=
  if g.contains n then
    (true, g.modify n fun node => { node with reads := node.reads ++ [r] })
  else
    (false, g)

/-- Adds a node with one write. -/
def addStore (g : AccessGraph) (w : Write) : Nat × AccessGraph :=
  let (n, g) := g.addNode .store
  (n, (g.addWrite n w).2)

/-- Adds a node with one read. -/
def addLoad (g : AccessGraph) (r : Region) : Nat × AccessGraph :=
  let (n, g) := g.addNode .load
  (n, (g.addRead n r).2)

/-- Adds an edge to the lists of both its ends. An edge that the first end already lists is not
added again. Says whether both ends are nodes; if not, nothing changes. -/
def addEdge (g : AccessGraph) (a b : Nat) : Bool × AccessGraph :=
  if g.contains a && g.contains b then
    if b ∈ g.successors a then
      (true, g)
    else
      let g := g.modify a fun node => { node with successors := node.successors ++ [b] }
      (true, g.modify b fun node => { node with predecessors := node.predecessors ++ [a] })
  else
    (false, g)

/-- Adds the edges between neighbours of a list. -/
def addPath (g : AccessGraph) : List Nat → AccessGraph
  | a :: b :: rest => addPath (g.addEdge a b).2 (b :: rest)
  | _ => g

/-- Makes a node the root; says whether there is such a node. -/
def setRoot (g : AccessGraph) (n : Nat) : Bool × AccessGraph :=
  if g.contains n then (true, { g with root := some n }) else (false, g)

/-! ## Traversal -/

/-- The graph of successor edges. -/
def digraph (g : AccessGraph) : Digraph := ⟨g.size, g.successors⟩

/-- Marks the nodes that the root leads to, the root included. -/
def reachable (g : AccessGraph) : Array Bool := g.digraph.reach g.root.toList

/-- The nodes that the root leads to, in reverse postorder. -/
def reversePostorder (g : AccessGraph) : List Nat :=
  match g.root with
  | some r => g.digraph.reversePostorder r
  | none => []

end AccessGraph

end MemDep
