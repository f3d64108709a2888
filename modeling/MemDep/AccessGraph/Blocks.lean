import MemDep.AccessGraph.Basic

/-!
# Basic blocks

The nodes that the root leads to, grouped into chains along which control cannot branch or merge.
A chain continues from a node to its only successor if that successor is not the root and lists the
node, once, as its only reachable predecessor; a block starts at each reachable node that continues no
chain. Blocks are numbered by their first nodes in reverse postorder, so the root starts block 0.

Block numbers are bounded by the number of blocks in their type, so that every edge between blocks
leads to a block.
-/

namespace MemDep

/-- A chain of nodes, and the blocks before and after it among `count` blocks. -/
structure Block (count : Nat) where
  /-- The nodes, in the order of control. -/
  nodes : List Nat
  /-- The blocks whose last node leads into this one, in ascending order. -/
  predecessors : List (Fin count)
  /-- The blocks that the last node leads to, each once, in the order of its edges. -/
  successors : List (Fin count)
deriving DecidableEq, Repr

/-- The blocks of a graph. -/
structure BlockGraph where
  /-- The number of blocks. -/
  count : Nat
  /-- The blocks. -/
  blocks : Vector (Block count) count
  /-- The block and the place in it of each node of the graph, if it is in a block. -/
  places : Array (Option (Fin count × Nat))
  /-- The block of the root. -/
  entry : Option (Fin count)

namespace BlockGraph

/-- No blocks. -/
def empty : BlockGraph := ⟨0, #v[], #[], none⟩

instance : Inhabited BlockGraph := ⟨empty⟩

/-- The block of a node and its place in the block. -/
def place? (g : BlockGraph) (n : Nat) : Option (Fin g.count × Nat) := g.places[n]?.join

/-- The nodes of a block. -/
def nodes (g : BlockGraph) (b : Fin g.count) : List Nat := g.blocks[b].nodes

/-- The blocks that lead into a block. -/
def predecessors (g : BlockGraph) (b : Fin g.count) : List (Fin g.count) := g.blocks[b].predecessors

/-- The blocks that a block leads to. -/
def successors (g : BlockGraph) (b : Fin g.count) : List (Fin g.count) := g.blocks[b].successors

end BlockGraph

namespace AccessGraph

/-- The reachable predecessors of a node, as often as they are listed. -/
def reachablePredecessors (g : AccessGraph) (reachable : Array Bool) (n : Nat) : List Nat :=
  (g.predecessors n).filter fun p => reachable[p]? == some true

/-- The node that the chain of `n` continues with. -/
def continuation? (g : AccessGraph) (reachable : Array Bool) (n : Nat) : Option Nat :=
  match g.successors n with
  | [s] =>
    if g.root ≠ some s ∧ s ≠ n ∧ g.reachablePredecessors reachable s = [n] then some s else none
  | _ => none

/-- The chain that starts at `n`, cut off after `more` continuations. -/
def chainFrom (g : AccessGraph) (reachable : Array Bool) : (more : Nat) → Nat → List Nat
  | 0, n => [n]
  | more + 1, n =>
    n :: (match g.continuation? reachable n with
      | some s => chainFrom g reachable more s
      | none => [])

/-- The reachable nodes that continue no chain, in reverse postorder. -/
def leaders (g : AccessGraph) (reachable : Array Bool) : List Nat :=
  let order := g.reversePostorder
  let continued := order.filterMap (g.continuation? reachable)
  order.filter (· ∉ continued)

/-- The chains of the leaders. A chain holds no node twice, so it has at most as many continuations
as the graph has nodes. -/
def chains (g : AccessGraph) : List (List Nat) :=
  let reachable := g.reachable
  (g.leaders reachable).map (g.chainFrom reachable g.size)

end AccessGraph

namespace BlockGraph

/-- The places of the nodes below `size` in some chains. -/
def placesIn (chains : Array (List Nat)) (size : Nat) : Array (Option (Fin chains.size × Nat)) :=
  (Array.range size).map fun n =>
    (List.finRange chains.size).findSome? fun b => (chains[b].idxOf? n).map (b, ·)

/-- The chains that the last node of a chain leads to, each once, in the order of its edges. -/
def targets (g : AccessGraph) (chains : Array (List Nat))
    (places : Array (Option (Fin chains.size × Nat))) (b : Fin chains.size) :
    List (Fin chains.size) :=
  match chains[b].getLast? with
  | some last => ((g.successors last).filterMap fun n => places[n]?.join.map (·.1)).eraseDups
  | none => []

/-- The blocks that lead to a block, in ascending order. -/
def sources {count : Nat} (successors : Vector (List (Fin count)) count) (b : Fin count) :
    List (Fin count) :=
  (List.finRange count).filter fun a => b ∈ successors[a]

/-- The basic blocks of a graph. -/
def ofGraph (g : AccessGraph) : BlockGraph :=
  let chains := g.chains.toArray
  let places := placesIn chains g.size
  let successors := Vector.ofFn (targets g chains places)
  { count := chains.size
    blocks := Vector.ofFn fun b => ⟨chains[b], sources successors b, successors[b]⟩
    places := places
    entry := g.root.bind fun r => places[r]?.join.map (·.1) }

end BlockGraph

end MemDep
