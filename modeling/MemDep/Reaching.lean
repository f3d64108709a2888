import MemDep.Reaching.Iteration

/-!
# Reaching definitions

The solution of the equations of a graph, and the questions that it answers. A node is a definition
of a region at a program point if one of its facts enters that point and is about a region that may
overlap the one asked for.
-/

namespace MemDep

/-- Solved equations. -/
structure ReachingDefinitions where
  /-- The equations. -/
  flow : Flow
  /-- What enters and leaves each node. -/
  solution : Iteration

namespace ReachingDefinitions

/-- Solves the equations of a graph; nothing, if that takes more visits than a limit allows. -/
def compute (g : AccessGraph) (fieldInsensitive : Bool) (limit : Option Nat) :
    Option ReachingDefinitions :=
  let p := Flow.ofGraph g fieldInsensitive
  (Iteration.solve p limit (.start p) (Iteration.sound_start p)).map (⟨p, ·⟩)

/-- The facts that enter a node. -/
def facts (r : ReachingDefinitions) (n : Nat) : List Fact := (r.solution.ins[n]?).getD []

/-- The facts that leave a node. -/
def factsAfter (r : ReachingDefinitions) (n : Nat) : List Fact := r.solution.out n

/-- The definitions of a region where control enters a node, in ascending order. -/
def definitions (r : ReachingDefinitions) (n : Nat) (region : Region) : List Nat :=
  let query := r.flow.accesses.normalize region
  let relevant := (r.facts n).filter fun f =>
    match r.flow.region? f with
    | some site => site.mayOverlap query
    | none => false
  Ascending.squeeze (relevant.map (·.node))

/-- How many nodes were visited, each as often as it was. -/
def visits (r : ReachingDefinitions) : Nat := r.solution.visits

/-- How many nodes the root leads to. -/
def reachableCount (r : ReachingDefinitions) : Nat := r.flow.graph.reversePostorder.length

/-- The largest number of facts that enter a node. -/
def largest (r : ReachingDefinitions) : Nat := r.solution.ins.foldl (fun m s => max m s.length) 0

end ReachingDefinitions

end MemDep
