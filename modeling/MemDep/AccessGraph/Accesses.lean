import MemDep.AccessGraph.Basic
import MemDep.Ascending

/-!
# The accesses that an analysis looks at

An analysis may be told to ignore byte ranges. Then every region is widened to its whole object,
here and once, both in the graph and in queries; the analyses never look at a region that was not
taken through this table. In this mode no write hides another, since only known ranges do.
-/

namespace MemDep

/-- The reads and writes of one node. -/
structure NodeAccesses where
  /-- The writes, in the order of `AccessNode.writes`. -/
  writes : List Write
  /-- The reads. -/
  reads : List Region
deriving DecidableEq, Repr

/-- The reads and writes of every node of a graph. -/
structure Accesses where
  /-- One entry per position of the graph. -/
  nodes : Array NodeAccesses
  /-- Byte ranges are ignored. -/
  fieldInsensitive : Bool

namespace Accesses

/-- A region as an analysis sees it. -/
def see (fieldInsensitive : Bool) (r : Region) : Region :=
  if fieldInsensitive then r.widened else r

/-- The accesses of a graph. -/
def ofGraph (g : AccessGraph) (fieldInsensitive : Bool) : Accesses where
  nodes := g.nodes.map fun n =>
    ⟨n.writes.map fun w => { w with region := see fieldInsensitive w.region },
      n.reads.map (see fieldInsensitive)⟩
  fieldInsensitive := fieldInsensitive

/-- A query as the analysis sees it. -/
def normalize (t : Accesses) (r : Region) : Region := see t.fieldInsensitive r

/-- The writes of a node, none if there is no such node. -/
def writes (t : Accesses) (n : Nat) : List Write := (t.nodes[n]?.map (·.writes)).getD []

/-- The regions that a node certainly writes. -/
def strongWrites (t : Accesses) (n : Nat) : List Region :=
  ((t.writes n).filter (·.strong)).map (·.region)

/-- The reads of a node, none if there is no such node. -/
def reads (t : Accesses) (n : Nat) : List Region := (t.nodes[n]?.map (·.reads)).getD []

/-- The objects that some node writes, in ascending order. -/
def writtenObjects (t : Accesses) : List Nat :=
  Ascending.ofList (t.nodes.toList.flatMap fun n => n.writes.map (·.region.object))

end Accesses

end MemDep
