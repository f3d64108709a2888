import MemDep.AccessGraph.Json
import MemDep.PointsTo.Basic

/-!
# Points-to graphs in JSON

How a points-to graph is written and read. As with access graphs, nothing but the form is checked.
-/

namespace MemDep

namespace PointerKind

/-- Reads a kind. -/
def ofJson? (j : Json) : Option PointerKind := j.name? ofName?

end PointerKind

namespace PointerNode

/-- A node in JSON. -/
def toJson (n : PointerNode) : Json :=
  .obj [("id", .nat n.id), ("node_type", .str n.kind.name), ("operands", idsToJson n.operands),
    ("successors", idsToJson n.successors), ("predecessors", idsToJson n.predecessors)]

/-- Reads a node. -/
def ofJson? (j : Json) : Option PointerNode := do
  let fields ← j.record? ["id", "node_type", "operands", "successors", "predecessors"]
  let id ← fields.required? "id" (Json.nat? idBound)
  let kind ← fields.required? "node_type" PointerKind.ofJson?
  let operands ← fields.required? "operands" idsOfJson?
  let successors ← fields.required? "successors" idsOfJson?
  let predecessors ← fields.required? "predecessors" idsOfJson?
  return ⟨id, kind, operands, successors, predecessors⟩

end PointerNode

namespace PointerGraph

/-- A graph in JSON. -/
def toJson (g : PointerGraph) : Json :=
  .obj [("nodes", .arr (g.nodes.toList.map PointerNode.toJson)), ("root", rootToJson g.root)]

/-- Reads a graph. -/
def ofJson? (j : Json) : Option PointerGraph := do
  let fields ← j.record? ["nodes", "root"]
  let nodes ← fields.required? "nodes" (Json.list? PointerNode.ofJson?)
  let root ← fields.optional? "root" (Json.nat? idBound)
  return ⟨nodes.toArray, root⟩

/-- The text of a graph. -/
def encode (g : PointerGraph) : String := g.toJson.text

/-- Reads a graph from its text. -/
def decode? (s : String) : Option PointerGraph := (Json.parse? s).bind ofJson?

end PointerGraph

end MemDep
