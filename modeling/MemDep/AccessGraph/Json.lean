import MemDep.AccessGraph.Basic
import MemDep.Json.Decode
import MemDep.Json.Reader

/-!
# Access graphs in JSON

How an access graph is written and read. A node is named by a number of 32 bits, an offset is
written as its code, and a kind of node by its name. Nothing is checked when a graph is read except
that it has the form of one.
-/

namespace MemDep

/-- The bound of the numbers that name nodes in JSON. -/
def idBound : Nat := UInt32.size

namespace Offset

/-- An offset in JSON. -/
def toJson (a : Offset) : Json := .nat a.code

/-- Reads an offset. -/
def ofJson? (j : Json) : Option Offset := (j.nat? (limit + 1)).map ofNat

end Offset

namespace Region

/-- A region in JSON. -/
def toJson (r : Region) : Json :=
  .obj [("target", .nat r.object), ("offset", r.range.offset.toJson), ("len", r.range.length.toJson)]

/-- Reads a region. -/
def ofJson? (j : Json) : Option Region := do
  let fields ← j.record? ["target", "offset", "len"]
  let object ← fields.required? "target" (Json.nat? idBound)
  let offset ← fields.required? "offset" Offset.ofJson?
  let length ← fields.required? "len" Offset.ofJson?
  return ⟨object, ⟨offset, length⟩⟩

end Region

namespace NodeKind

/-- Reads a kind. -/
def ofJson? (j : Json) : Option NodeKind := j.name? ofName?

end NodeKind

/-- A list of node ids in JSON. -/
def idsToJson (ids : List Nat) : Json := .arr (ids.map .nat)

/-- Reads a list of node ids. -/
def idsOfJson? (j : Json) : Option (List Nat) := j.list? (Json.nat? idBound)

namespace AccessNode

/-- A node in JSON. -/
def toJson (n : AccessNode) : Json :=
  .obj [("id", .nat n.id), ("node_type", .str n.kind.name),
    ("defs", .arr (n.weakWrites.map Region.toJson)),
    ("overwrites", .arr (n.strongWrites.map Region.toJson)),
    ("uses", .arr (n.reads.map Region.toJson)),
    ("successors", idsToJson n.successors), ("predecessors", idsToJson n.predecessors)]

/-- Reads a node. -/
def ofJson? (j : Json) : Option AccessNode := do
  let fields ← j.record?
    ["id", "node_type", "defs", "overwrites", "uses", "successors", "predecessors"]
  let id ← fields.required? "id" (Json.nat? idBound)
  let kind ← fields.required? "node_type" NodeKind.ofJson?
  let weakWrites ← fields.required? "defs" (Json.list? Region.ofJson?)
  let strongWrites ← fields.required? "overwrites" (Json.list? Region.ofJson?)
  let reads ← fields.required? "uses" (Json.list? Region.ofJson?)
  let successors ← fields.required? "successors" idsOfJson?
  let predecessors ← fields.required? "predecessors" idsOfJson?
  return ⟨id, kind, weakWrites, strongWrites, reads, successors, predecessors⟩

end AccessNode

/-- A node id or nothing in JSON. -/
def rootToJson : Option Nat → Json
  | some n => .nat n
  | none => .null

namespace AccessGraph

/-- A graph in JSON. -/
def toJson (g : AccessGraph) : Json :=
  .obj [("nodes", .arr (g.nodes.toList.map AccessNode.toJson)), ("root", rootToJson g.root)]

/-- Reads a graph. -/
def ofJson? (j : Json) : Option AccessGraph := do
  let fields ← j.record? ["nodes", "root"]
  let nodes ← fields.required? "nodes" (Json.list? AccessNode.ofJson?)
  let root ← fields.optional? "root" (Json.nat? idBound)
  return ⟨nodes.toArray, root⟩

/-- The text of a graph. -/
def encode (g : AccessGraph) : String := g.toJson.text

/-- Reads a graph from its text. -/
def decode? (s : String) : Option AccessGraph := (Json.parse? s).bind ofJson?

end AccessGraph

end MemDep
