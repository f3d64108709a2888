import MemDep.Ssa.Demand

/-!
# Memory in static single assignment form

The form of a graph holds its basic blocks, the phis that were needed so far, and the definitions
of everything that a reachable node reads. Reads are resolved when the form is built; later
questions may add phis to the table, and change nothing else.
-/

namespace MemDep

/-- The definitions of what a node reads. -/
structure ResolvedRead where
  /-- The node. -/
  node : Nat
  /-- Its definitions, writes and phis. -/
  defs : List MemoryDef
  /-- The nodes of the writes behind them, in ascending order. -/
  writers : List Nat
deriving DecidableEq, Repr

/-- The static single assignment form of a graph. -/
structure MemorySsa where
  /-- The blocks and accesses of the graph. -/
  scope : Scope
  /-- The objects that some node writes, in ascending order. -/
  objects : List Nat
  /-- The phis. -/
  table : PhiTable
  /-- The nodes that read something, in reverse postorder. -/
  reads : List ResolvedRead

namespace Region

/-- The bytes to look for: those of the region if they are known, and else all of the object. -/
def bytes (r : Region) : ByteSet :=
  match r.interval? with
  | some i => .ofInterval i
  | none => .full

theorem valid_bytes (r : Region) : r.bytes.Valid := by
  unfold bytes
  split
  next h => exact ByteSet.valid_ofInterval (Nat.le_of_lt (ByteRange.stop_lt_of_interval? h))
  next => exact ByteSet.valid_full

end Region

namespace Scope

/-- The definitions of several objects at a place of a block, each object as a whole. -/
def definitionsOfAll (sc : Scope) (b : Fin sc.blocks.count) (stop : Nat) :
    (objects : List Nat) → PhiTable → (found : List MemoryDef) → PhiTable × List MemoryDef
  | [], t, found => (t, found)
  | object :: objects, t, found =>
    let (t, defs) := sc.definitions object t b stop .full ByteSet.valid_full
    definitionsOfAll sc b stop objects t (addDefs found defs)

/-- The definitions of a region where control enters a node. A read of unknown memory reads every
object that is written anywhere. There are none for a node that the root does not lead to. -/
def resolve (sc : Scope) (objects : List Nat) (t : PhiTable) (n : Nat) (region : Region) :
    PhiTable × List MemoryDef :=
  match sc.blocks.place? n with
  | none => (t, [])
  | some (b, stop) =>
    let r := sc.accesses.normalize region
    if r.object = unknownMemory then
      sc.definitionsOfAll b stop objects t []
    else
      sc.definitions r.object t b stop r.bytes r.valid_bytes

/-- The definitions of several regions where control enters a node, each once. -/
def resolveAll (sc : Scope) (objects : List Nat) (n : Nat) :
    (regions : List Region) → PhiTable → (found : List MemoryDef) → PhiTable × List MemoryDef
  | [], t, found => (t, found)
  | region :: regions, t, found =>
    let (t, defs) := sc.resolve objects t n region
    resolveAll sc objects n regions t (addDefs found defs)

end Scope

namespace MemorySsa

/-- Resolves the reads of a node, if it has any. -/
def resolveReads (s : MemorySsa) (n : Nat) : MemorySsa :=
  match s.scope.accesses.reads n with
  | [] => s
  | regions =>
    let (t, defs) := s.scope.resolveAll s.objects n regions s.table []
    { s with table := t, reads := s.reads ++ [⟨n, defs, t.expand defs⟩] }

/-- The form of a graph. -/
def compute (g : AccessGraph) (fieldInsensitive : Bool) : MemorySsa :=
  let accesses := Accesses.ofGraph g fieldInsensitive
  let s : MemorySsa := ⟨⟨accesses, .ofGraph g⟩, accesses.writtenObjects, .empty, []⟩
  g.reversePostorder.foldl resolveReads s

/-- The definitions of a region where control enters a node, in ascending order. -/
def definitions (s : MemorySsa) (n : Nat) (region : Region) : List Nat × MemorySsa :=
  let (t, defs) := s.scope.resolve s.objects s.table n region
  (t.expand defs, { s with table := t })

/-- The reads of a node, if it has any and the root leads to it. -/
def read? (s : MemorySsa) (n : Nat) : Option ResolvedRead := s.reads.find? (·.node = n)

/-- The definitions of what a node reads, writes and phis. -/
def readDefs (s : MemorySsa) (n : Nat) : List MemoryDef := ((s.read? n).map (·.defs)).getD []

/-- The nodes that define what a node reads, in ascending order. -/
def readDefinitions (s : MemorySsa) (n : Nat) : List Nat := ((s.read? n).map (·.writers)).getD []

end MemorySsa

end MemDep
