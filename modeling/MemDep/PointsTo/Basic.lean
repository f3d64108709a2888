import MemDep.Digraph

/-!
# Points-to graphs

The graph that a pointer analysis works on: operations on pointers, each with the operations whose
values it uses, and the edges of control between them. As in an access graph, nodes sit in an array
and name each other by position, both ends of an edge list it, and a graph from outside may be
malformed in any way; `PointerGraph.validate` says how.
-/

namespace MemDep

/-- What a node of a points-to graph does. -/
inductive PointerKind where
  | alloc
  | dynAlloc
  | load
  | store
  | gep
  | phi
  | cast
  | function
  | call
  | callFuncptr
  | callReturn
  | entry
  | ret
  | constant
  | noop
  | memcpy
  | nullAddr
  | unknownMem
  | invalidateLocals
  | invalidateObject
  | free
deriving DecidableEq, Repr, Inhabited

/-- What is asked of the operands of a node. -/
inductive Arity where
  /-- So many of them. -/
  | exactly (count : Nat)
  /-- At least one, and none twice. -/
  | merge
  /-- Nothing. -/
  | unchecked
deriving DecidableEq, Repr

namespace PointerKind

/-- Every kind, in order. -/
def all : List PointerKind :=
  [alloc, dynAlloc, load, store, gep, phi, cast, function, call, callFuncptr, callReturn, entry,
    ret, constant, noop, memcpy, nullAddr, unknownMem, invalidateLocals, invalidateObject, free]

/-- The name of a kind, in written graphs and in reports. -/
def name : PointerKind → String
  | alloc => "ALLOC"
  | dynAlloc => "DYN_ALLOC"
  | load => "LOAD"
  | store => "STORE"
  | gep => "GEP"
  | phi => "PHI"
  | cast => "CAST"
  | function => "FUNCTION"
  | call => "CALL"
  | callFuncptr => "CALL_FUNCPTR"
  | callReturn => "CALL_RETURN"
  | entry => "ENTRY"
  | ret => "RETURN"
  | constant => "CONSTANT"
  | noop => "NOOP"
  | memcpy => "MEMCPY"
  | nullAddr => "NULL_ADDR"
  | unknownMem => "UNKNOWN_MEM"
  | invalidateLocals => "INVALIDATE_LOCALS"
  | invalidateObject => "INVALIDATE_OBJECT"
  | free => "FREE"

/-- The kind with a given name. -/
def ofName? (s : String) : Option PointerKind := all.find? (·.name == s)

/-- What is asked of the operands of a node of this kind. -/
def arity : PointerKind → Arity
  | phi => .merge
  | nullAddr | unknownMem | noop | function | constant => .exactly 0
  | gep | load | cast | invalidateObject | free => .exactly 1
  | store | memcpy => .exactly 2
  | alloc | dynAlloc | call | callFuncptr | callReturn | entry | ret | invalidateLocals => .unchecked

/-- A node of this kind may stand apart from the flow of control. -/
def canFloat : PointerKind → Bool
  | function | constant | unknownMem | nullAddr => true
  | _ => false

theorem mem_all (k : PointerKind) : k ∈ all := by cases k <;> decide

theorem ofName?_name (k : PointerKind) : ofName? k.name = some k := by cases k <;> decide

end PointerKind

/-- A node of a points-to graph. -/
structure PointerNode where
  /-- The id that the node carries; in a well-formed graph its position. -/
  id : Nat
  /-- What the node does. -/
  kind : PointerKind
  /-- The nodes whose values it uses, in order. -/
  operands : List Nat
  /-- The nodes that control may flow to. -/
  successors : List Nat
  /-- The nodes that control may come from. -/
  predecessors : List Nat
deriving DecidableEq, Repr, Inhabited

namespace PointerNode

/-- Goes through a list until an entry comes that was seen before. -/
def repeats (seen : List Nat) : List Nat → Bool
  | [] => false
  | m :: rest => seen.contains m || repeats (m :: seen) rest

theorem repeats_eq_false_iff {seen l : List Nat} :
    repeats seen l = false ↔ l.Nodup ∧ ∀ m ∈ l, m ∉ seen := by
  induction l generalizing seen with
  | nil => simp [repeats]
  | cons m l ih =>
    rw [repeats, Bool.or_eq_false_iff, ih, List.nodup_cons]
    constructor
    · rintro ⟨hm, hl, hrest⟩
      have hml : m ∉ l := fun hmem => hrest m hmem List.mem_cons_self
      refine ⟨⟨hml, hl⟩, fun x hx => ?_⟩
      rcases List.mem_cons.mp hx with rfl | hx
      · simpa using hm
      · exact fun hseen => hrest x hx (List.mem_cons_of_mem m hseen)
    · rintro ⟨⟨hml, hl⟩, hseen⟩
      refine ⟨by simpa using hseen m List.mem_cons_self, hl, fun x hx hmem => ?_⟩
      rcases List.mem_cons.mp hmem with rfl | hmem
      · exact hml hx
      · exact hseen x (List.mem_cons_of_mem m hx) hmem

/-- Some operand occurs twice. -/
def hasDuplicateOperand (n : PointerNode) : Bool := repeats [] n.operands

theorem hasDuplicateOperand_eq (n : PointerNode) :
    n.hasDuplicateOperand = !decide n.operands.Nodup := by
  have h : n.hasDuplicateOperand = false ↔ n.operands.Nodup := by
    simp [hasDuplicateOperand, repeats_eq_false_iff]
  by_cases hn : n.operands.Nodup <;> simpa [hn] using h

end PointerNode

/-- A points-to graph. -/
structure PointerGraph where
  /-- The nodes, each at its position. -/
  nodes : Array PointerNode
  /-- Where control starts. -/
  root : Option Nat
deriving DecidableEq, Repr

namespace PointerGraph

/-- The graph without nodes. -/
def empty : PointerGraph := ⟨#[], none⟩

instance : Inhabited PointerGraph := ⟨empty⟩

/-- The number of nodes. -/
def size (g : PointerGraph) : Nat := g.nodes.size

/-- There is no node. -/
def isEmpty (g : PointerGraph) : Bool := g.size = 0

/-- The id names a node of the graph. -/
def contains (g : PointerGraph) (n : Nat) : Bool := n < g.size

/-- The node at a position. -/
def node? (g : PointerGraph) (n : Nat) : Option PointerNode := g.nodes[n]?

/-- The successors of the node at a position, none if there is no such node. -/
def successors (g : PointerGraph) (n : Nat) : List Nat :=
  ((g.node? n).map PointerNode.successors).getD []

/-- The predecessors of the node at a position, none if there is no such node. -/
def predecessors (g : PointerGraph) (n : Nat) : List Nat :=
  ((g.node? n).map PointerNode.predecessors).getD []

/-! ## Building -/

/-- Adds a node without edges; returns its id. The operands are taken as they are. -/
def addNode (g : PointerGraph) (kind : PointerKind) (operands : List Nat) : Nat × PointerGraph :=
  (g.size, { g with nodes := g.nodes.push ⟨g.size, kind, operands, [], []⟩ })

/-- Adds `b` to the successors that `a` lists. -/
def pushSuccessor (g : PointerGraph) (a b : Nat) : PointerGraph :=
  { g with nodes := g.nodes.modify a fun n => { n with successors := n.successors ++ [b] } }

/-- Adds `a` to the predecessors that `b` lists. -/
def pushPredecessor (g : PointerGraph) (b a : Nat) : PointerGraph :=
  { g with nodes := g.nodes.modify b fun n => { n with predecessors := n.predecessors ++ [a] } }

/-- Adds an edge to the lists of both its ends. An edge that the first end already lists is not
added again, to neither end. Says whether both ends are nodes; if not, nothing changes. -/
def addEdge (g : PointerGraph) (a b : Nat) : Bool × PointerGraph :=
  if g.contains a && g.contains b then
    if b ∈ g.successors a then (true, g) else (true, (g.pushSuccessor a b).pushPredecessor b a)
  else
    (false, g)

/-- Adds `b` to the successors of `a` and nothing to `b`, if both are nodes. -/
def addSuccessorOnly (g : PointerGraph) (a b : Nat) : Bool × PointerGraph :=
  if g.contains a && g.contains b then (true, g.pushSuccessor a b) else (false, g)

/-- Adds `a` to the predecessors of `b` and nothing to `a`, if both are nodes. -/
def addPredecessorOnly (g : PointerGraph) (b a : Nat) : Bool × PointerGraph :=
  if g.contains a && g.contains b then (true, g.pushPredecessor b a) else (false, g)

/-- Adds the edges between neighbours of a list. -/
def addPath (g : PointerGraph) : List Nat → PointerGraph
  | a :: b :: rest => addPath (g.addEdge a b).2 (b :: rest)
  | _ => g

/-- Makes a node the root; says whether there is such a node. -/
def setRoot (g : PointerGraph) (n : Nat) : Bool × PointerGraph :=
  if g.contains n then (true, { g with root := some n }) else (false, g)

/-! ## Traversal -/

/-- The graph of successor edges. -/
def digraph (g : PointerGraph) : Digraph := ⟨g.size, g.successors⟩

/-- Marks the positions that the root leads to, the root included. -/
def reachable (g : PointerGraph) : Array Bool := g.digraph.reach g.root.toList

end PointerGraph

end MemDep
