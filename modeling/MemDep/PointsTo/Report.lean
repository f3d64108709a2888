import MemDep.Failure
import MemDep.PointsTo.Basic

/-!
# Reports on points-to graphs

A finding is one thing that is wrong with a points-to graph; a report lists findings. The text of a
report is the texts of its findings one after the other, and each of these ends its last line.
-/

namespace MemDep

/-- What is wrong with an edge. -/
inductive EdgeDefect where
  /-- Nothing leads to the node. -/
  | noPredecessor
  /-- A successor does not list the node as a predecessor, or does not exist. -/
  | missingPredecessor
  /-- A predecessor does not list the node as a successor, or does not exist. -/
  | missingSuccessor
deriving DecidableEq, Repr

/-- A defect of an edge in words. -/
def EdgeDefect.text : EdgeDefect → String
  | noPredecessor => "Non-root node has no predecessors"
  | missingPredecessor => "Node not set as a predecessor of some of its successors"
  | missingSuccessor => "Node not set as a successor of some of its predecessors"

/-- Something wrong with a graph. Nodes are named by the ids that they carry. -/
inductive Finding where
  /-- The node has a wrong number of operands, or one of them twice. -/
  | invalidOperands (kind : PointerKind) (id : Nat) (operands : List Nat) (duplicate : Bool)
  /-- Something is wrong with an edge of the node. -/
  | invalidEdges (kind : PointerKind) (id : Nat) (defect : EdgeDefect)
  /-- The root does not lead to the node. -/
  | unreachable (kind : PointerKind) (id : Nat)
  /-- An operand of the node does not exist. -/
  | missingOperand (kind : PointerKind) (id operand : Nat)
  /-- The node carries another id than its position. -/
  | misplaced (kind : PointerKind) (id position : Nat)
  /-- The root does not exist. -/
  | invalidRoot (id : Nat)
deriving DecidableEq, Repr

namespace Finding

/-- The id of the node that is meant. -/
def node : Finding → Nat
  | invalidOperands _ id _ _ | invalidEdges _ id _ | unreachable _ id | missingOperand _ id _
  | misplaced _ id _ | invalidRoot id => id

/-- A remark on what is wrong. -/
def context? : Finding → Option String
  | invalidOperands _ _ _ true => some "PHI Node contains duplicated operand"
  | invalidOperands _ _ _ false => none
  | invalidEdges _ _ defect => some defect.text
  | missingOperand .. => some "Operand is not a node of the graph"
  | invalidRoot _ => some "Root is not a node of the graph"
  | unreachable .. | misplaced .. => none

/-- A finding in words, without the remark. -/
def headline : Finding → String
  | invalidOperands kind id operands _ =>
    s!"Invalid number of operands for {kind.name} with ID {id}\n" ++
      "  - operands: [" ++ " ".intercalate (operands.map toString) ++ "]\n"
  | invalidEdges kind id _ => s!"Invalid number of edges for {kind.name} with ID {id}\n"
  | unreachable kind id => s!"Unreachable {kind.name} with ID {id}\n"
  | missingOperand kind id operand => s!"Invalid operand {operand} for {kind.name} with ID {id}\n"
  | misplaced kind id position => s!"Misplaced {kind.name} with ID {id} at position {position}\n"
  | invalidRoot id => s!"Invalid root with ID {id}\n"

/-- A finding in words, with the remark on a line of its own. -/
def text (f : Finding) : String :=
  match f.context? with
  | some remark => f.headline ++ "(" ++ remark ++ ")\n"
  | none => f.headline

end Finding

/-- The findings on a graph, in order. -/
structure Report where
  /-- The findings. -/
  findings : List Finding
deriving DecidableEq, Repr

namespace Report

/-- Nothing was found. -/
def isEmpty (r : Report) : Bool := r.findings.isEmpty

/-- The texts of the findings. -/
def text (r : Report) : String := String.join (r.findings.map Finding.text)

/-- Fails if anything was found. -/
def ensureValid (r : Report) : Except Failure Unit :=
  if r.isEmpty then .ok () else .error (.invalidPointerGraph r.findings.length)

end Report

end MemDep
