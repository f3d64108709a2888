/-!
# Directed graphs and their traversal

A directed graph on the vertices `0, …, size - 1`, given by the list of successors of each vertex.
Successors need not be vertices: an entry past the last vertex leads nowhere, and a vertex may be
listed twice.

`reach` computes the vertices that some roots lead to; `reversePostorder` lists those that one root
leads to so that, cycles apart, a vertex stands before the ones it leads to. Both mark vertices in
an array and end because every step uses up an entry of a successor list: `pending` counts the
entries of the vertices that are not marked.
-/

namespace MemDep

/-- A directed graph on an initial segment of the natural numbers. -/
structure Digraph where
  /-- The number of vertices. -/
  size : Nat
  /-- The successors of a vertex, in order. -/
  next : Nat → List Nat

namespace Digraph

/-- A mark for every vertex, none set. -/
def noMarks (g : Digraph) : Array Bool := Array.replicate g.size false

/-- How much of the graph is behind unmarked vertices: one for each of them and one for each of its
successors. The marks are those of the vertices from `first` on. -/
def pending (g : Digraph) : List Bool → (first : Nat) → Nat
  | [], _ => 0
  | mark :: marks, first =>
    (if mark then 0 else (g.next first).length + 1) + pending g marks (first + 1)

theorem pending_set (g : Digraph) {marks : List Bool} {v : Nat} (first : Nat)
    (h : marks[v]? = some false) :
    g.pending (marks.set v true) first + ((g.next (first + v)).length + 1) =
      g.pending marks first := by
  induction marks generalizing v first with
  | nil => simp at h
  | cons mark marks ih =>
    cases v with
    | zero =>
      simp only [List.getElem?_cons_zero, Option.some.injEq] at h
      simp [pending, h, Nat.add_comm]
    | succ v =>
      have := ih (first + 1) (by simpa using h)
      rw [show first + 1 + v = first + (v + 1) by omega] at this
      simp only [List.set_cons_succ, pending]
      omega

/-- Marking a vertex uses up its successors. -/
theorem pending_mark (g : Digraph) {marks : Array Bool} {v : Nat} (h : marks[v]? = some false) :
    g.pending (marks.setIfInBounds v true).toList 0 + ((g.next v).length + 1) =
      g.pending marks.toList 0 := by
  have h : marks.toList[v]? = some false := by simpa using h
  simpa using g.pending_set 0 h

/-! ## Reachability -/

/-- Marks everything that the vertices of a work list lead to through unmarked vertices. -/
def reachFrom (g : Digraph) (marks : Array Bool) : (work : List Nat) → Array Bool
  | [] => marks
  | v :: work =>
    if marks[v]? = some false then
      reachFrom g (marks.setIfInBounds v true) (g.next v ++ work)
    else
      reachFrom g marks work
termination_by work => g.pending marks.toList 0 + work.length
decreasing_by
  · have := g.pending_mark ‹_›
    simp only [List.length_append, List.length_cons]
    omega
  · simp

/-- Marks the vertices that the roots lead to, the roots included. -/
def reach (g : Digraph) (roots : List Nat) : Array Bool := g.reachFrom g.noMarks roots

/-! ## Reverse postorder -/

/-- How much is left on a stack of vertices with successors still to be looked at. -/
def backlog : List (Nat × List Nat) → Nat
  | [] => 0
  | (_, todo) :: stack => todo.length + 1 + backlog stack

/-- Depth-first search. The stack holds the path to the current vertex, each vertex with its
successors that are still to be looked at; a vertex whose successors are done is put in front of
the order. -/
def finish (g : Digraph) (marks : Array Bool) (order : List Nat) :
    (stack : List (Nat × List Nat)) → List Nat
  | [] => order
  | (v, []) :: stack => finish g marks (v :: order) stack
  | (v, w :: todo) :: stack =>
    if marks[w]? = some false then
      finish g (marks.setIfInBounds w true) order ((w, g.next w) :: (v, todo) :: stack)
    else
      finish g marks order ((v, todo) :: stack)
termination_by stack => g.pending marks.toList 0 + backlog stack
decreasing_by
  · simp only [backlog, List.length_nil]
    omega
  · have := g.pending_mark ‹_›
    simp only [backlog, List.length_cons]
    omega
  · simp only [backlog, List.length_cons]
    omega

/-- The vertices that `root` leads to, in the reverse of the order in which a depth-first search
leaves them. There are none if `root` is not a vertex. -/
def reversePostorder (g : Digraph) (root : Nat) : List Nat :=
  if root < g.size then
    g.finish (g.noMarks.setIfInBounds root true) [] [(root, g.next root)]
  else
    []

end Digraph

end MemDep
