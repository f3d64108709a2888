import MemDep.AccessGraph.Accesses
import MemDep.Proofs.AccessGraph.Walks
import MemDep.Proofs.Checked.Loop

/-!
# Traversals of access graphs with checked indices

The traversals of a graph and its checks as they work on arrays: a breadth-first search with a
queue, a depth-first search with a stack of nodes and positions in their successor lists. Whatever
the graph is, none of them fails, and they give what the definitions by recursion give. Ids that
come from the graph are only used as indices after a look whether they exist.

The two searches agree on what the root leads to, and the second one puts it in an order in which
edges lead forward, unless they lead back to where control has come from (`Explored`).
-/

namespace MemDep

namespace Checked

open Relation

variable {g : AccessGraph}

/-! ## Reachability -/

/-- Marks a node and puts it at the end of the queue, unless it is marked or does not exist. -/
def visit (s : Array Bool × List Nat) (n : Nat) : Option (Array Bool × List Nat) := do
  if (← lookup s.1 n) = some false then
    return (← put s.1 n true, s.2 ++ [n])
  else
    return s

/-- Takes a node off the queue and visits its successors. -/
def reachTurn (g : AccessGraph) : Array Bool × List Nat →
    Option (Turn (Array Bool × List Nat) (Array Bool))
  | (marks, []) => some (.done marks)
  | (marks, n :: queue) => do
    let node ← g.nodes[n]?
    return .again (← node.successors.foldlM visit (marks, queue))

/-- Marks the nodes that the root leads to, by breadth-first search. -/
noncomputable def reachable (g : AccessGraph) : Option (Array Bool) := do
  match g.root.filter g.contains with
  | none => return g.digraph.noMarks
  | some root => loop (reachTurn g) (← put g.digraph.noMarks root true, [root])

/-- A slot of a node holds its successors. -/
theorem exists_node {n : Nat} (h : n < g.size) :
    ∃ node, g.nodes[n]? = some node ∧ g.successors n = node.successors := by
  have hnode : g.nodes[n]? = some g.nodes[n] := Array.getElem?_eq_getElem h
  exact ⟨_, hnode, by simp [AccessGraph.successors, AccessGraph.node?, hnode]⟩

theorem eq_of_marked {marks marks' : Array Bool} (hsize : marks.size = marks'.size)
    (h : ∀ n, Digraph.Marked marks n ↔ Digraph.Marked marks' n) : marks = marks' := by
  refine Array.ext hsize ?_
  intro n hn hn'
  have hmarked := h n
  simp only [Digraph.Marked, Array.getElem?_eq_getElem hn, Array.getElem?_eq_getElem hn',
    Option.some.injEq] at hmarked
  exact Bool.eq_iff_iff.mpr hmarked

theorem size_reachable (g : AccessGraph) : g.reachable.size = g.size :=
  g.digraph.size_reach g.root.toList

/-- How many nodes are not marked. -/
def unmarked (marks : Array Bool) : Nat := marks.count false

theorem unmarked_set {marks : Array Bool} {n : Nat} (h : marks[n]? = some false) :
    unmarked (marks.setIfInBounds n true) + 1 = unmarked marks := by
  obtain ⟨hn, hfalse⟩ := Array.getElem?_eq_some_iff.mp h
  have hpos : 0 < marks.count false := Array.count_pos_iff.mpr (hfalse ▸ Array.getElem_mem hn)
  unfold unmarked
  rw [Array.setIfInBounds, dif_pos hn, Array.count_set hn, hfalse]
  simp only [BEq.rfl, if_true, Bool.true_beq, Bool.false_eq_true, if_false]
  omega

/-- What visiting some nodes does: those that exist are marked, and whatever is newly marked is put
on the queue. -/
structure Visits (nodes : List Nat) (s s' : Array Bool × List Nat) : Prop where
  size : s'.1.size = s.1.size
  marked : ∀ n, Digraph.Marked s'.1 n ↔ Digraph.Marked s.1 n ∨ n ∈ nodes ∧ n < s.1.size
  queue : ∀ n, n ∈ s'.2 → n ∈ s.2 ∨ Digraph.Marked s'.1 n
  queued : ∀ n, Digraph.Marked s'.1 n → Digraph.Marked s.1 n ∨ n ∈ s'.2
  kept : s.2 ⊆ s'.2
  left : unmarked s'.1 + s'.2.length = unmarked s.1 + s.2.length

theorem visits_nil (s : Array Bool × List Nat) : Visits [] s s :=
  ⟨rfl, by simp, fun _ => .inl, fun _ => .inl, List.Subset.refl _, rfl⟩

theorem exists_visit (s : Array Bool × List Nat) (n : Nat) :
    ∃ s', visit s n = some s' ∧ Visits [n] s s' := by
  unfold visit
  rw [lookup_eq]
  by_cases hn : s.1[n]? = some false
  · have hlt := Digraph.lt_of_unmarked hn
    refine ⟨(s.1.setIfInBounds n true, s.2 ++ [n]), ?_, ?_⟩
    · simp [hn, put_eq_some hlt]
    · have hmarked := fun m => Digraph.marked_set (w := m) hlt
      refine ⟨by simp, ?_, ?_, ?_, by simp, ?_⟩
      · intro m
        rw [hmarked, List.mem_singleton]
        grind
      · intro m hm
        rw [hmarked]
        grind
      · intro m hm
        rw [hmarked] at hm
        grind
      · have hleft := unmarked_set hn
        simp only [List.length_append, List.length_singleton]
        omega
  · refine ⟨s, by simp [hn], rfl, ?_, fun _ => .inl, fun _ => .inl, List.Subset.refl _, rfl⟩
    intro m
    rw [List.mem_singleton]
    constructor
    · exact .inl
    · rintro (hm | ⟨rfl, hlt⟩)
      · exact hm
      · exact Digraph.marked_of_not_unmarked hlt hn

theorem Visits.trans {nodes nodes' : List Nat} {s s' s'' : Array Bool × List Nat}
    (h : Visits nodes s s') (k : Visits nodes' s' s'') : Visits (nodes ++ nodes') s s'' := by
  refine ⟨k.size.trans h.size, ?_, ?_, ?_, List.Subset.trans h.kept k.kept, k.left.trans h.left⟩
  · intro n
    rw [k.marked, h.marked, h.size, List.mem_append]
    tauto
  · intro n hn
    have := k.marked n
    have := h.queue n
    have := k.queue n hn
    tauto
  · intro n hn
    have := h.queued n
    have := k.queued n hn
    have := @k.kept n
    tauto

theorem exists_visitAll (nodes : List Nat) (s : Array Bool × List Nat) :
    ∃ s', nodes.foldlM visit s = some s' ∧ Visits nodes s s' := by
  refine foldlM_of_invariant (fun before s' => Visits before s s') ?_ (visits_nil s)
  intro before n after s' _ h
  obtain ⟨s'', hs'', hn⟩ := exists_visit s' n
  exact ⟨s'', hs'', h.trans hn⟩

/-- The state of the search: nodes on the queue are marked, marked nodes are reached, and whatever a
marked node that has left the queue leads to is marked. -/
structure Reaching (g : AccessGraph) (r : Nat) (s : Array Bool × List Nat) : Prop where
  size : s.1.size = g.size
  root : Digraph.Marked s.1 r
  queue : ∀ n ∈ s.2, Digraph.Marked s.1 n
  sound : ∀ n, Digraph.Marked s.1 n → ReflTransGen g.digraph.Arc r n
  closed : ∀ m n, Digraph.Marked s.1 m → m ∉ s.2 → g.digraph.Arc m n → Digraph.Marked s.1 n

theorem Reaching.turn {r n : Nat} {marks : Array Bool} {queue : List Nat}
    (h : Reaching g r (marks, n :: queue)) : ∃ s', reachTurn g (marks, n :: queue) =
      some (.again s') ∧ Reaching g r s' ∧
        unmarked s'.1 + s'.2.length < unmarked marks + (n :: queue).length := by
  have hn := h.queue n List.mem_cons_self
  have hsize : marks.size = g.size := h.size
  have hlt : n < g.size := hsize ▸ hn.lt
  obtain ⟨node, hnode, hsucc⟩ := exists_node hlt
  obtain ⟨s', hs', hvisits⟩ := exists_visitAll (g.successors n) (marks, queue)
  have harc : ∀ m, m ∈ g.successors n ∧ m < marks.size ↔ g.digraph.Arc n m := by
    intro m
    rw [hsize]
    exact ⟨fun hm => ⟨hlt, hm⟩, fun hm => hm.2⟩
  refine ⟨s', ?_, ⟨hvisits.size.trans h.size, ?_, ?_, ?_, ?_⟩, ?_⟩
  · simp [reachTurn, hnode, ← hsucc, hs']
  · exact (hvisits.marked _).mpr (.inl h.root)
  · intro m hm
    rcases hvisits.queue m hm with hm | hm
    · exact (hvisits.marked m).mpr (.inl (h.queue m (List.mem_cons_of_mem _ hm)))
    · exact hm
  · intro m hm
    rcases (hvisits.marked m).mp hm with hm | ⟨hm, hmlt⟩
    · exact h.sound m hm
    · exact (h.sound n hn).tail ((harc m).mp ⟨hm, hmlt⟩)
  · intro m k hm hmq hmk
    rcases hvisits.queued m hm with hm | hm
    · by_cases hmn : m = n
      · subst hmn
        exact (hvisits.marked k).mpr (.inr ((harc k).mpr hmk))
      · have hold : m ∉ n :: queue := by
          intro hmem
          rcases List.mem_cons.mp hmem with heq | hmem
          · exact hmn heq
          · exact hmq (hvisits.kept hmem)
        exact (hvisits.marked k).mpr (.inl (h.closed m k hm hold hmk))
    · exact absurd hm hmq
  · have hleft := hvisits.left
    simp only [List.length_cons]
    simp only at hleft
    omega

theorem reaching_start {r : Nat} (hr : r < g.size) :
    Reaching g r (g.digraph.noMarks.setIfInBounds r true, [r]) := by
  have hlt : r < g.digraph.noMarks.size := by rwa [Digraph.size_noMarks]
  have hmarked : ∀ n, Digraph.Marked (g.digraph.noMarks.setIfInBounds r true) n ↔ n = r := by
    intro n
    rw [Digraph.marked_set hlt]
    exact ⟨fun h => h.resolve_right (g.digraph.not_marked_noMarks n), .inl⟩
  refine ⟨?_, (hmarked r).mpr rfl, ?_, ?_, ?_⟩
  · rw [Array.size_setIfInBounds, Digraph.size_noMarks]
    rfl
  · intro n hn
    exact (hmarked n).mpr (List.mem_singleton.mp hn)
  · intro n hn
    rw [(hmarked n).mp hn]
  · intro m n hm hmq _
    exact absurd (List.mem_singleton.mpr ((hmarked m).mp hm)) hmq

theorem reachable_of_no_root (h : g.root.filter g.contains = none) :
    g.reachable = g.digraph.noMarks := by
  refine eq_of_marked (by rw [size_reachable, Digraph.size_noMarks]; rfl) ?_
  intro n
  have hnone := g.digraph.not_marked_noMarks n
  refine ⟨fun hn => ?_, fun hn => absurd hn hnone⟩
  obtain ⟨r, hr, hlt, _⟩ := Digraph.marked_reach.mp hn
  rw [Option.mem_toList] at hr
  rw [hr] at h
  simp only [Option.filter_some, AccessGraph.contains, ite_eq_right_iff, reduceCtorEq, imp_false,
    decide_eq_true_eq] at h
  exact absurd hlt h

/-- Breadth-first search does not fail, and marks what the root leads to. -/
theorem reachable_eq (g : AccessGraph) : reachable g = some g.reachable := by
  unfold reachable
  split
  case h_1 hnone => rw [reachable_of_no_root hnone]; rfl
  case h_2 r hr =>
    obtain ⟨hroot, hr⟩ := Option.filter_eq_some_iff.mp hr
    have hr : r < g.size := by simpa [AccessGraph.contains] using hr
    rw [put_eq_some (by rwa [Digraph.size_noMarks])]
    have hturn : ∀ s, Reaching g r s → (∃ s', reachTurn g s = some (.again s') ∧ Reaching g r s' ∧
        unmarked s'.1 + s'.2.length < unmarked s.1 + s.2.length) ∨
          ∃ marks, reachTurn g s = some (.done marks) ∧ Reaching g r (marks, []) := by
      rintro ⟨marks, queue⟩ hs
      cases queue with
      | nil => exact .inr ⟨marks, rfl, hs⟩
      | cons n queue => exact .inl hs.turn
    obtain ⟨marks, hloop, hmarks⟩ := loop_of_invariant (Reaching g r) _
      (measure fun s : Array Bool × List Nat => unmarked s.1 + s.2.length).wf hturn
      (reaching_start hr)
    refine hloop.trans (congrArg some ?_)
    refine eq_of_marked (hmarks.size.trans (size_reachable g).symm) ?_
    intro n
    have hmem : Digraph.Marked g.reachable n ↔ ReflTransGen g.digraph.Arc r n := by
      rw [AccessGraph.reachable, Digraph.marked_reach, hroot]
      simp only [Option.toList_some, List.mem_singleton, exists_eq_left]
      exact and_iff_right hr
    rw [hmem]
    clear hmem
    refine ⟨hmarks.sound n, fun hn => ?_⟩
    induction hn with
    | refl => exact hmarks.root
    | tail _ harc ih => exact hmarks.closed _ _ ih List.not_mem_nil harc

/-! ## Reverse postorder -/

/-- A state of the depth-first search: the marks, the nodes that were left, in that order, and a
stack of nodes, each with the position of its next successor. -/
structure Descent where
  /-- The nodes that were entered. -/
  marks : Array Bool
  /-- The nodes that were left. -/
  postorder : List Nat
  /-- The path to the current node, which comes first. -/
  stack : List (Nat × Nat)

/-- Looks at the next successor of the current node, or leaves the node if there is none. -/
def descendTurn (g : AccessGraph) : Descent → Option (Turn Descent (List Nat))
  | ⟨_, postorder, []⟩ => some (.done postorder)
  | ⟨marks, postorder, (n, next) :: stack⟩ => do
    let node ← g.nodes[n]?
    if next < node.successors.length then
      let m ← node.successors[next]?
      if (← lookup marks m) = some false then
        return .again ⟨← put marks m true, postorder, (m, 0) :: (n, next + 1) :: stack⟩
      else
        return .again ⟨marks, postorder, (n, next + 1) :: stack⟩
    else
      return .again ⟨marks, postorder ++ [n], stack⟩

/-- The nodes that the root leads to, in reverse postorder. -/
noncomputable def reversePostorder (g : AccessGraph) : Option (List Nat) := do
  match g.root.filter g.contains with
  | none => return []
  | some root =>
    let marks ← put g.digraph.noMarks root true
    return (← loop (descendTurn g) ⟨marks, [], [(root, 0)]⟩).reverse

/-- The successors that are still to be looked at. -/
def todo (g : AccessGraph) (e : Nat × Nat) : Nat × List Nat := (e.1, (g.successors e.1).drop e.2)

theorem of_drop_eq_cons {α : Type} {l rest : List α} {i : Nat} {x : α} (h : l.drop i = x :: rest) :
    i < l.length ∧ l[i]? = some x ∧ l.drop (i + 1) = rest := by
  have hget : l[i]? = some x := by rw [← List.head?_drop, h]; rfl
  refine ⟨(List.getElem?_eq_some_iff.mp hget).1, hget, ?_⟩
  rw [← List.tail_drop, h]
  rfl

/-- The stack with positions has an entry on top if the one with successors has. -/
theorem exists_top {stack : List (Nat × Nat)} {v : Nat} {rest : List Nat}
    {below : List (Nat × List Nat)} (h : stack.map (todo g) = (v, rest) :: below)
    (hlt : ∀ e ∈ stack, e.1 < g.size) :
    ∃ next stack', stack = (v, next) :: stack' ∧ (g.successors v).drop next = rest ∧
      stack'.map (todo g) = below ∧ v < g.size ∧ ∀ e ∈ stack', e.1 < g.size := by
  obtain ⟨⟨n, next⟩, stack', rfl, htop, hbelow⟩ := List.map_eq_cons_iff.mp h
  obtain ⟨hn, hlt⟩ := List.forall_mem_cons.mp hlt
  simp only [todo, Prod.mk.injEq] at htop
  obtain ⟨rfl, hrest⟩ := htop
  exact ⟨next, stack', rfl, hrest, hbelow, hn, hlt⟩

/-- A search with positions goes on like one with the successors still to be looked at. -/
theorem loop_descendTurn {marks : Array Bool} (order : List Nat) {stack' : List (Nat × List Nat)}
    (hsize : marks.size = g.size) {stack : List (Nat × Nat)} (hstack : stack.map (todo g) = stack')
    (hlt : ∀ e ∈ stack, e.1 < g.size) :
    loop (descendTurn g) ⟨marks, order.reverse, stack⟩ =
      some (g.digraph.finish marks order stack').reverse := by
  induction marks, order, stack' using Digraph.finish.induct g.digraph generalizing stack with
  | case1 marks order =>
    obtain rfl := List.map_eq_nil_iff.mp hstack
    rw [Digraph.finish]
    exact loop_of_done rfl
  | case2 marks order v below ih =>
    obtain ⟨next, rest, rfl, hdrop, hbelow, hv, hlt⟩ := exists_top hstack hlt
    obtain ⟨node, hnode, hsucc⟩ := exists_node hv
    rw [hsucc, List.drop_eq_nil_iff] at hdrop
    rw [Digraph.finish, ← ih hsize hbelow hlt, List.reverse_cons]
    refine loop_of_again ?_
    simp [descendTurn, hnode, Nat.not_lt.mpr hdrop]
  | case3 marks order v w todo' below hw ih =>
    obtain ⟨next, rest, rfl, hdrop, hbelow, hv, hlt⟩ := exists_top hstack hlt
    obtain ⟨node, hnode, hsucc⟩ := exists_node hv
    obtain ⟨hnext, hget, hdrop⟩ := of_drop_eq_cons hdrop
    have hwlt := Digraph.lt_of_unmarked hw
    have hpushed : ((w, 0) :: (v, next + 1) :: rest).map (todo g) =
        (w, g.digraph.next w) :: (v, todo') :: below := by
      simp only [List.map_cons, todo, hdrop, hbelow, List.drop_zero]
      rfl
    have hlt' : ∀ e ∈ (w, 0) :: (v, next + 1) :: rest, e.1 < g.size :=
      List.forall_mem_cons.mpr ⟨hsize ▸ hwlt, List.forall_mem_cons.mpr ⟨hv, hlt⟩⟩
    rw [Digraph.finish, if_pos hw, ← ih (by simpa using hsize) hpushed hlt']
    refine loop_of_again ?_
    rw [hsucc] at hnext hget
    simp only [descendTurn, hnode, Option.bind_eq_bind, Option.bind_some, hnext, if_true, hget,
      lookup_eq, hw, put_eq_some hwlt, Option.pure_def]
  | case4 marks order v w todo' below hw ih =>
    obtain ⟨next, rest, rfl, hdrop, hbelow, hv, hlt⟩ := exists_top hstack hlt
    obtain ⟨node, hnode, hsucc⟩ := exists_node hv
    obtain ⟨hnext, hget, hdrop⟩ := of_drop_eq_cons hdrop
    have hpassed : ((v, next + 1) :: rest).map (todo g) = (v, todo') :: below := by
      simp only [List.map_cons, todo, hdrop, hbelow]
    rw [Digraph.finish, if_neg hw, ← ih hsize hpassed (List.forall_mem_cons.mpr ⟨hv, hlt⟩)]
    refine loop_of_again ?_
    rw [hsucc] at hnext hget
    simp only [descendTurn, hnode, Option.bind_eq_bind, Option.bind_some, hnext, if_true, hget,
      lookup_eq, hw, if_false, Option.pure_def]

/-- Depth-first search does not fail, and leaves the nodes in the order of the recursion. -/
theorem reversePostorder_eq (g : AccessGraph) : reversePostorder g = some g.reversePostorder := by
  unfold reversePostorder AccessGraph.reversePostorder Digraph.reversePostorder
  cases hroot : g.root with
  | none => rfl
  | some r =>
    by_cases hr : r < g.size
    · have hcontains : g.contains r = true := decide_eq_true hr
      have hlt : r < g.digraph.noMarks.size := by rwa [Digraph.size_noMarks]
      have hsize : (g.digraph.noMarks.setIfInBounds r true).size = g.size := by
        rw [Array.size_setIfInBounds, Digraph.size_noMarks]
        rfl
      have hstack : [(r, 0)].map (todo g) = [(r, g.digraph.next r)] := rfl
      have hloop := loop_descendTurn [] hsize hstack (by simpa using hr)
      rw [List.reverse_nil] at hloop
      have hr' : r < g.digraph.size := hr
      simp only [Option.filter_some, hcontains, if_true, put_eq_some hlt, Option.bind_eq_bind,
        Option.bind_some, hloop, Option.pure_def, List.reverse_reverse, hr']
    · have hcontains : g.contains r = false := decide_eq_false hr
      have hr' : ¬ r < g.digraph.size := hr
      simp only [Option.filter_some, hcontains, Bool.false_eq_true, if_false, hr', Option.pure_def]

/-! ## What the searches find -/

/-- Marks and an order that explore a graph from its root. What is marked is what the root leads to, if
it is a node; entries of successor lists that are no nodes lead nowhere. The order lists these nodes
once each, the root first. An edge leads forward in the order unless its end leads back to its
start. -/
structure Explored (g : AccessGraph) (marks : Array Bool) (order : List Nat) : Prop where
  size : marks.size = g.size
  marked : ∀ n, marks[n]? = some true ↔
    ∃ r, g.root = some r ∧ r < g.size ∧ ReflTransGen g.digraph.Arc r n
  mem : ∀ n, n ∈ order ↔ marks[n]? = some true
  nodup : order.Nodup
  head : ∀ r, g.root = some r → r < g.size → order.head? = some r
  forward : ∀ m n, marks[m]? = some true → marks[n]? = some true → n ∈ g.successors m →
    ¬ ReflTransGen g.digraph.Arc n m →
    ∃ i j : Nat, i < j ∧ order[i]? = some m ∧ order[j]? = some n

/-- On every graph, malformed ones included, both searches end and use slots that exist, and together
they explore the graph. -/
theorem searches_explore (g : AccessGraph) : reachable g = some g.reachable ∧
    reversePostorder g = some g.reversePostorder ∧
    Explored g g.reachable g.reversePostorder := by
  refine ⟨reachable_eq g, reversePostorder_eq g, ?_⟩
  constructor
  case size => exact size_reachable g
  case marked => exact fun n => AccessGraph.reached_iff
  case mem => exact fun n => AccessGraph.mem_reversePostorder
  case nodup => exact AccessGraph.nodup_reversePostorder g
  case head => exact fun r => AccessGraph.head?_reversePostorder
  case forward =>
    intro m n hm hn hmn hback
    have hm : g.Reached m := hm
    have hn : g.Reached n := hn
    exact AccessGraph.before_reversePostorder hm hn ⟨hm.lt, hmn, hn.lt⟩ hback

/-! ## Checks and accesses -/

/-- The first defect of a graph. -/
def structuralError (g : AccessGraph) : Option (Option GraphDefect) := do
  match g.root with
  | none => return some .noRoot
  | some root =>
    if !g.contains root then
      return some (.rootMissing root g.size)
    let first ← g.nodes[unknownMemory]?
    if first.kind ≠ .unknownMemory then
      return some .noUnknownMemory
    return g.nodes.toList.zipIdx.findSome? fun (n, slot) => g.nodeError slot n

theorem structuralError_eq (g : AccessGraph) : structuralError g = some g.structuralError := by
  unfold structuralError AccessGraph.structuralError
  cases g.root with
  | none => rfl
  | some root =>
    cases hroot : g.contains root with
    | false => simp [hroot]
    | true =>
      have hpos : unknownMemory < g.nodes.size :=
        Nat.lt_of_le_of_lt (Nat.zero_le root) (of_decide_eq_true hroot)
      have hnode : g.nodes[unknownMemory]? = some g.nodes[unknownMemory] :=
        Array.getElem?_eq_getElem hpos
      by_cases hkind : g.nodes[unknownMemory].kind = .unknownMemory
      · simp [hroot, AccessGraph.node?, hnode, hkind]
      · simp [hroot, AccessGraph.node?, hnode, hkind]

/-- The edges of a node that their other ends do not list. -/
def oneSided (g : AccessGraph) (n : AccessNode) : Option (List (Nat × Nat)) := do
  let successors ← keep (fun s => do
    return !(← lookup g.nodes s).any (·.predecessors.contains n.id)) n.successors
  let predecessors ← keep (fun p => do
    return !(← lookup g.nodes p).any (·.successors.contains n.id)) n.predecessors
  return successors.map (n.id, ·) ++ predecessors.map (·, n.id)

/-- The edges that exactly one end lists. -/
def asymmetricEdges (g : AccessGraph) : Option (List (Nat × Nat)) := do
  return (← g.nodes.toList.mapM (oneSided g)).flatten

theorem asymmetricEdges_eq (g : AccessGraph) : asymmetricEdges g = some g.asymmetricEdges := by
  have hpred : ∀ s id, (g.nodes[s]?).any (·.predecessors.contains id) = g.hasPredecessor s id := by
    intro s id
    unfold AccessGraph.hasPredecessor AccessGraph.predecessors AccessGraph.node?
    cases g.nodes[s]? <;> rfl
  have hsucc : ∀ p id, (g.nodes[p]?).any (·.successors.contains id) = g.hasSuccessor p id := by
    intro p id
    unfold AccessGraph.hasSuccessor AccessGraph.successors AccessGraph.node?
    cases g.nodes[p]? <;> rfl
  have hnode : ∀ n ∈ g.nodes.toList, oneSided g n = some
      ((n.successors.filter fun s => !g.hasPredecessor s n.id).map (n.id, ·) ++
        (n.predecessors.filter fun p => !g.hasSuccessor p n.id).map (·, n.id)) := by
    intro n _
    unfold oneSided
    rw [keep_eq_some (fun s => !g.hasPredecessor s n.id) fun s _ => ?_,
      keep_eq_some (fun p => !g.hasSuccessor p n.id) fun p _ => ?_]
    · rfl
    · rw [← hsucc, lookup_eq]
      rfl
    · rw [← hpred, lookup_eq]
      rfl
  unfold asymmetricEdges AccessGraph.asymmetricEdges
  rw [mapM_eq_some _ hnode]
  rfl

/-- The accesses of a node, as an analysis sees them. -/
def seen (fieldInsensitive : Bool) (n : AccessNode) : NodeAccesses :=
  ⟨n.writes.map fun w => { w with region := Accesses.see fieldInsensitive w.region },
    n.reads.map (Accesses.see fieldInsensitive)⟩

/-- The accesses of a graph. -/
def accesses (g : AccessGraph) (fieldInsensitive : Bool) : Option Accesses := do
  let nodes ← (List.range g.size).mapM fun slot => do
    return seen fieldInsensitive (← g.nodes[slot]?)
  return ⟨nodes.toArray, fieldInsensitive⟩

theorem accesses_eq (g : AccessGraph) (fieldInsensitive : Bool) :
    accesses g fieldInsensitive = some (.ofGraph g fieldInsensitive) := by
  unfold accesses AccessGraph.size
  rw [mapM_slots]
  rfl

end Checked

end MemDep
