import MemDep.Proofs.Checked.Traversal
import MemDep.Proofs.Reaching.Paths

/-!
# Iteration with checked indices

The iteration for reaching definitions in arrays: the sets that leave nodes start as empty sets, one
array of marks tells which nodes have been visited, and another which are on the worklist. Whatever
the graph is and whatever limit there is on the visits, this does not fail, and gives what
`Iteration.solve` gives.
-/

namespace MemDep

namespace Checked

/-- A state of the iteration. -/
structure Solver where
  /-- What entered each node at its last visit. -/
  ins : Array (List Fact)
  /-- What left each node at its last visit. -/
  outs : Array (List Fact)
  /-- The nodes that were visited. -/
  visited : Array Bool
  /-- The nodes on the worklist. -/
  queued : Array Bool
  /-- The nodes to visit. -/
  worklist : List Nat
  /-- How many visits there were. -/
  visits : Nat

/-! ## Marks for a list -/

/-- The numbers that are on a list, marked in an array. -/
def marks (size : Nat) (l : List Nat) : Array Bool :=
  (Array.range size).map fun n => decide (n ∈ l)

theorem size_marks (size : Nat) (l : List Nat) : (marks size l).size = size := by
  simp [marks]

theorem getElem?_marks {size n : Nat} (h : n < size) (l : List Nat) :
    (marks size l)[n]? = some (decide (n ∈ l)) := by
  simp [marks, h]

theorem put_marks {size n : Nat} (h : n < size) {b : Bool} {l l' : List Nat}
    (hn : n ∈ l' ↔ b = true) (hother : ∀ m, m ≠ n → (m ∈ l' ↔ m ∈ l)) :
    put (marks size l) n b = some (marks size l') := by
  rw [put_eq_some (by rwa [size_marks])]
  refine congrArg some (Array.ext_getElem? fun m => ?_)
  by_cases hm : m < size
  · rw [getElem?_marks hm]
    by_cases hmn : m = n
    · subst hmn
      rw [Array.getElem?_setIfInBounds_self_of_lt (by rwa [size_marks])]
      simp [hn]
    · rw [Array.getElem?_setIfInBounds_ne (Ne.symm hmn), getElem?_marks hm]
      simp [hother m hmn]
  · rw [Array.getElem?_eq_none (by rw [Array.size_setIfInBounds, size_marks]; omega),
      Array.getElem?_eq_none (by rw [size_marks]; omega)]

/-- Marking the elements of a list one by one. -/
theorem foldlM_marks {size : Nat} {l : List Nat} (h : ∀ n ∈ l, n < size) :
    l.foldlM (fun queued n => put queued n true) (marks size []) = some (marks size l) := by
  suffices ∃ queued, l.foldlM (fun queued n => put queued n true) (marks size []) = some queued ∧
      queued = marks size l by
    obtain ⟨_, hfold, rfl⟩ := this
    exact hfold
  refine foldlM_of_invariant (fun before queued => queued = marks size before) ?_ rfl
  rintro before n after _ rfl rfl
  refine ⟨_, put_marks (h n (by simp)) (by simp) ?_, rfl⟩
  intro m hm
  simp [hm]

/-! ## The algorithm -/

/-- Puts a node at the end of the worklist, unless it is on it. -/
def enqueue (s : Array Bool × List Nat) (n : Nat) : Option (Array Bool × List Nat) := do
  if ← s.1[n]? then
    return s
  else
    return (← put s.1 n true, s.2 ++ [n])

/-- The facts that enter a node. -/
def meet (p : Flow) (outs : Array (List Fact)) (n : Nat) : Option (List Fact) := do
  return Ascending.unionAll (← (p.sources n).mapM fun m => outs[m]?)

/-- Visits the first node of the worklist; ends the iteration without a result if there were as many
visits as a limit allows. -/
def solveTurn (p : Flow) (limit : Option Nat) (s : Solver) :
    Option (Turn Solver (Option Solver)) := do
  match s.worklist with
  | [] => return .done (some s)
  | n :: rest =>
    let queued ← put s.queued n false
    if limit.any (· ≤ s.visits) then
      return .done none
    let incoming ← meet p s.outs n
    let outgoing := p.transfer n incoming
    let ins ← put s.ins n incoming
    let unchanged := (← s.visited[n]?) && outgoing = (← s.outs[n]?)
    let visited ← put s.visited n true
    if unchanged then
      return .again ⟨ins, s.outs, visited, queued, rest, s.visits + 1⟩
    else
      let outs ← put s.outs n outgoing
      let (queued, worklist) ← (p.targets n).foldlM enqueue (queued, rest)
      return .again ⟨ins, outs, visited, queued, worklist, s.visits + 1⟩

/-- The facts that enter the nodes, and how many visits it took. -/
structure Solution where
  /-- The equations. -/
  flow : Flow
  /-- What enters each node. -/
  ins : Array (List Fact)
  /-- How many visits there were. -/
  visits : Nat

/-- Solves the equations of a graph. -/
noncomputable def solve (g : AccessGraph) (fieldInsensitive : Bool) (limit : Option Nat) :
    Option (Option Solution) := do
  let p : Flow := ⟨g, ← accesses g fieldInsensitive, ← reachable g⟩
  let order ← reversePostorder g
  let queued ← order.foldlM (fun queued n => put queued n true) (Array.replicate g.size false)
  let solver ← loop (solveTurn p limit) ⟨Array.replicate g.size [], Array.replicate g.size [],
    Array.replicate g.size false, queued, order, 0⟩
  return solver.map fun s => ⟨p, s.ins, s.visits⟩

/-! ## States -/

/-- The same state, in arrays. -/
def Solver.of (s : Iteration) : Solver where
  ins := s.ins
  outs := s.outs.map (·.getD [])
  visited := s.outs.map Option.isSome
  queued := marks s.outs.size s.worklist
  worklist := s.worklist
  visits := s.visits

/-- What the arrays rely on. -/
structure Fits (p : Flow) (s : Iteration) : Prop where
  ins : s.ins.size = p.graph.size
  outs : s.outs.size = p.graph.size
  nodup : s.worklist.Nodup
  lt : ∀ n ∈ s.worklist, n < p.graph.size

variable {p : Flow} {s : Iteration}

theorem nodup_enqueue {worklist targets : List Nat} (h : worklist.Nodup) :
    (Iteration.enqueue worklist targets).Nodup := by
  induction targets generalizing worklist with
  | nil => exact h
  | cons n targets ih =>
    rw [Iteration.enqueue]
    refine ih ?_
    split
    case isTrue => exact h
    case isFalse hn =>
      refine List.nodup_append.mpr ⟨h, by simp, ?_⟩
      rintro m hm _ hmn rfl
      exact hn (List.mem_singleton.mp hmn ▸ hm)

theorem foldlM_enqueue {size : Nat} {targets : List Nat} (h : ∀ n ∈ targets, n < size)
    (worklist : List Nat) : targets.foldlM enqueue (marks size worklist, worklist) =
      some (marks size (Iteration.enqueue worklist targets),
        Iteration.enqueue worklist targets) := by
  induction targets generalizing worklist with
  | nil => rfl
  | cons n targets ih =>
    obtain ⟨hn, htargets⟩ := List.forall_mem_cons.mp h
    have hstep : enqueue (marks size worklist, worklist) n =
        let worklist' := if n ∈ worklist then worklist else worklist ++ [n]
        some (marks size worklist', worklist') := by
      unfold enqueue
      simp only [getElem?_marks hn, Option.bind_eq_bind, Option.bind_some, decide_eq_true_eq]
      split
      case isTrue => rfl
      case isFalse hmem =>
        have hput : put (marks size worklist) n true = some (marks size (worklist ++ [n])) :=
          put_marks hn (by simp) fun m hm => by simp [hm]
        rw [hput]
        rfl
    rw [List.foldlM_cons, hstep]
    exact ih htargets _

theorem meet_eq (hp : Iteration.Scheduled p) (h : Fits p s) (n : Nat) :
    meet p (Solver.of s).outs n = some (p.meet s.out n) := by
  unfold meet Flow.meet
  rw [mapM_eq_some s.out fun m hm => ?_]
  · rfl
  · have hm : m < s.outs.size := by
      rw [h.outs]
      exact hp.lt m (List.mem_filter.mp hm).2
    simp [Solver.of, Iteration.out, Iteration.out?, hm]

theorem Fits.visit (hp : Iteration.Scheduled p) (h : Fits p s) {n : Nat} {rest : List Nat}
    (hw : s.worklist = n :: rest) : Fits p (s.visit p n rest) := by
  have hnodup := hw ▸ h.nodup
  have hlt := hw ▸ h.lt
  have hn : n < s.outs.size := by
    rw [h.outs]
    exact hlt n List.mem_cons_self
  refine ⟨?_, ?_, ?_, ?_⟩
  · rw [Iteration.ins_visit, Array.size_setIfInBounds, h.ins]
  · rw [Iteration.size_outs_visit, h.outs]
  · rcases Iteration.visit_cases (p := p) hn rest with ⟨hrest, -⟩ | hrest <;> rw [hrest]
    · exact hnodup.of_cons
    · exact nodup_enqueue hnodup.of_cons
  · intro m hm
    rcases Iteration.visit_cases (p := p) hn rest with ⟨hrest, -⟩ | hrest <;> rw [hrest] at hm
    · exact hlt m (List.mem_cons_of_mem n hm)
    · rcases Iteration.mem_enqueue.mp hm with hm | hm
      · exact hlt m (List.mem_cons_of_mem n hm)
      · exact hp.lt m (List.mem_filter.mp hm).2

theorem isSome_and_eq_getD (out? : Option (List Fact)) (out : List Fact) :
    (out?.isSome && decide (out = out?.getD [])) = decide (out? = some out) := by
  cases out? with
  | none => rfl
  | some out' =>
    refine decide_eq_decide.mpr ?_
    rw [Option.getD_some, Option.some.injEq]
    exact eq_comm

theorem visit_of_eq {n : Nat} (rest : List Nat)
    (hout : s.out? n = some (p.transfer n (p.meet s.out n))) : s.visit p n rest =
      ⟨s.ins.setIfInBounds n (p.meet s.out n), s.outs, rest, s.visits + 1⟩ := by
  unfold Iteration.visit
  simp only
  rw [if_neg fun h => h.2 hout]

theorem visit_of_ne {n : Nat} (hn : n < s.outs.size) (rest : List Nat)
    (hout : s.out? n ≠ some (p.transfer n (p.meet s.out n))) : s.visit p n rest =
      ⟨s.ins.setIfInBounds n (p.meet s.out n),
        s.outs.setIfInBounds n (some (p.transfer n (p.meet s.out n))),
        Iteration.enqueue rest (p.targets n), s.visits + 1⟩ := by
  unfold Iteration.visit
  simp only
  rw [if_pos ⟨hn, hout⟩]

/-- A turn with checked indices is a visit. -/
theorem solveTurn_eq (hp : Iteration.Scheduled p) (h : Fits p s) {limit : Option Nat} {n : Nat}
    {rest : List Nat} (hw : s.worklist = n :: rest) : solveTurn p limit (.of s) =
      if limit.any (· ≤ s.visits) then some (.done none)
      else some (.again (.of (s.visit p n rest))) := by
  obtain ⟨hnot, -⟩ := List.nodup_cons.mp (hw ▸ h.nodup)
  have hn : n < s.outs.size := by
    rw [h.outs]
    exact h.lt n (by simp [hw])
  have hins : n < s.ins.size := by rwa [h.ins, ← h.outs]
  have hqueued : put (marks s.outs.size (n :: rest)) n false = some (marks s.outs.size rest) :=
    put_marks hn (by simpa using hnot) fun m hm => by simp [hm]
  have hmeet : meet p (s.outs.map (·.getD [])) n = some (p.meet s.out n) := meet_eq hp h n
  have hget : s.outs[n]? = some (s.out? n) := by simp [Iteration.out?, hn]
  have hvisited : put (s.outs.map Option.isSome) n true =
      some ((s.outs.map Option.isSome).setIfInBounds n true) := put_eq_some (by simpa using hn) true
  have houts : ∀ out, put (s.outs.map (·.getD [])) n out =
      some ((s.outs.map (·.getD [])).setIfInBounds n out) := put_eq_some (by simpa using hn)
  have hlt : ∀ m ∈ p.targets n, m < s.outs.size := by
    intro m hm
    rw [h.outs]
    exact hp.lt m (List.mem_filter.mp hm).2
  have htargets := foldlM_enqueue hlt rest
  unfold solveTurn
  simp only [Solver.of, hw, hqueued, Option.bind_eq_bind, Option.bind_some]
  split
  case isTrue hlimit => simp
  case isFalse hlimit =>
    simp only [hmeet, Option.bind_some, put_eq_some hins, Array.getElem?_map, hget, Option.map_some,
      hvisited, houts, htargets]
    rw [isSome_and_eq_getD]
    by_cases hout : s.out? n = some (p.transfer n (p.meet s.out n))
    · have hmarked : (s.outs.map Option.isSome).setIfInBounds n true =
          s.outs.map Option.isSome := by
        refine Array.ext_getElem? fun m => ?_
        by_cases hmn : m = n
        · subst hmn
          rw [Array.getElem?_setIfInBounds_self_of_lt (by simpa using hn), Array.getElem?_map, hget,
            hout]
          rfl
        · rw [Array.getElem?_setIfInBounds_ne (Ne.symm hmn)]
      rw [decide_eq_true hout, if_pos rfl, visit_of_eq rest hout, hmarked]
      rfl
    · rw [decide_eq_false hout, visit_of_ne hn rest hout]
      simp

/-! ## The whole iteration -/

theorem loop_solveTurn (hp : Iteration.Scheduled p) (limit : Option Nat) (hs : s.Sound p)
    (h : Fits p s) :
    loop (solveTurn p limit) (.of s) = some ((s.solve p limit hs).map Solver.of) := by
  induction s, hs using Iteration.solve.induct p limit with
  | case1 s hs hnil =>
    rw [Iteration.solve_nil hs hnil]
    refine loop_of_done ?_
    unfold solveTurn
    simp only [Solver.of, hnil, Option.map_some, Option.pure_def]
  | case2 s hs n rest hw hlimit =>
    rw [Iteration.solve_cons hs hw, if_pos hlimit]
    refine loop_of_done ?_
    rw [solveTurn_eq hp h hw, if_pos hlimit]
    rfl
  | case3 s hs n rest hw hlimit ih =>
    rw [Iteration.solve_cons hs hw, if_neg hlimit, ← ih (h.visit hp hw)]
    refine loop_of_again ?_
    rw [solveTurn_eq hp h hw, if_neg hlimit]

theorem fits_start (g : AccessGraph) (fieldInsensitive : Bool) :
    Fits (.ofGraph g fieldInsensitive) (.start (.ofGraph g fieldInsensitive)) := by
  have hp := ReachingDefinitions.scheduled_ofGraph g fieldInsensitive
  refine ⟨Array.size_replicate, Array.size_replicate, g.nodup_reversePostorder, ?_⟩
  intro n hn
  exact hp.lt n ((hp.order n).mp hn)

/-- The same solution, without the sets that leave nodes. -/
def Solution.of (r : ReachingDefinitions) : Solution := ⟨r.flow, r.solution.ins, r.visits⟩

theorem marks_nil (size : Nat) : marks size [] = Array.replicate size false := by
  refine Array.ext (by rw [size_marks, Array.size_replicate]) ?_
  intro n hn hn'
  simp [marks]

theorem of_start (p : Flow) : Solver.of (.start p) =
    ⟨Array.replicate p.graph.size [], Array.replicate p.graph.size [],
      Array.replicate p.graph.size false, marks p.graph.size p.graph.reversePostorder,
      p.graph.reversePostorder, 0⟩ := by
  simp [Solver.of, Iteration.start]

/-- Solving the equations of a graph does not fail. -/
theorem solve_eq (g : AccessGraph) (fieldInsensitive : Bool) (limit : Option Nat) :
    solve g fieldInsensitive limit =
      some ((ReachingDefinitions.compute g fieldInsensitive limit).map Solution.of) := by
  have hfits := fits_start g fieldInsensitive
  have hqueued : g.reversePostorder.foldlM (fun queued n => put queued n true)
      (Array.replicate g.size false) = some (marks g.size g.reversePostorder) := by
    rw [← marks_nil]
    exact foldlM_marks hfits.lt
  have hloop := loop_solveTurn (ReachingDefinitions.scheduled_ofGraph g fieldInsensitive) limit
    (Iteration.sound_start _) hfits
  rw [of_start] at hloop
  unfold solve
  simp only [accesses_eq, reachable_eq, reversePostorder_eq, Option.bind_eq_bind, Option.bind_some,
    hqueued]
  refine (congrArg (Option.bind · _) hloop).trans ?_
  simp only [Option.bind_some, Option.pure_def, Option.map_map, ReachingDefinitions.compute]
  rfl

end Checked

end MemDep
