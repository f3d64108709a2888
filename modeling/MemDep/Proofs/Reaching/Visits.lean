import MemDep.Proofs.Reaching.Iteration

/-!
# The visits of an iteration

An iteration with nothing to limit it is a list of nodes, in the order in which they are visited. The
list and the states in between are determined by the first state (`Runs.exists_rest`), and from each state to
a later one the sets that leave nodes only grow (`Runs.out_subset`).

A node that is visited once keeps the sets that this visit gives it. If no node on the worklist has a
target that stands at the same place or before it, each is visited once and in turn (`exists_runs`):
whatever a visit would queue is queued already.
-/

namespace MemDep

namespace Iteration

variable {p : Flow} {s t u : Iteration} {nodes : List Nat}

/-- The visits to some nodes lead from one state to another. Each node is the first on the worklist
when it is visited. -/
inductive Runs (p : Flow) : Iteration → List Nat → Iteration → Prop where
  | nil (s : Iteration) : Runs p s [] s
  | cons {s t : Iteration} {n : Nat} {rest nodes : List Nat} (hw : s.worklist = n :: rest)
      (h : Runs p (visit p s n rest) nodes t) : Runs p s (n :: nodes) t

namespace Runs

/-- What every visit keeps is kept by all of them. -/
theorem keeps {motive : Iteration → Prop}
    (hstep : ∀ s n rest, s.worklist = n :: rest → motive s → motive (visit p s n rest))
    (h : Runs p s nodes t) (h0 : motive s) : motive t := by
  induction h with
  | nil s => exact h0
  | cons hw _ ih => exact ih (hstep _ _ _ hw h0)

/-- A run over a list is one over the first nodes of it and one over the others. -/
theorem split {before after : List Nat} (h : Runs p s (before ++ after) t) :
    ∃ u, Runs p s before u ∧ Runs p u after t := by
  induction before generalizing s with
  | nil => exact ⟨s, .nil s, h⟩
  | cons n before ih =>
    rw [List.cons_append] at h
    cases h with
    | cons hw h =>
      obtain ⟨u, hbefore, hafter⟩ := ih h
      exact ⟨u, .cons hw hbefore, hafter⟩

theorem sound (h : Runs p s nodes t) (hs : s.Sound p) : t.Sound p :=
  h.keeps (fun _ n rest _ hs => hs.visit n rest) hs

theorem visits_eq (h : Runs p s nodes t) : t.visits = s.visits + nodes.length := by
  induction h with
  | nil s => rfl
  | cons hw _ ih =>
    rw [ih, visits_visit, List.length_cons]
    omega

/-- A run that has come to its end is the only one: every other run is a part of it. -/
theorem exists_rest {before : List Nat} (h : Runs p s nodes t) (hnil : t.worklist = [])
    (k : Runs p s before u) : ∃ after, nodes = before ++ after ∧ Runs p u after t := by
  induction k generalizing nodes with
  | nil s => exact ⟨nodes, rfl, h⟩
  | @cons s u n rest before hw _ ih =>
    cases h with
    | nil => rw [hw] at hnil; simp at hnil
    | cons hw' h =>
      obtain ⟨rfl, rfl⟩ := List.cons.inj (hw.symm.trans hw')
      obtain ⟨after, rfl, hafter⟩ := ih h
      exact ⟨after, rfl, hafter⟩

theorem solve_eq (h : Runs p s nodes t) (hnil : t.worklist = []) (hs : s.Sound p) :
    solve p none s hs = some t := by
  induction h with
  | nil s => exact solve_nil hs hnil
  | @cons s t n rest nodes hw _ ih =>
    rw [solve_cons hs hw]
    exact ih hnil (hs.visit n rest)

/-- The sets that leave nodes only grow. -/
theorem out_subset (h : Runs p s nodes t) (hs : s.Sound p) (n : Nat) : s.out n ⊆ t.out n := by
  induction h with
  | nil s => exact List.Subset.refl _
  | @cons s t m rest nodes _ _ ih =>
    exact fun f hf => ih (hs.visit m rest) (hs.out_subset_visit m rest n hf)

/-- The visits to other nodes change nothing for a node. -/
theorem sets_of_not_mem (h : Runs p s nodes t) {n : Nat} (hn : n ∉ nodes) :
    t.entering n = s.entering n ∧ t.out n = s.out n := by
  induction h with
  | nil s => exact ⟨rfl, rfl⟩
  | @cons s t m rest nodes _ _ ih =>
    have hnm : n ≠ m := fun h => hn (h ▸ List.mem_cons_self)
    obtain ⟨hin, hout⟩ := ih fun hmem => hn (List.mem_cons_of_mem m hmem)
    exact ⟨hin.trans (entering_visit_of_ne hnm rest), hout.trans (out_visit_of_ne rest hnm)⟩

/-- The visit of a node that is visited once gives it the sets that it ends with. -/
theorem exists_sets_eq_of_nodup {before after : List Nat} {n : Nat}
    (h : Runs p s (before ++ n :: after) t) (hnodup : (before ++ n :: after).Nodup) :
    ∃ u, Runs p s (before ++ [n]) u ∧ u.entering n = t.entering n ∧ u.out n = t.out n := by
  rw [List.append_cons] at h hnodup
  obtain ⟨u, hu, hlater⟩ := h.split
  have hn : n ∉ after := by
    intro hafter
    have hmem : n ∈ before ++ [n] := by simp
    exact (List.nodup_append.mp hnodup).2.2 n hmem n hafter rfl
  obtain ⟨hin, hout⟩ := hlater.sets_of_not_mem hn
  exact ⟨u, hu, hin.symm, hout.symm⟩

end Runs

theorem exists_runs_of_solve {limit : Option Nat} {hs : s.Sound p}
    (h : solve p limit s hs = some t) : ∃ nodes, Runs p s nodes t ∧ t.worklist = [] := by
  induction s, hs using solve.induct p limit with
  | case1 s hs hnil =>
    rw [solve_nil hs hnil] at h
    obtain rfl := Option.some.inj h
    exact ⟨[], .nil s, hnil⟩
  | case2 s hs n rest hw hlimit =>
    rw [solve_cons hs hw, if_pos hlimit] at h
    simp at h
  | case3 s hs n rest hw hlimit ih =>
    rw [solve_cons hs hw, if_neg hlimit] at h
    obtain ⟨nodes, hruns, hnil⟩ := ih h
    exact ⟨n :: nodes, .cons hw hruns, hnil⟩

/-! ## Nodes that wait are visited -/

theorem subset_enqueue (worklist targets : List Nat) : worklist ⊆ enqueue worklist targets :=
  fun _ hm => mem_enqueue.mpr (.inl hm)

theorem subset_worklist_visit (n : Nat) (rest : List Nat) : rest ⊆ (visit p s n rest).worklist := by
  unfold visit
  dsimp only
  split
  · exact subset_enqueue rest _
  · exact List.Subset.refl rest

theorem Runs.mem_of_mem_worklist (h : Runs p s nodes t) (hnil : t.worklist = []) {n : Nat}
    (hn : n ∈ s.worklist) : n ∈ nodes := by
  induction h with
  | nil s => rw [hnil] at hn; exact absurd hn List.not_mem_nil
  | @cons s t m rest nodes hw _ ih =>
    rw [hw] at hn
    rcases List.mem_cons.mp hn with rfl | hn
    · exact List.mem_cons_self
    · exact List.mem_cons_of_mem m (ih hnil (subset_worklist_visit m rest hn))

/-! ## A single pass -/

/-- The targets of each node of a list stand after it in the list. -/
structure Forward (p : Flow) (nodes : List Nat) : Prop where
  closed : ∀ n ∈ nodes, p.targets n ⊆ nodes
  irrefl : ∀ n ∈ nodes, n ∉ p.targets n
  later : nodes.Pairwise fun m n => m ∉ p.targets n

theorem Forward.targets_subset {n : Nat} (h : Forward p (n :: nodes)) : p.targets n ⊆ nodes := by
  intro m hm
  rcases List.mem_cons.mp (h.closed n List.mem_cons_self hm) with rfl | hmem
  · exact absurd hm (h.irrefl m List.mem_cons_self)
  · exact hmem

theorem Forward.tail {n : Nat} (h : Forward p (n :: nodes)) : Forward p nodes := by
  obtain ⟨hn, hlater⟩ := List.pairwise_cons.mp h.later
  refine ⟨?_, fun m hm => h.irrefl m (List.mem_cons_of_mem n hm), hlater⟩
  intro m hm k hk
  rcases List.mem_cons.mp (h.closed m (List.mem_cons_of_mem n hm) hk) with rfl | hmem
  · exact absurd hk (hn m hm)
  · exact hmem

theorem enqueue_of_subset {worklist targets : List Nat} (h : targets ⊆ worklist) :
    enqueue worklist targets = worklist := by
  induction targets with
  | nil => rfl
  | cons n targets ih =>
    obtain ⟨hn, htargets⟩ := List.cons_subset.mp h
    rw [enqueue, if_pos hn]
    exact ih htargets

theorem worklist_visit_of_subset {n : Nat} {rest : List Nat} (h : p.targets n ⊆ rest) :
    (visit p s n rest).worklist = rest := by
  unfold visit
  dsimp only
  split
  · exact enqueue_of_subset h
  · rfl

/-- Nothing is queued again, so the nodes on the worklist are visited in turn. -/
theorem Forward.exists_runs (h : Forward p nodes) (hw : s.worklist = nodes) :
    ∃ t, Runs p s nodes t ∧ t.worklist = [] := by
  induction nodes generalizing s with
  | nil => exact ⟨s, .nil s, hw⟩
  | cons n nodes ih =>
    obtain ⟨t, hruns, hnil⟩ := ih h.tail (worklist_visit_of_subset (s := s) h.targets_subset)
    exact ⟨t, .cons hw hruns, hnil⟩

end Iteration

end MemDep
