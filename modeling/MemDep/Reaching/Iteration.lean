import MemDep.Counting
import MemDep.Reaching.Flow

/-!
# Solving the equations by iteration

A worklist of nodes, first in, first out, starts as the reachable nodes in reverse postorder. A
visit takes the first node, recomputes what enters it and what leaves it, and if the latter is new,
queues the nodes it goes to, unless they are queued already. The first visit of a node counts as
new, so that every reachable node is visited.

Sets are replaced by each visit, not enlarged. That they grow all the same is the invariant
`Iteration.Sound`: every set is contained in what the equations say about the other sets. Hence a
set changes only by growing, and `Iteration.work` bounds the number of visits to come: it counts,
for each node, the changes that are left to it as often as the node has targets, and one for each
node on the worklist.
-/

namespace MemDep

/-- A state of the iteration. -/
structure Iteration where
  /-- What entered each node at its last visit. -/
  ins : Array (List Fact)
  /-- What left each node at its last visit; nothing yet, if the node was not visited. -/
  outs : Array (Option (List Fact))
  /-- The nodes to visit. -/
  worklist : List Nat
  /-- How many visits there were. -/
  visits : Nat

namespace Iteration

/-- Before the first visit. -/
def start (p : Flow) : Iteration where
  ins := Array.replicate p.graph.size []
  outs := Array.replicate p.graph.size none
  worklist := p.graph.reversePostorder
  visits := 0

/-- What left a node at its last visit. -/
def out? (s : Iteration) (n : Nat) : Option (List Fact) := s.outs[n]?.join

/-- What leaves a node as far as is known. -/
def out (s : Iteration) (n : Nat) : List Fact := (s.out? n).getD []

/-- Adds nodes at the end of a worklist, except those that are on it. -/
def enqueue : (worklist targets : List Nat) → List Nat
  | worklist, [] => worklist
  | worklist, n :: targets =>
    enqueue (if n ∈ worklist then worklist else worklist ++ [n]) targets

/-- Visits node `n`, which was taken off the worklist `rest`. -/
def visit (p : Flow) (s : Iteration) (n : Nat) (rest : List Nat) : Iteration :=
  let incoming := p.meet s.out n
  let outgoing := p.transfer n incoming
  let ins := s.ins.setIfInBounds n incoming
  if n < s.outs.size ∧ s.out? n ≠ some outgoing then
    { ins := ins
      outs := s.outs.setIfInBounds n (some outgoing)
      worklist := enqueue rest (p.targets n)
      visits := s.visits + 1 }
  else
    { s with ins := ins, worklist := rest, visits := s.visits + 1 }

/-! ## The invariant -/

/-- What every state of the iteration satisfies. -/
structure Sound (p : Flow) (s : Iteration) : Prop where
  /-- No set is ahead of what the equations say about the others. -/
  grows : ∀ {n : Nat} {out : List Fact}, s.out? n = some out → out ⊆ p.transfer n (p.meet s.out n)
  /-- All facts are facts of the graph. -/
  known : ∀ {n : Nat} {out : List Fact}, s.out? n = some out → out ⊆ p.facts
  /-- Sets are ascending. -/
  sorted : ∀ {n : Nat} {out : List Fact}, s.out? n = some out → Ascending.Sorted out

theorem out?_start (p : Flow) (n : Nat) : (start p).out? n = none := by
  simp only [out?, start]
  by_cases h : n < p.graph.size <;> simp [h]

theorem sound_start (p : Flow) : Sound p (start p) := by
  constructor <;> intro n out h <;> simp [out?_start] at h

theorem out?_visit {p : Flow} {s : Iteration} {n : Nat} {rest : List Nat} (m : Nat) :
    (visit p s n rest).out? m =
      if m = n ∧ n < s.outs.size then some (p.transfer n (p.meet s.out n)) else s.out? m := by
  unfold visit
  by_cases hn : n < s.outs.size
  · by_cases hout : s.out? n = some (p.transfer n (p.meet s.out n))
    · simp only [hn, hout, ne_eq, not_true, and_false, if_false]
      split
      next h => rw [h.1]; exact hout
      next => rfl
    · simp only [hn, hout, ne_eq, not_false_eq_true, and_true, if_true]
      by_cases hm : m = n
      · subst hm
        simp [out?, hn]
      · simp [out?, hm, Array.getElem?_setIfInBounds_ne (Ne.symm hm)]
  · simp only [hn, false_and, and_false, if_false]
    rfl

theorem Sound.out_subset {p : Flow} {s : Iteration} (h : s.Sound p) (n : Nat) :
    s.out n ⊆ p.transfer n (p.meet s.out n) := by
  unfold out
  cases hn : s.out? n with
  | none => exact List.nil_subset _
  | some out => exact h.grows hn

theorem Sound.out_known {p : Flow} {s : Iteration} (h : s.Sound p) (n : Nat) :
    s.out n ⊆ p.facts := by
  unfold out
  cases hn : s.out? n with
  | none => exact List.nil_subset _
  | some out => exact h.known hn

theorem Sound.out_sorted {p : Flow} {s : Iteration} (h : s.Sound p) (n : Nat) :
    Ascending.Sorted (s.out n) := by
  unfold out
  cases hn : s.out? n with
  | none => exact List.Pairwise.nil
  | some out => exact h.sorted hn

theorem Sound.meet_known {p : Flow} {s : Iteration} (h : s.Sound p) (n : Nat) :
    p.meet s.out n ⊆ p.facts := by
  intro f hf
  obtain ⟨m, _, hf⟩ := Flow.mem_meet.1 hf
  exact h.out_known m hf

/-- A visit only adds facts. -/
theorem Sound.out_subset_visit {p : Flow} {s : Iteration} (h : s.Sound p) (n : Nat)
    (rest : List Nat) (m : Nat) : s.out m ⊆ (visit p s n rest).out m := by
  rw [out.eq_def (visit p s n rest), out?_visit]
  split
  next hm => rw [hm.1]; exact h.out_subset n
  next => exact List.Subset.refl _

theorem Sound.visit {p : Flow} {s : Iteration} (h : s.Sound p) (n : Nat) (rest : List Nat) :
    (visit p s n rest).Sound p := by
  constructor
  · intro m out hm
    have hmono : p.transfer m (p.meet s.out m) ⊆
        p.transfer m (p.meet (Iteration.visit p s n rest).out m) :=
      Flow.transfer_mono (Flow.meet_mono (fun k => h.out_subset_visit n rest k) m)
    rw [out?_visit] at hm
    split at hm
    next he =>
      cases hm
      rw [he.1] at hmono
      rw [he.1]
      exact hmono
    next => exact fun f hf => hmono (h.grows hm hf)
  · intro m out hm
    rw [out?_visit] at hm
    split at hm
    next => cases hm; exact Flow.transfer_subset_facts (h.meet_known n)
    next => exact h.known hm
  · intro m out hm
    rw [out?_visit] at hm
    split at hm
    next => cases hm; exact Flow.sorted_transfer (Flow.sorted_meet h.out_sorted n)
    next => exact h.sorted hm

/-! ## The work left -/

/-- How often the set that leaves a node can still change. -/
def changesLeft (p : Flow) (s : Iteration) (n : Nat) : Nat :=
  match s.out? n with
  | some out => p.facts.countP (· ∉ out)
  | none => p.facts.length + 1

/-- A bound on the visits to come. -/
def work (p : Flow) (s : Iteration) : Nat :=
  sumBelow (fun n => s.changesLeft p n * (p.targets n).length) s.outs.size + s.worklist.length

theorem length_enqueue_le (worklist targets : List Nat) :
    (enqueue worklist targets).length ≤ worklist.length + targets.length := by
  induction targets generalizing worklist with
  | nil => exact Nat.le_refl _
  | cons n targets ih =>
    have := ih (if n ∈ worklist then worklist else worklist ++ [n])
    have : (if n ∈ worklist then worklist else worklist ++ [n]).length ≤ worklist.length + 1 := by
      split <;> simp
    simp only [enqueue, List.length_cons]
    omega

theorem Sound.changesLeft_visit_le {p : Flow} {s : Iteration} (h : s.Sound p) (n : Nat)
    (rest : List Nat) (m : Nat) : (Iteration.visit p s n rest).changesLeft p m ≤ s.changesLeft p m := by
  have hsub := h.out_subset_visit n rest m
  unfold out at hsub
  unfold changesLeft
  rw [out?_visit] at *
  split at hsub <;> rename_i he
  · simp only [he, and_self, if_true, Option.getD_some] at hsub ⊢
    cases hs : s.out? n with
    | none => exact Nat.le_succ_of_le List.countP_le_length
    | some out =>
      simp only [hs, Option.getD_some] at hsub ⊢
      exact List.countP_mono_left fun f _ hf => by
        simp only [decide_eq_true_eq] at hf ⊢
        exact fun hmem => hf (hsub hmem)
  · simp only [he, if_false]
    exact Nat.le_refl _

/-- A visit that changes what leaves the node uses up a change. -/
theorem Sound.changesLeft_visit_lt {p : Flow} {s : Iteration} (h : s.Sound p) {n : Nat}
    (rest : List Nat) (hn : n < s.outs.size)
    (hout : s.out? n ≠ some (p.transfer n (p.meet s.out n))) :
    (Iteration.visit p s n rest).changesLeft p n < s.changesLeft p n := by
  unfold changesLeft
  rw [out?_visit]
  simp only [hn, and_self, if_true]
  cases hs : s.out? n with
  | none => exact Nat.lt_succ_of_le List.countP_le_length
  | some out =>
    have hsub := h.grows hs
    have hne : ¬ ∀ f ∈ p.transfer n (p.meet s.out n), f ∈ out := by
      intro hall
      refine hout (hs.trans (congrArg some ?_))
      exact Ascending.eq_of_mem_iff (h.sorted hs)
        (Flow.sorted_transfer (Flow.sorted_meet h.out_sorted n)) fun f => ⟨@hsub f, hall f⟩
    simp only [Classical.not_forall] at hne
    obtain ⟨f, hf, hnot⟩ := hne
    refine countP_lt (fun g hg => ?_) (Flow.transfer_subset_facts (h.meet_known n) hf) (x := f)
      (by simpa using hnot) (by simpa using hf)
    simp only [decide_eq_true_eq] at hg ⊢
    exact fun hmem => hg (hsub hmem)

/-- Every visit uses up work. -/
theorem Sound.work_visit_lt {p : Flow} {s : Iteration} (h : s.Sound p) {n : Nat} {rest : List Nat}
    (hw : s.worklist = n :: rest) : (Iteration.visit p s n rest).work p < s.work p := by
  have hle := fun m => Nat.mul_le_mul_right (p.targets m).length (h.changesLeft_visit_le n rest m)
  have hsize : (Iteration.visit p s n rest).outs.size = s.outs.size := by
    simp only [Iteration.visit]
    split <;> simp
  unfold work
  rw [hsize, hw]
  by_cases hc : n < s.outs.size ∧ s.out? n ≠ some (p.transfer n (p.meet s.out n))
  · have hlt := h.changesLeft_visit_lt rest hc.1 hc.2
    have hdrop := Nat.mul_le_mul_right (p.targets n).length hlt
    rw [Nat.succ_mul] at hdrop
    have hsum := sumBelow_add_le hle hc.1 hdrop
    have hlen := length_enqueue_le rest (p.targets n)
    have hwork : (Iteration.visit p s n rest).worklist = enqueue rest (p.targets n) := by
      simp [Iteration.visit, hc]
    rw [hwork, List.length_cons]
    omega
  · have hsum := sumBelow_mono hle s.outs.size
    have hwork : (Iteration.visit p s n rest).worklist = rest := by
      simp only [Iteration.visit, hc, if_false]
    rw [hwork, List.length_cons]
    omega

/-! ## Iteration to the end -/

/-- Visits nodes until the worklist is empty; nothing, if that takes more visits than a limit
allows. -/
def solve (p : Flow) (limit : Option Nat) (s : Iteration) (h : s.Sound p) : Option Iteration :=
  match _hw : s.worklist with
  | [] => some s
  | n :: rest =>
    if limit.any (· ≤ s.visits) then none else solve p limit (visit p s n rest) (h.visit n rest)
termination_by s.work p
decreasing_by exact h.work_visit_lt _hw

end Iteration

end MemDep
