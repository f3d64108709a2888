import MemDep.Proofs.Reaching.Paths
import MemDep.Proofs.Reaching.Visits
import Mathlib.Algebra.BigOperators.Ring.Finset
import Mathlib.Algebra.Order.BigOperators.Group.Finset

/-!
# How many visits an iteration takes

A visit is paid for by the place that its node had on the first worklist, or by the change that queued
the node. What leaves a node changes at its first visit, and from then on only by more facts entering
it. These are all facts of nodes that take part, so it changes at most once more than there are such
facts, and each time it queues at most its targets. Each node that takes part is visited, so there are
at least as many visits as such nodes.
-/

namespace MemDep

namespace Iteration

variable {p : Flow} {s t : Iteration} {nodes : Finset Nat}

/-! ## Facts of the nodes that take part -/

/-- Whatever leaves a node was generated by one that takes part. -/
def Confined (p : Flow) (s : Iteration) : Prop :=
  ∀ n, ∀ f ∈ s.out n, p.isReachable f.node = true ∧ f ∈ p.generated f.node

theorem confined_start (p : Flow) : Confined p (start p) := by
  intro n f hf
  simp [out, out?_start] at hf

theorem Confined.visit (h : Confined p s) {n : Nat} (hn : p.isReachable n = true)
    (rest : List Nat) : Confined p (visit p s n rest) := by
  intro m f hf
  unfold out at hf
  rw [out?_visit] at hf
  split at hf
  case isTrue =>
    rcases Flow.mem_transfer.mp hf with ⟨hf, _⟩ | hf
    · obtain ⟨k, _, hf⟩ := Flow.mem_meet.mp hf
      exact h k f hf
    · obtain rfl := (Flow.mem_generated.mp hf).1
      exact ⟨hn, hf⟩
  case isFalse => exact h m f hf

theorem nodup_out (hs : s.Sound p) (n : Nat) : (s.out n).Nodup := by
  refine (hs.out_sorted n).imp ?_
  rintro f _ hlt rfl
  exact StrictLinear.irrefl f hlt

theorem Confined.length_out_le (h : Confined p s) (hs : s.Sound p)
    (hnodes : ∀ n, n ∈ nodes ↔ p.isReachable n = true) (n : Nat) :
    (s.out n).length ≤ ∑ m ∈ nodes, (p.accesses.writes m).length := by
  have hsub : (s.out n).toFinset ⊆ nodes.biUnion fun m => (p.generated m).toFinset := by
    intro f hf
    obtain ⟨hr, hg⟩ := h n f (List.mem_toFinset.mp hf)
    exact Finset.mem_biUnion.mpr ⟨f.node, (hnodes f.node).mpr hr, List.mem_toFinset.mpr hg⟩
  calc (s.out n).length
      = (s.out n).toFinset.card := (List.toFinset_card_of_nodup (nodup_out hs n)).symm
    _ ≤ (nodes.biUnion fun m => (p.generated m).toFinset).card := Finset.card_le_card hsub
    _ ≤ ∑ m ∈ nodes, (p.generated m).toFinset.card := Finset.card_biUnion_le
    _ ≤ ∑ m ∈ nodes, (p.accesses.writes m).length := by
      refine Finset.sum_le_sum fun m _ => ?_
      have hle := List.toFinset_card_le (p.generated m)
      simpa [Flow.generated] using hle

/-! ## Changes -/

/-- A bound on how often what leaves a node has changed. -/
def grown (s : Iteration) (n : Nat) : Nat :=
  match s.out? n with
  | some out => out.length + 1
  | none => 0

theorem grown_le (s : Iteration) (n : Nat) : s.grown n ≤ (s.out n).length + 1 := by
  unfold grown out
  cases s.out? n <;> simp

theorem grown_visit_of_ne {m n : Nat} (hmn : m ≠ n) (rest : List Nat) :
    (visit p s n rest).grown m = s.grown m := by
  unfold grown
  rw [out?_visit_of_ne hmn]

/-- A change adds a fact, or is the first one. -/
theorem Sound.grown_lt_visit (hs : s.Sound p) {n : Nat} (hn : n < s.outs.size)
    (hout : s.out? n ≠ some (p.transfer n (p.meet s.out n))) (rest : List Nat) :
    s.grown n + 1 ≤ (Iteration.visit p s n rest).grown n := by
  have hafter : (Iteration.visit p s n rest).grown n =
      (p.transfer n (p.meet s.out n)).length + 1 := by
    unfold grown
    rw [out?_visit_self hn]
  rw [hafter]
  unfold grown
  cases hbefore : s.out? n with
  | none => exact Nat.succ_le_succ (Nat.zero_le _)
  | some out =>
    have hsub := hs.grows hbefore
    have hnodup : out.Nodup := by
      have h := nodup_out hs n
      unfold Iteration.out at h
      rwa [hbefore] at h
    have hsubperm := List.subperm_of_subset hnodup hsub
    have hne : out.length ≠ (p.transfer n (p.meet s.out n)).length := by
      intro hlen
      have hperm := hsubperm.perm_of_length_le (Nat.le_of_eq hlen.symm)
      refine hout (hbefore.trans (congrArg some ?_))
      exact Ascending.eq_of_mem_iff (hs.sorted hbefore)
        (Flow.sorted_transfer (Flow.sorted_meet hs.out_sorted n)) fun f => hperm.mem_iff
    have hle := hsubperm.length_le
    dsimp only
    omega

/-! ## The account -/

/-- The visits so far and those that are queued are paid for. -/
def Paid (p : Flow) (nodes : Finset Nat) (s : Iteration) : Prop :=
  s.visits + s.worklist.length ≤ nodes.card + ∑ n ∈ nodes, s.grown n * (p.targets n).length

theorem Paid.visit (h : Paid p nodes s) (hs : s.Sound p) {n : Nat} {rest : List Nat}
    (hw : s.worklist = n :: rest) (hn : n ∈ nodes) (hlt : n < s.outs.size) :
    Paid p nodes (visit p s n rest) := by
  have hsum : ∀ t : Iteration, ∑ m ∈ nodes, t.grown m * (p.targets m).length =
      t.grown n * (p.targets n).length + ∑ m ∈ nodes.erase n, t.grown m * (p.targets m).length :=
    fun t => (Finset.add_sum_erase nodes _ hn).symm
  have hsame : ∑ m ∈ nodes.erase n, (Iteration.visit p s n rest).grown m * (p.targets m).length =
      ∑ m ∈ nodes.erase n, s.grown m * (p.targets m).length := by
    refine Finset.sum_congr rfl fun m hm => ?_
    rw [grown_visit_of_ne (Finset.ne_of_mem_erase hm)]
  unfold Paid at h ⊢
  rw [hsum, hw, List.length_cons] at h
  rw [hsum, hsame, visits_visit]
  by_cases hout : s.out? n = some (p.transfer n (p.meet s.out n))
  · have hwl : (Iteration.visit p s n rest).worklist = rest := by simp [Iteration.visit, hout]
    have hgrown : (Iteration.visit p s n rest).grown n = s.grown n := by
      unfold grown
      rw [out?_visit_self hlt, hout]
    rw [hwl, hgrown]
    omega
  · have hwl : (Iteration.visit p s n rest).worklist = enqueue rest (p.targets n) := by
      simp [Iteration.visit, hlt, hout]
    have hlen := length_enqueue_le rest (p.targets n)
    have hgrown := Nat.mul_le_mul_right (p.targets n).length (hs.grown_lt_visit hlt hout rest)
    rw [Nat.add_mul, Nat.one_mul] at hgrown
    rw [hwl]
    omega

/-! ## The whole iteration -/

theorem card_eq_length_worklist (hp : Scheduled p)
    (hnodes : ∀ n, n ∈ nodes ↔ p.isReachable n = true) :
    nodes.card = (start p).worklist.length := by
  have heq : nodes = p.graph.reversePostorder.toFinset := by
    ext n
    rw [hnodes, List.mem_toFinset, hp.order]
  rw [heq, List.toFinset_card_of_nodup p.graph.nodup_reversePostorder]
  rfl

/-- Each node that takes part is visited. -/
theorem Runs.card_le_visits (hp : Scheduled p) (hnodes : ∀ n, n ∈ nodes ↔ p.isReachable n = true)
    {visited : List Nat} (h : Runs p (start p) visited t) (hnil : t.worklist = []) :
    nodes.card ≤ t.visits := by
  have hsub : (start p).worklist ⊆ visited := fun n hn => h.mem_of_mem_worklist hnil hn
  have hle := (List.subperm_of_subset p.graph.nodup_reversePostorder hsub).length_le
  have hvisits : t.visits = (start p).visits + visited.length := h.visits_eq
  rw [card_eq_length_worklist hp hnodes, hvisits]
  exact Nat.le_add_left_of_le hle

theorem Runs.paid (hp : Scheduled p) (hnodes : ∀ n, n ∈ nodes ↔ p.isReachable n = true)
    {visited : List Nat} (h : Runs p (start p) visited t) :
    t.Sound p ∧ Confined p t ∧ Paid p nodes t := by
  have hstep : ∀ s n rest, s.worklist = n :: rest →
      s.Sound p ∧ s.Steady p ∧ Confined p s ∧ Paid p nodes s →
      (visit p s n rest).Sound p ∧ (visit p s n rest).Steady p ∧
        Confined p (visit p s n rest) ∧ Paid p nodes (visit p s n rest) := by
    intro s n rest hw hs
    obtain ⟨hsound, hsteady, hconfined, hpaid⟩ := hs
    have hn : p.isReachable n = true := hsteady.reachable n (by simp [hw])
    have hlt : n < s.outs.size := by
      rw [hsteady.size_outs]
      exact hp.lt n hn
    exact ⟨hsound.visit n rest, hsteady.visit hp hsound hw, hconfined.visit hn rest,
      hpaid.visit hsound hw ((hnodes n).mpr hn) hlt⟩
  have hpaid : Paid p nodes (start p) := by
    unfold Paid
    rw [card_eq_length_worklist hp hnodes]
    show 0 + (start p).worklist.length ≤ _
    omega
  obtain ⟨hsound, _, hconfined, hpaid⟩ :=
    h.keeps hstep ⟨sound_start p, steady_start hp, confined_start p, hpaid⟩
  exact ⟨hsound, hconfined, hpaid⟩

/-- No more visits are made than are paid for. -/
theorem Runs.visits_le (hp : Scheduled p) (hnodes : ∀ n, n ∈ nodes ↔ p.isReachable n = true)
    {visited : List Nat} (h : Runs p (start p) visited t) :
    t.visits ≤ nodes.card + (∑ n ∈ nodes, (p.graph.successors n).length) *
      ((∑ n ∈ nodes, (p.accesses.writes n).length) + 1) := by
  obtain ⟨hsound, hconfined, hpaid⟩ := h.paid hp hnodes
  have hchanges : ∀ n, t.grown n ≤ (∑ n ∈ nodes, (p.accesses.writes n).length) + 1 := by
    intro n
    have hgrown := t.grown_le n
    have hlen := hconfined.length_out_le hsound hnodes n
    omega
  have hsum : ∑ n ∈ nodes, t.grown n * (p.targets n).length ≤
      (∑ n ∈ nodes, (p.graph.successors n).length) *
        ((∑ n ∈ nodes, (p.accesses.writes n).length) + 1) := by
    rw [Finset.sum_mul]
    refine Finset.sum_le_sum fun n _ => ?_
    have htargets : (p.targets n).length ≤ (p.graph.successors n).length :=
      List.length_filter_le _ _
    rw [Nat.mul_comm]
    exact Nat.mul_le_mul htargets (hchanges n)
  unfold Paid at hpaid
  omega

end Iteration

end MemDep
