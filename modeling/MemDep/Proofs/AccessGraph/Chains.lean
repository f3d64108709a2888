import MemDep.AccessGraph.Blocks
import MemDep.Proofs.AccessGraph.Walks
import Mathlib.Data.Fintype.EquivFin
import Mathlib.Data.List.Chain

/-!
# Chains of nodes

A node continues the chain of at most one node, so two chains that start at leaders share no node
and no chain comes back to itself. Hence a chain ends where nothing continues it, and never because
it was cut off. This holds of every graph, malformed ones included, and whatever marks the chain rule
goes by.

Continuations may form a cycle that no leader starts, and the nodes of such a cycle are in no chain.
Control cannot leave the cycle, so every node before a node of a chain is in a chain. Without
asymmetric edges control cannot enter such a cycle either, and all reachable nodes are in chains.
-/

namespace MemDep

/-! ## Lists along an injective relation -/

theorem rel_of_isChain {α : Type} {R : α → α → Prop} {l : List α} (h : l.IsChain R) {i : Nat}
    {a b : α} (ha : l[i]? = some a) (hb : l[i + 1]? = some b) : R a b := by
  obtain ⟨hi, rfl⟩ := List.getElem?_eq_some_iff.mp hb
  obtain ⟨_, rfl⟩ := List.getElem?_eq_some_iff.mp ha
  exact List.isChain_iff_getElem.mp h i hi

/-- Two lists along a relation that comes from one place only, and that start where it comes from
none, meet only at the same position and after the same start. -/
theorem eq_of_isChain {α : Type} {R : α → α → Prop} {k l : List α} (hk : k.IsChain R)
    (hl : l.IsChain R) (hinj : ∀ a b c, R a c → R b c → a = b)
    (hk0 : ∀ a b, k[0]? = some a → ¬ R b a) (hl0 : ∀ a b, l[0]? = some a → ¬ R b a)
    {i j : Nat} {x : α} (hi : k[i]? = some x) (hj : l[j]? = some x) :
    i = j ∧ k[0]? = l[0]? := by
  induction i generalizing j x with
  | zero =>
    cases j with
    | zero => exact ⟨rfl, hi.trans hj.symm⟩
    | succ j =>
      have hlt : j < l.length := by
        have := (List.getElem?_eq_some_iff.mp hj).1
        omega
      exact absurd (rel_of_isChain hl (List.getElem?_eq_getElem hlt) hj) (hk0 x _ hi)
  | succ i ih =>
    have hki : i < k.length := by
      have := (List.getElem?_eq_some_iff.mp hi).1
      omega
    have hkr := rel_of_isChain hk (List.getElem?_eq_getElem hki) hi
    cases j with
    | zero => exact absurd hkr (hl0 x _ hj)
    | succ j =>
      have hlj : j < l.length := by
        have := (List.getElem?_eq_some_iff.mp hj).1
        omega
      have hlr := rel_of_isChain hl (List.getElem?_eq_getElem hlj) hj
      have heq : l[j]? = some k[i] := by
        rw [List.getElem?_eq_getElem hlj, hinj _ _ _ hkr hlr]
      obtain ⟨hij, h0⟩ := ih (List.getElem?_eq_getElem hki) heq
      exact ⟨by omega, h0⟩

namespace AccessGraph

open Relation

variable {g : AccessGraph}

/-! ## Continuations -/

/-- The chain of a node continues with another one. -/
def Continues (g : AccessGraph) (a b : Nat) : Prop := g.continuation? g.reachable a = some b

section Marks

variable {marks : Array Bool}

theorem continuation?_eq_some {a b : Nat} :
    g.continuation? marks a = some b ↔ g.successors a = [b] ∧ g.root ≠ some b ∧ b ≠ a ∧
      g.reachablePredecessors marks b = [a] := by
  unfold continuation?
  split
  case h_1 s hs =>
    rw [hs]
    split
    case isTrue h =>
      simp only [Option.some.injEq, List.cons.injEq, and_true]
      constructor
      · rintro rfl
        exact ⟨rfl, h⟩
      · intro h
        exact h.1
    case isFalse h =>
      simp only [reduceCtorEq, List.cons.injEq, and_true, false_iff]
      rintro ⟨rfl, h'⟩
      exact h h'
  case h_2 hne =>
    simp only [reduceCtorEq, false_iff]
    rintro ⟨hs, _⟩
    exact hne b hs

theorem continuation?_unique {a b c : Nat} (ha : g.continuation? marks a = some c)
    (hb : g.continuation? marks b = some c) : a = b := by
  have h := (continuation?_eq_some.mp ha).2.2.2.symm.trans (continuation?_eq_some.mp hb).2.2.2
  simpa using h

theorem mem_predecessors_of_continuation? {a b : Nat} (h : g.continuation? marks a = some b) :
    a ∈ g.predecessors b ∧ marks[a]? = some true := by
  have hmem : a ∈ g.reachablePredecessors marks b := by
    rw [(continuation?_eq_some.mp h).2.2.2]
    exact List.mem_singleton_self a
  simpa [reachablePredecessors] using hmem

theorem mem_successors_of_continuation? {a b : Nat} (h : g.continuation? marks a = some b) :
    b ∈ g.successors a := by
  rw [(continuation?_eq_some.mp h).1]
  exact List.mem_singleton_self b

/-- What continues a chain lists a predecessor, so it is a node. -/
theorem lt_of_continuation? {a b : Nat} (h : g.continuation? marks a = some b) : b < g.size :=
  lt_of_mem_predecessors (mem_predecessors_of_continuation? h).1

/-- The chain of a node that the root leads to continues with another one, going by some marks. -/
def ContinuesIn (g : AccessGraph) (marks : Array Bool) (a b : Nat) : Prop :=
  g.Reached a ∧ g.continuation? marks a = some b

theorem ContinuesIn.reached {a b : Nat} (h : g.ContinuesIn marks a b) : g.Reached b :=
  h.1.successor (mem_successors_of_continuation? h.2) (lt_of_continuation? h.2)

theorem ContinuesIn.unique {a b c : Nat} (ha : g.ContinuesIn marks a c)
    (hb : g.ContinuesIn marks b c) : a = b :=
  continuation?_unique ha.2 hb.2

theorem mem_leaders {n : Nat} :
    n ∈ g.leaders marks ↔ g.Reached n ∧ ∀ a, ¬ g.ContinuesIn marks a n := by
  simp only [leaders, ContinuesIn, List.mem_filter, decide_eq_true_eq, List.mem_filterMap,
    not_exists, not_and, mem_reversePostorder]

theorem nodup_leaders (g : AccessGraph) (marks : Array Bool) : (g.leaders marks).Nodup :=
  (nodup_reversePostorder g).filter _

/-! ## The chain of a leader -/

theorem chainFrom_succ {k a b : Nat} (h : g.continuation? marks a = some b) :
    g.chainFrom marks (k + 1) a = a :: g.chainFrom marks k b := by
  simp [chainFrom, h]

theorem chainFrom_of_none {k a : Nat} (h : g.continuation? marks a = none) :
    g.chainFrom marks k a = [a] := by
  cases k <;> simp [chainFrom, h]

theorem getElem?_zero_chainFrom (k a : Nat) : (g.chainFrom marks k a)[0]? = some a := by
  cases k <;> simp [chainFrom]

theorem isChain_chainFrom {a : Nat} (k : Nat) (ha : g.Reached a) :
    (g.chainFrom marks k a).IsChain (g.ContinuesIn marks) := by
  induction k generalizing a with
  | zero => simp [chainFrom]
  | succ k ih =>
    cases h : g.continuation? marks a with
    | some b =>
      have hab : g.ContinuesIn marks a b := ⟨ha, h⟩
      rw [chainFrom_succ h, List.isChain_cons]
      refine ⟨?_, ih hab.reached⟩
      intro c hc
      rw [Option.mem_def, List.head?_eq_getElem?, getElem?_zero_chainFrom] at hc
      rwa [← Option.some.inj hc]
    | none =>
      rw [chainFrom_of_none h]
      exact List.isChain_singleton a

theorem reached_of_mem_chainFrom {k a n : Nat} (ha : g.Reached a)
    (hn : n ∈ g.chainFrom marks k a) : g.Reached n := by
  induction k generalizing a with
  | zero => rwa [List.mem_singleton.mp hn]
  | succ k ih =>
    cases h : g.continuation? marks a with
    | some b =>
      rw [chainFrom_succ h] at hn
      rcases List.mem_cons.mp hn with rfl | hn
      · exact ha
      · exact ih (ContinuesIn.reached ⟨ha, h⟩) hn
    | none =>
      rw [chainFrom_of_none h] at hn
      rwa [List.mem_singleton.mp hn]

/-- A chain that ends although something continues it was cut off. -/
theorem length_chainFrom_of_continuation? {k a n b : Nat}
    (hn : (g.chainFrom marks k a).getLast? = some n) (hb : g.continuation? marks n = some b) :
    (g.chainFrom marks k a).length = k + 1 := by
  induction k generalizing a with
  | zero => simp [chainFrom]
  | succ k ih =>
    cases h : g.continuation? marks a with
    | some c =>
      rw [chainFrom_succ h] at hn ⊢
      have hne : g.chainFrom marks k c ≠ [] := by cases k <;> simp [chainFrom]
      rw [List.getLast?_cons_of_ne_nil hne] at hn
      simp [ih hn]
    | none =>
      rw [chainFrom_of_none h] at hn
      obtain rfl : a = n := by simpa using hn
      rw [h] at hb
      exact absurd hb (by simp)

theorem not_continuesIn_leader {k a n m : Nat} (ha : a ∈ g.leaders marks)
    (hn : (g.chainFrom marks k a)[0]? = some n) : ¬ g.ContinuesIn marks m n := by
  rw [getElem?_zero_chainFrom] at hn
  obtain rfl : a = n := Option.some.inj hn
  exact (mem_leaders.mp ha).2 m

/-- The chains of two leaders meet only if they are the same, and then only at the same position. -/
theorem eq_of_chainFrom {k a b i j n : Nat} (ha : a ∈ g.leaders marks) (hb : b ∈ g.leaders marks)
    (hi : (g.chainFrom marks k a)[i]? = some n) (hj : (g.chainFrom marks k b)[j]? = some n) :
    a = b ∧ i = j := by
  obtain ⟨hij, h0⟩ := eq_of_isChain (isChain_chainFrom k (mem_leaders.mp ha).1)
    (isChain_chainFrom k (mem_leaders.mp hb).1) (fun _ _ _ => ContinuesIn.unique)
    (fun _ _ => not_continuesIn_leader ha) (fun _ _ => not_continuesIn_leader hb) hi hj
  rw [getElem?_zero_chainFrom, getElem?_zero_chainFrom] at h0
  exact ⟨Option.some.inj h0, hij⟩

theorem nodup_chainFrom {k a : Nat} (ha : a ∈ g.leaders marks) :
    (g.chainFrom marks k a).Nodup := by
  rw [List.Nodup, List.pairwise_iff_getElem]
  intro i j hi hj hij heq
  have hmeet := eq_of_chainFrom ha ha (List.getElem?_eq_getElem hi)
    (heq ▸ List.getElem?_eq_getElem hj)
  omega

theorem length_chainFrom_le {k a : Nat} (ha : a ∈ g.leaders marks) :
    (g.chainFrom marks k a).length ≤ g.size := by
  have hsub : g.chainFrom marks k a ⊆ List.range g.size := by
    intro n hn
    exact List.mem_range.mpr (reached_of_mem_chainFrom (mem_leaders.mp ha).1 hn).lt
  have hle := (List.subperm_of_subset (nodup_chainFrom ha) hsub).length_le
  rwa [List.length_range] at hle

/-- The chain of a leader is not cut off. -/
theorem continuation?_getLast_chainFrom {a n : Nat} (ha : a ∈ g.leaders marks)
    (hn : (g.chainFrom marks g.size a).getLast? = some n) : g.continuation? marks n = none := by
  rw [Option.eq_none_iff_forall_ne_some]
  intro b hb
  have hlen := length_chainFrom_of_continuation? hn hb
  have hle := length_chainFrom_le (k := g.size) ha
  omega

/-- The chain of a leader holds the continuations of its nodes. -/
theorem getElem?_succ_chainFrom {a n b i : Nat} (ha : a ∈ g.leaders marks)
    (hn : (g.chainFrom marks g.size a)[i]? = some n) (hb : g.continuation? marks n = some b) :
    (g.chainFrom marks g.size a)[i + 1]? = some b := by
  have hi := (List.getElem?_eq_some_iff.mp hn).1
  by_cases hlast : i + 1 < (g.chainFrom marks g.size a).length
  · have hnext := List.getElem?_eq_getElem hlast
    have hc := rel_of_isChain (isChain_chainFrom g.size (mem_leaders.mp ha).1) hn hnext
    rw [hnext]
    exact hc.2.symm.trans hb
  · have hend : (g.chainFrom marks g.size a).getLast? = some n := by
      rw [List.getLast?_eq_getElem?, ← hn]
      congr 1
      omega
    rw [continuation?_getLast_chainFrom ha hend] at hb
    exact absurd hb (by simp)

/-! ## The chains of all leaders -/

/-- The chains of the leaders, going by some marks. -/
def chainsIn (g : AccessGraph) (marks : Array Bool) : List (List Nat) :=
  (g.leaders marks).map (g.chainFrom marks g.size)

theorem getElem?_chainsIn {p : Nat} {c : List Nat} :
    (g.chainsIn marks)[p]? = some c ↔
      ∃ a, (g.leaders marks)[p]? = some a ∧ g.chainFrom marks g.size a = c := by
  simp [chainsIn, List.getElem?_map, Option.map_eq_some_iff]

theorem chainsIn_unique {p q i j n : Nat} {k l : List Nat} (hp : (g.chainsIn marks)[p]? = some k)
    (hq : (g.chainsIn marks)[q]? = some l) (hi : k[i]? = some n) (hj : l[j]? = some n) :
    p = q ∧ i = j := by
  obtain ⟨a, hpa, rfl⟩ := getElem?_chainsIn.mp hp
  obtain ⟨b, hqb, rfl⟩ := getElem?_chainsIn.mp hq
  obtain ⟨rfl, hij⟩ :=
    eq_of_chainFrom (List.mem_of_getElem? hpa) (List.mem_of_getElem? hqb) hi hj
  have hplt := (List.getElem?_eq_some_iff.mp hpa).1
  exact ⟨(List.getElem?_inj hplt (nodup_leaders g marks)).mp (hpa.trans hqb.symm), hij⟩

end Marks

/-! ## Going by the nodes that the root leads to -/

theorem mem_reachablePredecessors {a b : Nat} :
    a ∈ g.reachablePredecessors g.reachable b ↔ a ∈ g.predecessors b ∧ g.Reached a := by
  simp [reachablePredecessors, Reached, Digraph.Marked]

theorem continues_iff {a b : Nat} :
    g.Continues a b ↔ g.successors a = [b] ∧ g.root ≠ some b ∧ b ≠ a ∧
      g.reachablePredecessors g.reachable b = [a] :=
  continuation?_eq_some

theorem Continues.continuesIn {a b : Nat} (h : g.Continues a b) : g.ContinuesIn g.reachable a b :=
  ⟨(mem_predecessors_of_continuation? h).2, h⟩

theorem mem_leaders_reachable {n : Nat} :
    n ∈ g.leaders g.reachable ↔ g.Reached n ∧ ∀ a, ¬ g.Continues a n := by
  rw [mem_leaders]
  refine and_congr_right fun _ => forall_congr' fun a => not_congr ?_
  exact ⟨And.right, Continues.continuesIn⟩

theorem getElem?_chains {p : Nat} {c : List Nat} :
    g.chains[p]? = some c ↔
      ∃ a, (g.leaders g.reachable)[p]? = some a ∧ g.chainFrom g.reachable g.size a = c :=
  getElem?_chainsIn

theorem chains_unique {p q i j n : Nat} {k l : List Nat} (hp : g.chains[p]? = some k)
    (hq : g.chains[q]? = some l) (hi : k[i]? = some n) (hj : l[j]? = some n) : p = q ∧ i = j :=
  chainsIn_unique hp hq hi hj

/-- A node is in a chain. -/
def Placed (g : AccessGraph) (n : Nat) : Prop := ∃ c ∈ g.chains, n ∈ c

theorem mem_chains {c : List Nat} :
    c ∈ g.chains ↔ ∃ a ∈ g.leaders g.reachable, g.chainFrom g.reachable g.size a = c := by
  simp [chains]

/-- No chain is cut off. -/
theorem continuation?_of_getLast? {c : List Nat} (hc : c ∈ g.chains) {n : Nat}
    (hn : c.getLast? = some n) : g.continuation? g.reachable n = none := by
  obtain ⟨a, ha, rfl⟩ := mem_chains.mp hc
  exact continuation?_getLast_chainFrom ha hn

theorem Placed.reached {n : Nat} (h : g.Placed n) : g.Reached n := by
  obtain ⟨c, hc, hn⟩ := h
  obtain ⟨a, ha, rfl⟩ := mem_chains.mp hc
  exact reached_of_mem_chainFrom (mem_leaders.mp ha).1 hn

theorem placed_of_leader {n : Nat} (h : n ∈ g.leaders g.reachable) : g.Placed n := by
  refine ⟨_, mem_chains.mpr ⟨n, h, rfl⟩, ?_⟩
  exact List.mem_of_getElem? (getElem?_zero_chainFrom g.size n)

theorem placed_root {r : Nat} (hr : g.root = some r) (hlt : r < g.size) : g.Placed r :=
  placed_of_leader (mem_leaders_reachable.mpr
    ⟨reached_root hr hlt, fun _ h => (continues_iff.mp h).2.1 hr⟩)

theorem Continues.placed {a b : Nat} (h : g.Continues a b) (ha : g.Placed a) : g.Placed b := by
  obtain ⟨c, hc, hmem⟩ := ha
  obtain ⟨l, hl, rfl⟩ := mem_chains.mp hc
  obtain ⟨i, hi⟩ := List.mem_iff_getElem?.mp hmem
  exact ⟨_, hc, List.mem_of_getElem? (getElem?_succ_chainFrom hl hi h)⟩

/-- The reachable nodes outside all chains lie on cycles of continuations: each is continued by one
of them. -/
theorem exists_continues_of_not_placed {a : Nat} (ha : g.Reached a) (hp : ¬ g.Placed a) :
    ∃ b, g.Continues a b ∧ ¬ g.Placed b := by
  let Loose := { n : Fin g.size // g.Reached n ∧ ¬ g.Placed n }
  have hpre : ∀ n : Loose, ∃ m : Loose, g.Continues m.1 n.1 := by
    rintro ⟨n, hn, hnp⟩
    have hnot : ¬ ∀ m, ¬ g.Continues m n := by
      intro h
      exact hnp (placed_of_leader (mem_leaders_reachable.mpr ⟨hn, h⟩))
    obtain ⟨m, hm⟩ := not_forall_not.mp hnot
    have hmr := hm.continuesIn.1
    exact ⟨⟨⟨m, hmr.lt⟩, hmr, fun hmp => hnp (hm.placed hmp)⟩, hm⟩
  -- going back along continuations is injective on finitely many nodes, hence it can be undone
  choose pre hpre using hpre
  have hinj : Function.Injective pre := by
    intro m n hmn
    have hm := hpre m
    rw [hmn] at hm
    exact Subtype.ext (Fin.ext (Option.some.inj (hm.symm.trans (hpre n))))
  obtain ⟨b, hb⟩ := Finite.injective_iff_surjective.mp hinj ⟨⟨a, ha.lt⟩, ha, hp⟩
  have hab := hpre b
  rw [hb] at hab
  exact ⟨b.1, hab, b.2.2⟩

/-- Whatever leads into a chain is in a chain. -/
theorem Placed.of_successor {a b : Nat} (hb : g.Placed b) (ha : g.Reached a)
    (hab : b ∈ g.successors a) : g.Placed a := by
  by_contra hp
  obtain ⟨c, hc, hcp⟩ := exists_continues_of_not_placed ha hp
  rw [(continues_iff.mp hc).1] at hab
  exact hcp (List.mem_singleton.mp hab ▸ hb)

/-- Without asymmetric edges, whatever a node of a chain leads to is in a chain. -/
theorem Placed.successor (hsym : g.Symmetric) {a b : Nat} (ha : g.Placed a)
    (hab : b ∈ g.successors a) : g.Placed b := by
  have hpred := (hsym a b).mp hab
  have hbr : g.Reached b := ha.reached.successor hab (lt_of_mem_predecessors hpred)
  by_cases hl : ∀ m, ¬ g.Continues m b
  · exact placed_of_leader (mem_leaders_reachable.mpr ⟨hbr, hl⟩)
  · obtain ⟨m, hm⟩ := not_forall_not.mp hl
    have hmem := mem_reachablePredecessors.mpr ⟨hpred, ha.reached⟩
    rw [(continues_iff.mp hm).2.2.2] at hmem
    exact hm.placed (List.mem_singleton.mp hmem ▸ ha)

/-- Without asymmetric edges, all reachable nodes are in chains. -/
theorem Reached.placed (hsym : g.Symmetric) {n : Nat} (hn : g.Reached n) : g.Placed n := by
  obtain ⟨r, hr, hlt, hrn⟩ := reached_iff.mp hn
  induction hrn with
  | refl => exact placed_root hr hlt
  | tail hrm hmn ih => exact (ih (reached_iff.mpr ⟨r, hr, hlt, hrm⟩)).successor hsym hmn.2.1

end AccessGraph

end MemDep
