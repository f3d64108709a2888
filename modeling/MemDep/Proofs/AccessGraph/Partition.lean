import MemDep.Proofs.AccessGraph.Blocks

/-!
# Basic blocks partition the reachable nodes

Without asymmetric edges, each node that the root leads to has one place, the edges inside blocks are
those between neighbours, and all others lead from the end of a block to the start of one.

Neighbours obey the chain rule. Blocks are cut by the entries of lists, however, and a node that lists
its only predecessor twice starts a block of its own. These are all exceptions: where the end of one
block and the start of another obey the chain rule, the entry is repeated.
-/

namespace MemDep

theorem nodup_eraseDups {α : Type} [DecidableEq α] (l : List α) : l.eraseDups.Nodup := by
  induction hlen : l.length using Nat.strong_induction_on generalizing l with
  | _ k ih =>
    cases l with
    | nil => exact List.nodup_nil
    | cons a l =>
      rw [List.length_cons] at hlen
      rw [List.eraseDups_cons]
      refine List.nodup_cons.mpr ⟨by simp, ?_⟩
      have hle := List.length_filter_le (fun b => !b == a) l
      exact ih _ (by omega) _ rfl

namespace AccessGraph

open Relation

variable {g : AccessGraph} {m n : Nat}

/-- The rule by which a chain goes on from `m` to `n`: `m` lists `n` as its one successor, `n` is not
the root, and of the predecessors of `n`, `m` is the only one that the root leads to. -/
structure ChainRule (g : AccessGraph) (m n : Nat) : Prop where
  successors : g.successors m = [n]
  root : g.root ≠ some n
  predecessor : m ∈ g.predecessors n
  only : ∀ k ∈ g.predecessors n, g.FromRoot k → k = m

theorem filter_eq_singleton {l : List Nat} {p : Nat → Bool} (hm : p m = true) :
    l.filter p = [m] ↔ l.count m = 1 ∧ ∀ k ∈ l, p k = true → k = m := by
  rw [← List.count_filter hm]
  constructor
  · intro h
    refine ⟨by simp [h], fun k hk hpk => ?_⟩
    have hmem : k ∈ l.filter p := List.mem_filter.mpr ⟨hk, hpk⟩
    rw [h] at hmem
    exact List.mem_singleton.mp hmem
  · rintro ⟨hcount, honly⟩
    have hall : ∀ k ∈ l.filter p, k = m := by
      intro k hk
      obtain ⟨hk, hpk⟩ := List.mem_filter.mp hk
      exact honly k hk hpk
    have hlen := List.count_eq_length.mpr fun k hk => (hall k hk).symm
    rw [List.eq_replicate_of_mem hall, ← hlen, hcount]
    rfl

/-- A node that only it leads to is not reached. -/
theorem ChainRule.ne (hg : g.WellFormed) (hsym : g.Symmetric) (hm : g.Reached m)
    (h : g.ChainRule m n) : n ≠ m := by
  rintro rfl
  obtain ⟨r, hr, hlt, hrn⟩ := reached_iff.mp hm
  have hnever : ∀ k, ReflTransGen g.digraph.Arc r k → k ≠ n := by
    intro k hk
    induction hk with
    | refl =>
      rintro rfl
      exact h.root hr
    | tail hrk harc ih =>
      rintro rfl
      have hroot := hg.reached_iff_fromRoot.mp (reached_iff.mpr ⟨r, hr, hlt, hrk⟩)
      exact ih (h.only _ ((hsym _ _).mp harc.2.1) hroot)
  exact hnever n hrn rfl

/-- A chain goes on where the chain rule holds and the entry for the predecessor is not repeated. -/
theorem continues_iff_chainRule (hg : g.WellFormed) (hsym : g.Symmetric) (hm : g.Reached m) :
    g.Continues m n ↔ g.ChainRule m n ∧ (g.predecessors n).count m = 1 := by
  have hpreds : g.reachablePredecessors g.reachable n = [m] ↔
      (g.predecessors n).count m = 1 ∧ ∀ k ∈ g.predecessors n, g.FromRoot k → k = m := by
    have hreach : ∀ k, (g.reachable[k]? == some true) = true ↔ g.FromRoot k := by
      intro k
      rw [beq_iff_eq]
      exact hg.reached_iff_fromRoot
    unfold reachablePredecessors
    rw [filter_eq_singleton ((hreach m).mpr (hg.reached_iff_fromRoot.mp hm))]
    simp only [hreach]
  rw [continues_iff, hpreds]
  constructor
  · rintro ⟨hsucc, hroot, _, hcount, honly⟩
    have hmem : m ∈ g.predecessors n := List.count_pos_iff.mp (by omega)
    exact ⟨⟨hsucc, hroot, hmem, honly⟩, hcount⟩
  · rintro ⟨h, hcount⟩
    exact ⟨h.successors, h.root, h.ne hg hsym hm, hcount, h.only⟩

/-- The root is the first leader. -/
theorem getElem?_zero_leaders {r : Nat} (hr : g.root = some r) (hlt : r < g.size) :
    (g.leaders g.reachable)[0]? = some r := by
  have hleader : r ∈ g.leaders g.reachable :=
    mem_leaders_reachable.mpr ⟨reached_root hr hlt, fun _ h => (continues_iff.mp h).2.1 hr⟩
  have hhead := head?_reversePostorder hr hlt
  unfold leaders at hleader ⊢
  cases horder : g.reversePostorder with
  | nil => rw [horder] at hhead; simp at hhead
  | cons a order =>
    rw [horder] at hhead hleader
    obtain rfl : a = r := by simpa using hhead
    dsimp only at hleader ⊢
    rw [List.filter_cons, if_pos (List.mem_filter.mp hleader).2]
    rfl

end AccessGraph

namespace BlockGraph

variable {g : AccessGraph}

/-- One node stands right before another one in a block. -/
def Neighbours (bg : BlockGraph) (m n : Nat) : Prop :=
  ∃ (b : Fin bg.count) (i : Nat), (bg.nodes b)[i]? = some m ∧ (bg.nodes b)[i + 1]? = some n

/-- The blocks of a graph are chains that take up the nodes that its root leads to, and are joined as
the ends of the chains are. -/
structure Partitions (bg : BlockGraph) (g : AccessGraph) : Prop where
  nonempty : ∀ b, bg.nodes b ≠ []
  place : ∀ n, g.FromRoot n →
    ∃ p, bg.place? n = some p ∧ ∀ b i, (bg.nodes b)[i]? = some n ↔ (b, i) = p
  absent : ∀ n, ¬ g.FromRoot n → bg.place? n = none ∧ ∀ b, n ∉ bg.nodes b
  chain : ∀ m n, bg.Neighbours m n → g.ChainRule m n
  edge : ∀ m n, g.FromRoot m → n ∈ g.successors m → bg.Neighbours m n ∨
    ∃ a b, (bg.nodes a).getLast? = some m ∧ (bg.nodes b).head? = some n
  successors : ∀ a b, b ∈ bg.successors a ↔ ∃ m n, (bg.nodes a).getLast? = some m ∧
    (bg.nodes b).head? = some n ∧ n ∈ g.successors m
  predecessors : ∀ a b, a ∈ bg.predecessors b ↔ ∃ m n, (bg.nodes a).getLast? = some m ∧
    (bg.nodes b).head? = some n ∧ n ∈ g.successors m
  nodup_successors : ∀ a, (bg.successors a).Nodup
  nodup_predecessors : ∀ b, (bg.predecessors b).Nodup
  entry : ∃ h : 0 < bg.count, bg.entry = some ⟨0, h⟩ ∧
    ∃ r, g.root = some r ∧ (bg.nodes ⟨0, h⟩).head? = some r

/-- No two blocks could be joined under the chain rule. -/
def Maximal (bg : BlockGraph) (g : AccessGraph) : Prop :=
  ∀ a b m n, (bg.nodes a).getLast? = some m → (bg.nodes b).head? = some n → ¬ g.ChainRule m n

theorem mem_successors_iff (hsym : g.Symmetric) {a b : Fin (ofGraph g).count} :
    b ∈ (ofGraph g).successors a ↔ ∃ m n, ((ofGraph g).nodes a).getLast? = some m ∧
      ((ofGraph g).nodes b).head? = some n ∧ n ∈ g.successors m := by
  rw [mem_successors]
  constructor
  · rintro ⟨m, hm, n, hmn, i, hn⟩
    obtain rfl := eq_zero_of_getLast? hsym hm hn hmn
    rw [← List.head?_eq_getElem?] at hn
    exact ⟨m, n, hm, hn, hmn⟩
  · rintro ⟨m, n, hm, hn, hmn⟩
    rw [List.head?_eq_getElem?] at hn
    exact ⟨m, hm, n, hmn, 0, hn⟩

theorem nodup_successors (a : Fin (ofGraph g).count) : ((ofGraph g).successors a).Nodup := by
  rw [successors_ofGraph]
  unfold targets
  split
  · exact nodup_eraseDups _
  · exact List.nodup_nil

/-- The first node of a block continues no chain. -/
theorem not_continues_head {b : Fin (ofGraph g).count} {m n : Nat}
    (hn : ((ofGraph g).nodes b).head? = some n) : ¬ g.Continues m n := by
  obtain ⟨a, ha, hchain⟩ := AccessGraph.getElem?_chains.mp (getElem?_chains b)
  rw [List.head?_eq_getElem?, ← hchain] at hn
  exact fun h => AccessGraph.not_continuesIn_leader (List.mem_of_getElem? ha) hn h.continuesIn

theorem exists_first_block {r : Nat} (hr : g.root = some r) (hlt : r < g.size) :
    ∃ h : 0 < (ofGraph g).count, ((ofGraph g).nodes ⟨0, h⟩)[0]? = some r := by
  have hleader := AccessGraph.getElem?_zero_leaders hr hlt
  have hchain : g.chains[0]? = some (g.chainFrom g.reachable g.size r) :=
    AccessGraph.getElem?_chains.mpr ⟨r, hleader, rfl⟩
  have hcount : 0 < (ofGraph g).count := by
    have hlen := (List.getElem?_eq_some_iff.mp hchain).1
    rwa [← List.size_toArray] at hlen
  refine ⟨hcount, ?_⟩
  have hnodes := getElem?_chains (g := g) ⟨0, hcount⟩
  rw [hchain] at hnodes
  rw [← Option.some.inj hnodes]
  exact AccessGraph.getElem?_zero_chainFrom g.size r

/-- Blocks go on wherever chains do. -/
theorem neighbours_of_continues {m n : Nat} (hplaced : g.Placed m) (h : g.Continues m n) :
    (ofGraph g).Neighbours m n := by
  obtain ⟨b, i, hi⟩ := exists_getElem?_of_placed hplaced
  refine ⟨b, i, hi, ?_⟩
  obtain ⟨a, ha, hchain⟩ := AccessGraph.getElem?_chains.mp (getElem?_chains b)
  rw [← hchain] at hi ⊢
  exact AccessGraph.getElem?_succ_chainFrom (List.mem_of_getElem? ha) hi h

theorem neighbours_iff (hwf : g.WellFormed) (hsym : g.Symmetric) {m n : Nat} :
    (ofGraph g).Neighbours m n ↔
      g.FromRoot m ∧ g.ChainRule m n ∧ (g.predecessors n).count m = 1 := by
  constructor
  · rintro ⟨b, i, hm, hn⟩
    have hreached := (placed_of_getElem? hm).reached
    refine ⟨hwf.reached_iff_fromRoot.mp hreached, ?_⟩
    exact (AccessGraph.continues_iff_chainRule hwf hsym hreached).mp (continues_of_getElem? hm hn)
  · rintro ⟨hm, hrule⟩
    have hreached := hwf.reached_iff_fromRoot.mpr hm
    refine neighbours_of_continues (hreached.placed hsym) ?_
    exact (AccessGraph.continues_iff_chainRule hwf hsym hreached).mpr hrule

/-- Two blocks obey the chain rule only where an entry is repeated. -/
theorem one_lt_count_of_chainRule (hwf : g.WellFormed) (hsym : g.Symmetric)
    {a b : Fin (ofGraph g).count} {m n : Nat} (hm : ((ofGraph g).nodes a).getLast? = some m)
    (hn : ((ofGraph g).nodes b).head? = some n) (h : g.ChainRule m n) :
    1 < (g.predecessors n).count m := by
  have hpos : 0 < (g.predecessors n).count m := List.count_pos_iff.mpr h.predecessor
  have hne : (g.predecessors n).count m ≠ 1 := by
    intro hcount
    have hcontinues : g.Continues m n :=
      (AccessGraph.continues_iff_chainRule hwf hsym (reached_of_getLast? hm)).mpr ⟨h, hcount⟩
    exact not_continues_head hn hcontinues
  omega

theorem partitions_of_wellFormed (hwf : g.WellFormed) (hsym : g.Symmetric) : (ofGraph g).Partitions g := by
  have hreached : ∀ n, g.Reached n ↔ g.FromRoot n := fun n => hwf.reached_iff_fromRoot
  constructor
  case nonempty =>
    intro b hnil
    obtain ⟨n, hn⟩ := exists_first b
    rw [hnil] at hn
    simp at hn
  case place =>
    intro n hn
    obtain ⟨b, i, hi⟩ := exists_getElem?_of_placed (((hreached n).mpr hn).placed hsym)
    refine ⟨(b, i), place?_eq_some.mpr hi, fun c j => ⟨fun hj => ?_, ?_⟩⟩
    · obtain ⟨rfl, rfl⟩ := place_unique hi hj
      rfl
    · rintro ⟨rfl, rfl⟩
      exact hi
  case absent =>
    intro n hn
    have hnot : ∀ b i, ((ofGraph g).nodes b)[i]? ≠ some n := fun b i hi =>
      hn ((hreached n).mp (placed_of_getElem? hi).reached)
    refine ⟨Option.eq_none_iff_forall_ne_some.mpr fun p hp => ?_, fun b hmem => ?_⟩
    · exact hnot p.1 p.2 (place?_eq_some.mp hp)
    · obtain ⟨i, hi⟩ := List.mem_iff_getElem?.mp hmem
      exact hnot b i hi
  case chain => exact fun m n h => ((neighbours_iff hwf hsym).mp h).2.1
  case edge =>
    intro m n hm hmn
    have hmr := (hreached m).mpr hm
    have hnr := hmr.successor hmn (hwf.successors_lt hmn)
    obtain ⟨a, i, hi⟩ := exists_getElem?_of_placed (hmr.placed hsym)
    obtain ⟨b, j, hj⟩ := exists_getElem?_of_placed (hnr.placed hsym)
    rcases of_mem_successors_of_getElem? hi hj hmn with ⟨rfl, rfl⟩ | ⟨hlast, _⟩
    · exact .inl ⟨a, i, hi, hj⟩
    · obtain rfl := eq_zero_of_getLast? hsym hlast hj hmn
      rw [← List.head?_eq_getElem?] at hj
      exact .inr ⟨a, b, hlast, hj⟩
  case successors => exact fun a b => mem_successors_iff hsym
  case predecessors => exact fun a b => mem_predecessors.trans (mem_successors_iff hsym)
  case nodup_successors => exact nodup_successors
  case nodup_predecessors => exact nodup_predecessors
  case entry =>
    obtain ⟨r, hr, hlt⟩ := hwf.root
    obtain ⟨hcount, hfirst⟩ := exists_first_block hr hlt
    refine ⟨hcount, entry_eq_some.mpr ⟨r, hr, 0, hfirst⟩, r, hr, ?_⟩
    rw [List.head?_eq_getElem?]
    exact hfirst

/-- The blocks are maximal unless the chain rule holds somewhere for a repeated entry. -/
theorem maximal_iff (hwf : g.WellFormed) (hsym : g.Symmetric) : (ofGraph g).Maximal g ↔
    ∀ m n, g.FromRoot m → g.ChainRule m n → (g.predecessors n).count m = 1 := by
  constructor
  · intro hmax m n hm hrule
    have hmn : n ∈ g.successors m := hrule.successors ▸ List.mem_singleton_self n
    rcases (partitions_of_wellFormed hwf hsym).edge m n hm hmn with hneighbours | ⟨a, b, hlast, hhead⟩
    · exact ((neighbours_iff hwf hsym).mp hneighbours).2.2
    · exact absurd hrule (hmax a b m n hlast hhead)
  · intro hone a b m n hlast hhead hrule
    have hroot : g.FromRoot m := hwf.reached_iff_fromRoot.mp (reached_of_getLast? hlast)
    have hlt := one_lt_count_of_chainRule hwf hsym hlast hhead hrule
    have heq := hone m n hroot hrule
    omega

/-- The basic blocks of an accepted graph without asymmetric edges partition the nodes that its root
leads to; edges may be repeated, lead from a node to itself, or back to the root. Neighbours in a block
are the pairs that obey the chain rule with an entry that is not repeated, and two blocks obey the rule
only where an entry is. So no two blocks could be joined exactly if the rule never holds for a repeated
entry. -/
theorem partitions_ofGraph (hg : g.structuralError = none) (hedges : g.asymmetricEdges = []) :
    (ofGraph g).Partitions g ∧
    (∀ m n, (ofGraph g).Neighbours m n ↔
      g.FromRoot m ∧ g.ChainRule m n ∧ (g.predecessors n).count m = 1) ∧
    (∀ a b m n, ((ofGraph g).nodes a).getLast? = some m → ((ofGraph g).nodes b).head? = some n →
      g.ChainRule m n → 1 < (g.predecessors n).count m) ∧
    ((ofGraph g).Maximal g ↔
      ∀ m n, g.FromRoot m → g.ChainRule m n → (g.predecessors n).count m = 1) := by
  have hwf := AccessGraph.wellFormed_of_structuralError hg
  have hsym := hwf.symmetric hedges
  refine ⟨partitions_of_wellFormed hwf hsym, fun m n => neighbours_iff hwf hsym, ?_,
    maximal_iff hwf hsym⟩
  intro a b m n hm hn hrule
  exact one_lt_count_of_chainRule hwf hsym hm hn hrule

/-- Node 4 leads back to the root, node 3 to itself and, twice, to node 4; nothing leads to node 6, which
leads to node 2. -/
def backEdges : AccessGraph where
  nodes := #[
    ⟨0, .unknownMemory, [], [], [], [], []⟩,
    ⟨1, .alloc, [], [], [], [2], [4]⟩,
    ⟨2, .noop, [], [], [], [3], [1, 6]⟩,
    ⟨3, .noop, [], [], [], [4, 4, 3], [2, 3]⟩,
    ⟨4, .noop, [], [], [], [5, 1], [3, 3]⟩,
    ⟨5, .ret, [], [], [], [], [4]⟩,
    ⟨6, .noop, [], [], [], [2], []⟩]
  root := some 1

/-- Only the root and node 2 share a block, and no two blocks could be joined: node 2 is followed by a
node that also leads to itself, and the ends of the other blocks have several successors or none. -/
theorem partitions_ofGraph_backEdges : (ofGraph backEdges).Partitions backEdges ∧
    (ofGraph backEdges).Maximal backEdges ∧ backEdges.chains = [[1, 2], [3], [4], [5]] := by
  obtain ⟨hpartitions, -, -, hmaximal⟩ :=
    partitions_ofGraph (g := backEdges) (by decide) (by decide)
  refine ⟨hpartitions, hmaximal.mpr ?_, by decide +kernel⟩
  intro m n _ hrule
  have hlists : ∀ m < backEdges.size, ∀ n < backEdges.size,
      backEdges.successors m = [n] → (backEdges.predecessors n).count m = 1 := by decide
  have hm := AccessGraph.lt_of_mem_successors (hrule.successors ▸ List.mem_singleton_self n)
  have hn := AccessGraph.lt_of_mem_predecessors hrule.predecessor
  exact hlists m hm n hn hrule.successors

/-- Node 2 lists its only predecessor twice. -/
def doubleEntry : AccessGraph where
  nodes := #[
    ⟨0, .unknownMemory, [], [], [], [], []⟩,
    ⟨1, .alloc, [], [], [], [2], []⟩,
    ⟨2, .noop, [], [], [], [], [1, 1]⟩]
  root := some 1

/-- The two nodes obey the chain rule, and have a block each. -/
theorem not_maximal_doubleEntry : doubleEntry.structuralError = none ∧
    doubleEntry.asymmetricEdges = [] ∧ ¬ (ofGraph doubleEntry).Maximal doubleEntry := by
  have hrule : doubleEntry.ChainRule 1 2 := by
    refine ⟨by decide, by decide, by decide, fun k hk _ => ?_⟩
    have hlisted : k ∈ [1, 1] := hk
    simpa using hlisted
  refine ⟨by decide, by decide, fun hmax => ?_⟩
  exact hmax ⟨0, by decide +kernel⟩ ⟨1, by decide +kernel⟩ 1 2 (by decide +kernel)
    (by decide +kernel) hrule

end BlockGraph

end MemDep
