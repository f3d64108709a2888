import MemDep.Proofs.AccessGraph.Partition
import MemDep.Proofs.Checked.Blocks

/-!
# Blocks of malformed graphs

Edges that only one end lists can make the chain rule lead around in a circle, and the loop that follows
a chain does not watch out for that. It ends all the same: a node continues at most one chain, so a chain
that starts at a node that continues none does not come back to a node that it has passed. Building the
blocks of any graph ends with blocks that agree with each other, whatever marks the chain rule goes by.
-/

namespace MemDep

namespace Checked

/-! ## Blocks that agree with each other -/

namespace Blocks

/-- The nodes of the block at a position, none if there is no such block. -/
def nodes (bs : Blocks) (b : Nat) : List Nat := (bs.blocks[b]?.map Block.nodes).getD []

/-- The predecessors that the block at a position lists, none if there is no such block. -/
def predecessors (bs : Blocks) (b : Nat) : List Nat := (bs.blocks[b]?.map Block.predecessors).getD []

/-- The successors that the block at a position lists, none if there is no such block. -/
def successors (bs : Blocks) (b : Nat) : List Nat := (bs.blocks[b]?.map Block.successors).getD []

/-- A node has the place where it stands in a block, and stands nowhere else. An edge between blocks is
listed once by each of its ends. -/
structure Consistent (bs : Blocks) : Prop where
  position_iff : ∀ n b i, bs.position n = some (b, i) ↔ (bs.nodes b)[i]? = some n
  place_unique : ∀ a b i j n : Nat, (bs.nodes a)[i]? = some n → (bs.nodes b)[j]? = some n →
    a = b ∧ i = j
  nodup_predecessors : ∀ b, (bs.predecessors b).Nodup
  nodup_successors : ∀ b, (bs.successors b).Nodup
  edge_iff : ∀ a b, b ∈ bs.successors a ↔ a ∈ bs.predecessors b

end Blocks

section Chains

variable {g : AccessGraph} {chains : List (List Nat)} {preds succs : Nat → List Nat}
  {blocks : Array Block} {position : Nat → Option (Nat × Nat)} {entry : Option Nat}

theorem Linked.getElem?_blocks (h : Linked chains preds succs blocks) (b : Nat) :
    blocks[b]? = chains[b]?.map (⟨·, preds b, succs b⟩) := by
  cases hc : chains[b]? with
  | some c => exact h.get hc
  | none => exact Array.getElem?_eq_none (h.size ▸ List.getElem?_eq_none_iff.mp hc)

theorem Linked.map_nodes (h : Linked chains preds succs blocks) :
    blocks.toList.map Block.nodes = chains := by
  refine List.ext_getElem? fun b => ?_
  rw [List.getElem?_map, Array.getElem?_toList, h.getElem?_blocks]
  cases chains[b]? <;> rfl

theorem Linked.nodes_eq (h : Linked chains preds succs blocks) (b : Nat) :
    Blocks.nodes ⟨blocks, position, entry⟩ b = chains[b]?.getD [] := by
  rw [Blocks.nodes, h.getElem?_blocks]
  cases chains[b]? <;> rfl

/-- Only a chain has exits. -/
theorem lt_of_mem_exitsAt {a b : Nat} (h : b ∈ exitsAt g chains position a) : a < chains.length := by
  by_contra ha
  rw [exitsAt, List.getElem?_eq_none (Nat.le_of_not_lt ha)] at h
  exact List.not_mem_nil h

theorem LinkedByExits.successors_eq (h : LinkedByExits g chains position blocks) (a : Nat) :
    Blocks.successors ⟨blocks, position, entry⟩ a = (exitsAt g chains position a).eraseDups := by
  rw [Blocks.successors, Linked.getElem?_blocks h]
  by_cases ha : a < chains.length
  · rw [List.getElem?_eq_getElem ha]
    exact if_pos ha
  · rw [exitsAt, List.getElem?_eq_none (Nat.le_of_not_lt ha)]
    rfl

theorem LinkedByExits.predecessors_eq (h : LinkedByExits g chains position blocks)
    (hplaced : PlacedIn chains position) (b : Nat) :
    Blocks.predecessors ⟨blocks, position, entry⟩ b =
      (List.range chains.length).filter fun a => b ∈ exitsAt g chains position a := by
  rw [Blocks.predecessors, Linked.getElem?_blocks h]
  by_cases hb : b < chains.length
  · rw [List.getElem?_eq_getElem hb]
    rfl
  · rw [List.getElem?_eq_none (Nat.le_of_not_lt hb)]
    refine (List.filter_eq_nil_iff.mpr fun a _ hmem => hb ?_).symm
    exact hplaced.lt_of_mem_exits (of_decide_eq_true hmem)

/-- Chains that are placed, and linked by their exits, are blocks that agree with each other. -/
theorem LinkedByExits.consistent (h : LinkedByExits g chains position blocks)
    (hplaced : PlacedIn chains position) : Blocks.Consistent ⟨blocks, position, entry⟩ := by
  have hposition : ∀ n b i, position n = some (b, i) ↔ (chains[b]?.getD [])[i]? = some n := by
    intro n b i
    rw [hplaced]
    cases chains[b]? <;> simp
  constructor
  case position_iff =>
    intro n b i
    rw [Linked.nodes_eq h]
    exact hposition n b i
  case place_unique =>
    intro a b i j n hi hj
    rw [Linked.nodes_eq h, ← hposition] at hi hj
    simpa using hi.symm.trans hj
  case nodup_predecessors =>
    intro b
    rw [h.predecessors_eq hplaced]
    exact List.nodup_range.filter _
  case nodup_successors =>
    intro b
    rw [h.successors_eq]
    exact nodup_eraseDups _
  case edge_iff =>
    intro a b
    rw [h.successors_eq, h.predecessors_eq hplaced, List.mem_eraseDups, List.mem_filter,
      List.mem_range, decide_eq_true_eq]
    exact ⟨fun hb => ⟨lt_of_mem_exitsAt hb, hb⟩, And.right⟩

end Chains

/-! ## Following chains -/

variable {g : AccessGraph} {reachable : Array Bool}

/-- The way of the chain rule from a node to its end. No node is passed twice. -/
structure Trail (g : AccessGraph) (reachable : Array Bool) (first : Nat) (nodes : List Nat) :
    Prop where
  head : nodes.head? = some first
  continues : nodes.IsChain fun m n => g.continuation? reachable m = some n
  ends : ∀ n, nodes.getLast? = some n → g.continuation? reachable n = none
  nodup : nodes.Nodup

theorem trail_chainFrom {n : Nat} (hn : n ∈ g.leaders reachable) :
    Trail g reachable n (g.chainFrom reachable g.size n) := by
  constructor
  case head => rw [List.head?_eq_getElem?, AccessGraph.getElem?_zero_chainFrom]
  case continues =>
    have hchain : (g.chainFrom reachable g.size n).IsChain (g.ContinuesIn reachable) :=
      AccessGraph.isChain_chainFrom g.size (AccessGraph.mem_leaders.mp hn).1
    exact hchain.imp fun _ _ h => h.2
  case ends => exact fun _ h => AccessGraph.continuation?_getLast_chainFrom hn h
  case nodup => exact AccessGraph.nodup_chainFrom hn

/-- Whatever the graph, and whatever marks are taken for those of the reachable nodes, building its
blocks ends, with blocks that agree with each other and are the trails of the leaders. A node continues
the chain of at most one node, and a leader that of none; so the loop that follows the chain of a leader
ends, with its trail. With the marks that the search from the root leaves, the blocks are those of the
definition. -/
theorem build_consistent (g : AccessGraph) (reachable : Array Bool) :
    (∃ bs, build g reachable = some bs ∧ bs.Consistent ∧
      List.Forall₂ (Trail g reachable) (g.leaders reachable) (bs.blocks.toList.map Block.nodes)) ∧
    (∀ l m n, g.continuation? reachable l = some n → g.continuation? reachable m = some n → l = m) ∧
    (∀ l ∈ g.leaders reachable, ∀ m ∈ g.reversePostorder, g.continuation? reachable m ≠ some l) ∧
    (∀ root, g.root = some root → ∀ l ∈ g.leaders reachable,
      ∃ nodes, chain g root reachable l = some nodes ∧ Trail g reachable l nodes) ∧
    (Checked.reachable g).bind (build g) = some (.of (.ofGraph g)) := by
  refine ⟨?_, fun l m n => AccessGraph.continuation?_unique, ?_, ?_, ?_⟩
  · obtain ⟨blocks, position, hbuild, hplaced, hlinked⟩ := exists_build g reachable
    refine ⟨_, hbuild, hlinked.consistent hplaced, ?_⟩
    rw [Linked.map_nodes hlinked, AccessGraph.chainsIn, List.forall₂_map_right_iff,
      List.forall₂_same]
    exact fun n => trail_chainFrom
  · intro l hl m hm hml
    exact (AccessGraph.mem_leaders.mp hl).2 m ⟨AccessGraph.mem_reversePostorder.mp hm, hml⟩
  · intro root hroot l hl
    exact ⟨_, chain_eq hroot hl, trail_chainFrom hl⟩
  · rw [reachable_eq]
    exact build_eq g

/-- The root, node 1, leads to node 2, which does not list it, and nodes 2 and 3 continue each other. Node
4 carries a wrong id; there are no nodes 8 and 9. -/
def strayCircle : AccessGraph where
  nodes := #[
    ⟨0, .unknownMemory, [], [], [], [], []⟩,
    ⟨1, .alloc, [], [], [], [2, 4, 9], []⟩,
    ⟨2, .noop, [], [], [], [3], [3]⟩,
    ⟨3, .noop, [], [], [], [2], [2]⟩,
    ⟨7, .noop, [], [], [], [5], [1]⟩,
    ⟨5, .ret, [], [], [], [], [4, 8]⟩]
  root := some 1

/-- The circle is in no block, although the root leads to it. -/
theorem build_consistent_strayCircle :
    (∃ bs, build strayCircle strayCircle.reachable = some bs ∧ bs.Consistent ∧
      bs.blocks.toList.map Block.nodes = [[1], [4, 5]]) ∧
    strayCircle.ContinuesIn strayCircle.reachable 2 3 ∧
    strayCircle.ContinuesIn strayCircle.reachable 3 2 := by
  obtain ⟨⟨bs, hbuild, hconsistent, -⟩, -⟩ := build_consistent strayCircle strayCircle.reachable
  obtain rfl := Option.some.inj (hbuild.symm.trans (build_eq strayCircle))
  have hnodes : (Blocks.of (.ofGraph strayCircle)).blocks.toList.map Block.nodes = [[1], [4, 5]] := by
    decide +kernel
  have hforth : strayCircle.reachable[2]? = some true ∧
      strayCircle.continuation? strayCircle.reachable 2 = some 3 := by decide +kernel
  have hback : strayCircle.reachable[3]? = some true ∧
      strayCircle.continuation? strayCircle.reachable 3 = some 2 := by decide +kernel
  exact ⟨⟨_, hbuild, hconsistent, hnodes⟩, hforth, hback⟩

end Checked

end MemDep
