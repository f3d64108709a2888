import MemDep.Proofs.AccessGraph.Blocks
import MemDep.Proofs.Checked.Traversal

/-!
# Basic blocks with checked indices

The blocks of a graph as they are built in arrays: an array marks the nodes that continue a chain,
a loop follows each chain from its leader, and the edges between blocks are added one at a time to
the lists of both their ends. Blocks are named by their positions. Whatever the graph is, this does
not fail, and gives the blocks that `BlockGraph.ofGraph` describes.
-/

namespace MemDep

namespace Checked

/-- A chain of nodes, and the blocks before and after it. -/
structure Block where
  /-- The nodes, in the order of control. -/
  nodes : List Nat
  /-- The blocks whose last node leads into this one. -/
  predecessors : List Nat
  /-- The blocks that the last node leads to. -/
  successors : List Nat
deriving DecidableEq, Repr

/-- The blocks of a graph. -/
structure Blocks where
  /-- The blocks, each at its position. -/
  blocks : Array Block
  /-- The block and the place in it of each node that is in a block. -/
  position : Nat → Option (Nat × Nat)
  /-- The block of the root. -/
  entry : Option Nat

/-- The same blocks, named by numbers. -/
def Blocks.of (bg : BlockGraph) : Blocks where
  blocks := bg.blocks.toArray.map fun b =>
    ⟨b.nodes, b.predecessors.map Fin.val, b.successors.map Fin.val⟩
  position n := (bg.place? n).map fun p => (p.1.val, p.2)
  entry := bg.entry.map Fin.val

theorem getElem?_blocks (bg : BlockGraph) (b : Fin bg.count) :
    (Blocks.of bg).blocks[b.val]? = some ⟨bg.nodes b, (bg.predecessors b).map Fin.val,
      (bg.successors b).map Fin.val⟩ := by
  have hb : b.val < bg.blocks.toArray.size := by
    rw [Vector.size_toArray]
    exact b.isLt
  simp only [Blocks.of, Array.getElem?_map, Array.getElem?_eq_getElem hb, Option.map_some]
  rfl

variable {g : AccessGraph} {root : Nat}

/-! ## Chains -/

/-- The node that the chain of `n` continues with. -/
def continuation? (g : AccessGraph) (root : Nat) (reachable : Array Bool) (n : Nat) :
    Option (Option Nat) := do
  match g.successors n with
  | [s] =>
    if s = root ∨ s = n then
      return none
    let preds := g.reachablePredecessors reachable s
    if preds.length ≠ 1 then
      return none
    return if (← preds[0]?) = n then some s else none
  | _ => return none

theorem continuation?_eq (hroot : g.root = some root) (reachable : Array Bool) (n : Nat) :
    continuation? g root reachable n = some (g.continuation? reachable n) := by
  unfold continuation? AccessGraph.continuation?
  rw [hroot]
  generalize g.successors n = succs
  match succs with
  | [] => rfl
  | _ :: _ :: _ => rfl
  | [s] =>
    simp only
    generalize g.reachablePredecessors reachable s = preds
    by_cases hs : s = root ∨ s = n
    · have hnot : ¬ (some root ≠ some s ∧ s ≠ n ∧ preds = [n]) := by
        rintro ⟨h, h', -⟩
        rcases hs with rfl | rfl
        · exact h rfl
        · exact h' rfl
      rw [if_pos hs, if_neg hnot]
      rfl
    · rw [if_neg hs]
      obtain ⟨hsr, hsn⟩ := not_or.mp hs
      match preds with
      | [] => simp
      | [p] =>
        by_cases hp : p = n
        · simp [hp, hsn, Ne.symm hsr]
        · simp [hp]
      | p :: q :: rest => simp

/-- Marks the nodes that continue the chain of one of the given nodes. -/
def continued (g : AccessGraph) (root : Nat) (reachable : Array Bool) (order : List Nat) :
    Option (Array Bool) :=
  order.foldlM (fun marks n => do
    match ← continuation? g root reachable n with
    | some s => put marks s true
    | none => return marks) g.digraph.noMarks

theorem exists_continued (hroot : g.root = some root) (reachable : Array Bool) (order : List Nat) :
    ∃ marks, continued g root reachable order = some marks ∧ marks.size = g.size ∧
      ∀ n, Digraph.Marked marks n ↔ n ∈ order.filterMap (g.continuation? reachable) := by
  refine foldlM_of_invariant (fun before marks => marks.size = g.size ∧
    ∀ n, Digraph.Marked marks n ↔ n ∈ before.filterMap (g.continuation? reachable)) ?_ ?_
  · rintro before n after marks - ⟨hsize, hmarked⟩
    rw [continuation?_eq hroot]
    cases hn : g.continuation? reachable n with
    | none =>
      refine ⟨marks, rfl, hsize, ?_⟩
      simpa [List.filterMap_append, hn] using hmarked
    | some s =>
      have hlt : s < marks.size := hsize ▸ AccessGraph.lt_of_continuation? hn
      refine ⟨marks.setIfInBounds s true, put_eq_some hlt true, by simpa using hsize, ?_⟩
      intro m
      rw [Digraph.marked_set hlt, hmarked]
      simp [List.filterMap_append, hn, or_comm]
  · refine ⟨g.digraph.size_noMarks, ?_⟩
    intro n
    exact ⟨fun h => absurd h (g.digraph.not_marked_noMarks n), fun h => absurd h List.not_mem_nil⟩

/-- The reachable nodes that continue no chain. -/
noncomputable def leaders (g : AccessGraph) (root : Nat) (reachable : Array Bool) :
    Option (List Nat) := do
  let order ← reversePostorder g
  let marks ← continued g root reachable order
  keep (fun n => do return !(← marks[n]?)) order

theorem leaders_eq (hroot : g.root = some root) (reachable : Array Bool) :
    leaders g root reachable = some (g.leaders reachable) := by
  obtain ⟨marks, hmarks, hsize, hmarked⟩ := exists_continued hroot reachable g.reversePostorder
  unfold leaders AccessGraph.leaders
  rw [reversePostorder_eq]
  simp only [Option.bind_eq_bind, Option.bind_some, hmarks]
  refine keep_eq_some _ ?_
  intro n hn
  have hlt : n < marks.size := hsize ▸ (AccessGraph.mem_reversePostorder.mp hn).lt
  have hget : marks[n]? = some marks[n] := Array.getElem?_eq_getElem hlt
  have hmem : marks[n] = true ↔ n ∈ g.reversePostorder.filterMap (g.continuation? reachable) := by
    rw [← hmarked, Digraph.Marked, hget, Option.some.injEq]
  rw [hget]
  simp [← hmem]

/-- Adds the next node of a chain. -/
def chainTurn (g : AccessGraph) (root : Nat) (reachable : Array Bool) (s : List Nat × Nat) :
    Option (Turn (List Nat × Nat) (List Nat)) := do
  match ← continuation? g root reachable s.2 with
  | some m => return .again (s.1 ++ [m], m)
  | none => return .done s.1

/-- Follows the chain of a node to its end. -/
noncomputable def chain (g : AccessGraph) (root : Nat) (reachable : Array Bool) (n : Nat) :
    Option (List Nat) :=
  loop (chainTurn g root reachable) ([n], n)

theorem loop_chainTurn (hroot : g.root = some root) {reachable : Array Bool} {k n : Nat}
    (hend : ∀ m, (g.chainFrom reachable k n).getLast? = some m → g.continuation? reachable m = none)
    (before : List Nat) : loop (chainTurn g root reachable) (before ++ [n], n) =
      some (before ++ g.chainFrom reachable k n) := by
  induction k generalizing n before with
  | zero =>
    have hnone := hend n rfl
    exact loop_of_done (by simp [chainTurn, continuation?_eq hroot, hnone, AccessGraph.chainFrom])
  | succ k ih =>
    cases hn : g.continuation? reachable n with
    | none =>
      exact loop_of_done (by simp [chainTurn, continuation?_eq hroot, hn, AccessGraph.chainFrom])
    | some m =>
      have hchain : g.chainFrom reachable (k + 1) n = n :: g.chainFrom reachable k m := by
        simp [AccessGraph.chainFrom, hn]
      have hne : g.chainFrom reachable k m ≠ [] := by cases k <;> simp [AccessGraph.chainFrom]
      rw [hchain, List.getLast?_cons_of_ne_nil hne] at hend
      have hsplit : before ++ n :: g.chainFrom reachable k m =
          before ++ [n] ++ g.chainFrom reachable k m := List.append_cons _ _ _
      rw [hchain, hsplit, ← ih hend (before ++ [n])]
      exact loop_of_again (by simp [chainTurn, continuation?_eq hroot, hn])

/-- Following the chain of a leader ends, at the end of the chain. -/
theorem chain_eq (hroot : g.root = some root) {reachable : Array Bool} {n : Nat}
    (hn : n ∈ g.leaders reachable) :
    chain g root reachable n = some (g.chainFrom reachable g.size n) :=
  loop_chainTurn hroot (fun _ hm => AccessGraph.continuation?_getLast_chainFrom hn hm) []

/-! ## Places -/

/-- Sets the places of the nodes of a block from a place on. -/
def place (b : Nat) : (i : Nat) → List Nat → (Nat → Option (Nat × Nat)) → Nat → Option (Nat × Nat)
  | _, [], position => position
  | i, n :: nodes, position =>
    place b (i + 1) nodes fun m => if m = n then some (b, i) else position m

theorem place_eq_some {b i n : Nat} {nodes : List Nat} (hnodup : nodes.Nodup)
    {position : Nat → Option (Nat × Nat)} {p : Nat × Nat} : place b i nodes position n = some p ↔
      (∃ j, nodes[j]? = some n ∧ p = (b, i + j)) ∨ n ∉ nodes ∧ position n = some p := by
  induction nodes generalizing i position with
  | nil => simp [place]
  | cons m nodes ih =>
    obtain ⟨hm, hnodup⟩ := List.nodup_cons.mp hnodup
    rw [place, ih hnodup, List.mem_cons, not_or]
    by_cases hn : n = m
    · subst hn
      constructor
      · rintro (⟨j, hj, -⟩ | ⟨-, hp⟩)
        · exact absurd (List.mem_of_getElem? hj) hm
        · rw [if_pos rfl] at hp
          exact .inl ⟨0, rfl, (Option.some.inj hp).symm⟩
      · rintro (⟨j, hj, rfl⟩ | ⟨⟨hne, -⟩, -⟩)
        · cases j with
          | zero => exact .inr ⟨hm, if_pos rfl⟩
          | succ j =>
            rw [List.getElem?_cons_succ] at hj
            exact absurd (List.mem_of_getElem? hj) hm
        · exact absurd rfl hne
    · rw [if_neg hn]
      constructor
      · rintro (⟨j, hj, rfl⟩ | ⟨hnot, hp⟩)
        · exact .inl ⟨j + 1, hj, by rw [Nat.add_right_comm, Nat.add_assoc]⟩
        · exact .inr ⟨⟨hn, hnot⟩, hp⟩
      · rintro (⟨j, hj, rfl⟩ | ⟨⟨-, hnot⟩, hp⟩)
        · cases j with
          | zero => exact absurd (Option.some.inj hj).symm hn
          | succ j => exact .inl ⟨j, hj, by rw [Nat.add_right_comm, Nat.add_assoc]⟩
        · exact .inr ⟨hnot, hp⟩

/-- The places of nodes in some chains. -/
def PlacedIn (chains : List (List Nat)) (position : Nat → Option (Nat × Nat)) : Prop :=
  ∀ n p, position n = some p ↔ ∃ chain, chains[p.1]? = some chain ∧ chain[p.2]? = some n

/-- A block without edges. -/
def bare (nodes : List Nat) : Block := ⟨nodes, [], []⟩

/-- Adds the block of a leader, and the places of its nodes. -/
noncomputable def addBlock (g : AccessGraph) (root : Nat) (reachable : Array Bool)
    (s : Array Block × (Nat → Option (Nat × Nat))) (leader : Nat) :
    Option (Array Block × (Nat → Option (Nat × Nat))) := do
  let nodes ← chain g root reachable leader
  return (s.1.push (bare nodes), place s.1.size 0 nodes s.2)

/-- The blocks of some chains, without edges. -/
structure Unlinked (chains : List (List Nat)) (s : Array Block × (Nat → Option (Nat × Nat))) :
    Prop where
  blocks : s.1 = (chains.map bare).toArray
  placed : PlacedIn chains s.2

theorem PlacedIn.addChain {reachable : Array Bool} {before after : List (List Nat)} {c : List Nat}
    (hchains : g.chainsIn reachable = before ++ c :: after) {position : Nat → Option (Nat × Nat)}
    (h : PlacedIn before position) :
    PlacedIn (before ++ [c]) (place before.length 0 c position) := by
  have hc : (g.chainsIn reachable)[before.length]? = some c := by simp [hchains]
  have hbefore : ∀ {b : Nat} {d : List Nat}, before[b]? = some d →
      (g.chainsIn reachable)[b]? = some d := by
    intro b d hd
    rw [hchains, List.getElem?_append_left (List.getElem?_eq_some_iff.mp hd).1, hd]
  obtain ⟨a, ha, rfl⟩ := AccessGraph.getElem?_chainsIn.mp hc
  rintro n ⟨b, i⟩
  rw [place_eq_some (AccessGraph.nodup_chainFrom (List.mem_of_getElem? ha)), h]
  constructor
  · rintro (⟨j, hj, hp⟩ | ⟨-, d, hd, hi⟩)
    · obtain ⟨rfl, rfl⟩ := Prod.mk.inj hp
      exact ⟨_, List.getElem?_concat_length, by simpa using hj⟩
    · refine ⟨d, ?_, hi⟩
      rw [List.getElem?_append_left (List.getElem?_eq_some_iff.mp hd).1, hd]
  · rintro ⟨d, hd, hi⟩
    by_cases hb : b < before.length
    · rw [List.getElem?_append_left hb] at hd
      refine .inr ⟨?_, d, hd, hi⟩
      intro hmem
      obtain ⟨j, hj⟩ := List.mem_iff_getElem?.mp hmem
      have heq := (AccessGraph.chainsIn_unique hc (hbefore hd) hj hi).1
      omega
    · have hlast : b = before.length := by
        have hlt := (List.getElem?_eq_some_iff.mp hd).1
        rw [List.length_append, List.length_singleton] at hlt
        omega
      subst hlast
      rw [List.getElem?_concat_length] at hd
      obtain rfl := Option.some.inj hd
      exact .inl ⟨i, hi, by simp⟩

theorem exists_addBlock (hroot : g.root = some root) {reachable : Array Bool}
    {before after : List Nat} {leader : Nat}
    (hleaders : g.leaders reachable = before ++ leader :: after)
    {s : Array Block × (Nat → Option (Nat × Nat))}
    (h : Unlinked (before.map (g.chainFrom reachable g.size)) s) :
    ∃ s', addBlock g root reachable s leader = some s' ∧
      Unlinked ((before ++ [leader]).map (g.chainFrom reachable g.size)) s' := by
  let c := g.chainFrom reachable g.size leader
  have hchain : chain g root reachable leader = some c := chain_eq hroot (by simp [hleaders])
  have hchains : g.chainsIn reachable = before.map (g.chainFrom reachable g.size) ++
      c :: after.map (g.chainFrom reachable g.size) := by
    simp only [AccessGraph.chainsIn, hleaders, List.map_append, List.map_cons, c]
  have hsize : s.1.size = (before.map (g.chainFrom reachable g.size)).length := by
    rw [h.blocks, List.size_toArray, List.length_map]
  refine ⟨(s.1.push (bare c), place s.1.size 0 c s.2), ?_, ?_, ?_⟩
  · simp only [addBlock, hchain, Option.bind_eq_bind, Option.bind_some, Option.pure_def]
  · simp [h.blocks, c]
  · rw [List.map_append, hsize]
    exact h.placed.addChain hchains

theorem exists_addBlocks (hroot : g.root = some root) (reachable : Array Bool) :
    ∃ s, (g.leaders reachable).foldlM (addBlock g root reachable) (#[], fun _ => none) = some s ∧
      Unlinked (g.chainsIn reachable) s := by
  refine foldlM_of_invariant
    (fun before s => Unlinked (before.map (g.chainFrom reachable g.size)) s) ?_ ?_
  · intro before leader after s hleaders hs
    exact exists_addBlock hroot hleaders hs
  · exact ⟨rfl, fun n p => by simp⟩

/-! ## Edges between blocks -/

/-- The blocks that the last node of a chain leads to, as often as it does. -/
def exits (g : AccessGraph) (position : Nat → Option (Nat × Nat)) (nodes : List Nat) : List Nat :=
  match nodes.getLast? with
  | some last => (g.successors last).filterMap fun n => (position n).map (·.1)
  | none => []

/-- Adds an edge to the lists of both its ends, unless it is there. -/
def link (a : Nat) (blocks : Array Block) (b : Nat) : Option (Array Block) := do
  let source ← blocks[a]?
  if b ∈ source.successors then
    return blocks
  let blocks ← put blocks a { source with successors := source.successors ++ [b] }
  let target ← blocks[b]?
  put blocks b { target with predecessors := target.predecessors ++ [a] }

/-- Adds the edges that leave a block. -/
def linkAll (g : AccessGraph) (position : Nat → Option (Nat × Nat)) (blocks : Array Block)
    (a : Nat) :
    Option (Array Block) := do
  let source ← blocks[a]?
  (exits g position source.nodes).foldlM (link a) blocks

/-- The blocks of some chains, with their predecessors and successors. -/
structure Linked (chains : List (List Nat)) (preds succs : Nat → List Nat) (blocks : Array Block) :
    Prop where
  size : blocks.size = chains.length
  get : ∀ {b : Nat} {c : List Nat}, chains[b]? = some c → blocks[b]? = some ⟨c, preds b, succs b⟩

open Function (update)

section Linked

variable {chains : List (List Nat)} {preds succs : Nat → List Nat} {blocks : Array Block}

theorem Linked.set (h : Linked chains preds succs blocks) {b : Nat} {c : List Nat}
    (hb : chains[b]? = some c) (p s : List Nat) :
    Linked chains (update preds b p) (update succs b s) (blocks.setIfInBounds b ⟨c, p, s⟩) := by
  refine ⟨by simpa using h.size, ?_⟩
  intro x d hx
  by_cases hxb : x = b
  · subst hxb
    obtain rfl := Option.some.inj (hb.symm.trans hx)
    have hlt : x < blocks.size := (Array.getElem?_eq_some_iff.mp (h.get hb)).1
    simp [hlt]
  · rw [Array.getElem?_setIfInBounds_ne (Ne.symm hxb), h.get hx]
    simp [hxb]

theorem Linked.put (h : Linked chains preds succs blocks) {b : Nat} {c : List Nat}
    (hb : chains[b]? = some c) (p s : List Nat) :
    ∃ blocks', Checked.put blocks b ⟨c, p, s⟩ = some blocks' ∧
      Linked chains (update preds b p) (update succs b s) blocks' := by
  have hlt : b < blocks.size := (Array.getElem?_eq_some_iff.mp (h.get hb)).1
  exact ⟨_, put_eq_some hlt _, h.set hb p s⟩

/-- An edge that is there changes nothing. -/
theorem Linked.link_of_mem (h : Linked chains preds succs blocks) {a b : Nat}
    (ha : a < chains.length) (hb : b ∈ succs a) : link a blocks b = some blocks := by
  have hget := h.get (List.getElem?_eq_getElem ha)
  simp [link, hget, hb]

theorem Linked.link_of_not_mem (h : Linked chains preds succs blocks) {a b : Nat}
    (ha : a < chains.length) (hb : b < chains.length) (hnot : b ∉ succs a) :
    ∃ blocks', link a blocks b = some blocks' ∧
      Linked chains (update preds b (preds b ++ [a])) (update succs a (succs a ++ [b]))
        blocks' := by
  have ha := List.getElem?_eq_getElem ha
  have hb := List.getElem?_eq_getElem hb
  obtain ⟨blocks', hput, h'⟩ := h.put ha (preds a) (succs a ++ [b])
  rw [Function.update_eq_self] at h'
  have htarget := h'.get hb
  obtain ⟨blocks'', hput', h''⟩ := h'.put hb (preds b ++ [a]) (update succs a (succs a ++ [b]) b)
  rw [Function.update_eq_self] at h''
  refine ⟨blocks'', ?_, h''⟩
  simp only [link, h.get ha, Option.bind_eq_bind, Option.bind_some, hnot, if_false, hput, htarget]
  exact hput'

theorem eraseDups_append_singleton (l : List Nat) (b : Nat) :
    (l ++ [b]).eraseDups = if b ∈ l then l.eraseDups else l.eraseDups ++ [b] := by
  rw [List.eraseDups_append]
  split
  case isTrue h => simp [List.removeAll, h]
  case isFalse h => simp [List.removeAll, h, List.eraseDups_cons]

/-- Adding edges from a block that has none yet. -/
theorem Linked.foldlM_link (h : Linked chains preds succs blocks) {a : Nat} (ha : a < chains.length)
    (hnone : succs a = []) {targets : List Nat} (htargets : ∀ b ∈ targets, b < chains.length) :
    ∃ blocks', targets.foldlM (link a) blocks = some blocks' ∧
      Linked chains (fun b => if b ∈ targets then preds b ++ [a] else preds b)
        (update succs a targets.eraseDups) blocks' := by
  refine foldlM_of_invariant (fun before blocks' =>
    Linked chains (fun b => if b ∈ before then preds b ++ [a] else preds b)
      (update succs a before.eraseDups) blocks') ?_ ?_
  · rintro before b after blocks' rfl h'
    have hb : b < chains.length := htargets b (by simp)
    have hsuccs : update succs a before.eraseDups a = before.eraseDups := Function.update_self _ _ _
    rw [eraseDups_append_singleton]
    by_cases hmem : b ∈ before
    · refine ⟨blocks', h'.link_of_mem ha (by rwa [hsuccs, List.mem_eraseDups]), ?_⟩
      have hsame : ∀ x, x ∈ before ++ [b] ↔ x ∈ before := by
        intro x
        simp only [List.mem_append, List.mem_singleton]
        exact ⟨fun hx => hx.elim id (fun hx => hx ▸ hmem), .inl⟩
      simp only [hsame, if_pos hmem]
      exact h'
    · obtain ⟨blocks'', hlink, h''⟩ :=
        h'.link_of_not_mem ha hb (by rwa [hsuccs, List.mem_eraseDups])
      refine ⟨blocks'', hlink, ?_⟩
      rw [hsuccs, Function.update_idem] at h''
      rw [if_neg hmem]
      convert h'' using 1
      funext x
      by_cases hx : x = b
      · subst hx
        simp [hmem]
      · simp [hx]
  · have hsame : update succs a [] = succs := by rw [← hnone, Function.update_eq_self]
    simpa [hsame] using h

/-- Adding the edges of all blocks, in order. -/
theorem Linked.foldlM_linkAll {g : AccessGraph} {position : Nat → Option (Nat × Nat)}
    (h : Linked chains (fun _ => []) (fun _ => []) blocks) {targets : Nat → List Nat}
    (htargets : ∀ a c, chains[a]? = some c → exits g position c = targets a)
    (hlt : ∀ a, ∀ b ∈ targets a, b < chains.length) :
    ∃ blocks', (List.range chains.length).foldlM (linkAll g position) blocks = some blocks' ∧
      Linked chains (fun b => (List.range chains.length).filter fun a => b ∈ targets a)
        (fun a => if a < chains.length then (targets a).eraseDups else []) blocks' := by
  have hmain := foldlM_of_invariant (f := linkAll g position) (fun before blocks' =>
    Linked chains (fun b => before.filter fun a => b ∈ targets a)
      (fun a => if a ∈ before then (targets a).eraseDups else []) blocks')
      (l := List.range chains.length) (s := blocks) ?_ (by simpa using h)
  · simpa only [List.mem_range] using hmain
  · intro before a after blocks' hrange h'
    have ha : a < chains.length := by
      rw [← List.mem_range, hrange]
      simp
    have hnew : a ∉ before := by
      have hnodup := List.nodup_range (n := chains.length)
      rw [hrange] at hnodup
      exact fun hmem => (List.nodup_append.mp hnodup).2.2 a hmem a List.mem_cons_self rfl
    have hchain := List.getElem?_eq_getElem ha
    obtain ⟨blocks'', hfold, h''⟩ := h'.foldlM_link ha (if_neg hnew) (hlt a)
    refine ⟨blocks'', ?_, ?_⟩
    · simp only [linkAll, h'.get hchain, Option.bind_eq_bind, Option.bind_some, htargets a _ hchain]
      exact hfold
    · convert h'' using 1
      · funext b
        rw [List.filter_append]
        by_cases hb : b ∈ targets a <;> simp [hb]
      · funext x
        by_cases hx : x = a
        · subst hx
          simp
        · simp [hx]

end Linked

/-! ## All blocks -/

/-- The basic blocks of a graph. -/
noncomputable def build (g : AccessGraph) (reachable : Array Bool) : Option Blocks := do
  match g.root with
  | none => return ⟨#[], fun _ => none, none⟩
  | some root =>
    let (blocks, position) ← (← leaders g root reachable).foldlM (addBlock g root reachable)
      (#[], fun _ => none)
    let blocks ← (List.range blocks.size).foldlM (linkAll g position) blocks
    return ⟨blocks, position, (position root).map (·.1)⟩

theorem PlacedIn.lt_of_mem_exits {chains : List (List Nat)} {position : Nat → Option (Nat × Nat)}
    (h : PlacedIn chains position) {nodes : List Nat} {b : Nat} (hb : b ∈ exits g position nodes) :
    b < chains.length := by
  unfold exits at hb
  split at hb
  case h_1 =>
    obtain ⟨n, -, hn⟩ := List.mem_filterMap.mp hb
    obtain ⟨p, hp, rfl⟩ := Option.map_eq_some_iff.mp hn
    obtain ⟨c, hc, -⟩ := (h n p).mp hp
    exact (List.getElem?_eq_some_iff.mp hc).1
  case h_2 => exact absurd hb List.not_mem_nil

/-- The exits of the chain at a position. -/
def exitsAt (g : AccessGraph) (chains : List (List Nat)) (position : Nat → Option (Nat × Nat))
    (a : Nat) : List Nat :=
  exits g position (chains[a]?.getD [])

/-- Some chains, each linked to those that its exits lead to. -/
def LinkedByExits (g : AccessGraph) (chains : List (List Nat))
    (position : Nat → Option (Nat × Nat)) : Array Block → Prop :=
  Linked chains
    (fun b => (List.range chains.length).filter fun a => b ∈ exitsAt g chains position a)
    fun a => if a < chains.length then (exitsAt g chains position a).eraseDups else []

theorem chainsIn_of_no_root (h : g.root = none) (reachable : Array Bool) :
    g.chainsIn reachable = [] := by
  have horder : g.reversePostorder = [] := by
    unfold AccessGraph.reversePostorder
    rw [h]
  simp [AccessGraph.chainsIn, AccessGraph.leaders, horder]

/-- Building the blocks of a graph does not fail, whatever marks it goes by. -/
theorem exists_build (g : AccessGraph) (reachable : Array Bool) : ∃ blocks position,
    build g reachable = some ⟨blocks, position, g.root.bind fun r => (position r).map (·.1)⟩ ∧
      PlacedIn (g.chainsIn reachable) position ∧
      LinkedByExits g (g.chainsIn reachable) position blocks := by
  cases hroot : g.root with
  | none =>
    rw [chainsIn_of_no_root hroot]
    refine ⟨#[], fun _ => none, ?_, fun n p => by simp, rfl, fun hc => by simp at hc⟩
    rw [build, hroot]
    rfl
  | some root =>
    obtain ⟨⟨blocks, position⟩, hadd, hunlinked⟩ := exists_addBlocks hroot reachable
    obtain rfl : blocks = ((g.chainsIn reachable).map bare).toArray := hunlinked.blocks
    have hbare : Linked (g.chainsIn reachable) (fun _ => []) (fun _ => [])
        ((g.chainsIn reachable).map bare).toArray :=
      ⟨by simp, fun hc => by simp [hc, bare]⟩
    have hexits : ∀ a c, (g.chainsIn reachable)[a]? = some c →
        exits g position c = exitsAt g (g.chainsIn reachable) position a := by
      intro a c hc
      simp only [exitsAt, hc, Option.getD_some]
    obtain ⟨blocks, hlink, hlinked⟩ :=
      hbare.foldlM_linkAll hexits fun a b hb => hunlinked.placed.lt_of_mem_exits hb
    have hsize : ((g.chainsIn reachable).map bare).toArray.size =
        (g.chainsIn reachable).length := by
      simp
    refine ⟨blocks, position, ?_, hunlinked.placed, hlinked⟩
    unfold build
    simp only [hroot, Option.bind_eq_bind, leaders_eq hroot, Option.bind_some, hadd, hsize, hlink,
      Option.pure_def]

theorem position_eq {position : Nat → Option (Nat × Nat)} (h : PlacedIn g.chains position) :
    position = (Blocks.of (.ofGraph g)).position := by
  funext n
  refine Option.ext ?_
  rintro ⟨b, i⟩
  simp only [h n, Blocks.of, Option.map_eq_some_iff, Prod.exists, Prod.mk.injEq,
    BlockGraph.place?_eq_some]
  constructor
  · rintro ⟨c, hc, hi⟩
    have hb : b < (BlockGraph.ofGraph g).count := by
      have hlt := (List.getElem?_eq_some_iff.mp hc).1
      rwa [← List.size_toArray] at hlt
    have hnodes := BlockGraph.getElem?_chains (g := g) ⟨b, hb⟩
    obtain rfl := Option.some.inj (hc.symm.trans hnodes)
    exact ⟨⟨b, hb⟩, i, hi, rfl, rfl⟩
  · rintro ⟨c, j, hj, rfl, rfl⟩
    exact ⟨_, BlockGraph.getElem?_chains c, hj⟩

theorem eraseDups_map_val {n : Nat} (l : List (Fin n)) :
    (l.map Fin.val).eraseDups = l.eraseDups.map Fin.val := by
  induction h : l.length using Nat.strongRecOn generalizing l with
  | _ k ih =>
    cases l with
    | nil => rfl
    | cons a l =>
      have hlt : (l.filter fun b => !b == a).length < k := by
        have hle := List.length_filter_le (fun b => !b == a) l
        rw [List.length_cons] at h
        omega
      have hfilter : (l.map Fin.val).filter (fun m => !m == a.val) =
          (l.filter fun b => !b == a).map Fin.val := by
        rw [List.filter_map]
        congr 2
        funext b
        simp [Fin.ext_iff]
      rw [List.map_cons, List.eraseDups_cons, List.eraseDups_cons, hfilter, ih _ hlt _ rfl,
        List.map_cons]

theorem eraseDups_exits_eq {chains : Array (List Nat)}
    {places : Array (Option (Fin chains.size × Nat))} {position : Nat → Option (Nat × Nat)}
    (hposition : ∀ n, position n = (places[n]?.join).map fun p => (p.1.val, p.2)) {a : Nat}
    (ha : a < chains.size) : (exits g position chains[a]).eraseDups =
      (BlockGraph.targets g chains places ⟨a, ha⟩).map Fin.val := by
  unfold exits BlockGraph.targets
  simp only [Fin.getElem_fin]
  cases chains[a].getLast? with
  | none => rfl
  | some last =>
    simp only
    rw [← eraseDups_map_val, List.map_filterMap]
    simp only [hposition, Option.map_map, Function.comp_def]

/-- The exits of a block are its successors. -/
theorem eraseDups_exits (b : Fin (BlockGraph.ofGraph g).count) :
    (exits g (Blocks.of (.ofGraph g)).position ((BlockGraph.ofGraph g).nodes b)).eraseDups =
      ((BlockGraph.ofGraph g).successors b).map Fin.val := by
  rw [BlockGraph.successors_ofGraph, BlockGraph.nodes_ofGraph b b.isLt]
  exact eraseDups_exits_eq (fun _ => rfl) b.isLt

theorem mem_exits {a b : Fin (BlockGraph.ofGraph g).count} :
    b.val ∈ exits g (Blocks.of (.ofGraph g)).position ((BlockGraph.ofGraph g).nodes a) ↔
      b ∈ (BlockGraph.ofGraph g).successors a := by
  rw [← List.mem_eraseDups, eraseDups_exits, List.mem_map]
  constructor
  · rintro ⟨c, hc, hval⟩
    exact Fin.ext hval ▸ hc
  · intro h
    exact ⟨b, h, rfl⟩

theorem predecessors_eq_filter (b : Fin (BlockGraph.ofGraph g).count) :
    (BlockGraph.ofGraph g).predecessors b = (List.finRange (BlockGraph.ofGraph g).count).filter
      fun a => b ∈ (BlockGraph.ofGraph g).successors a := by
  rw [BlockGraph.predecessors_ofGraph]
  unfold BlockGraph.sources
  refine List.filter_congr ?_
  intro a _
  rw [BlockGraph.successors_ofGraph a]
  simp
  rfl

theorem size_blocks : (Blocks.of (.ofGraph g)).blocks.size = g.chains.length := by
  simp only [Blocks.of, Array.size_map, Vector.size_toArray]
  exact List.size_toArray

theorem exitsAt_eq (a : Fin (BlockGraph.ofGraph g).count) :
    exitsAt g g.chains (Blocks.of (.ofGraph g)).position a =
      exits g (Blocks.of (.ofGraph g)).position ((BlockGraph.ofGraph g).nodes a) := by
  simp only [exitsAt, BlockGraph.getElem?_chains a, Option.getD_some]

/-- The chains, linked by their exits, are the blocks. -/
theorem blocks_eq {blocks : Array Block}
    (h : LinkedByExits g g.chains (Blocks.of (.ofGraph g)).position blocks) :
    blocks = (Blocks.of (.ofGraph g)).blocks := by
  have hcount : (BlockGraph.ofGraph g).count = g.chains.length := rfl
  refine Array.ext_getElem? ?_
  intro i
  by_cases hi : i < g.chains.length
  · obtain ⟨b, rfl⟩ : ∃ b : Fin (BlockGraph.ofGraph g).count, b.val = i := ⟨⟨i, hi⟩, rfl⟩
    have hpred : ((List.range g.chains.length).filter fun a =>
        b.val ∈ exitsAt g g.chains (Blocks.of (.ofGraph g)).position a) =
          ((BlockGraph.ofGraph g).predecessors b).map Fin.val := by
      rw [predecessors_eq_filter, ← hcount, ← List.map_coe_finRange_eq_range, List.filter_map]
      refine congrArg _ (List.filter_congr ?_)
      intro a _
      simp only [Function.comp_def, exitsAt_eq a, decide_eq_decide]
      exact mem_exits
    rw [h.get (BlockGraph.getElem?_chains b), getElem?_blocks, hpred]
    simp only [if_pos hi, exitsAt_eq b, eraseDups_exits]
  · rw [Array.getElem?_eq_none (by rw [h.size]; omega),
      Array.getElem?_eq_none (by rw [size_blocks]; omega)]

/-- Building the blocks of a graph does not fail, and gives the blocks of the definition. -/
theorem build_eq (g : AccessGraph) : build g g.reachable = some (.of (.ofGraph g)) := by
  obtain ⟨blocks, position, hbuild, hplaced, hlinked⟩ := exists_build g g.reachable
  obtain rfl := position_eq hplaced
  obtain rfl := blocks_eq hlinked
  have hentry : (Blocks.of (.ofGraph g)).entry =
      g.root.bind fun r => ((Blocks.of (.ofGraph g)).position r).map (·.1) := by
    cases hroot : g.root with
    | none => simp only [Blocks.of, BlockGraph.ofGraph, hroot, Option.bind_none, Option.map_none]
    | some root =>
      simp only [Blocks.of, Option.map_map, BlockGraph.ofGraph, hroot, Option.bind_some]
      rfl
  rw [hbuild, ← hentry]

end Checked

end MemDep
