import Mathlib.Data.List.Induction
import Mathlib.Data.List.Sort
import MemDep.Proofs.PointsTo.Findings

/-!
# The findings on edges, in order

The check of edges looks at one site after the other: the root, for each node its id, whether it has
predecessors, and the entries of its two edge lists, and at last once more each node, for whether the
root leads to it. Its findings are the faults at these sites, once each and in this order
(`checkEdges_enumerates_faults`). Nothing is assumed of the graph, so no fault hides another one.
-/

namespace MemDep

open Relation

/-! ## Sites -/

/-- Something that the check of edges looks at. -/
inductive EdgeSite where
  /-- The root. -/
  | root
  /-- The id of a node. -/
  | id (position : Nat)
  /-- Whether a node has predecessors. -/
  | entrance (position : Nat)
  /-- An entry of the successors of a node. -/
  | successor (position entry : Nat)
  /-- An entry of the predecessors of a node. -/
  | predecessor (position entry : Nat)
  /-- Whether the root leads to a node. -/
  | reach (position : Nat)
deriving DecidableEq, Repr

namespace EdgeSite

/-- Sites are looked at in the lexicographic order of their ranks. -/
def rank : EdgeSite → List Nat
  | root => [0]
  | id position => [1, position, 0]
  | entrance position => [1, position, 1]
  | successor position entry => [1, position, 2, entry]
  | predecessor position entry => [1, position, 3, entry]
  | reach position => [2, position]

/-- The site is at a node, and is looked at with the node's edges. -/
def IsAt (position : Nat) : EdgeSite → Prop
  | root | reach _ => False
  | id p | entrance p | successor p _ | predecessor p _ => p = position

theorem IsAt.rank_lt {p q : Nat} {x y : EdgeSite} (hx : x.IsAt p) (hy : y.IsAt q) (h : p < q) :
    x.rank < y.rank := by
  cases x <;> cases y <;> simp_all [IsAt, rank, List.cons_lt_cons_iff]

theorem IsAt.root_lt {p : Nat} {x : EdgeSite} (hx : x.IsAt p) : root.rank < x.rank := by
  cases x <;> simp_all [IsAt, rank, List.cons_lt_cons_iff]

theorem IsAt.lt_reach {p : Nat} {x : EdgeSite} (hx : x.IsAt p) (q : Nat) :
    x.rank < (reach q).rank := by
  cases x <;> simp_all [IsAt, rank, List.cons_lt_cons_iff]

end EdgeSite

/-! ## Enumerations -/

/-- Findings that report what a relation between sites and findings holds of, once each and in the order
of the sites. -/
def Enumerates (findings : List Finding) (R : EdgeSite → Finding → Prop) : Prop :=
  ∃ faults : List (EdgeSite × Finding), faults.map Prod.snd = findings ∧
    (faults.Pairwise fun x y => x.1.rank < y.1.rank) ∧ ∀ x f, (x, f) ∈ faults ↔ R x f

namespace Enumerates

variable {findings findings' : List Finding} {R R' : EdgeSite → Finding → Prop}

theorem congr (h : Enumerates findings R) (hR : ∀ x f, R x f ↔ R' x f) : Enumerates findings R' := by
  obtain ⟨faults, hmap, hsorted, hmem⟩ := h
  exact ⟨faults, hmap, hsorted, fun x f => (hmem x f).trans (hR x f)⟩

/-- The relation determines the findings. -/
theorem unique (h : Enumerates findings R) (h' : Enumerates findings' R) : findings = findings' := by
  obtain ⟨faults, rfl, hsorted, hmem⟩ := h
  obtain ⟨faults', rfl, hsorted', hmem'⟩ := h'
  have : Std.Asymm fun x y : EdgeSite × Finding => x.1.rank < y.1.rank := ⟨fun _ _ => List.lt_asymm⟩
  rw [hsorted.eq_of_mem_iff hsorted' fun x => (hmem x.1 x.2).trans (hmem' x.1 x.2).symm]

theorem nil (h : ∀ x f, ¬ R x f) : Enumerates [] R :=
  ⟨[], rfl, .nil, fun x f => by simp [h x f]⟩

/-- At most one finding, which reports what the relation says of a single site. -/
theorem at_most_one (x : EdgeSite) (h : findings.length ≤ 1) (hR : ∀ f, f ∈ findings ↔ R x f) :
    Enumerates findings fun y f => y = x ∧ R y f := by
  refine ⟨findings.map (x, ·), by simp [Function.comp_def], ?_, ?_⟩
  · match findings, h with
    | [], _ => exact .nil
    | [f], _ => exact List.pairwise_singleton _ _
  · intro y f
    rw [List.mem_map]
    constructor
    · rintro ⟨f, hf, ⟨⟩⟩
      exact ⟨rfl, (hR f).mp hf⟩
    · rintro ⟨rfl, hf⟩
      exact ⟨f, (hR f).mpr hf, rfl⟩

theorem append (h : Enumerates findings R) (h' : Enumerates findings' R')
    (hlt : ∀ x f y k, R x f → R' y k → x.rank < y.rank) :
    Enumerates (findings ++ findings') fun x f => R x f ∨ R' x f := by
  obtain ⟨faults, rfl, hsorted, hmem⟩ := h
  obtain ⟨faults', rfl, hsorted', hmem'⟩ := h'
  refine ⟨faults ++ faults', by simp, List.pairwise_append.mpr ⟨hsorted, hsorted', ?_⟩, ?_⟩
  · intro x hx y hy
    exact hlt x.1 x.2 y.1 y.2 ((hmem _ _).mp hx) ((hmem' _ _).mp hy)
  · intro x f
    rw [List.mem_append, hmem, hmem']

/-- Findings on the elements of a list, each with its position. -/
theorem flatMap {α : Type} {report : α × Nat → List Finding}
    {R : α → Nat → EdgeSite → Finding → Prop} (l : List α)
    (h : ∀ p a, l[p]? = some a → Enumerates (report (a, p)) (R a p))
    (hlt : ∀ a b p q x y f k, p < q → R a p x f → R b q y k → x.rank < y.rank) :
    Enumerates (l.zipIdx.flatMap report) fun x f => ∃ p a, l[p]? = some a ∧ R a p x f := by
  -- from the end, as an element comes after all those before it
  induction l using List.reverseRecOn with
  | nil => exact nil (by simp)
  | append_singleton l a ih =>
    have hlen : ∀ {p b}, l[p]? = some b → p < l.length := fun hb =>
      (List.getElem?_eq_some_iff.mp hb).1
    have hmem : ∀ {p b}, l[p]? = some b → (l ++ [a])[p]? = some b := fun hb => by
      rw [List.getElem?_append_left (hlen hb), hb]
    have hinit := ih fun p b hb => h p b (hmem hb)
    have hlast := h l.length a List.getElem?_concat_length
    have hboth := hinit.append hlast fun x f y k ⟨p, b, hb, hx⟩ hy =>
      hlt b a p l.length x y f k (hlen hb) hx hy
    rw [List.zipIdx_append, List.flatMap_append]
    simp only [List.zipIdx_singleton, List.flatMap_singleton, Nat.zero_add]
    refine hboth.congr fun x f => ⟨?_, ?_⟩
    · rintro (⟨p, b, hb, hx⟩ | hx)
      · exact ⟨p, b, hmem hb, hx⟩
      · exact ⟨l.length, a, List.getElem?_concat_length, hx⟩
    · rintro ⟨p, b, hb, hx⟩
      rcases Nat.lt_or_ge p l.length with hp | hp
      · rw [List.getElem?_append_left hp] at hb
        exact .inl ⟨p, b, hb, hx⟩
      · rw [List.getElem?_append_right hp, List.getElem?_singleton] at hb
        obtain ⟨hp', rfl⟩ : p - l.length = 0 ∧ a = b := by simpa using hb
        rw [show p = l.length by omega] at hx
        exact .inr hx

/-- One finding for each entry of a list that passes a test, if that is what the relation says of the
site of the entry. -/
theorem entries {α : Type} (site : Nat → EdgeSite)
    (hsite : ∀ i j, i < j → (site i).rank < (site j).rank) (l : List α) (test : α → Bool)
    (finding : Finding)
    (hR : ∀ i f, R (site i) f ↔ ∃ a, l[i]? = some a ∧ test a ∧ f = finding) :
    Enumerates ((l.filter test).map fun _ => finding) fun x f => (∃ i, x = site i) ∧ R x f := by
  have hreport : (l.filter test).map (fun _ => finding) =
      l.zipIdx.flatMap fun a => if test a.1 then [finding] else [] := by
    conv_lhs => rw [← List.zipIdx_map_fst 0 l]
    generalize l.zipIdx = l
    induction l with
    | nil => rfl
    | cons a l ih => by_cases ha : test a.1 <;> simp [ha, ih]
  have hentry : ∀ i a, l[i]? = some a → Enumerates (if test a then [finding] else [])
      fun x f => x = site i ∧ R x f := by
    intro i a ha
    refine at_most_one (site i) (by split <;> simp) fun f => ?_
    rw [hR]
    simp [ha]
  rw [hreport]
  refine (flatMap l hentry ?_).congr fun x f => ⟨?_, ?_⟩
  · rintro a b i j x y f k hij ⟨rfl, _⟩ ⟨rfl, _⟩
    exact hsite i j hij
  · rintro ⟨i, a, _, rfl, hx⟩
    exact ⟨⟨i, rfl⟩, hx⟩
  · rintro ⟨⟨i, rfl⟩, hx⟩
    obtain ⟨a, ha, _⟩ := (hR i f).mp hx
    exact ⟨i, a, ha, rfl, hx⟩

end Enumerates

namespace PointerGraph

/-! ## Faults -/

/-- The root leads to a node along edges between nodes. -/
def Connected (g : PointerGraph) (n : Nat) : Prop :=
  ∃ r, g.root = some r ∧ r < g.size ∧ ReflTransGen g.digraph.Arc r n

/-- What is wrong at a site, as it is reported. A node is found by its position, and reported with the
id that it carries. -/
def FaultAt (g : PointerGraph) (s : ValidatorSettings) : EdgeSite → Finding → Prop
  | .root, f => ∃ r, g.root = some r ∧ ¬ r < g.size ∧ f = .invalidRoot r
  | .id p, f => ∃ node, g.node? p = some node ∧ node.id ≠ p ∧ f = .misplaced node.kind node.id p
  | .entrance p, f => ∃ node, g.node? p = some node ∧ s.checkConnectivity = true ∧
      g.Disconnected p node ∧ f = .invalidEdges node.kind node.id .noPredecessor
  | .successor p i, f => ∃ node, g.node? p = some node ∧ ∃ b, node.successors[i]? = some b ∧
      (¬ b < g.size ∨ p ∉ g.predecessors b) ∧
      f = .invalidEdges node.kind node.id .missingPredecessor
  | .predecessor p i, f => ∃ node, g.node? p = some node ∧ ∃ a, node.predecessors[i]? = some a ∧
      (¬ a < g.size ∨ p ∉ g.successors a) ∧
      f = .invalidEdges node.kind node.id .missingSuccessor
  | .reach p, f => ∃ node, g.node? p = some node ∧ s.checkConnectivity = true ∧
      node.kind.canFloat = false ∧ ¬ g.Connected p ∧ f = .unreachable node.kind node.id

variable {g : PointerGraph} {s : ValidatorSettings} {p : Nat} {node : PointerNode}

theorem marked_reachable : Digraph.Marked g.reachable p ↔ g.Connected p := by
  unfold reachable Connected
  rw [Digraph.marked_reach]
  simp [digraph]

/-- Nothing outside the graph lists anything. -/
theorem le_or_not_mem_predecessors {a b : Nat} :
    g.size ≤ b ∨ a ∉ g.predecessors b ↔ a ∉ g.predecessors b :=
  or_iff_right_of_imp fun hle hmem => absurd (lt_of_mem_predecessors hmem) (Nat.not_lt.mpr hle)

theorem le_or_not_mem_successors {a b : Nat} :
    g.size ≤ a ∨ b ∉ g.successors a ↔ b ∉ g.successors a :=
  or_iff_right_of_imp fun hle hmem => absurd (lt_of_mem_successors hmem) (Nat.not_lt.mpr hle)

/-- The findings on the edges of one node. -/
theorem edgeFindings_enumerates (hn : g.node? p = some node) :
    Enumerates (g.edgeFindings s p node) fun x f => x.IsAt p ∧ g.FaultAt s x f := by
  have hid : Enumerates (if node.id ≠ p then [.misplaced node.kind node.id p] else [])
      fun x f => x = .id p ∧ g.FaultAt s x f :=
    .at_most_one (.id p) (by split <;> simp) fun f => by simp [FaultAt, hn]
  have hentrance : Enumerates (if s.checkConnectivity && node.predecessors.isEmpty &&
      g.root != some p && !node.kind.canFloat then
      [.invalidEdges node.kind node.id .noPredecessor] else [])
      fun x f => x = .entrance p ∧ g.FaultAt s x f :=
    .at_most_one (.entrance p) (by split <;> simp) fun f => by
      simp [FaultAt, Disconnected, hn, and_assoc]
  have hsuccessors : Enumerates
      ((node.successors.filter fun b => !(g.predecessors b).contains p).map
        fun _ => .invalidEdges node.kind node.id .missingPredecessor)
      fun x f => (∃ i, x = .successor p i) ∧ g.FaultAt s x f := by
    refine .entries (.successor p) ?_ _ _ _ fun i f => ?_
    · intro i j hij
      simp [EdgeSite.rank, List.cons_lt_cons_iff, hij]
    · simp [FaultAt, hn, le_or_not_mem_predecessors]
  have hpredecessors : Enumerates
      ((node.predecessors.filter fun a => !(g.successors a).contains p).map
        fun _ => .invalidEdges node.kind node.id .missingSuccessor)
      fun x f => (∃ i, x = .predecessor p i) ∧ g.FaultAt s x f := by
    refine .entries (.predecessor p) ?_ _ _ _ fun i f => ?_
    · intro i j hij
      simp [EdgeSite.rank, List.cons_lt_cons_iff, hij]
    · simp [FaultAt, hn, le_or_not_mem_successors]
  unfold edgeFindings
  refine (((hid.append hentrance ?_).append hsuccessors ?_).append hpredecessors ?_).congr ?_
  · rintro x f y k ⟨rfl, _⟩ ⟨rfl, _⟩
    simp [EdgeSite.rank, List.cons_lt_cons_iff]
  · rintro x f y k (⟨rfl, _⟩ | ⟨rfl, _⟩) ⟨⟨i, rfl⟩, _⟩ <;>
      simp [EdgeSite.rank, List.cons_lt_cons_iff]
  · rintro x f y k ((⟨rfl, _⟩ | ⟨rfl, _⟩) | ⟨⟨i, rfl⟩, _⟩) ⟨⟨j, rfl⟩, _⟩ <;>
      simp [EdgeSite.rank, List.cons_lt_cons_iff]
  · intro x f
    cases x <;> simp [EdgeSite.IsAt]

/-- The findings on nodes that the root does not lead to. -/
theorem unreachableFindings_enumerates (hs : s.checkConnectivity = true) :
    Enumerates g.unreachableFindings fun x f => (∃ p, x = .reach p) ∧ g.FaultAt s x f := by
  have hnode : ∀ p (node : PointerNode), g.nodes.toList[p]? = some node →
      Enumerates (if g.reachable[p]? = some true || node.kind.canFloat then none
        else some (Finding.unreachable node.kind node.id)).toList
        fun x f => x = .reach p ∧ g.FaultAt s x f := by
    intro p node hn
    refine .at_most_one (.reach p) Option.length_toList_le fun f => ?_
    have hn : g.node? p = some node := by simpa [node?] using hn
    simp [FaultAt, hn, hs, ← marked_reachable, Digraph.Marked, eq_comm (a := f), and_left_comm,
      and_assoc]
  unfold unreachableFindings
  rw [List.filterMap_eq_flatMap_toList]
  refine (Enumerates.flatMap _ hnode ?_).congr fun x f => ⟨?_, ?_⟩
  · rintro a b p q x y f k hpq ⟨rfl, _⟩ ⟨rfl, _⟩
    simp [EdgeSite.rank, List.cons_lt_cons_iff, hpq]
  · rintro ⟨p, node, _, rfl, h⟩
    exact ⟨⟨p, rfl⟩, h⟩
  · rintro ⟨⟨p, rfl⟩, node, hn, hfault⟩
    exact ⟨p, node, by simpa [node?] using hn, rfl, node, hn, hfault⟩

/-- Faults are at the root, at a node, or where the root should lead. -/
theorem FaultAt.site {x : EdgeSite} {f : Finding} (h : g.FaultAt s x f) :
    x = .root ∨ (∃ p node, g.node? p = some node ∧ x.IsAt p) ∨ ∃ p, x = .reach p := by
  cases x with
  | root => exact .inl rfl
  | id p | entrance p | successor p _ | predecessor p _ =>
    obtain ⟨node, hn, _⟩ := h
    exact .inr (.inl ⟨p, node, hn, rfl⟩)
  | reach p => exact .inr (.inr ⟨p, rfl⟩)

/-- The check of edges reports what is wrong with them, once each and in order, and the search from the
root marks what the root leads to. -/
theorem checkEdges_enumerates_faults (g : PointerGraph) (s : ValidatorSettings) :
    Enumerates (g.checkEdges s).findings (g.FaultAt s) ∧ g.reachable.size = g.size ∧
      ∀ p, g.reachable[p]? = some true ↔ g.Connected p := by
  refine ⟨?_, Digraph.size_reach _ _, fun p => marked_reachable⟩
  have hroot : Enumerates g.rootFinding?.toList fun x f => x = .root ∧ g.FaultAt s x f :=
    .at_most_one .root Option.length_toList_le fun f =>
      Option.mem_toList.trans rootFinding?_eq_some
  have hnodes : Enumerates
      (g.nodes.toList.zipIdx.flatMap fun n => g.edgeFindings s n.2 n.1)
      fun x f => (∃ p node, g.node? p = some node ∧ x.IsAt p) ∧ g.FaultAt s x f := by
    have hnode : ∀ p node, g.nodes.toList[p]? = some node → g.node? p = some node := by
      simp [node?]
    refine (Enumerates.flatMap _ (fun p node hn => edgeFindings_enumerates (hnode p node hn))
      ?_).congr fun x f => ⟨?_, ?_⟩
    · rintro a b p q x y f k hpq ⟨hx, _⟩ ⟨hy, _⟩
      exact hx.rank_lt hy hpq
    · rintro ⟨p, node, hn, hx, h⟩
      exact ⟨⟨p, node, hnode p node hn, hx⟩, h⟩
    · rintro ⟨⟨p, node, hn, hx⟩, h⟩
      exact ⟨p, node, by simpa [node?] using hn, hx, h⟩
  have hreach : Enumerates (if s.checkConnectivity then g.unreachableFindings else [])
      fun x f => (∃ p, x = .reach p) ∧ g.FaultAt s x f := by
    cases hs : s.checkConnectivity with
    | false =>
      refine .nil ?_
      rintro _ f ⟨⟨p, rfl⟩, node, _, hs', _⟩
      simp [hs] at hs'
    | true => exact unreachableFindings_enumerates hs
  unfold checkEdges
  refine ((hroot.append hnodes ?_).append hreach ?_).congr fun x f => ⟨?_, fun h => ?_⟩
  · rintro _ f y k ⟨rfl, _⟩ ⟨⟨q, _, _, hy⟩, _⟩
    exact hy.root_lt
  · rintro x f _ k (⟨rfl, _⟩ | ⟨⟨p, _, _, hx⟩, _⟩) ⟨⟨q, rfl⟩, _⟩
    · simp [EdgeSite.rank, List.cons_lt_cons_iff]
    · exact hx.lt_reach q
  · rintro ((⟨_, h⟩ | ⟨_, h⟩) | ⟨_, h⟩) <;> exact h
  · rcases h.site with hx | hx | hx
    · exact .inl (.inl ⟨hx, h⟩)
    · exact .inl (.inr ⟨hx, h⟩)
    · exact .inr ⟨hx, h⟩

/-- The root does not exist, node 0 carries a wrong id and leads out of the graph, and node 1 lists node
0 as a predecessor that does not lead to it. -/
def tangled : PointerGraph where
  nodes := #[
    ⟨5, .alloc, [], [7, 2], []⟩,
    ⟨1, .noop, [], [], [0]⟩,
    ⟨2, .constant, [], [], [0]⟩]
  root := some 3

example : (tangled.checkEdges ⟨true⟩).findings = [.invalidRoot 3, .misplaced .alloc 5 0,
    .invalidEdges .alloc 5 .noPredecessor, .invalidEdges .alloc 5 .missingPredecessor,
    .invalidEdges .noop 1 .missingSuccessor, .unreachable .alloc 5, .unreachable .noop 1] := by
  decide +kernel

end PointerGraph

end MemDep
