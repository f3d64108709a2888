import MemDep.Proofs.AccessGraph.Chains

/-!
# Basic blocks

The blocks of a graph are its chains. Every block is reached from the block of the root along edges
between blocks, also in a malformed graph; so going back from a block through single predecessors
never comes back to it. Without asymmetric edges, the edges of the graph are those inside the
blocks and those from the end of a block to the start of a block.
-/

namespace MemDep

namespace BlockGraph

open Relation

/-! ## The blocks of a graph as data -/

theorem nodes_mk {count : Nat} {f : Fin count → Block count}
    {places : Array (Option (Fin count × Nat))} {entry : Option (Fin count)} (b : Fin count) :
    (BlockGraph.mk count (Vector.ofFn f) places entry).nodes b = (f b).nodes := by
  simp [nodes]

theorem predecessors_mk {count : Nat} {f : Fin count → Block count}
    {places : Array (Option (Fin count × Nat))} {entry : Option (Fin count)} (b : Fin count) :
    (BlockGraph.mk count (Vector.ofFn f) places entry).predecessors b = (f b).predecessors := by
  simp [predecessors]

theorem successors_mk {count : Nat} {f : Fin count → Block count}
    {places : Array (Option (Fin count × Nat))} {entry : Option (Fin count)} (b : Fin count) :
    (BlockGraph.mk count (Vector.ofFn f) places entry).successors b = (f b).successors := by
  simp [successors]

variable {g : AccessGraph}

theorem nodes_ofGraph (b : Fin (ofGraph g).count) (hb : b.val < g.chains.toArray.size) :
    (ofGraph g).nodes b = g.chains.toArray[b.val] :=
  nodes_mk b

theorem getElem?_chains (b : Fin (ofGraph g).count) :
    g.chains[b.val]? = some ((ofGraph g).nodes b) := by
  rw [nodes_ofGraph b b.isLt, ← List.getElem?_toArray]
  exact Array.getElem?_eq_getElem b.isLt

theorem successors_ofGraph (b : Fin (ofGraph g).count) :
    (ofGraph g).successors b = targets g g.chains.toArray (placesIn g.chains.toArray g.size) b := by
  refine (successors_mk b).trans ?_
  exact Vector.getElem_ofFn b.isLt

theorem mem_sources {count : Nat} {f : Fin count → List (Fin count)} {a b : Fin count} :
    a ∈ sources (Vector.ofFn f) b ↔ b ∈ f a := by
  simp [sources]

theorem nodup_sources {count : Nat} (successors : Vector (List (Fin count)) count) (b : Fin count) :
    (sources successors b).Nodup :=
  (List.nodup_finRange count).filter _

theorem predecessors_ofGraph (b : Fin (ofGraph g).count) : (ofGraph g).predecessors b =
    sources (Vector.ofFn (targets g g.chains.toArray (placesIn g.chains.toArray g.size))) b :=
  predecessors_mk b

theorem mem_predecessors {a b : Fin (ofGraph g).count} :
    a ∈ (ofGraph g).predecessors b ↔ b ∈ (ofGraph g).successors a := by
  rw [predecessors_ofGraph, successors_ofGraph]
  exact mem_sources

theorem nodup_predecessors (b : Fin (ofGraph g).count) : ((ofGraph g).predecessors b).Nodup := by
  rw [predecessors_ofGraph]
  exact nodup_sources _ b

theorem getElem?_placesIn {chains : Array (List Nat)} {size n : Nat} (hn : n < size) :
    (placesIn chains size)[n]?.join =
      (List.finRange chains.size).findSome? fun b => (chains[b].idxOf? n).map (b, ·) := by
  simp [placesIn, hn]

theorem mem_of_place {chains : Array (List Nat)} {size n i b : Nat} {hb : b < chains.size}
    (h : (placesIn chains size)[n]?.join = some (⟨b, hb⟩, i)) : chains[b][i]? = some n := by
  have hn : n < size := by
    by_contra hn
    simp [placesIn, hn] at h
  rw [getElem?_placesIn hn] at h
  obtain ⟨c, _, hc⟩ := List.exists_of_findSome?_eq_some h
  obtain ⟨j, hj, hji⟩ := Option.map_eq_some_iff.mp hc
  obtain ⟨rfl, rfl⟩ := Prod.mk.inj hji
  obtain ⟨hlt, hget, _⟩ := List.idxOf?_eq_some_iff.mp hj
  exact List.getElem?_eq_some_iff.mpr ⟨hlt, hget⟩

theorem exists_place {chains : Array (List Nat)} {size n b : Nat} (hn : n < size)
    {hb : b < chains.size} (h : n ∈ chains[b]) : ∃ p, (placesIn chains size)[n]?.join = some p := by
  rw [getElem?_placesIn hn, ← Option.isSome_iff_exists, List.findSome?_isSome_iff]
  refine ⟨⟨b, hb⟩, List.mem_finRange _, ?_⟩
  rw [Option.isSome_map, List.isSome_idxOf?]
  exact h

/-- The place of a node is where it stands in a block. -/
theorem place?_eq_some {n i : Nat} {b : Fin (ofGraph g).count} :
    (ofGraph g).place? n = some (b, i) ↔ ((ofGraph g).nodes b)[i]? = some n := by
  have hat : ∀ {c : Fin (ofGraph g).count} {j : Nat}, (ofGraph g).place? n = some (c, j) →
      ((ofGraph g).nodes c)[j]? = some n := by
    intro c j h
    rw [nodes_ofGraph c c.isLt]
    exact mem_of_place h
  refine ⟨hat, ?_⟩
  intro h
  have hmem : n ∈ (ofGraph g).nodes b := List.mem_of_getElem? h
  have hlt : n < g.size := by
    have hplaced : g.Placed n := ⟨_, List.mem_of_getElem? (getElem?_chains b), hmem⟩
    exact hplaced.reached.lt
  rw [nodes_ofGraph b b.isLt] at hmem
  obtain ⟨⟨c, j⟩, hc⟩ := exists_place hlt hmem
  obtain ⟨hbc, hij⟩ := AccessGraph.chains_unique (getElem?_chains b) (getElem?_chains c) h (hat hc)
  obtain rfl : b = c := Fin.ext hbc
  rw [hij]
  exact hc

theorem mem_targets {chains : Array (List Nat)} {places : Array (Option (Fin chains.size × Nat))}
    {a : Nat} {ha : a < chains.size} {b : Fin chains.size} :
    b ∈ targets g chains places ⟨a, ha⟩ ↔ ∃ last, chains[a].getLast? = some last ∧
      ∃ n ∈ g.successors last, ∃ i, places[n]?.join = some (b, i) := by
  unfold targets
  simp only [Fin.getElem_fin]
  split
  case h_1 last hlast =>
    rw [hlast]
    simp
  case h_2 hnone =>
    rw [hnone]
    simp

theorem mem_successors {a b : Fin (ofGraph g).count} : b ∈ (ofGraph g).successors a ↔
    ∃ last, ((ofGraph g).nodes a).getLast? = some last ∧
      ∃ n ∈ g.successors last, ∃ i : Nat, ((ofGraph g).nodes b)[i]? = some n := by
  rw [successors_ofGraph, nodes_ofGraph a a.isLt]
  refine mem_targets.trans ?_
  simp only [← place?_eq_some]
  rfl

/-! ## Nodes of blocks -/

theorem place_unique {b c : Fin (ofGraph g).count} {i j n : Nat}
    (hi : ((ofGraph g).nodes b)[i]? = some n) (hj : ((ofGraph g).nodes c)[j]? = some n) :
    b = c ∧ i = j := by
  have heq := (place?_eq_some.mpr hi).symm.trans (place?_eq_some.mpr hj)
  simpa using heq

theorem placed_of_getElem? {b : Fin (ofGraph g).count} {i n : Nat}
    (h : ((ofGraph g).nodes b)[i]? = some n) : g.Placed n :=
  ⟨_, List.mem_of_getElem? (getElem?_chains b), List.mem_of_getElem? h⟩

theorem exists_getElem?_of_placed {n : Nat} (h : g.Placed n) :
    ∃ (b : Fin (ofGraph g).count) (i : Nat), ((ofGraph g).nodes b)[i]? = some n := by
  obtain ⟨c, hc, hn⟩ := h
  obtain ⟨p, hp⟩ := List.mem_iff_getElem?.mp hc
  obtain ⟨i, hi⟩ := List.mem_iff_getElem?.mp hn
  have hlt : p < (ofGraph g).count := by
    have := (List.getElem?_eq_some_iff.mp hp).1
    rwa [← List.size_toArray] at this
  refine ⟨⟨p, hlt⟩, i, ?_⟩
  have hb := getElem?_chains (g := g) ⟨p, hlt⟩
  rw [hp] at hb
  rw [← Option.some.inj hb]
  exact hi

theorem exists_first (b : Fin (ofGraph g).count) : ∃ n, ((ofGraph g).nodes b)[0]? = some n := by
  obtain ⟨a, _, ha⟩ := AccessGraph.getElem?_chains.mp (getElem?_chains b)
  exact ⟨a, by rw [← ha, AccessGraph.getElem?_zero_chainFrom]⟩

/-- Neighbours in a block are joined by a continuation. -/
theorem continues_of_getElem? {b : Fin (ofGraph g).count} {i m n : Nat}
    (hm : ((ofGraph g).nodes b)[i]? = some m) (hn : ((ofGraph g).nodes b)[i + 1]? = some n) :
    g.Continues m n := by
  obtain ⟨a, hleader, ha⟩ := AccessGraph.getElem?_chains.mp (getElem?_chains b)
  have hreached := (AccessGraph.mem_leaders.mp (List.mem_of_getElem? hleader)).1
  rw [← ha] at hm hn
  exact (rel_of_isChain (AccessGraph.isChain_chainFrom g.size hreached) hm hn).2

/-- A node leads to the next one in its block, or to a block if it is the last one. -/
theorem of_mem_successors_of_getElem? {a b : Fin (ofGraph g).count} {i j m n : Nat}
    (hm : ((ofGraph g).nodes a)[i]? = some m) (hn : ((ofGraph g).nodes b)[j]? = some n)
    (h : n ∈ g.successors m) :
    a = b ∧ j = i + 1 ∨ ((ofGraph g).nodes a).getLast? = some m ∧ b ∈ (ofGraph g).successors a := by
  have hi := (List.getElem?_eq_some_iff.mp hm).1
  by_cases hlt : i + 1 < ((ofGraph g).nodes a).length
  · left
    have hnext := List.getElem?_eq_getElem hlt
    rw [(AccessGraph.continues_iff.mp (continues_of_getElem? hm hnext)).1] at h
    rw [List.mem_singleton.mp h] at hn
    obtain ⟨hab, hij⟩ := place_unique hnext hn
    exact ⟨hab, hij.symm⟩
  · right
    have hlast : ((ofGraph g).nodes a).getLast? = some m := by
      rw [List.getLast?_eq_getElem?, ← hm]
      congr 1
      omega
    exact ⟨hlast, mem_successors.mpr ⟨m, hlast, n, h, j, hn⟩⟩

/-! ## Every block is reached -/

theorem entry_eq_some {e : Fin (ofGraph g).count} :
    (ofGraph g).entry = some e ↔
      ∃ r, g.root = some r ∧ ∃ i : Nat, ((ofGraph g).nodes e)[i]? = some r := by
  have hentry : (ofGraph g).entry = g.root.bind fun r => ((ofGraph g).place? r).map (·.1) := rfl
  rw [hentry, Option.bind_eq_some_iff]
  simp only [Option.map_eq_some_iff, Prod.exists, ← place?_eq_some]
  simp

/-- The block of the root leads to every block. -/
theorem reaches_of_entry {e : Fin (ofGraph g).count} (he : (ofGraph g).entry = some e)
    (b : Fin (ofGraph g).count) :
    ReflTransGen (fun a b => b ∈ (ofGraph g).successors a) e b := by
  obtain ⟨r, hr, k, hk⟩ := entry_eq_some.mp he
  obtain ⟨n, hn⟩ := exists_first b
  obtain ⟨r', hr', hlt, hrn⟩ := AccessGraph.reached_iff.mp (placed_of_getElem? hn).reached
  obtain rfl : r = r' := Option.some.inj (hr ▸ hr')
  -- the path of nodes from the root stays within blocks, since what leads into a block is in one
  clear hr'
  generalize 0 = i at hn
  induction hrn generalizing b i with
  | refl =>
    rw [(place_unique hk hn).1]
  | @tail m n hrm hmn ih =>
    have hm : g.Reached m := AccessGraph.reached_iff.mpr ⟨r, hr, hlt, hrm⟩
    obtain ⟨a, j, hj⟩ := exists_getElem?_of_placed ((placed_of_getElem? hn).of_successor hm hmn.2.1)
    have hea := ih a j hj
    rcases of_mem_successors_of_getElem? hj hn hmn.2.1 with ⟨rfl, _⟩ | ⟨_, hab⟩
    · exact hea
    · exact hea.tail hab

theorem exists_entry {r : Nat} (hr : g.root = some r) (hlt : r < g.size) :
    ∃ e, (ofGraph g).entry = some e := by
  obtain ⟨e, i, hi⟩ := exists_getElem?_of_placed (AccessGraph.placed_root hr hlt)
  exact ⟨e, entry_eq_some.mpr ⟨r, hr, i, hi⟩⟩

/-- The first block is the single predecessor of the second, which is not the entry. -/
def Chases (bg : BlockGraph) (a b : Fin bg.count) : Prop :=
  bg.predecessors b = [a] ∧ bg.entry ≠ some b

/-- Going back through single predecessors never comes back to the same block. -/
def Grounded (bg : BlockGraph) : Prop := ∀ b, ¬ TransGen bg.Chases b b

/-- The blocks of a cycle of single predecessors could not be reached from the entry. -/
theorem grounded_ofGraph (g : AccessGraph) : (ofGraph g).Grounded := by
  intro b hcycle
  obtain ⟨n, hn⟩ := exists_first b
  obtain ⟨r, hr, hlt, _⟩ := AccessGraph.reached_iff.mp (placed_of_getElem? hn).reached
  obtain ⟨e, he⟩ := exists_entry hr hlt
  have hback : ∀ c, TransGen (ofGraph g).Chases b c →
      ∃ a, (ofGraph g).Chases a c ∧ TransGen (ofGraph g).Chases b a := by
    intro c hc
    obtain ⟨a, hba, hac⟩ := TransGen.tail'_iff.mp hc
    rcases reflTransGen_iff_eq_or_transGen.mp hba with rfl | hba
    · exact ⟨_, hac, hcycle⟩
    · exact ⟨a, hac, hba⟩
  have hnot : ∀ c, ReflTransGen (fun a b => b ∈ (ofGraph g).successors a) e c →
      ¬ TransGen (ofGraph g).Chases b c := by
    intro c hc
    induction hc with
    | refl =>
      intro h
      obtain ⟨a, ha, _⟩ := hback e h
      exact ha.2 he
    | @tail d c _ hdc ih =>
      intro h
      obtain ⟨a, ha, hba⟩ := hback c h
      have hd : d ∈ (ofGraph g).predecessors c := mem_predecessors.mpr hdc
      rw [ha.1] at hd
      exact ih (List.mem_singleton.mp hd ▸ hba)
  exact hnot b (reaches_of_entry he b) hcycle

/-! ## Edges of a graph without asymmetric edges -/

theorem eq_of_mem_successors_succ (hsym : g.Symmetric) {b : Fin (ofGraph g).count} {i k m n : Nat}
    (hm : ((ofGraph g).nodes b)[i]? = some m) (hn : ((ofGraph g).nodes b)[i + 1]? = some n)
    (hk : g.Reached k) (h : n ∈ g.successors k) : k = m := by
  have hmem := AccessGraph.mem_reachablePredecessors.mpr ⟨(hsym k n).mp h, hk⟩
  rw [(AccessGraph.continues_iff.mp (continues_of_getElem? hm hn)).2.2.2] at hmem
  exact List.mem_singleton.mp hmem

theorem reached_of_getLast? {a : Fin (ofGraph g).count} {m : Nat}
    (h : ((ofGraph g).nodes a).getLast? = some m) : g.Reached m := by
  rw [List.getLast?_eq_getElem?] at h
  exact (placed_of_getElem? h).reached

/-- The end of a block does not lead into the middle of one. -/
theorem eq_zero_of_getLast? (hsym : g.Symmetric) {a b : Fin (ofGraph g).count} {j m n : Nat}
    (hm : ((ofGraph g).nodes a).getLast? = some m) (hn : ((ofGraph g).nodes b)[j]? = some n)
    (h : n ∈ g.successors m) : j = 0 := by
  cases j with
  | zero => rfl
  | succ j =>
    have hlt := (List.getElem?_eq_some_iff.mp hn).1
    have hprev := List.getElem?_eq_getElem (Nat.lt_of_succ_lt hlt)
    have heq := eq_of_mem_successors_succ hsym hprev hn (reached_of_getLast? hm) h
    rw [List.getLast?_eq_getElem?, heq] at hm
    obtain ⟨rfl, hpos⟩ := place_unique hm hprev
    omega

/-- The first node of a block is entered from the ends of the blocks before. -/
theorem mem_successors_first_iff (hsym : g.Symmetric) {b : Fin (ofGraph g).count} {m n : Nat}
    (hn : ((ofGraph g).nodes b)[0]? = some n) (hm : g.Reached m) :
    n ∈ g.successors m ↔
      ∃ a ∈ (ofGraph g).predecessors b, ((ofGraph g).nodes a).getLast? = some m := by
  constructor
  · intro h
    obtain ⟨a, j, hj⟩ := exists_getElem?_of_placed (hm.placed hsym)
    rcases of_mem_successors_of_getElem? hj hn h with ⟨_, hzero⟩ | ⟨hlast, hab⟩
    · exact absurd hzero (by omega)
    · exact ⟨a, mem_predecessors.mpr hab, hlast⟩
  · rintro ⟨a, ha, hlast⟩
    obtain ⟨last, hlast', n', hn', i, hi⟩ := mem_successors.mp (mem_predecessors.mp ha)
    obtain rfl : m = last := Option.some.inj (hlast ▸ hlast')
    obtain rfl := eq_zero_of_getLast? hsym hlast hi hn'
    obtain rfl : n = n' := Option.some.inj (hn ▸ hi)
    exact hn'

end BlockGraph

end MemDep
