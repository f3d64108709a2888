import MemDep.Proofs.Ssa.Resolve

/-!
# Searches and walks of the graph

In a graph without asymmetric edges, a search backwards through blocks follows the edges of the
graph: it finds a node from some point exactly if the node may touch the byte and a walk leads from
it to that point past nodes that do not hide the byte.
-/

namespace MemDep

open AccessGraph

variable {g : AccessGraph} {accesses : Accesses} {object byte w : Nat}

theorem AccessGraph.Reached.of_walk {inner : Nat → Prop} (hsym : g.Symmetric) {a b : Nat}
    (ha : g.Reached a) (h : g.Walk inner a b) : g.Reached b := by
  induction h with
  | edge h => exact ha.successor h (lt_of_mem_predecessors ((hsym _ _).mp h))
  | step _ _ hc ih => exact ih.successor hc (lt_of_mem_predecessors ((hsym _ _).mp hc))

namespace BlockGraph

/-- Control enters a node right after the first `stop` nodes of a block. -/
def After (g : AccessGraph) (b : Fin (ofGraph g).count) (stop n : Nat) : Prop :=
  ((ofGraph g).nodes b)[stop]? = some n ∨ stop = ((ofGraph g).nodes b).length ∧
    ∃ last, ((ofGraph g).nodes b).getLast? = some last ∧ n ∈ g.successors last

theorem After.mem_successors {b : Fin (ofGraph g).count} {stop m n : Nat}
    (h : After g b (stop + 1) n) (hm : ((ofGraph g).nodes b)[stop]? = some m) :
    n ∈ g.successors m := by
  rcases h with hn | ⟨hlen, last, hlast, hn⟩
  · exact AccessGraph.mem_successors_of_continuation? (continues_of_getElem? hm hn)
  · rw [List.getLast?_eq_getElem?, ← hlen, Nat.add_sub_cancel] at hlast
    rwa [Option.some.inj (hm.symm.trans hlast)]

/-- What comes after a block that leads to another one is the first node of that block. -/
theorem After.of_mem_predecessors (hsym : g.Symmetric) {a b : Fin (ofGraph g).count} {n : Nat}
    (ha : a ∈ (ofGraph g).predecessors b) (h : After g b 0 n) :
    After g a ((ofGraph g).nodes a).length n := by
  obtain ⟨first, hfirst⟩ := exists_first b
  rcases h with hn | ⟨hlen, _⟩
  · obtain ⟨last, hlast, _⟩ := BlockGraph.mem_successors.mp (mem_predecessors.mp ha)
    have hmem : last ∈ (ofGraph g).nodes a := List.mem_of_getLast? hlast
    obtain ⟨i, hi⟩ := List.mem_iff_getElem?.mp hmem
    have hreached := (placed_of_getElem? hi).reached
    exact .inr ⟨rfl, last, hlast, (mem_successors_first_iff hsym hn hreached).mpr ⟨a, ha, hlast⟩⟩
  · have hpos := (List.getElem?_eq_some_iff.mp hfirst).1
    omega

end BlockGraph

namespace Scope

open BlockGraph

/-- What a search finds leads to the point that the search started from. -/
theorem walk_of_finds (hsym : g.Symmetric) {b : Fin (Scope.mk accesses (ofGraph g)).blocks.count}
    {stop : Nat} (h : Finds ⟨accesses, ofGraph g⟩ object byte w b stop) {n : Nat} (hn : After g b stop n) :
    g.Reached w ∧ accesses.Defines object byte w ∧
      g.Walk (fun m => ¬ accesses.Hides object byte m) w n := by
  induction h generalizing n with
  | write hw hd => exact ⟨(placed_of_getElem? hw).reached, hd, .edge (hn.mem_successors hw)⟩
  | pass hm hh _ ih =>
    obtain ⟨hr, hd, hwalk⟩ := ih (.inl hm)
    exact ⟨hr, hd, .step hwalk hh (hn.mem_successors hm)⟩
  | enter ha _ ih => exact ih (hn.of_mem_predecessors hsym ha)

/-- A search passes on from a node to the nodes that lead to it. -/
theorem finds_of_mem_successors (hsym : g.Symmetric) {b : Fin (ofGraph g).count} {stop m n : Nat}
    (hn : ((ofGraph g).nodes b)[stop]? = some n) (hm : g.Reached m) (hmn : n ∈ g.successors m)
    (h : m = w ∧ accesses.Defines object byte w ∨ ¬ accesses.Hides object byte m ∧
      ∀ (c : Fin (ofGraph g).count) (i : Nat), ((ofGraph g).nodes c)[i]? = some m →
        Finds ⟨accesses, ofGraph g⟩ object byte w c i) :
    Finds ⟨accesses, ofGraph g⟩ object byte w b stop := by
  have hfrom : ∀ {c : Fin (ofGraph g).count} {i : Nat}, ((ofGraph g).nodes c)[i]? = some m →
      Finds ⟨accesses, ofGraph g⟩ object byte w c (i + 1) := by
    intro c i hi
    rcases h with ⟨rfl, hd⟩ | ⟨hh, hf⟩
    · exact .write hi hd
    · exact .pass hi hh (hf c i hi)
  cases stop with
  | zero =>
    obtain ⟨a, ha, hlast⟩ := (mem_successors_first_iff hsym hn hm).mp hmn
    rw [List.getLast?_eq_getElem?] at hlast
    have hlen := (List.getElem?_eq_some_iff.mp hlast).1
    have hf := hfrom hlast
    rw [Nat.sub_add_cancel (by omega)] at hf
    exact .enter ha hf
  | succ i =>
    have hi := (List.getElem?_eq_some_iff.mp hn).1
    have hprev := List.getElem?_eq_getElem (Nat.lt_of_succ_lt hi)
    have heq := eq_of_mem_successors_succ hsym hprev hn hm hmn
    exact hfrom (heq ▸ hprev)

/-- A search finds what leads to the point that it starts from. -/
theorem finds_of_walk (hsym : g.Symmetric) (hw : g.Reached w) (hd : accesses.Defines object byte w)
    {n : Nat} (h : g.Walk (fun m => ¬ accesses.Hides object byte m) w n)
    {b : Fin (ofGraph g).count} {stop : Nat} (hn : ((ofGraph g).nodes b)[stop]? = some n) :
    Finds ⟨accesses, ofGraph g⟩ object byte w b stop := by
  induction h generalizing b stop with
  | edge hwn => exact finds_of_mem_successors hsym hn hw hwn (.inl ⟨rfl, hd⟩)
  | step hwm hh hmn ih =>
    exact finds_of_mem_successors hsym hn (hw.of_walk hsym hwm) hmn (.inr ⟨hh, fun _ _ => ih⟩)

theorem finds_iff_walk (hsym : g.Symmetric) {b : Fin (ofGraph g).count} {stop n : Nat}
    (hn : ((ofGraph g).nodes b)[stop]? = some n) :
    Finds ⟨accesses, ofGraph g⟩ object byte w b stop ↔
      g.Reached w ∧ accesses.Defines object byte w ∧
        g.Walk (fun m => ¬ accesses.Hides object byte m) w n := by
  constructor
  · intro h
    exact walk_of_finds hsym h (.inl hn)
  · rintro ⟨hw, hd, hwalk⟩
    exact finds_of_walk hsym hw hd hwalk hn

/-- A search for a region finds the nodes that may touch a byte of it and from which a walk leads
there past nodes that do not hide the byte. -/
theorem findsRegion_iff_walk (hsym : g.Symmetric) {objects : List Nat} {n : Nat} {region : Region} :
    FindsRegion ⟨accesses, ofGraph g⟩ objects n region w ↔ g.Reached w ∧
      if (accesses.normalize region).object = unknownMemory then
        ∃ object ∈ objects, ∃ byte ∈ ByteSet.full, accesses.Defines object byte w ∧
          g.Walk (fun m => ¬ accesses.Hides object byte m) w n
      else
        ∃ byte ∈ (accesses.normalize region).bytes,
          accesses.Defines (accesses.normalize region).object byte w ∧
            g.Walk (fun m => ¬ accesses.Hides (accesses.normalize region).object byte m) w n := by
  by_cases hp : g.Placed n
  · obtain ⟨b, stop, hn⟩ := exists_getElem?_of_placed hp
    rw [findsRegion_iff (BlockGraph.place?_eq_some.mpr hn)]
    simp only [finds_iff_walk hsym hn]
    split <;> grind
  · constructor
    · rintro ⟨b, stop, hplace, _⟩
      exact absurd (placed_of_getElem? (BlockGraph.place?_eq_some.mp hplace)) hp
    · rintro ⟨hw, h⟩
      have hreach : ∀ {inner : Nat → Prop}, ¬ g.Walk inner w n :=
        fun hwalk => hp ((hw.of_walk hsym hwalk).placed hsym)
      split at h
      · obtain ⟨_, _, _, _, _, hwalk⟩ := h
        exact absurd hwalk hreach
      · obtain ⟨_, _, _, hwalk⟩ := h
        exact absurd hwalk hreach

end Scope

end MemDep
