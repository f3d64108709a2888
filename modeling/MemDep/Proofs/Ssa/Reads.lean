import MemDep.Proofs.AccessGraph.Walks
import MemDep.Proofs.Ssa.Resolve

/-!
# Resolved reads

Building the form resolves the reads of every node that the root leads to and that reads something,
and no question changes them afterwards. With what a search finds this says which nodes define what
a node reads, for every node of the graph: a node that the root does not lead to is in no block, so
a search for its reads finds nothing.
-/

namespace MemDep

variable {g : AccessGraph} {fieldInsensitive : Bool}

namespace Scope

theorem reached_of_findsRegion {accesses : Accesses} {objects : List Nat} {n w : Nat}
    {region : Region} (h : FindsRegion ⟨accesses, .ofGraph g⟩ objects n region w) :
    g.Reached n := by
  obtain ⟨b, stop, hp, _⟩ := h
  exact (BlockGraph.placed_of_getElem? (BlockGraph.place?_eq_some.mp hp)).reached

end Scope

namespace MemorySsa

variable {m : MemorySsa}

theorem mem_reads_resolveReads {n : Nat} {r : ResolvedRead} (hr : r ∈ m.reads) :
    r ∈ (m.resolveReads n).reads := by
  unfold resolveReads
  split
  · exact hr
  · exact List.mem_append_left _ hr

/-- A node that reads something has its reads resolved. -/
theorem exists_reads_resolveReads {n : Nat} (hn : m.scope.accesses.reads n ≠ []) :
    ∃ r ∈ (m.resolveReads n).reads, r.node = n := by
  unfold resolveReads
  split
  case h_1 hnil => exact absurd hnil hn
  case h_2 => exact ⟨_, List.mem_append_right _ (List.mem_singleton_self _), rfl⟩

theorem sorted_writers_resolveReads {n : Nat}
    (h : ∀ r ∈ m.reads, Ascending.Sorted r.writers) :
    ∀ r ∈ (m.resolveReads n).reads, Ascending.Sorted r.writers := by
  unfold resolveReads
  split
  case h_1 => exact h
  case h_2 =>
    intro r hr
    rcases List.mem_append.mp hr with hr | hr
    · exact h r hr
    · rw [List.mem_singleton.mp hr]
      exact PhiTable.sorted_expand _ _

/-- Resolving the reads of some nodes, one after the other, leaves none of them out. -/
theorem exists_reads_foldl (order : List Nat) (hof : m.Of g fieldInsensitive) {n : Nat}
    (hn : n ∈ order) (hreads : (Accesses.ofGraph g fieldInsensitive).reads n ≠ []) :
    ∃ r ∈ (order.foldl resolveReads m).reads, r.node = n := by
  induction order generalizing m with
  | nil => exact absurd hn List.not_mem_nil
  | cons k order ih =>
    rw [List.foldl_cons]
    by_cases hk : n ∈ order
    · exact ih (hof.resolveReads k) hk
    · obtain rfl : n = k := (List.mem_cons.mp hn).resolve_right hk
      have hread : m.scope.accesses.reads n ≠ [] := by rwa [hof.scope]
      obtain ⟨r, hr, hnode⟩ := exists_reads_resolveReads hread
      refine ⟨r, ?_, hnode⟩
      -- the nodes after this one only add to what is resolved
      exact List.foldlRecOn (motive := fun m : MemorySsa => r ∈ m.reads) order resolveReads hr
        fun _ hmem _ _ => mem_reads_resolveReads hmem

/-- What building the form leaves behind about reads, and no question changes. -/
structure ReadsResolved (g : AccessGraph) (m : MemorySsa) : Prop where
  complete : ∀ n, g.Reached n → m.scope.accesses.reads n ≠ [] → ∃ r ∈ m.reads, r.node = n
  sorted : ∀ r ∈ m.reads, Ascending.Sorted r.writers

theorem readsResolved_compute (g : AccessGraph) (fieldInsensitive : Bool) :
    (compute g fieldInsensitive).ReadsResolved g := by
  constructor
  · intro n hn hreads
    rw [(of_compute g fieldInsensitive).scope] at hreads
    have hmem : n ∈ g.reversePostorder := AccessGraph.mem_reversePostorder.mpr hn
    exact exists_reads_foldl g.reversePostorder ⟨rfl, rfl⟩ hmem hreads
  · unfold compute
    refine List.foldlRecOn
      (motive := fun m : MemorySsa => ∀ r ∈ m.reads, Ascending.Sorted r.writers) _ _ ?_ ?_
    · exact fun r hr => absurd hr List.not_mem_nil
    · intro m h n _
      exact sorted_writers_resolveReads h

theorem ReadsResolved.definitions (h : m.ReadsResolved g) (n : Nat) (region : Region) :
    (m.definitions n region).2.ReadsResolved g :=
  ⟨h.complete, h.sorted⟩

theorem ReadsResolved.sorted_readDefinitions (h : m.ReadsResolved g) (n : Nat) :
    Ascending.Sorted (m.readDefinitions n) := by
  unfold readDefinitions read?
  cases hr : m.reads.find? (·.node = n) with
  | none => exact List.Pairwise.nil
  | some r => exact h.sorted r (List.mem_of_find?_eq_some hr)

/-- The nodes that define what a node reads are those that a search for one of its reads finds. -/
theorem Sound.mem_readDefinitions (h : m.Sound) (hof : m.Of g fieldInsensitive)
    (hr : m.ReadsResolved g) {n w : Nat} : w ∈ m.readDefinitions n ↔
      ∃ region ∈ m.scope.accesses.reads n, m.scope.FindsRegion m.objects n region w := by
  refine ⟨h.findsRegion_of_mem_readDefinitions, ?_⟩
  rintro ⟨region, hregion, hf⟩
  have hn : g.Reached n := by
    rw [hof.scope] at hf
    exact Scope.reached_of_findsRegion hf
  obtain ⟨r, hmem, hnode⟩ := hr.complete n hn (List.ne_nil_of_mem hregion)
  have hsome : (m.reads.find? (·.node = n)).isSome = true :=
    List.find?_isSome.mpr ⟨r, hmem, by simp [hnode]⟩
  obtain ⟨found, hfound⟩ := Option.isSome_iff_exists.mp hsome
  have hnode' : found.node = n := by simpa using List.find?_some hfound
  have hw : w ∈ found.writers := by
    rw [h.writers found (List.mem_of_find?_eq_some hfound), hnode']
    exact ⟨region, hregion, hf⟩
  simpa [readDefinitions, read?, hfound] using hw

end MemorySsa

end MemDep
