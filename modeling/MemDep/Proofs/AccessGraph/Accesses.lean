import MemDep.AccessGraph.Accesses
import Mathlib.Tactic.Common

/-!
# Accesses as an analysis sees them
-/

namespace MemDep

namespace Accesses

variable {g : AccessGraph} {fieldInsensitive : Bool}

theorem object_see (r : Region) : (see fieldInsensitive r).object = r.object := by
  unfold see
  split <;> rfl

theorem object_normalize (t : Accesses) (r : Region) : (t.normalize r).object = r.object :=
  object_see r

theorem see_see (r : Region) : see fieldInsensitive (see fieldInsensitive r) = see fieldInsensitive r := by
  unfold see
  split <;> rfl

theorem writes_ofGraph (n : Nat) : (ofGraph g fieldInsensitive).writes n =
    (((g.node? n).map AccessNode.writes).getD []).map fun w =>
      { w with region := see fieldInsensitive w.region } := by
  unfold writes ofGraph AccessGraph.node?
  rw [Array.getElem?_map]
  cases g.nodes[n]? <;> rfl

theorem reads_ofGraph (n : Nat) : (ofGraph g fieldInsensitive).reads n =
    (((g.node? n).map AccessNode.reads).getD []).map (see fieldInsensitive) := by
  unfold reads ofGraph AccessGraph.node?
  rw [Array.getElem?_map]
  cases g.nodes[n]? <;> rfl

theorem mem_writtenObjects {t : Accesses} {object : Nat} :
    object ∈ t.writtenObjects ↔ ∃ n, ∃ w ∈ t.writes n, w.region.object = object := by
  simp only [writtenObjects, Ascending.mem_ofList, List.mem_flatMap, List.mem_map,
    Array.mem_toList_iff, writes]
  constructor
  · rintro ⟨node, hnode, w, hw, rfl⟩
    obtain ⟨n, hn⟩ := Array.mem_iff_getElem?.mp hnode
    exact ⟨n, w, by simpa [hn] using hw, rfl⟩
  · rintro ⟨n, w, hw, rfl⟩
    cases hn : t.nodes[n]? with
    | none => simp [hn] at hw
    | some node => exact ⟨node, Array.mem_of_getElem? hn, w, by simpa [hn] using hw, rfl⟩

end Accesses

/-- What a node reads; nothing, if there is no such node. -/
def AccessGraph.reads (g : AccessGraph) (n : Nat) : List Region :=
  ((g.node? n).map AccessNode.reads).getD []

/-- The writes of a node; none, if there is no such node. -/
def AccessGraph.writes (g : AccessGraph) (n : Nat) : List Write :=
  ((g.node? n).map AccessNode.writes).getD []

theorem Accesses.mem_writes_ofGraph {g : AccessGraph} {fieldInsensitive : Bool} {n : Nat}
    {write : Write} : write ∈ (ofGraph g fieldInsensitive).writes n ↔
      ∃ w ∈ g.writes n, { w with region := see fieldInsensitive w.region } = write := by
  rw [writes_ofGraph]
  exact List.mem_map

end MemDep
