import MemDep.Counting
import MemDep.Ssa.Scan

/-!
# Definitions on demand

Definitions are looked up when someone asks for them. At a join a walk leaves intervals open, and
each of them is defined by the phi for this block, object and interval: the one in the table, or a
new one. A new phi enters the table first; then its operands are looked up from the ends of the
predecessor blocks, which may lead to further joins, and around a loop back to the phi itself.

The look-up ends because it enters a phi for every new key on its way, and keys have a block of the
graph and an interval below the limit: `Scope.room` counts the keys that are left. Each step
returns the table that it made together with the proof that no phi was lost.
-/

namespace MemDep

namespace Scope

/-- How many keys of an object have no phi yet. -/
def room (sc : Scope) (object : Nat) (t : PhiTable) : Nat :=
  sumBelow (fun block => sumBelow (fun start => sumBelow (fun stop =>
    if t.Has ⟨block, object, ⟨start, stop⟩⟩ then 0 else 1) (Offset.limit + 1)) (Offset.limit + 1))
    sc.blocks.count

theorem room_mono (sc : Scope) (object : Nat) {t u : PhiTable} (h : t ≤ u) :
    sc.room object u ≤ sc.room object t := by
  refine sumBelow_mono (fun block => sumBelow_mono (fun start => sumBelow_mono (fun stop => ?_) _) _) _
  have := h ⟨block, object, ⟨start, stop⟩⟩
  split <;> split <;> first | omega | simp_all

/-- A phi for a new key takes up room. -/
theorem room_enter_lt (sc : Scope) {object : Nat} {t : PhiTable} {b : Fin sc.blocks.count}
    {i : Interval} (hi : i.Valid) (h : ¬ t.Has ⟨b, object, i⟩) :
    sc.room object (t.enter ⟨b, object, i⟩) < sc.room object t := by
  have hle := t.le_enter ⟨b, object, i⟩
  have hmono : ∀ block start stop,
      (if (t.enter ⟨b, object, i⟩).Has ⟨block, object, ⟨start, stop⟩⟩ then 0 else 1) ≤
        (if t.Has ⟨block, object, ⟨start, stop⟩⟩ then 0 else 1) := by
    intro block start stop
    have := hle ⟨block, object, ⟨start, stop⟩⟩
    split <;> split <;> first | omega | simp_all
  refine sumBelow_add_le (fun block => sumBelow_mono (fun start => sumBelow_mono
    (hmono block start) _) _) b.isLt (d := 1) ?_
  have hstart : i.start < Offset.limit + 1 := by have := hi.1; have := hi.2; omega
  refine sumBelow_add_le (fun start => sumBelow_mono (hmono b start) _) hstart ?_
  refine sumBelow_add_le (hmono b i.start) (Nat.lt_succ_of_le hi.2) ?_
  have := t.has_enter ⟨b, object, i⟩
  simp [h, this]

/-- A table that has grown, with a result. -/
abbrev Grown (t : PhiTable) (α : Type) := { r : PhiTable × α // t ≤ r.1 }

mutual

/-- The definition that the phi for an interval at a join stands for. -/
def demand (sc : Scope) (object : Nat) (t : PhiTable) (b : Fin sc.blocks.count) (i : Interval)
    (hi : i.Valid) : Grown t MemoryDef :=
  match _ht : t.find? ⟨b, object, i⟩ with
  | some d => ⟨(t, d), t.le_refl⟩
  | none =>
    let id := t.size
    let r := sc.operands object (t.enter ⟨b, object, i⟩) (sc.blocks.predecessors b) i hi []
    let u := r.1.1.fill id r.1.2
    ⟨(u, u.value id), PhiTable.le_trans (t.le_enter _) (PhiTable.le_trans r.2 (r.1.1.le_fill _ _))⟩
termination_by (sc.room object t, 0, 0)
decreasing_by
  exact Prod.Lex.left _ _ (sc.room_enter_lt hi (PhiTable.not_has_of_find?_eq_none _ht))

/-- The definitions of an interval at the ends of blocks, added to those found so far. -/
def operands (sc : Scope) (object : Nat) (t : PhiTable) (blocks : List (Fin sc.blocks.count))
    (i : Interval) (hi : i.Valid) (found : List MemoryDef) : Grown t (List MemoryDef) :=
  match blocks with
  | [] => ⟨(t, found), t.le_refl⟩
  | a :: rest =>
    match hw : sc.walk object a (sc.blocks.nodes a).length (.ofInterval i) with
    | .done defs => sc.operands object t rest i hi (addDefs found defs)
    | .join defs b opened =>
      have hopened := sc.valid_of_walk (ByteSet.valid_ofInterval hi.2) hw
      let r := sc.demandAll object t b opened hopened defs
      let s := sc.operands object r.1.1 rest i hi (addDefs found r.1.2)
      ⟨s.1, PhiTable.le_trans r.2 s.2⟩
termination_by (sc.room object t, 2, blocks.length)
decreasing_by
  · exact Prod.Lex.right _ (Prod.Lex.right _ (by simp))
  · exact Prod.Lex.right _ (Prod.Lex.left _ _ (by decide))
  · exact Prod.Lex.right' _ (sc.room_mono object r.2) (Prod.Lex.right _ (by simp))

/-- The definitions that the phis for some intervals at a join stand for, added to those found so
far. -/
def demandAll (sc : Scope) (object : Nat) (t : PhiTable) (b : Fin sc.blocks.count)
    (opened : List Interval) (hopened : ∀ i ∈ opened, i.Valid) (found : List MemoryDef) :
    Grown t (List MemoryDef) :=
  match opened with
  | [] => ⟨(t, found), t.le_refl⟩
  | i :: rest =>
    let r := sc.demand object t b i (hopened i (by simp))
    let s := sc.demandAll object r.1.1 b rest (fun j hj => hopened j (by simp [hj]))
      (addDef found r.1.2)
    ⟨s.1, PhiTable.le_trans r.2 s.2⟩
termination_by (sc.room object t, 1, opened.length)
decreasing_by
  · exact Prod.Lex.right _ (Prod.Lex.left _ _ (by decide))
  · exact Prod.Lex.right' _ (sc.room_mono object r.2) (Prod.Lex.right _ (by simp))

end

/-- The definitions of bytes of an object at a place of a block. -/
def definitions (sc : Scope) (object : Nat) (t : PhiTable) (b : Fin sc.blocks.count) (stop : Nat)
    (query : ByteSet) (hq : query.Valid) : PhiTable × List MemoryDef :=
  match hw : sc.walk object b stop query with
  | .done found => (t, found)
  | .join found c opened => (sc.demandAll object t c opened (sc.valid_of_walk hq hw) found).1

end Scope

end MemDep
