import MemDep.Ascending
import MemDep.Digraph
import MemDep.Interval
import MemDep.Ssa.BlockIndex

/-!
# Memory definitions and phis

In the static single assignment form of memory, the bytes of an object are defined by a write or by
a phi. A phi merges, at the start of a block, the definitions that the predecessors of the block
have for one interval of one object; these three are its key. A table holds the phis in the order
in which they were opened. A phi is in the table before its operands are known, so that a search
that comes back to it around a loop finds it.

A phi with exactly one operand besides itself is trivial: whoever asks for its key is given that
operand. Phis that were handed out as operands before that are left in place.
-/

namespace MemDep

/-- What defines bytes of an object. -/
inductive MemoryDef where
  /-- A write of a node. -/
  | write (node : Nat)
  /-- The phi at a position of the table. -/
  | phi (id : Nat)
deriving DecidableEq, Repr

/-- What a phi is a definition of: an interval of an object at the start of a block. -/
structure PhiKey where
  /-- The block. -/
  block : Nat
  /-- The object. -/
  object : Nat
  /-- The bytes of the object. -/
  bytes : Interval
deriving DecidableEq, Repr

/-- A merge of definitions. -/
structure Phi where
  /-- What it defines. -/
  key : PhiKey
  /-- The definitions that the predecessors of the block have, each once. -/
  operands : List MemoryDef
deriving DecidableEq, Repr

/-- The operand that a phi stands for, if it has exactly one besides itself. -/
def Phi.replacement? (p : Phi) (id : Nat) : Option MemoryDef :=
  match p.operands.filter (· ≠ .phi id) with
  | [d] => some d
  | _ => none

/-- The phis of a graph, each at the position that is its id. -/
structure PhiTable where
  /-- The ids of the phis of each block. -/
  index : BlockIndex
  /-- The phis. -/
  phis : Array Phi
  /-- Each phi is listed for its block. -/
  mem_index : ∀ {id : Nat} {p : Phi}, phis[id]? = some p → id ∈ index.ids p.key.block

namespace PhiTable

/-- No phis. -/
def empty : PhiTable := ⟨.empty, #[], by simp⟩

instance : Inhabited PhiTable := ⟨empty⟩

/-- There is a phi for a key. -/
def Has (t : PhiTable) (key : PhiKey) : Prop := ∃ p ∈ t.phis, p.key = key

instance (t : PhiTable) (key : PhiKey) : Decidable (t.Has key) :=
  inferInstanceAs (Decidable (∃ p ∈ t.phis, p.key = key))

/-- What a phi stands for: itself, or its replacement. -/
def value (t : PhiTable) (id : Nat) : MemoryDef :=
  ((t.phis[id]?).bind (·.replacement? id)).getD (.phi id)

/-- The position of the phi for a key. Only the phis of its block are looked at. -/
def id? (t : PhiTable) (key : PhiKey) : Option Nat :=
  (t.index.ids key.block).find? fun id => (t.phis[id]?).any (·.key = key)

/-- What the phi for a key stands for. -/
def find? (t : PhiTable) (key : PhiKey) : Option MemoryDef := (t.id? key).map t.value

/-- How many phis there are. It stays a call, so that it is done before the array is changed, which
then need not be copied. -/
@[noinline]
def size (t : PhiTable) : Nat := t.phis.size

/-- Adds a phi without operands; its id is the size of the table before. -/
def enter (t : PhiTable) (key : PhiKey) : PhiTable where
  index := t.index.insert key.block t.size
  phis := t.phis.push ⟨key, []⟩
  mem_index {id p} h := by
    rw [Array.getElem?_push] at h
    rw [BlockIndex.ids_insert]
    split at h
    next hid =>
      obtain rfl : ⟨key, []⟩ = p := Option.some.inj h
      simp [hid, size]
    next =>
      have := t.mem_index h
      split <;> simp [this]

/-- Gives a phi its operands. -/
def fill (t : PhiTable) (id : Nat) (operands : List MemoryDef) : PhiTable where
  index := t.index
  phis := t.phis.modify id fun p => { p with operands := operands }
  mem_index {i p} h := by
    rw [Array.getElem?_modify] at h
    split at h
    next =>
      obtain ⟨q, hq, rfl⟩ := Option.map_eq_some_iff.1 h
      exact (t.mem_index hq :)
    next => exact t.mem_index h

/-- The phi at a position is trivial. -/
def isTrivial (t : PhiTable) (id : Nat) : Bool :=
  ((t.phis[id]?).bind (·.replacement? id)).isSome

/-- How many phis are trivial. -/
def trivialCount (t : PhiTable) : Nat := (List.range t.size).countP t.isTrivial

/-! ## Growth -/

/-- The second table has a phi wherever the first has one. -/
instance : LE PhiTable where
  le t u := ∀ key, t.Has key → u.Has key

theorem le_refl (t : PhiTable) : t ≤ t := fun _ h => h

theorem le_trans {t u v : PhiTable} (h : t ≤ u) (k : u ≤ v) : t ≤ v := fun key hk => k key (h key hk)

/-- The position that is found is that of a phi for the key. -/
theorem key_of_id? {t : PhiTable} {key : PhiKey} {id : Nat} (h : t.id? key = some id) :
    ∃ p, t.phis[id]? = some p ∧ p.key = key := by
  have := List.find?_some h
  simpa [Option.any_eq_true] using this

theorem not_has_of_find?_eq_none {t : PhiTable} {key : PhiKey} (h : t.find? key = none) :
    ¬ t.Has key := by
  rintro ⟨p, hp, rfl⟩
  obtain ⟨id, hid, rfl⟩ := Array.getElem_of_mem hp
  have hid : t.phis[id]? = some t.phis[id] := Array.getElem?_eq_getElem hid
  have := List.find?_eq_none.1 (Option.map_eq_none_iff.1 h) id (t.mem_index hid)
  simp [hid] at this

theorem has_enter (t : PhiTable) (key : PhiKey) : (t.enter key).Has key :=
  ⟨⟨key, []⟩, Array.mem_push_self, rfl⟩

theorem le_enter (t : PhiTable) (key : PhiKey) : t ≤ t.enter key :=
  fun _ ⟨p, hp, he⟩ => ⟨p, Array.mem_push_of_mem _ hp, he⟩

theorem le_fill (t : PhiTable) (id : Nat) (operands : List MemoryDef) : t ≤ t.fill id operands := by
  rintro key ⟨p, hp, rfl⟩
  obtain ⟨i, hi, rfl⟩ := Array.getElem_of_mem hp
  have hi' : i < (t.fill id operands).phis.size := by simpa [fill] using hi
  refine ⟨(t.fill id operands).phis[i], Array.getElem_mem hi', ?_⟩
  simp only [fill, Array.getElem_modify]
  split <;> rfl

/-! ## The writes behind definitions -/

/-- The ids of the phis among some definitions. -/
def phiIds (defs : List MemoryDef) : List Nat :=
  defs.filterMap fun
    | .phi id => some id
    | .write _ => none

/-- The nodes of the writes among some definitions. -/
def writeNodes (defs : List MemoryDef) : List Nat :=
  defs.filterMap fun
    | .write node => some node
    | .phi _ => none

/-- The operands of the phi at a position. -/
def operands (t : PhiTable) (id : Nat) : List MemoryDef := ((t.phis[id]?).map (·.operands)).getD []

/-- The graph of phis and the phis among their operands. -/
def digraph (t : PhiTable) : Digraph := ⟨t.size, fun id => phiIds (t.operands id)⟩

/-- The nodes of the writes that some definitions lead to through operands of phis, in ascending
order. -/
def expand (t : PhiTable) (defs : List MemoryDef) : List Nat :=
  let reached := t.digraph.reach (phiIds defs)
  let behind := (List.range t.size).filter fun id => reached[id]? == some true
  Ascending.ofList (writeNodes defs ++ behind.flatMap fun id => writeNodes (t.operands id))

end PhiTable

end MemDep
