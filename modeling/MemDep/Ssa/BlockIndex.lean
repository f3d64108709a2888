/-!
# Numbers listed by block

An index lists, for each block, the numbers that were put down for it, the last one first. Blocks
for which nothing was put down yet take up no room past the last block that has a number.
-/

namespace MemDep

/-- For each block a list of numbers. -/
structure BlockIndex where
  /-- The lists of the blocks, up to the last one that has a number. -/
  lists : Array (List Nat)

namespace BlockIndex

/-- No numbers. -/
def empty : BlockIndex := ⟨#[]⟩

/-- The numbers of a block. -/
def ids (x : BlockIndex) (block : Nat) : List Nat := (x.lists[block]?).getD []

/-- Makes room for a block. -/
def reserve (x : BlockIndex) (block : Nat) : BlockIndex :=
  ⟨x.lists ++ Array.replicate (block + 1 - x.lists.size) []⟩

/-- Puts down a number for a block. -/
def insert (x : BlockIndex) (block id : Nat) : BlockIndex :=
  ⟨(x.reserve block).lists.modify block (id :: ·)⟩

@[simp]
theorem ids_reserve (x : BlockIndex) (block other : Nat) : (x.reserve block).ids other = x.ids other := by
  simp only [ids, reserve, Array.getElem?_append]
  split
  next => rfl
  next h =>
    rw [Array.getElem?_eq_none (Nat.le_of_not_lt h), Array.getElem?_replicate]
    split <;> rfl

theorem lt_size_reserve (x : BlockIndex) (block : Nat) : block < (x.reserve block).lists.size := by
  simp only [reserve, Array.size_append, Array.size_replicate]
  omega

@[simp]
theorem ids_insert (x : BlockIndex) (block id other : Nat) :
    (x.insert block id).ids other = if other = block then id :: x.ids other else x.ids other := by
  rw [← x.ids_reserve block other]
  simp only [ids, insert, Array.getElem?_modify]
  by_cases h : block = other
  · subst h
    simp [Array.getElem?_eq_getElem (x.lt_size_reserve block)]
  · simp [h, Ne.symm h]

end BlockIndex

end MemDep
