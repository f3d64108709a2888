import MemDep.Offset

/-!
# Byte sets

A finite union of byte intervals, kept as a list. Sets are made from one interval by removing
intervals from it, so the list stays sorted, its intervals are non-empty and no two of them touch.
The set tracks which bytes of a query are still open while a search walks backwards past writes.
-/

namespace MemDep

/-- A union of byte intervals, in ascending order. -/
structure ByteSet where
  /-- The intervals. -/
  intervals : List Interval
deriving DecidableEq, Repr, Inhabited

namespace ByteSet

/-- Byte membership. -/
instance : Membership Nat ByteSet where
  mem s b := ∃ i ∈ s.intervals, b ∈ i

theorem mem_def {b : Nat} {s : ByteSet} : b ∈ s ↔ ∃ i ∈ s.intervals, b ∈ i := Iff.rfl

/-- No byte. -/
def empty : ByteSet := ⟨[]⟩

/-- The bytes of one interval. -/
def ofInterval (i : Interval) : ByteSet := ⟨if i.Nonempty then [i] else []⟩

/-- Every byte that a known range can hold, and the last representable one before the limit. -/
def full : ByteSet := ofInterval ⟨0, Offset.limit⟩

/-- No byte is left. -/
def isEmpty (s : ByteSet) : Bool := s.intervals.isEmpty

/-- The set and the interval share a byte. -/
def intersects (s : ByteSet) (i : Interval) : Bool :=
  i.start < i.stop && s.intervals.any i.crosses

/-- The set without the bytes of an interval. -/
def remove (s : ByteSet) (i : Interval) : ByteSet :=
  if i.Nonempty then ⟨s.intervals.flatMap fun j => if j.crosses i then j.minus i else [j]⟩ else s

/-! ## Bytes of a set -/

theorem mem_ofInterval {b : Nat} {i : Interval} : b ∈ ofInterval i ↔ b ∈ i := by
  by_cases h : i.Nonempty
  · simp [mem_def, ofInterval, h]
  · simp only [Interval.Nonempty] at h
    simp only [mem_def, ofInterval, Interval.Nonempty, h, if_false, List.not_mem_nil, false_and,
      exists_false, Interval.mem_def, false_iff]
    omega

end ByteSet

end MemDep
