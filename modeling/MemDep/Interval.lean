/-!
# Byte intervals

A half-open interval `[start, stop)` of byte positions. An interval whose `stop` is not past its
`start` holds no byte; such intervals are allowed, and every operation says what it does with them.
-/

namespace MemDep

/-- The bytes `start, start + 1, …, stop - 1`. -/
structure Interval where
  /-- The first byte. -/
  start : Nat
  /-- The first byte past the end. -/
  stop : Nat
deriving DecidableEq, Repr, Inhabited

namespace Interval

/-- Byte membership. -/
instance : Membership Nat Interval where
  mem i b := i.start ≤ b ∧ b < i.stop

theorem mem_def {b : Nat} {i : Interval} : b ∈ i ↔ i.start ≤ b ∧ b < i.stop := Iff.rfl

instance (b : Nat) (i : Interval) : Decidable (b ∈ i) :=
  inferInstanceAs (Decidable (i.start ≤ b ∧ b < i.stop))

/-- The interval holds a byte. -/
def Nonempty (i : Interval) : Prop := i.start < i.stop

instance (i : Interval) : Decidable i.Nonempty := inferInstanceAs (Decidable (i.start < i.stop))

/-- Each of the two intervals starts before the other one stops. -/
def crosses (i j : Interval) : Bool := i.start < j.stop && j.start < i.stop

/-- `j` starts no earlier and stops no later than `i`. -/
def encloses (i j : Interval) : Bool := i.start ≤ j.start && j.stop ≤ i.stop

/-- The parts of `i` to the left and to the right of `cut`, without the empty ones. -/
def minus (i cut : Interval) : List Interval :=
  (if i.start < cut.start then [⟨i.start, cut.start⟩] else []) ++
    (if cut.stop < i.stop then [⟨cut.stop, i.stop⟩] else [])

end Interval

end MemDep
