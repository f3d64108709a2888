import MemDep.Proofs.ByteSet
import MemDep.Proofs.Region

/-!
# Overlap and common bytes

Two ranges whose bytes are known overlap if each starts before the other one stops. That is to have a
byte in common, except for a range without bytes: it has none in common with any range, but it overlaps
a range that has bytes on both sides of its place. A byte set asks besides whether there is a byte at
all, so it intersects an interval exactly if they have a byte in common. On all other ranges the two
tests agree (`mayOverlap_iff_common_byte_or_emptyWithin`).
-/

namespace MemDep

namespace Interval

variable {i j : Interval}

/-- The first interval has no byte, and its place is between two bytes of the second one. -/
def EmptyWithin (i j : Interval) : Prop := ¬ i.Nonempty ∧ j.start < i.start ∧ i.start < j.stop

theorem EmptyWithin.no_common_byte (h : i.EmptyWithin j) : ¬ ∃ b, b ∈ i ∧ b ∈ j := by
  rintro ⟨b, ⟨hstart, hstop⟩, _⟩
  exact h.1 (Nat.lt_of_le_of_lt hstart hstop)

theorem crosses_comm : i.crosses j = j.crosses i := Bool.and_comm _ _

theorem crosses_iff_common_byte (hi : i.start ≤ i.stop) (hj : j.start ≤ j.stop) :
    i.crosses j = true ↔ (∃ b, b ∈ i ∧ b ∈ j) ∨ i.EmptyWithin j ∨ j.EmptyWithin i := by
  constructor
  · intro hcross
    have hends : i.start < j.stop ∧ j.start < i.stop := by simpa [crosses] using hcross
    by_cases hni : i.Nonempty
    · by_cases hnj : j.Nonempty
      · exact .inl ((crosses_iff hni hnj).mp hcross)
      · have hstop : ¬ j.start < j.stop := hnj
        exact .inr (.inr ⟨hnj, by omega, by omega⟩)
    · have hstop : ¬ i.start < i.stop := hni
      exact .inr (.inl ⟨hni, by omega, by omega⟩)
  · intro h
    rw [crosses, Bool.and_eq_true, decide_eq_true_eq, decide_eq_true_eq]
    rcases h with ⟨b, ⟨_, _⟩, _, _⟩ | ⟨_, _, _⟩ | ⟨_, _, _⟩ <;> omega

end Interval

namespace ByteRange

variable {r s : ByteRange} {i j : Interval}

theorem mayOverlap_of_interval? (hr : r.interval? = some i) (hs : s.interval? = some j) :
    r.mayOverlap s = i.crosses j := by
  simp only [mayOverlap, hr, hs]

theorem mayOverlap_of_interval?_eq_none (h : r.interval? = none ∨ s.interval? = none) :
    r.mayOverlap s = true := by
  rw [mayOverlap_iff]
  intro i j hi hj
  rcases h with h | h
  · exact absurd (h.symm.trans hi) (by simp)
  · exact absurd (h.symm.trans hj) (by simp)

end ByteRange

theorem ByteSet.intersects_ofInterval {i j : Interval} (hi : i.stop ≤ Offset.limit) :
    (ofInterval i).intersects j = true ↔ ∃ b, b ∈ i ∧ b ∈ j := by
  rw [intersects_iff (valid_ofInterval hi)]
  simp only [mem_ofInterval]

namespace Region

/-- Ranges that are not fully known overlap all ranges. Ranges of known bytes overlap if they have a byte
in common, or if one of them has no byte and its place is between two bytes of the other one. The bytes
of a query intersect a write exactly if the two have a byte in common, so on one object this and whether
the write may overlap the query agree but for the exception. -/
theorem mayOverlap_iff_common_byte_or_emptyWithin (q w : Region) :
    (w.interval? = none ∨ q.interval? = none → w.range.mayOverlap q.range = true) ∧
    ∀ i j, q.interval? = some i → w.interval? = some j →
      (w.range.mayOverlap q.range = true ↔
        (∃ b, b ∈ i ∧ b ∈ j) ∨ i.EmptyWithin j ∨ j.EmptyWithin i) ∧
      ((ByteSet.ofInterval i).intersects j = true ↔ ∃ b, b ∈ i ∧ b ∈ j) ∧
      (q.object = w.object → q.object ≠ unknownMemory →
        (w.mayOverlap q = (ByteSet.ofInterval i).intersects j ↔
          ¬ (i.EmptyWithin j ∨ j.EmptyWithin i))) := by
  refine ⟨ByteRange.mayOverlap_of_interval?_eq_none, fun i j hi hj => ?_⟩
  have hranges : w.range.mayOverlap q.range = true ↔
      (∃ b, b ∈ i ∧ b ∈ j) ∨ i.EmptyWithin j ∨ j.EmptyWithin i := by
    rw [ByteRange.mayOverlap_of_interval? hj hi, Interval.crosses_comm]
    exact Interval.crosses_iff_common_byte (ByteRange.start_le_stop_of_interval? hi)
      (ByteRange.start_le_stop_of_interval? hj)
  have hset : (ByteSet.ofInterval i).intersects j = true ↔ ∃ b, b ∈ i ∧ b ∈ j :=
    ByteSet.intersects_ofInterval (Nat.le_of_lt (ByteRange.stop_lt_of_interval? hi))
  refine ⟨hranges, hset, fun hobj hne => ?_⟩
  have hregions : w.mayOverlap q = w.range.mayOverlap q.range := by
    simp [mayOverlap, hne, ← hobj]
  have hapart : i.EmptyWithin j ∨ j.EmptyWithin i → ¬ ∃ b, b ∈ i ∧ b ∈ j := by
    rintro (h | h)
    · exact h.no_common_byte
    · rintro ⟨b, hbi, hbj⟩
      exact h.no_common_byte ⟨b, hbj, hbi⟩
  rw [hregions, Bool.eq_iff_iff, hranges, hset]
  constructor
  · intro hagree hempty
    exact hapart hempty (hagree.mp (.inr hempty))
  · intro hnot
    exact or_iff_left hnot

/-- The first eight bytes of an object. -/
def firstHalf : Region := ⟨1, .ofNat 0, .ofNat 8⟩

/-- Eight bytes of the same object, from byte 4 on. -/
def middle : Region := ⟨1, .ofNat 4, .ofNat 8⟩

theorem mayOverlap_iff_common_byte_or_emptyWithin_halves :
    middle.range.mayOverlap (whole 1).range = true ∧
    middle.range.mayOverlap firstHalf.range = true ∧
    middle.mayOverlap firstHalf = (ByteSet.ofInterval ⟨0, 8⟩).intersects ⟨4, 12⟩ := by
  have hunknown := (mayOverlap_iff_common_byte_or_emptyWithin (whole 1) middle).1 (.inr (by decide))
  obtain ⟨hrange, _, hagree⟩ := (mayOverlap_iff_common_byte_or_emptyWithin firstHalf middle).2
    ⟨0, 8⟩ ⟨4, 12⟩ (by decide) (by decide)
  refine ⟨hunknown, hrange.mpr (.inl ⟨5, by decide, by decide⟩),
    (hagree rfl (by decide)).mpr ?_⟩
  rintro (h | h)
  · exact h.1 (by decide)
  · exact h.1 (by decide)

/-- No byte, at a place between two bytes of the first ten. -/
def noByte : Region := ⟨1, .ofNat 5, .ofNat 0⟩

/-- The first ten bytes of the object. -/
def tenBytes : Region := ⟨1, .ofNat 0, .ofNat 10⟩

/-- The two regions overlap without a byte in common, and the bytes of the one do not intersect the
other. -/
theorem overlap_without_common_byte_noByte :
    noByte.interval? = some ⟨5, 5⟩ ∧ tenBytes.interval? = some ⟨0, 10⟩ ∧
    tenBytes.mayOverlap noByte = true ∧ noByte.range.mayOverlap tenBytes.range = true ∧
    (¬ ∃ b, b ∈ (⟨5, 5⟩ : Interval) ∧ b ∈ (⟨0, 10⟩ : Interval)) ∧
    (ByteSet.ofInterval ⟨5, 5⟩).intersects ⟨0, 10⟩ = false := by
  refine ⟨by decide, by decide, by decide, by decide, ?_, by decide⟩
  exact Interval.EmptyWithin.no_common_byte ⟨by decide, by decide, by decide⟩

end Region

end MemDep
