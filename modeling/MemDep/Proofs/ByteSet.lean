import MemDep.ByteSet
import MemDep.Ssa.Scan

/-!
# The bytes of byte sets

The operations on byte sets as operations on the sets of their bytes. What a set says about being
empty and about sharing a byte with an interval is right if none of its intervals is empty.
-/

namespace MemDep

namespace Interval

theorem mem_minus {b : Nat} {i cut : Interval} (h : i.crosses cut = true) :
    (∃ j ∈ i.minus cut, b ∈ j) ↔ b ∈ i ∧ b ∉ cut := by
  simp only [crosses, Bool.and_eq_true, decide_eq_true_eq] at h
  unfold minus
  by_cases hl : i.start < cut.start <;> by_cases hr : cut.stop < i.stop <;>
    simp [hl, hr, mem_def] <;> omega

theorem crosses_iff {i j : Interval} (hi : i.Nonempty) (hj : j.Nonempty) :
    i.crosses j = true ↔ ∃ b, b ∈ i ∧ b ∈ j := by
  simp only [Nonempty] at hi hj
  simp only [crosses, Bool.and_eq_true, decide_eq_true_eq, mem_def]
  constructor
  · intro h
    exact ⟨max i.start j.start, by omega⟩
  · rintro ⟨b, hb⟩
    omega

end Interval

namespace ByteSet

theorem mem_remove {b : Nat} {s : ByteSet} {cut : Interval} :
    b ∈ s.remove cut ↔ b ∈ s ∧ b ∉ cut := by
  unfold remove
  split
  case isTrue hcut =>
    have hpart : ∀ j : Interval,
        (∃ i ∈ (if j.crosses cut then j.minus cut else [j]), b ∈ i) ↔ b ∈ j ∧ b ∉ cut := by
      intro j
      split
      case isTrue h => exact Interval.mem_minus h
      case isFalse h =>
        simp only [Interval.Nonempty] at hcut
        simp only [Interval.crosses, Bool.and_eq_true, decide_eq_true_eq] at h
        simp only [List.mem_singleton, exists_eq_left, Interval.mem_def]
        omega
    simp only [mem_def, List.mem_flatMap]
    constructor
    · rintro ⟨i, ⟨j, hj, hi⟩, hb⟩
      obtain ⟨hbj, hcut⟩ := (hpart j).mp ⟨i, hi, hb⟩
      exact ⟨⟨j, hj, hbj⟩, hcut⟩
    · rintro ⟨⟨j, hj, hbj⟩, hcut⟩
      obtain ⟨i, hi, hb⟩ := (hpart j).mpr ⟨hbj, hcut⟩
      exact ⟨i, ⟨j, hj, hi⟩, hb⟩
  case isFalse hcut =>
    simp only [Interval.Nonempty] at hcut
    simp only [Interval.mem_def]
    constructor
    · intro h
      exact ⟨h, by omega⟩
    · intro h
      exact h.1

theorem Valid.nonempty {s : ByteSet} (h : s.Valid) {i : Interval} (hi : i ∈ s.intervals) :
    i.Nonempty :=
  (h i hi).1

theorem isEmpty_iff_of_nonempty {s : ByteSet} (h : ∀ i ∈ s.intervals, i.Nonempty) :
    s.isEmpty = true ↔ ∀ b, b ∉ s := by
  unfold isEmpty
  rw [List.isEmpty_iff]
  constructor
  · intro hnil b hb
    obtain ⟨i, hi, _⟩ := mem_def.mp hb
    simp [hnil] at hi
  · intro hnone
    rw [List.eq_nil_iff_forall_not_mem]
    intro i hi
    have hpos := h i hi
    exact hnone i.start ⟨i, hi, Nat.le_refl _, hpos⟩

theorem intersects_iff_of_nonempty {s : ByteSet} (h : ∀ i ∈ s.intervals, i.Nonempty)
    {i : Interval} : s.intersects i = true ↔ ∃ b ∈ s, b ∈ i := by
  unfold intersects
  rw [Bool.and_eq_true, decide_eq_true_eq, List.any_eq_true]
  constructor
  · rintro ⟨hi, j, hj, hcross⟩
    obtain ⟨b, hbi, hbj⟩ := (Interval.crosses_iff hi (h j hj)).mp hcross
    exact ⟨b, ⟨j, hj, hbj⟩, hbi⟩
  · rintro ⟨b, ⟨j, hj, hbj⟩, hbi⟩
    have hi : i.Nonempty := Nat.lt_of_le_of_lt hbi.1 hbi.2
    exact ⟨hi, j, hj, (Interval.crosses_iff hi (h j hj)).mpr ⟨b, hbi, hbj⟩⟩

theorem isEmpty_iff {s : ByteSet} (h : s.Valid) : s.isEmpty = true ↔ ∀ b, b ∉ s :=
  isEmpty_iff_of_nonempty fun _ hi => h.nonempty hi

theorem intersects_iff {s : ByteSet} (h : s.Valid) {i : Interval} :
    s.intersects i = true ↔ ∃ b ∈ s, b ∈ i :=
  intersects_iff_of_nonempty fun _ hi => h.nonempty hi

theorem mem_full {b : Nat} : b ∈ full ↔ b < Offset.limit := by
  rw [full, mem_ofInterval, Interval.mem_def]
  simp

end ByteSet

end MemDep
