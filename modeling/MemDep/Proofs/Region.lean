import MemDep.Region
import Mathlib.Tactic.Common

/-!
# Ranges and regions compared

When a range is not known, when two regions may overlap, and when one region lies within another.
-/

namespace MemDep

namespace Interval

variable {i j k : Interval}

theorem mem_of_encloses (h : i.encloses j = true) {byte : Nat} (hbyte : byte ∈ j) : byte ∈ i := by
  simp only [encloses, Bool.and_eq_true, decide_eq_true_eq] at h
  rw [mem_def] at hbyte ⊢
  omega

theorem encloses_trans (h : i.encloses j = true) (h' : j.encloses k = true) :
    i.encloses k = true := by
  simp only [encloses, Bool.and_eq_true, decide_eq_true_eq] at h h' ⊢
  omega

theorem crosses_of_encloses (h : i.encloses j = true) (hcross : k.crosses j = true) :
    k.crosses i = true := by
  simp only [crosses, encloses, Bool.and_eq_true, decide_eq_true_eq] at h hcross ⊢
  omega

end Interval

namespace ByteRange

theorem interval?_eq_none_iff {r : ByteRange} : r.interval? = none ↔
    r.offset = .unknown ∨ r.length = .unknown ∨ Offset.limit ≤ r.offset.code + r.length.code := by
  obtain ⟨offset, length⟩ := r
  cases offset with
  | unknown => simp
  | known a ha =>
    cases length with
    | unknown => simp
    | known b hb => simp [interval?_known, Offset.code]

theorem mayOverlap_iff {r q : ByteRange} : r.mayOverlap q = true ↔
    ∀ i j, r.interval? = some i → q.interval? = some j → i.crosses j = true := by
  unfold mayOverlap
  split
  case h_1 i j hi hj =>
    rw [hi, hj]
    simp
  case h_2 hnone =>
    refine ⟨fun _ i j hi hj => absurd hj (hnone i j hi), fun _ => rfl⟩

theorem covers_iff {r q : ByteRange} : r.covers q = true ↔
    ∃ i j, r.interval? = some i ∧ q.interval? = some j ∧ i.encloses j = true := by
  unfold covers
  split
  case h_1 i j hi hj =>
    rw [hi, hj]
    simp
  case h_2 hnone =>
    constructor
    · intro h
      exact absurd h (by simp)
    · rintro ⟨i, j, hi, hj, _⟩
      exact absurd hj (hnone i j hi)

end ByteRange

namespace Region

variable {r q site : Region}

/-! ## Objects -/

theorem mayAlias_iff : r.mayAlias q = true ↔
    r.object = q.object ∨ r.object = unknownMemory ∨ q.object = unknownMemory := by
  simp [mayAlias, or_assoc]

theorem mayAlias_of_mayOverlap (h : r.mayOverlap q = true) : r.mayAlias q = true := by
  simp only [mayOverlap, Bool.or_eq_true, Bool.and_eq_true, beq_iff_eq] at h
  rw [mayAlias_iff]
  tauto

/-- If the bytes of one of them are not known, then only the objects count. -/
theorem mayOverlap_of_mayAlias (h : r.mayAlias q = true) (hr : r.interval? = none) :
    r.mayOverlap q = true := by
  have hrange : r.range.mayOverlap q.range = true := by
    refine ByteRange.mayOverlap_iff.mpr fun i j hi _ => ?_
    exact absurd (hr.symm.trans hi) (by simp)
  rw [mayAlias_iff] at h
  simp only [mayOverlap, hrange, Bool.or_eq_true, Bool.and_eq_true, beq_iff_eq]
  tauto

theorem mayOverlap_of_unknownMemory (h : q.object = unknownMemory) : r.mayOverlap q = true := by
  simp [mayOverlap, h]

theorem covers_iff : r.covers q = true ↔ r.object = q.object ∧ r.object ≠ unknownMemory ∧
    ∃ i j, r.interval? = some i ∧ q.interval? = some j ∧ i.encloses j = true := by
  simp only [covers, Bool.and_eq_true, beq_iff_eq, bne_iff_ne, ne_eq, and_assoc]
  exact and_congr_right fun _ => and_congr_right fun _ => ByteRange.covers_iff

/-! ## Regions within regions -/

/-- The first region is of the same object as the second one, and has no bytes outside it, as far as
the bytes of the second one are known. -/
structure Within (r q : Region) : Prop where
  object : r.object = q.object
  encloses : ∀ j, q.interval? = some j → ∃ i, r.interval? = some i ∧ j.encloses i = true

theorem within_of_covers (hobj : r.object = q.object) (h : q.range.covers r.range = true) :
    r.Within q := by
  obtain ⟨j, i, hj, hi, henc⟩ := ByteRange.covers_iff.mp h
  refine ⟨hobj, fun j' hj' => ⟨i, hi, ?_⟩⟩
  obtain rfl : j = j' := Option.some.inj (hj.symm.trans hj')
  exact henc

theorem within_of_interval?_eq_none (hobj : r.object = q.object) (hq : q.interval? = none) :
    r.Within q :=
  ⟨hobj, fun _ hj => absurd (hq.symm.trans hj) (by simp)⟩

theorem Within.mayOverlap (h : r.Within q) (hover : site.mayOverlap r = true) :
    site.mayOverlap q = true := by
  have hrange : site.range.mayOverlap r.range = true → site.range.mayOverlap q.range = true := by
    rw [ByteRange.mayOverlap_iff, ByteRange.mayOverlap_iff]
    intro hcross k j hk hj
    obtain ⟨i, hi, henc⟩ := h.encloses j hj
    exact Interval.crosses_of_encloses henc (hcross k i hk hi)
  simp only [Region.mayOverlap, h.object, Bool.or_eq_true, Bool.and_eq_true, beq_iff_eq] at hover ⊢
  tauto

end Region

end MemDep
