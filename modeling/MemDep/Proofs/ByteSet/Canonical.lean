import MemDep.Proofs.ByteSet
import Mathlib.Tactic.Common

/-!
# Byte sets have one representation

Sets are made from one interval by removing intervals from it. However this is done, no interval of
the list is empty, and the intervals stand in ascending order with a byte between any two of them
(`Canonical`). Two such lists with the same bytes are equal (`Canonical.ext`), so it does not matter in
which order, or in which pieces, bytes were removed (`removeAll_canonical`).
-/

namespace MemDep

/-! ## Pieces of intervals -/

namespace Interval

variable {i cut k : Interval}

theorem mem_minus_iff : k ∈ i.minus cut ↔
    (i.start < cut.start ∧ k = ⟨i.start, cut.start⟩) ∨
      (cut.stop < i.stop ∧ k = ⟨cut.stop, i.stop⟩) := by
  unfold minus
  by_cases hl : i.start < cut.start <;> by_cases hr : cut.stop < i.stop <;> simp [hl, hr]

theorem inside_of_mem_minus (hcross : i.crosses cut = true) (hk : k ∈ i.minus cut) :
    k.Nonempty ∧ i.start ≤ k.start ∧ k.stop ≤ i.stop := by
  have hends : i.start < cut.stop ∧ cut.start < i.stop := by simpa [crosses] using hcross
  rcases mem_minus_iff.mp hk with ⟨hlt, rfl⟩ | ⟨hlt, rfl⟩
  · refine ⟨hlt, Nat.le_refl _, ?_⟩
    change cut.start ≤ i.stop
    omega
  · refine ⟨hlt, ?_, Nat.le_refl _⟩
    change i.start ≤ cut.stop
    omega

theorem pairwise_minus (hcut : cut.Nonempty) :
    (i.minus cut).Pairwise fun j k => j.stop < k.start := by
  have hlt : cut.start < cut.stop := hcut
  unfold minus
  by_cases hl : i.start < cut.start <;> by_cases hr : cut.stop < i.stop <;> simp [hl, hr, hlt]

end Interval

namespace ByteSet

/-- No interval is empty, and between an interval and a later one lies a byte that neither of them
has. -/
structure Canonical (s : ByteSet) : Prop where
  nonempty : ∀ i ∈ s.intervals, i.Nonempty
  apart : s.intervals.Pairwise fun i j => i.stop < j.start

/-! ## The first interval -/

section Cons

variable {i j : Interval} {l k : List Interval} {b : Nat}

theorem mem_cons : b ∈ (⟨i :: l⟩ : ByteSet) ↔ b ∈ i ∨ b ∈ (⟨l⟩ : ByteSet) := by
  simp [mem_def]

theorem start_mem (hi : i.Nonempty) : i.start ∈ (⟨i :: l⟩ : ByteSet) :=
  mem_cons.mpr (.inl ⟨Nat.le_refl _, hi⟩)

theorem Canonical.head (h : Canonical ⟨i :: l⟩) : i.Nonempty :=
  h.nonempty i List.mem_cons_self

theorem Canonical.tail (h : Canonical ⟨i :: l⟩) : Canonical ⟨l⟩ :=
  ⟨fun j hj => h.nonempty j (List.mem_cons_of_mem i hj), (List.pairwise_cons.mp h.apart).2⟩

theorem Canonical.stop_lt (h : Canonical ⟨i :: l⟩) (hb : b ∈ (⟨l⟩ : ByteSet)) : i.stop < b := by
  obtain ⟨j, hj, hbj⟩ := hb
  have hlt : i.stop < j.start := (List.pairwise_cons.mp h.apart).1 j hj
  have hle : j.start ≤ b := hbj.1
  omega

theorem Canonical.start_le (h : Canonical ⟨i :: l⟩) (hb : b ∈ (⟨i :: l⟩ : ByteSet)) :
    i.start ≤ b := by
  rcases mem_cons.mp hb with hb | hb
  · exact hb.1
  · have hlt : i.start < i.stop := h.head
    have hstop := h.stop_lt hb
    omega

/-- The byte at the end of the first interval is not in the set, for the next interval does not start
there. -/
theorem Canonical.stop_not_mem (h : Canonical ⟨i :: l⟩) : i.stop ∉ (⟨i :: l⟩ : ByteSet) := by
  intro hb
  rcases mem_cons.mp hb with hb | hb
  · exact Nat.lt_irrefl _ hb.2
  · exact Nat.lt_irrefl _ (h.stop_lt hb)

theorem Canonical.mem_tail_iff (h : Canonical ⟨i :: l⟩) :
    b ∈ (⟨l⟩ : ByteSet) ↔ b ∈ (⟨i :: l⟩ : ByteSet) ∧ i.stop < b := by
  constructor
  · intro hb
    exact ⟨mem_cons.mpr (.inr hb), h.stop_lt hb⟩
  · rintro ⟨hb, hlt⟩
    rcases mem_cons.mp hb with hb | hb
    · exact absurd hb.2 (Nat.lt_asymm hlt)
    · exact hb

theorem Canonical.stop_le (h : Canonical ⟨i :: l⟩) (hj : j.start ≤ i.stop)
    (hsub : ∀ b, b ∈ (⟨j :: k⟩ : ByteSet) → b ∈ (⟨i :: l⟩ : ByteSet)) : j.stop ≤ i.stop := by
  by_contra hlt
  have hmem : i.stop ∈ j := ⟨hj, by omega⟩
  exact h.stop_not_mem (hsub _ (mem_cons.mpr (.inl hmem)))

theorem Canonical.head_eq (hi : Canonical ⟨i :: l⟩) (hj : Canonical ⟨j :: k⟩)
    (h : ∀ b, b ∈ (⟨i :: l⟩ : ByteSet) ↔ b ∈ (⟨j :: k⟩ : ByteSet)) : i = j := by
  have hilt : i.start < i.stop := hi.head
  have hjlt : j.start < j.stop := hj.head
  have hij : i.start ≤ j.start := hi.start_le ((h _).mpr (start_mem hj.head))
  have hji : j.start ≤ i.start := hj.start_le ((h _).mp (start_mem hi.head))
  have hstop : j.stop ≤ i.stop := hi.stop_le (by omega) fun b hb => (h b).mpr hb
  have hstop' : i.stop ≤ j.stop := hj.stop_le (by omega) fun b hb => (h b).mp hb
  obtain ⟨istart, istop⟩ := i
  obtain ⟨jstart, jstop⟩ := j
  obtain rfl : istart = jstart := Nat.le_antisymm hij hji
  obtain rfl : istop = jstop := Nat.le_antisymm hstop' hstop
  rfl

end Cons

/-- Canonical sets with the same bytes are equal. -/
theorem Canonical.ext {s u : ByteSet} (hs : s.Canonical) (hu : u.Canonical)
    (h : ∀ b, b ∈ s ↔ b ∈ u) : s = u := by
  obtain ⟨l⟩ := s
  obtain ⟨k⟩ := u
  induction l generalizing k with
  | nil =>
    cases k with
    | nil => rfl
    | cons j k =>
      have hstart := (h j.start).mpr (start_mem hu.head)
      simp [mem_def] at hstart
  | cons i l ih =>
    cases k with
    | nil =>
      have hstart := (h i.start).mp (start_mem hs.head)
      simp [mem_def] at hstart
    | cons j k =>
      obtain rfl := hs.head_eq hu h
      have htail : ∀ b, b ∈ (⟨l⟩ : ByteSet) ↔ b ∈ (⟨k⟩ : ByteSet) := by
        intro b
        rw [hs.mem_tail_iff, hu.mem_tail_iff, h b]
      have heq := ih hs.tail k hu.tail htail
      rw [ByteSet.mk.injEq] at heq ⊢
      rw [heq]

/-! ## Removing -/

theorem canonical_ofInterval (i : Interval) : (ofInterval i).Canonical := by
  unfold ofInterval
  split
  case isTrue hi =>
    refine ⟨?_, List.pairwise_singleton _ i⟩
    intro j hj
    exact List.mem_singleton.mp hj ▸ hi
  case isFalse => exact ⟨by simp, List.Pairwise.nil⟩

theorem Canonical.remove {s : ByteSet} (h : s.Canonical) (cut : Interval) :
    (s.remove cut).Canonical := by
  unfold ByteSet.remove
  split
  case isTrue hcut =>
    have hpiece : ∀ j ∈ s.intervals, ∀ p ∈ (if j.crosses cut then j.minus cut else [j]),
        p.Nonempty ∧ j.start ≤ p.start ∧ p.stop ≤ j.stop := by
      intro j hj p hp
      split at hp
      case isTrue hcross => exact Interval.inside_of_mem_minus hcross hp
      case isFalse =>
        obtain rfl := List.mem_singleton.mp hp
        exact ⟨h.nonempty p hj, Nat.le_refl _, Nat.le_refl _⟩
    constructor
    · intro p hp
      obtain ⟨j, hj, hp⟩ := List.mem_flatMap.mp hp
      exact (hpiece j hj p hp).1
    · refine List.pairwise_flatMap.mpr ⟨?_, ?_⟩
      · intro j _
        split
        · exact Interval.pairwise_minus hcut
        · exact List.pairwise_singleton _ j
      · -- pieces of different intervals lie within these, which are apart
        refine h.apart.imp_of_mem ?_
        intro i j hi hj hij p hp q hq
        have hpi := (hpiece i hi p hp).2.2
        have hqj := (hpiece j hj q hq).2.1
        omega
  case isFalse => exact h

/-- The set without the bytes of some intervals, which are removed one after the other. -/
def removeAll (s : ByteSet) (cuts : List Interval) : ByteSet := cuts.foldl remove s

theorem Canonical.removeAll {s : ByteSet} (h : s.Canonical) (cuts : List Interval) :
    (s.removeAll cuts).Canonical := by
  induction cuts generalizing s with
  | nil => exact h
  | cons cut cuts ih => exact ih (h.remove cut)

theorem mem_removeAll {b : Nat} {s : ByteSet} {cuts : List Interval} :
    b ∈ s.removeAll cuts ↔ b ∈ s ∧ ∀ cut ∈ cuts, b ∉ cut := by
  induction cuts generalizing s with
  | nil => simp [removeAll]
  | cons cut cuts ih =>
    have hstep : s.removeAll (cut :: cuts) = (s.remove cut).removeAll cuts := rfl
    rw [hstep, ih, mem_remove, List.forall_mem_cons, and_assoc]

theorem Canonical.removeAll_congr {s : ByteSet} (h : s.Canonical) {cuts cuts' : List Interval}
    (hbytes : ∀ b ∈ s, (∃ cut ∈ cuts, b ∈ cut) ↔ ∃ cut ∈ cuts', b ∈ cut) :
    s.removeAll cuts = s.removeAll cuts' := by
  refine (h.removeAll cuts).ext (h.removeAll cuts') fun b => ?_
  rw [mem_removeAll, mem_removeAll]
  refine and_congr_right fun hb => ?_
  simpa using not_congr (hbytes b hb)

/-- No known range has the last byte of all. -/
theorem last_mem_removeAll_full {cuts : List Interval}
    (h : ∀ cut ∈ cuts, ∃ r : ByteRange, r.interval? = some cut) :
    Offset.limit - 1 ∈ full.removeAll cuts := by
  have hpos : 0 < Offset.limit := by decide
  refine mem_removeAll.mpr ⟨mem_full.mpr (by omega), ?_⟩
  intro cut hcut hmem
  obtain ⟨r, hr⟩ := h cut hcut
  have hstop := ByteRange.stop_lt_of_interval? hr
  have hlast : Offset.limit - 1 < cut.stop := hmem.2
  omega

/-! ## Sets that are made by removing -/

/-- The sets that are made without removing anything. -/
inductive Initial : ByteSet → Prop where
  | full : Initial full
  | empty : Initial empty
  | ofInterval (i : Interval) : Initial (ofInterval i)

theorem Initial.canonical {s : ByteSet} (h : s.Initial) : s.Canonical := by
  cases h with
  | full => exact canonical_ofInterval _
  | empty => exact ⟨by simp [ByteSet.empty], List.Pairwise.nil⟩
  | ofInterval i => exact canonical_ofInterval i

/-- A set from which intervals were removed is canonical, and has the bytes that none of the intervals
has. It is empty if it has no byte, and intersects an interval if they have a byte in common. Removing
the same bytes in any other way, or the same intervals in any other order, gives the same list. Known
ranges never leave nothing of the full set. -/
theorem removeAll_canonical {s : ByteSet} (hs : s.Initial) (cuts : List Interval) :
    (s.removeAll cuts).Canonical ∧
    (∀ b, b ∈ s.removeAll cuts ↔ b ∈ s ∧ ∀ cut ∈ cuts, b ∉ cut) ∧
    ((s.removeAll cuts).isEmpty = true ↔ ∀ b, b ∉ s.removeAll cuts) ∧
    (∀ i, (s.removeAll cuts).intersects i = true ↔ ∃ b ∈ s.removeAll cuts, b ∈ i) ∧
    (∀ cuts', (∀ b ∈ s, (∃ cut ∈ cuts, b ∈ cut) ↔ ∃ cut ∈ cuts', b ∈ cut) →
      (s.removeAll cuts').intervals = (s.removeAll cuts).intervals) ∧
    (∀ cuts', cuts'.Perm cuts → (s.removeAll cuts').intervals = (s.removeAll cuts).intervals) ∧
    (s = full → (∀ cut ∈ cuts, ∃ r : ByteRange, r.interval? = some cut) →
      (s.removeAll cuts).isEmpty = false) := by
  have hcanon := hs.canonical
  have hall := hcanon.removeAll cuts
  refine ⟨hall, fun b => mem_removeAll, isEmpty_iff_of_nonempty hall.nonempty,
    fun i => intersects_iff_of_nonempty hall.nonempty, ?_, ?_, ?_⟩
  · intro cuts' hbytes
    rw [hcanon.removeAll_congr hbytes]
  · intro cuts' hperm
    have hbytes : ∀ b ∈ s, (∃ cut ∈ cuts, b ∈ cut) ↔ ∃ cut ∈ cuts', b ∈ cut := by
      intro b _
      simp only [hperm.mem_iff]
    rw [hcanon.removeAll_congr hbytes]
  · rintro rfl hknown
    have hlast := last_mem_removeAll_full hknown
    have hsome := mt (isEmpty_iff_of_nonempty hall.nonempty).mp (fun hnone => hnone _ hlast)
    exact Bool.eq_false_iff.mpr hsome

/-- Bytes 4 to 7 and 12 to 19, and an interval without bytes. -/
def twoCuts : List Interval := [⟨4, 8⟩, ⟨12, 12⟩, ⟨12, 20⟩]

/-- Four of the bytes are removed in two halves, or all of the intervals in another order. -/
theorem removeAll_canonical_twoCuts :
    (full.removeAll twoCuts).Canonical ∧
    (full.removeAll [⟨12, 20⟩, ⟨4, 6⟩, ⟨6, 8⟩]).intervals = (full.removeAll twoCuts).intervals ∧
    (full.removeAll [⟨12, 20⟩, ⟨4, 8⟩, ⟨12, 12⟩]).intervals = (full.removeAll twoCuts).intervals ∧
    (full.removeAll twoCuts).isEmpty = false := by
  obtain ⟨hcanon, _, _, _, hbytes, hperm, hknown⟩ := removeAll_canonical .full twoCuts
  refine ⟨hcanon, hbytes _ ?_, hperm _ (by decide), hknown rfl ?_⟩
  · intro b _
    simp only [twoCuts, List.mem_cons, List.not_mem_nil, or_false, exists_eq_or_imp,
      exists_eq_left, Interval.mem_def]
    omega
  · intro cut hcut
    simp only [twoCuts, List.mem_cons, List.not_mem_nil, or_false] at hcut
    rcases hcut with rfl | rfl | rfl
    · exact ⟨⟨.ofNat 4, .ofNat 4⟩, by decide⟩
    · exact ⟨⟨.ofNat 12, .ofNat 0⟩, by decide⟩
    · exact ⟨⟨.ofNat 12, .ofNat 8⟩, by decide⟩

end ByteSet

end MemDep
