import MemDep.Proofs.Analysis.Basic
import MemDep.Proofs.Overlap
import MemDep.Proofs.Reaching.Equations

/-!
# What is overwritten, and by what

A region covers another one only if all bytes of both are known, so whatever may overlap the region
that is covered may overlap the other one too (`Region.mayOverlap_of_covers`). Hence a node that hides
a fact puts one of its own writes in its place, and no question that the fact would have answered is
left without an answer (`Flow.exists_mem_transfer_of_dropped`).
-/

namespace MemDep

namespace Region

variable {a b c q : Region}

theorem mayOverlap_comm : a.mayOverlap b = b.mayOverlap a := by
  have hrange : a.range.mayOverlap b.range = b.range.mayOverlap a.range := by
    rw [Bool.eq_iff_iff, ByteRange.mayOverlap_iff, ByteRange.mayOverlap_iff]
    constructor
    · intro h i j hi hj
      rw [Interval.crosses_comm]
      exact h j i hj hi
    · intro h i j hi hj
      rw [Interval.crosses_comm]
      exact h j i hj hi
  have hobject : (a.object == b.object) = (b.object == a.object) := Bool.beq_comm
  unfold mayOverlap
  rw [hrange, hobject, Bool.or_comm (a.object == unknownMemory)]

theorem covers_trans (hab : a.covers b = true) (hbc : b.covers c = true) : a.covers c = true := by
  obtain ⟨habobj, hne, i, j, hi, hj, hij⟩ := covers_iff.mp hab
  obtain ⟨hbcobj, -, j', k, hj', hk, hjk⟩ := covers_iff.mp hbc
  obtain rfl : j = j' := Option.some.inj (hj.symm.trans hj')
  exact covers_iff.mpr ⟨habobj.trans hbcobj, hne, i, k, hi, hk, Interval.encloses_trans hij hjk⟩

theorem exists_bytes_of_covers (h : a.covers b = true) : a.object = b.object ∧
    a.object ≠ unknownMemory ∧ ∃ i j, a.interval? = some i ∧ b.interval? = some j ∧
      ∀ byte ∈ j, byte ∈ i := by
  obtain ⟨hobj, hne, i, j, hi, hj, henc⟩ := covers_iff.mp h
  exact ⟨hobj, hne, i, j, hi, hj, fun _ hbyte => Interval.mem_of_encloses henc hbyte⟩

/-- A region that covers another one overlaps all that the other one overlaps. -/
theorem mayOverlap_of_covers (hab : a.covers b = true) (hbq : b.mayOverlap q = true) :
    a.mayOverlap q = true := by
  obtain ⟨hobj, -, hrange⟩ := covers_iff.mp hab
  have hwithin : b.Within a := within_of_covers hobj.symm (ByteRange.covers_iff.mpr hrange)
  rw [mayOverlap_comm] at hbq ⊢
  exact hwithin.mayOverlap hbq

end Region

namespace Flow

variable {p : Flow} {n : Nat} {incoming : List Fact} {f : Fact}

/-- The write that a fact names may overlap a region. -/
def MayAnswer (p : Flow) (f : Fact) (q : Region) : Prop :=
  ∃ r, p.region? f = some r ∧ r.mayOverlap q = true

/-- A fact that does not get past a node is covered by a strong write of the node, and a fact of this
write leaves the node. -/
theorem exists_covering_of_dropped (hf : f ∈ incoming) (hout : f ∉ p.transfer n incoming) :
    ∃ site write i, (p.accesses.writes f.node)[f.write]? = some site ∧
      (p.accesses.writes n)[i]? = some write ∧ write.region.covers site.region = true ∧
      ⟨n, i⟩ ∈ p.transfer n incoming := by
  rw [mem_transfer, not_or, not_and] at hout
  have hhidden := mt ReachingDefinitions.hiddenBy_eq_false_iff.mpr (hout.1 hf)
  obtain ⟨site, hsite, write, hwrite, -, hcovers⟩ := not_not.mp hhidden
  obtain ⟨i, hi⟩ := List.mem_iff_getElem?.mp hwrite
  have hgen : (⟨n, i⟩ : Fact) ∈ p.generated n := mem_generated_iff.mpr ⟨rfl, write, hi⟩
  exact ⟨site, write, i, hsite, hi, hcovers, mem_transfer.mpr (.inr hgen)⟩

theorem exists_mem_transfer_of_dropped {q : Region} (hf : f ∈ incoming) (hq : p.MayAnswer f q)
    (hout : f ∉ p.transfer n incoming) :
    ∃ k ∈ p.transfer n incoming, k.node = n ∧ p.MayAnswer k q := by
  obtain ⟨site, write, i, hsite, hwrite, hcovers, hmem⟩ := exists_covering_of_dropped hf hout
  obtain ⟨r, hr, hover⟩ := hq
  obtain rfl : site.region = r := Option.some.inj ((region?_eq hsite).symm.trans hr)
  refine ⟨⟨n, i⟩, hmem, rfl, write.region, region?_eq hwrite, ?_⟩
  exact Region.mayOverlap_of_covers hcovers hover

/-- Overlap is symmetric and covering is transitive. A region that covers another one is of the same
object, which is known, as are the bytes of both, and has all bytes of the other one; and it overlaps
all that the other one overlaps. Hence, if a fact that may answer a question enters a node and does not
leave it, then a fact of the node that may answer the question does. -/
theorem covering_keeps_answers (a b c q : Region) (p : Flow) (n : Nat) (incoming : List Fact)
    (f : Fact) :
    a.mayOverlap b = b.mayOverlap a ∧
    (a.covers b = true → b.covers c = true → a.covers c = true) ∧
    (a.covers b = true → a.object = b.object ∧ a.object ≠ unknownMemory ∧
      ∃ i j, a.interval? = some i ∧ b.interval? = some j ∧ ∀ byte ∈ j, byte ∈ i) ∧
    (a.covers b = true → b.mayOverlap q = true → a.mayOverlap q = true) ∧
    (f ∈ incoming → p.MayAnswer f q → f ∉ p.transfer n incoming →
      ∃ k ∈ p.transfer n incoming, k.node = n ∧ p.MayAnswer k q) := by
  refine ⟨Region.mayOverlap_comm, Region.covers_trans, Region.exists_bytes_of_covers,
    Region.mayOverlap_of_covers, ?_⟩
  intro hf hq hout
  exact exists_mem_transfer_of_dropped hf hq hout

open Analysis (firstBytes storeLoop) in
/-- The store before the loop writes four bytes, and drops what the store in the loop wrote. -/
theorem covering_keeps_answers_storeLoop :
    (firstBytes 1 4).mayOverlap (firstBytes 1 2) = (firstBytes 1 2).mayOverlap (firstBytes 1 4) ∧
    (firstBytes 1 4).covers (firstBytes 1 1) = true ∧
    (∃ i j, (firstBytes 1 4).interval? = some i ∧ (firstBytes 1 2).interval? = some j ∧
      ∀ byte ∈ j, byte ∈ i) ∧
    (firstBytes 1 4).mayOverlap (firstBytes 1 1) = true ∧
    ∃ k ∈ (ofGraph storeLoop false).transfer 2 [⟨4, 0⟩],
      k.node = 2 ∧ (ofGraph storeLoop false).MayAnswer k (firstBytes 1 1) := by
  obtain ⟨hcomm, htrans, hbytes, hover, hdropped⟩ := covering_keeps_answers (firstBytes 1 4)
    (firstBytes 1 2) (firstBytes 1 1) (firstBytes 1 1) (ofGraph storeLoop false) 2 [⟨4, 0⟩] ⟨4, 0⟩
  have hregion : (ofGraph storeLoop false).region? ⟨4, 0⟩ = some (firstBytes 1 2) := by
    decide +kernel
  have hout : (⟨4, 0⟩ : Fact) ∉ (ofGraph storeLoop false).transfer 2 [⟨4, 0⟩] := by
    decide +kernel
  refine ⟨hcomm, htrans (by decide) (by decide), (hbytes (by decide)).2.2,
    hover (by decide) (by decide), hdropped (List.mem_singleton_self _) ?_ hout⟩
  exact ⟨firstBytes 1 2, hregion, by decide⟩

end Flow

end MemDep
