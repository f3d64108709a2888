import MemDep.Ascending

/-!
# Lists of numbers in ascending order

Dropping the repetitions of a list in order leaves it strictly ascending.
-/

namespace MemDep

namespace Ascending

theorem sorted_squeeze {l : List Nat} (h : l.Pairwise (· ≤ ·)) : Sorted (squeeze l) := by
  fun_induction squeeze l with
  | case1 b l ih => exact ih (List.pairwise_cons.mp h).2
  | case2 a b l hab ih =>
    obtain ⟨ha, hl⟩ := List.pairwise_cons.mp h
    refine List.pairwise_cons.mpr ⟨?_, ih hl⟩
    intro x hx
    have hle : a ≤ b := ha b (by simp)
    rcases List.mem_cons.mp (mem_squeeze.mp hx) with rfl | hx
    · omega
    · have hbx := (List.pairwise_cons.mp hl).1 x hx
      omega
  | case3 l hne =>
    rcases l with _ | ⟨a, _ | ⟨b, l⟩⟩
    · exact List.Pairwise.nil
    · exact List.pairwise_singleton _ a
    · exact absurd rfl (hne a b l)

theorem sorted_ofList (l : List Nat) : Sorted (ofList l) := by
  refine sorted_squeeze ?_
  have hsorted := @List.pairwise_mergeSort Nat (fun a b => decide (a ≤ b))
    (fun a b c hab hbc => by simp only [decide_eq_true_eq] at *; omega)
    (fun a b => by simp only [Bool.or_eq_true, decide_eq_true_eq]; omega) l
  simpa using hsorted

end Ascending

end MemDep
