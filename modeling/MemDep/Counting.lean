/-!
# Counting

Sums over an initial segment of the numbers, and counts of list elements, as they are used to show
that a search ends: if no term grows and one of them drops, the sum drops.
-/

namespace MemDep

/-- A sum over the numbers below a bound. -/
def sumBelow (f : Nat → Nat) : Nat → Nat
  | 0 => 0
  | n + 1 => sumBelow f n + f n

theorem sumBelow_mono {f g : Nat → Nat} (h : ∀ m, g m ≤ f m) (k : Nat) :
    sumBelow g k ≤ sumBelow f k := by
  induction k with
  | zero => exact Nat.le_refl _
  | succ k ih =>
    have := h k
    simp only [sumBelow]
    omega

/-- If no term grows and one of them drops by `d`, the sum drops by `d`. -/
theorem sumBelow_add_le {f g : Nat → Nat} {n d k : Nat} (h : ∀ m, g m ≤ f m) (hn : n < k)
    (hd : g n + d ≤ f n) : sumBelow g k + d ≤ sumBelow f k := by
  induction k with
  | zero => omega
  | succ k ih =>
    simp only [sumBelow]
    by_cases hk : n = k
    · subst hk
      have := sumBelow_mono h n
      omega
    · have := ih (by omega)
      have := h k
      omega

/-- Counting fewer elements, and one of them no longer. -/
theorem countP_lt {α : Type} {q r : α → Bool} {l : List α} (h : ∀ x, r x → q x) {x : α} (hx : x ∈ l)
    (hq : q x) (hr : r x = false) : l.countP r < l.countP q := by
  induction l with
  | nil => simp at hx
  | cons y l ih =>
    have hle := List.countP_mono_left (l := l) fun z _ => h z
    rcases List.mem_cons.1 hx with rfl | hx
    · simp only [List.countP_cons, hq, hr]
      simp only [if_true, Bool.false_eq_true, if_false]
      omega
    · have hlt := ih hx
      have hy := h y
      simp only [List.countP_cons]
      by_cases hr : r y
      · rw [if_pos hr, if_pos (hy hr)]
        omega
      · rw [if_neg hr]
        omega

end MemDep
