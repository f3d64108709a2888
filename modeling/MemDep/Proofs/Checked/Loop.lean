import Mathlib.Logic.Relation
import Mathlib.Tactic.Common

/-!
# Algorithms that can fail

The analyses are defined by recursion on lists, with positions that are bounded by their types and
lookups that give nothing past the end of an array. Programs on arrays keep positions as numbers,
read and overwrite slots without looking, and repeat a turn until it is the last one. An algorithm
in this form is a computation in `Option`: reading a slot by `xs[i]?`, or overwriting one by `put`,
fails if the slot does not exist, and a loop fails if one of its turns fails or if no turn is the
last. So an algorithm with a result has used existing slots only, and has ended.
-/

namespace MemDep

namespace Checked

/-! ## Slots -/

section Slots

variable {α : Type}

/-- Overwrites a slot, which has to exist. -/
def put (xs : Array α) (i : Nat) (x : α) : Option (Array α) :=
  if i < xs.size then some (xs.setIfInBounds i x) else none

theorem put_eq_some {xs : Array α} {i : Nat} (h : i < xs.size) (x : α) :
    put xs i x = some (xs.setIfInBounds i x) :=
  if_pos h

/-- Reads a slot after looking whether it exists. -/
def lookup (xs : Array α) (i : Nat) : Option (Option α) :=
  if i < xs.size then xs[i]?.map some else some none

@[simp]
theorem lookup_eq (xs : Array α) (i : Nat) : lookup xs i = some xs[i]? := by
  unfold lookup
  split
  case isTrue h => simp [h]
  case isFalse h => simp [Nat.le_of_not_lt h]

end Slots

/-! ## Loops -/

section Loops

variable {σ α : Type}

/-- What a turn of a loop leads to. -/
inductive Turn (σ α : Type) where
  /-- Another turn. -/
  | again (s : σ)
  /-- The end of the loop. -/
  | done (a : α)

/-- Turns from a state lead to a last one, with a result. -/
inductive Ends (turn : σ → Option (Turn σ α)) : σ → α → Prop where
  | last {s : σ} {a : α} (h : turn s = some (.done a)) : Ends turn s a
  | again {s s' : σ} {a : α} (h : turn s = some (.again s')) (hs' : Ends turn s' a) : Ends turn s a

open Classical in
/-- Repeats a turn until it is the last one. -/
noncomputable def loop (turn : σ → Option (Turn σ α)) (s : σ) : Option α :=
  if h : ∃ a, Ends turn s a then some h.choose else none

variable {turn : σ → Option (Turn σ α)} {s s' : σ} {a : α}

theorem ends_iff : Ends turn s a ↔
    turn s = some (.done a) ∨ ∃ s', turn s = some (.again s') ∧ Ends turn s' a := by
  constructor
  · intro h
    cases h with
    | last h => exact .inl h
    | again h hs' => exact .inr ⟨_, h, hs'⟩
  · rintro (h | ⟨s', h, hs'⟩)
    · exact .last h
    · exact .again h hs'

/-- Loops from states that end in the same way have the same result. -/
theorem loop_eq_of_ends_iff (h : ∀ a, Ends turn s a ↔ Ends turn s' a) :
    loop turn s = loop turn s' := by
  have heq : Ends turn s = Ends turn s' := funext fun a => propext (h a)
  unfold loop
  rw [heq]

theorem loop_of_again (h : turn s = some (.again s')) : loop turn s = loop turn s' := by
  refine loop_eq_of_ends_iff fun a => ?_
  rw [ends_iff, h]
  simp

theorem loop_congr (h : turn s = turn s') : loop turn s = loop turn s' := by
  refine loop_eq_of_ends_iff fun a => ?_
  rw [ends_iff, h, ← ends_iff]

theorem loop_of_done (h : turn s = some (.done a)) : loop turn s = some a := by
  have hends : ∀ b, Ends turn s b ↔ a = b := by
    intro b
    rw [ends_iff, h]
    simp
  have hexists : ∃ b, Ends turn s b := ⟨a, .last h⟩
  unfold loop
  rw [dif_pos hexists, ← (hends _).mp hexists.choose_spec]

/-- A loop ends if every turn keeps an invariant and makes something smaller. -/
theorem loop_of_invariant (inv : σ → Prop) (post : α → Prop) {smaller : σ → σ → Prop}
    (hwf : WellFounded smaller)
    (hturn : ∀ s, inv s → (∃ s', turn s = some (.again s') ∧ inv s' ∧ smaller s' s) ∨
      ∃ a, turn s = some (.done a) ∧ post a) (hs : inv s) :
    ∃ a, loop turn s = some a ∧ post a := by
  induction s using hwf.induction with
  | _ s ih =>
    rcases hturn s hs with ⟨s', hagain, hs', hlt⟩ | ⟨a, hdone, ha⟩
    · obtain ⟨a, hloop, ha⟩ := ih s' hlt hs'
      exact ⟨a, (loop_of_again hagain).trans hloop, ha⟩
    · exact ⟨a, loop_of_done hdone, ha⟩

end Loops

/-! ## Steps over a list -/

section Steps

variable {σ α β : Type}

/-- Steps over the elements of a list that keep an invariant of the elements so far. -/
theorem foldlM_of_invariant {f : σ → α → Option σ} (inv : List α → σ → Prop) {l : List α} {s : σ}
    (hstep : ∀ before x after s, l = before ++ x :: after → inv before s →
      ∃ s', f s x = some s' ∧ inv (before ++ [x]) s') (h : inv [] s) :
    ∃ s', l.foldlM f s = some s' ∧ inv l s' := by
  suffices ∀ before after s, l = before ++ after → inv before s →
      ∃ s', after.foldlM f s = some s' ∧ inv l s' from this [] l s rfl h
  intro before after
  induction after generalizing before with
  | nil =>
    intro s hl hs
    rw [List.append_nil] at hl
    exact ⟨s, rfl, hl ▸ hs⟩
  | cons x after ih =>
    intro s hl hs
    obtain ⟨s', hx, hs'⟩ := hstep before x after s hl hs
    obtain ⟨s'', hrest, hs''⟩ := ih (before ++ [x]) s' (by rw [hl, List.append_assoc]; rfl) hs'
    refine ⟨s'', ?_, hs''⟩
    rw [List.foldlM_cons, hx]
    exact hrest

theorem mapM_eq_some {f : α → Option β} (f' : α → β) {l : List α}
    (h : ∀ x ∈ l, f x = some (f' x)) : l.mapM f = some (l.map f') := by
  induction l with
  | nil => rfl
  | cons x l ih =>
    obtain ⟨hx, hl⟩ := List.forall_mem_cons.mp h
    rw [List.mapM_cons, hx, ih hl]
    rfl

/-- Steps over the slots of an array by their numbers find all of them. -/
theorem mapM_slots (xs : Array α) (f : α → β) :
    ((List.range xs.size).mapM fun i => do return f (← xs[i]?)) = some (xs.map f).toList := by
  suffices ∀ k ≤ xs.size, ((List.range k).mapM fun i => do return f (← xs[i]?)) =
      some ((xs.toList.take k).map f) by
    rw [this xs.size (Nat.le_refl _), ← Array.length_toList, List.take_length, Array.toList_map]
  intro k hk
  induction k with
  | zero => rfl
  | succ k ih =>
    have hget : xs[k]? = some xs[k] := Array.getElem?_eq_getElem hk
    rw [List.range_succ, List.mapM_append, ih (Nat.le_of_succ_le hk), List.take_add_one,
      Array.getElem?_toList, hget]
    simp [hget]

/-- The elements that a test keeps, in order. -/
def keep (test : α → Option Bool) (l : List α) : Option (List α) :=
  l.foldlM (fun kept x => do return if ← test x then kept ++ [x] else kept) []

theorem keep_eq_some {test : α → Option Bool} (test' : α → Bool) {l : List α}
    (h : ∀ x ∈ l, test x = some (test' x)) : keep test l = some (l.filter test') := by
  obtain ⟨kept, hkept, rfl⟩ :=
    foldlM_of_invariant (f := fun kept x => do return if ← test x then kept ++ [x] else kept)
      (fun before kept => kept = before.filter test') (l := l) (s := [])
      (fun before x after kept hl hkept => by
        rw [h x (by simp [hl])]
        cases hx : test' x <;> exact ⟨_, rfl, by simp [hkept, hx]⟩) rfl
  exact hkept

end Steps

end Checked

end MemDep
