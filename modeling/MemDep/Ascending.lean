/-!
# Ascending lists

Finite sets as lists in strictly ascending order. Two such lists with the same members are equal
(`eq_of_mem_iff`), so a set has one representation and comparing sets is comparing lists.

What the operations hold (`mem_union`, `mem_squeeze`) does not depend on the order relation; that
their results are ascending does.
-/

namespace MemDep

/-- A strict linear order. -/
class StrictLinear (α : Type) [LT α] : Prop where
  irrefl (a : α) : ¬ a < a
  trans {a b c : α} : a < b → b < c → a < c
  connected (a b : α) : a < b ∨ a = b ∨ b < a

instance : StrictLinear Nat := ⟨Nat.lt_irrefl, Nat.lt_trans, Nat.lt_trichotomy⟩

namespace Ascending

/-- Every element is smaller than all the later ones. -/
abbrev Sorted {α : Type} [LT α] (l : List α) : Prop := l.Pairwise (· < ·)

section Squeeze

variable {α : Type} [DecidableEq α]

/-- Drops elements that equal the next one. -/
def squeeze : List α → List α
  | a :: b :: l => if a = b then squeeze (b :: l) else a :: squeeze (b :: l)
  | l => l

@[simp] theorem mem_squeeze {a : α} {l : List α} : a ∈ squeeze l ↔ a ∈ l := by
  fun_induction squeeze l <;> simp_all

end Squeeze

/-- The elements of a list of numbers, in order and each once. -/
def ofList (l : List Nat) : List Nat := squeeze (l.mergeSort (· ≤ ·))

@[simp] theorem mem_ofList {a : Nat} {l : List Nat} : a ∈ ofList l ↔ a ∈ l := by simp [ofList]

variable {α : Type} [LT α] [DecidableLT α] [DecidableEq α]

/-- Adds `a` and the members of `rest` to an ascending list, given how `rest` is added to one. -/
def merge (a : α) (rest : List α → List α) : List α → List α
  | [] => a :: rest []
  | b :: l =>
    if a = b then b :: rest l
    else if a < b then a :: rest (b :: l)
    else b :: merge a rest l

/-- The members of two ascending lists. -/
def union : List α → List α → List α
  | [], l => l
  | a :: k, l => merge a (union k) l

/-- The members of several ascending lists. -/
def unionAll (ls : List (List α)) : List α := ls.foldr union []

/-! ## Membership -/

theorem mem_merge {a x : α} {k : List α} {rest : List α → List α}
    (h : ∀ l, x ∈ rest l ↔ x ∈ k ∨ x ∈ l) (l : List α) :
    x ∈ merge a rest l ↔ x ∈ a :: k ∨ x ∈ l := by
  induction l with
  | nil => simp [merge, h]
  | cons b l ih =>
    unfold merge
    split
    · subst_vars
      simp only [List.mem_cons, h]
      grind
    · split
      · simp only [List.mem_cons, h]
        grind
      · simp only [List.mem_cons, ih]
        grind

@[simp] theorem mem_union {x : α} {k l : List α} : x ∈ union k l ↔ x ∈ k ∨ x ∈ l := by
  induction k generalizing l with
  | nil => simp [union]
  | cons a k ih => exact mem_merge (fun l => ih) l

@[simp] theorem mem_unionAll {x : α} {ls : List (List α)} :
    x ∈ unionAll ls ↔ ∃ l ∈ ls, x ∈ l := by
  induction ls with
  | nil => simp [unionAll]
  | cons l ls ih => simp_all [unionAll]

/-! ## Order -/

variable [StrictLinear α]

theorem sorted_merge {a : α} {k : List α} {rest : List α → List α}
    (hmem : ∀ x l, x ∈ rest l ↔ x ∈ k ∨ x ∈ l) (hrest : ∀ l, Sorted l → Sorted (rest l))
    (hk : Sorted (a :: k)) {l : List α} (hl : Sorted l) : Sorted (merge a rest l) := by
  have hak : ∀ x ∈ k, a < x := (List.pairwise_cons.1 hk).1
  induction l with
  | nil =>
    refine List.pairwise_cons.2 ⟨fun x hx => ?_, hrest _ hl⟩
    exact hak x (by simpa [hmem] using hx)
  | cons b l ih =>
    have hbl := (List.pairwise_cons.1 hl).1
    unfold merge
    split
    · subst_vars
      refine List.pairwise_cons.2 ⟨fun x hx => ?_, hrest _ (List.pairwise_cons.1 hl).2⟩
      rcases (hmem x l).1 hx with h | h
      · exact hak x h
      · exact hbl x h
    · split
      case isTrue hab =>
        refine List.pairwise_cons.2 ⟨fun x hx => ?_, hrest _ hl⟩
        rcases (hmem x _).1 hx with h | h
        · exact hak x h
        · rcases List.mem_cons.1 h with rfl | h
          · exact hab
          · exact StrictLinear.trans hab (hbl x h)
      case isFalse hne hab =>
        have hba : b < a := by
          rcases StrictLinear.connected a b with h | h | h
          · exact absurd h hab
          · exact absurd h hne
          · exact h
        refine List.pairwise_cons.2 ⟨fun x hx => ?_, ih (List.pairwise_cons.1 hl).2⟩
        rcases (mem_merge (fun l => hmem x l) l).1 hx with h | h
        · rcases List.mem_cons.1 h with rfl | h
          · exact hba
          · exact StrictLinear.trans hba (hak x h)
        · exact hbl x h

theorem sorted_union {k l : List α} (hk : Sorted k) (hl : Sorted l) : Sorted (union k l) := by
  induction k generalizing l with
  | nil => exact hl
  | cons a k ih =>
    exact sorted_merge (fun x l => mem_union) (fun l h => ih (List.pairwise_cons.1 hk).2 h) hk hl

theorem sorted_unionAll {ls : List (List α)} (h : ∀ l ∈ ls, Sorted l) : Sorted (unionAll ls) := by
  induction ls with
  | nil => exact List.Pairwise.nil
  | cons l ls ih =>
    exact sorted_union (h l (by simp)) (ih fun k hk => h k (by simp [hk]))

/-- Ascending lists with the same members are equal. -/
theorem eq_of_mem_iff {β : Type} [LT β] [StrictLinear β] {k l : List β} (hk : Sorted k)
    (hl : Sorted l) (h : ∀ x, x ∈ k ↔ x ∈ l) : k = l := by
  induction k generalizing l with
  | nil =>
    cases l with
    | nil => rfl
    | cons b l => exact absurd ((h b).2 (by simp)) (by simp)
  | cons a k ih =>
    cases l with
    | nil => exact absurd ((h a).1 (by simp)) (by simp)
    | cons b l =>
      obtain ⟨hak, hk'⟩ := List.pairwise_cons.1 hk
      obtain ⟨hbl, hl'⟩ := List.pairwise_cons.1 hl
      have hab : a = b := by
        rcases List.mem_cons.1 ((h a).1 (by simp)) with h1 | h1
        · exact h1
        · rcases List.mem_cons.1 ((h b).2 (by simp)) with h2 | h2
          · exact h2.symm
          · exact absurd (StrictLinear.trans (hbl a h1) (hak b h2)) (StrictLinear.irrefl b)
      subst hab
      congr 1
      refine ih hk' hl' fun x => ⟨fun hx => ?_, fun hx => ?_⟩
      · rcases List.mem_cons.1 ((h x).1 (by simp [hx])) with h1 | h1
        · exact absurd (h1 ▸ hak x hx) (StrictLinear.irrefl x)
        · exact h1
      · rcases List.mem_cons.1 ((h x).2 (by simp [hx])) with h1 | h1
        · exact absurd (h1 ▸ hbl x hx) (StrictLinear.irrefl x)
        · exact h1

end Ascending

end MemDep
