import MemDep.Digraph
import Mathlib.Logic.Relation
import Mathlib.Tactic.Common

/-!
# Traversals of a directed graph are exact

`reach` marks, and `reversePostorder` lists once each, exactly the vertices that the roots lead to
along entries that are vertices.
-/

namespace MemDep

namespace Digraph

open Relation

variable {g : Digraph}

/-- An entry of a successor list that leads from a vertex to a vertex. -/
def Arc (g : Digraph) (u v : Nat) : Prop := u < g.size ∧ v ∈ g.next u ∧ v < g.size

def Marked (marks : Array Bool) (v : Nat) : Prop := marks[v]? = some true

theorem Marked.lt {marks : Array Bool} {v : Nat} (h : Marked marks v) : v < marks.size :=
  (Array.getElem?_eq_some_iff.mp h).1

theorem marked_of_not_unmarked {marks : Array Bool} {v : Nat} (hv : v < marks.size)
    (h : marks[v]? ≠ some false) : Marked marks v := by
  rw [Marked]
  rw [Array.getElem?_eq_getElem hv] at h ⊢
  simpa using h

theorem marked_set {marks : Array Bool} {v w : Nat} (hv : v < marks.size) :
    Marked (marks.setIfInBounds v true) w ↔ w = v ∨ Marked marks w := by
  unfold Marked
  by_cases hw : w = v
  · subst hw
    simp [hv]
  · simp [hw, Array.getElem?_setIfInBounds_ne (Ne.symm hw)]

theorem lt_of_unmarked {marks : Array Bool} {v : Nat} (h : marks[v]? = some false) :
    v < marks.size :=
  (Array.getElem?_eq_some_iff.mp h).1

theorem not_marked_noMarks (g : Digraph) (v : Nat) : ¬ Marked g.noMarks v := by
  intro h
  have hv : v < g.noMarks.size := h.lt
  rw [Marked, Array.getElem?_eq_getElem hv] at h
  simp [noMarks] at h

/-! ## Reachability -/

/-- A property of the marked vertices and of the work list that arcs carry on holds of everything
that gets marked. -/
theorem of_marked_reachFrom {P : Nat → Prop} (hstep : ∀ u v, P u → g.Arc u v → P v)
    {marks : Array Bool} {work : List Nat} (hsize : marks.size = g.size)
    (hmarks : ∀ v, Marked marks v → P v) (hwork : ∀ v ∈ work, v < g.size → P v) {v : Nat}
    (h : Marked (g.reachFrom marks work) v) : P v := by
  induction marks, work using reachFrom.induct g with
  | case1 marks =>
    rw [reachFrom] at h
    exact hmarks v h
  | case2 marks u work hu ih =>
    rw [reachFrom, if_pos hu] at h
    have hlt : u < g.size := hsize ▸ lt_of_unmarked hu
    have hPu : P u := hwork u (by simp) hlt
    refine ih (by simpa using hsize) ?_ ?_ h
    · intro w hw
      rcases (marked_set (lt_of_unmarked hu)).mp hw with rfl | hw
      · exact hPu
      · exact hmarks w hw
    · intro w hw hwlt
      rcases List.mem_append.mp hw with hw | hw
      · exact hstep u w hPu ⟨hlt, hw, hwlt⟩
      · exact hwork w (by simp [hw]) hwlt
  | case3 marks u work hu ih =>
    rw [reachFrom, if_neg hu] at h
    exact ih hsize hmarks (fun w hw hwlt => hwork w (by simp [hw]) hwlt) h

theorem marked_reachFrom {marks : Array Bool} {work : List Nat} (hsize : marks.size = g.size)
    {v : Nat} (h : Marked marks v ∨ v ∈ work ∧ v < g.size) :
    Marked (g.reachFrom marks work) v := by
  induction marks, work using reachFrom.induct g with
  | case1 marks =>
    rw [reachFrom]
    simpa using h
  | case2 marks u work hu ih =>
    rw [reachFrom, if_pos hu]
    refine ih (by simpa using hsize) ?_
    rw [marked_set (lt_of_unmarked hu)]
    rcases h with h | ⟨h, hlt⟩
    · exact Or.inl (Or.inr h)
    · rcases List.mem_cons.mp h with rfl | h
      · exact Or.inl (Or.inl rfl)
      · exact Or.inr ⟨List.mem_append_right _ h, hlt⟩
  | case3 marks u work hu ih =>
    rw [reachFrom, if_neg hu]
    refine ih hsize ?_
    rcases h with h | ⟨h, hlt⟩
    · exact Or.inl h
    · rcases List.mem_cons.mp h with rfl | h
      · exact Or.inl (marked_of_not_unmarked (hsize ▸ hlt) hu)
      · exact Or.inr ⟨h, hlt⟩

/-- If the arcs that leave the marked vertices lead to marked vertices or to the work list, then in
the end they lead to marked vertices. -/
theorem marked_reachFrom_of_arc {marks : Array Bool} {work : List Nat} (hsize : marks.size = g.size)
    (hclosed : ∀ u v, Marked marks u → g.Arc u v → Marked marks v ∨ v ∈ work) {u v : Nat}
    (hu : Marked (g.reachFrom marks work) u) (huv : g.Arc u v) :
    Marked (g.reachFrom marks work) v := by
  induction marks, work using reachFrom.induct g with
  | case1 marks =>
    rw [reachFrom] at hu ⊢
    simpa using hclosed u v hu huv
  | case2 marks a work ha ih =>
    rw [reachFrom, if_pos ha] at hu ⊢
    refine ih (by simpa using hsize) ?_ hu
    intro b c hb hbc
    rw [marked_set (lt_of_unmarked ha)] at hb ⊢
    rcases hb with rfl | hb
    · exact Or.inr (List.mem_append_left _ hbc.2.1)
    · rcases hclosed b c hb hbc with hc | hc
      · exact Or.inl (Or.inr hc)
      · rcases List.mem_cons.mp hc with rfl | hc
        · exact Or.inl (Or.inl rfl)
        · exact Or.inr (List.mem_append_right _ hc)
  | case3 marks a work ha ih =>
    rw [reachFrom, if_neg ha] at hu ⊢
    refine ih hsize ?_ hu
    intro b c hb hbc
    rcases hclosed b c hb hbc with hc | hc
    · exact Or.inl hc
    · rcases List.mem_cons.mp hc with rfl | hc
      · exact Or.inl (marked_of_not_unmarked (hsize ▸ hbc.2.2) ha)
      · exact Or.inr hc

theorem size_noMarks (g : Digraph) : g.noMarks.size = g.size := by simp [noMarks]

theorem size_reachFrom (g : Digraph) (marks : Array Bool) (work : List Nat) :
    (g.reachFrom marks work).size = marks.size := by
  induction marks, work using reachFrom.induct g with
  | case1 marks => rw [reachFrom]
  | case2 marks v work hv ih => rw [reachFrom, if_pos hv, ih, Array.size_setIfInBounds]
  | case3 marks v work hv ih => rw [reachFrom, if_neg hv, ih]

theorem size_reach (g : Digraph) (roots : List Nat) : (g.reach roots).size = g.size := by
  rw [reach, size_reachFrom, size_noMarks]

theorem marked_reach {roots : List Nat} {v : Nat} :
    Marked (g.reach roots) v ↔ ∃ r ∈ roots, r < g.size ∧ ReflTransGen g.Arc r v := by
  constructor
  · intro h
    refine of_marked_reachFrom (P := fun v => ∃ r ∈ roots, r < g.size ∧ ReflTransGen g.Arc r v)
      ?_ g.size_noMarks ?_ ?_ h
    · rintro u v ⟨r, hr, hlt, hru⟩ huv
      exact ⟨r, hr, hlt, hru.tail huv⟩
    · intro v hv
      exact absurd hv (g.not_marked_noMarks v)
    · intro r hr hlt
      exact ⟨r, hr, hlt, .refl⟩
  · rintro ⟨r, hr, hlt, hrv⟩
    induction hrv with
    | refl => exact marked_reachFrom g.size_noMarks (Or.inr ⟨hr, hlt⟩)
    | tail _ huv ih =>
      refine marked_reachFrom_of_arc g.size_noMarks ?_ ih huv
      intro a b ha _
      exact absurd ha (g.not_marked_noMarks a)

/-! ## Reverse postorder -/

/-- The state of a depth-first search from `root`: the marked vertices are those that are put in
order and those on the stack, each once; whatever a vertex leads to is marked or still to be looked
at. -/
structure Search (g : Digraph) (root : Nat) (marks : Array Bool) (order : List Nat)
    (stack : List (Nat × List Nat)) : Prop where
  size : marks.size = g.size
  marked : ∀ v, Marked marks v ↔ v ∈ order ∨ v ∈ stack.map (·.1)
  nodup : (order ++ stack.map (·.1)).Nodup
  sound : ∀ v, Marked marks v → ReflTransGen g.Arc root v
  entries : ∀ e ∈ stack, e.2 ⊆ g.next e.1
  done : ∀ u v, u ∈ order → g.Arc u v → Marked marks v
  todo : ∀ e ∈ stack, ∀ v, g.Arc e.1 v → v ∈ e.2 ∨ Marked marks v

namespace Search

variable {root : Nat} {marks : Array Bool} {order : List Nat} {stack : List (Nat × List Nat)}

theorem start (hroot : root < g.size) :
    Search g root (g.noMarks.setIfInBounds root true) [] [(root, g.next root)] := by
  have hlt : root < g.noMarks.size := by rw [size_noMarks]; exact hroot
  have hmarked : ∀ v, Marked (g.noMarks.setIfInBounds root true) v ↔ v = root := by
    intro v
    rw [marked_set hlt]
    exact ⟨fun h => h.resolve_right (g.not_marked_noMarks v), Or.inl⟩
  refine ⟨by simp [size_noMarks], fun v => by simp [hmarked], by simp, ?_, by simp, by simp, ?_⟩
  · intro v hv
    rw [(hmarked v).mp hv]
  · intro e he v hv
    rw [List.mem_singleton.mp he] at hv ⊢
    exact Or.inl hv.2.1

/-- A vertex whose successors are done is put in order. -/
theorem pop {v : Nat} (h : Search g root marks order ((v, []) :: stack)) :
    Search g root marks (v :: order) stack := by
  refine ⟨h.size, ?_, ?_, h.sound, fun e he => h.entries e (by simp [he]), ?_,
    fun e he => h.todo e (by simp [he])⟩
  · intro w
    rw [h.marked w]
    simp only [List.map_cons, List.mem_cons]
    tauto
  · have hperm : (v :: order ++ stack.map (·.1)).Perm (order ++ v :: stack.map (·.1)) :=
      List.perm_middle.symm
    exact hperm.nodup_iff.mpr h.nodup
  · intro u w hu huw
    rcases List.mem_cons.mp hu with rfl | hu
    · exact (h.todo (u, []) (by simp) w huw).resolve_left (by simp)
    · exact h.done u w hu huw

theorem arc {v w : Nat} {rest : List Nat} (h : Search g root marks order ((v, w :: rest) :: stack))
    (hw : marks[w]? = some false) : g.Arc v w := by
  have hv : Marked marks v := (h.marked v).mpr (Or.inr (by simp))
  have hnext : w ∈ g.next v := h.entries (v, w :: rest) (by simp) (by simp)
  exact ⟨h.size ▸ hv.lt, hnext, h.size ▸ lt_of_unmarked hw⟩

/-- A successor that is not marked is marked and put on the stack. -/
theorem push {v w : Nat} {rest : List Nat} (h : Search g root marks order ((v, w :: rest) :: stack))
    (hw : marks[w]? = some false) :
    Search g root (marks.setIfInBounds w true) order ((w, g.next w) :: (v, rest) :: stack) := by
  have hlt : w < marks.size := lt_of_unmarked hw
  have hnot : ¬ Marked marks w := by
    intro hm
    rw [Marked, hw] at hm
    simp at hm
  have hv : Marked marks v := (h.marked v).mpr (Or.inr (by simp))
  have hvw : g.Arc v w := h.arc hw
  have hmono : ∀ x, Marked marks x → Marked (marks.setIfInBounds w true) x := by
    intro x hx
    exact (marked_set hlt).mpr (Or.inr hx)
  refine ⟨by simpa using h.size, ?_, ?_, ?_, ?_, ?_, ?_⟩
  · intro x
    rw [marked_set hlt, h.marked x]
    simp only [List.map_cons, List.mem_cons]
    tauto
  · have hperm : (order ++ w :: v :: stack.map (·.1)).Perm (w :: (order ++ v :: stack.map (·.1))) :=
      List.perm_middle
    refine hperm.nodup_iff.mpr (List.nodup_cons.mpr ⟨fun hmem => hnot ?_, h.nodup⟩)
    rw [h.marked w]
    simpa [List.mem_append] using hmem
  · intro x hx
    rcases (marked_set hlt).mp hx with rfl | hx
    · exact (h.sound v hv).tail hvw
    · exact h.sound x hx
  · intro e he
    rcases List.mem_cons.mp he with rfl | he
    · exact List.Subset.refl _
    · rcases List.mem_cons.mp he with rfl | he
      · intro x hx
        exact h.entries (v, w :: rest) (by simp) (by simp [hx])
      · exact h.entries e (by simp [he])
  · intro u x hu hux
    exact hmono x (h.done u x hu hux)
  · intro e he x hx
    rcases List.mem_cons.mp he with rfl | he
    · exact Or.inl hx.2.1
    · rcases List.mem_cons.mp he with rfl | he
      · rcases h.todo (v, w :: rest) (by simp) x hx with hx | hx
        · rcases List.mem_cons.mp hx with rfl | hx
          · exact Or.inr ((marked_set hlt).mpr (Or.inl rfl))
          · exact Or.inl hx
        · exact Or.inr (hmono x hx)
      · exact (h.todo e (by simp [he]) x hx).imp_right (hmono x)

/-- A successor that is marked, or no vertex, is passed over. -/
theorem skip {v w : Nat} {rest : List Nat} (h : Search g root marks order ((v, w :: rest) :: stack))
    (hw : marks[w]? ≠ some false) : Search g root marks order ((v, rest) :: stack) := by
  refine ⟨h.size, fun x => by simpa using h.marked x, by simpa using h.nodup, h.sound, ?_, h.done, ?_⟩
  · intro e he
    rcases List.mem_cons.mp he with rfl | he
    · intro x hx
      exact h.entries (v, w :: rest) (by simp) (by simp [hx])
    · exact h.entries e (by simp [he])
  · intro e he x hx
    rcases List.mem_cons.mp he with rfl | he
    · rcases h.todo (v, w :: rest) (by simp) x hx with hmem | hmem
      · rcases List.mem_cons.mp hmem with rfl | hmem
        · exact Or.inr (marked_of_not_unmarked (h.size ▸ hx.2.2) hw)
        · exact Or.inl hmem
      · exact Or.inr hmem
    · exact h.todo e (by simp [he]) x hx

theorem finish (h : Search g root marks order stack) :
    ∃ marks', (∀ v, Marked marks v → Marked marks' v) ∧
      Search g root marks' (g.finish marks order stack) [] := by
  induction marks, order, stack using finish.induct g with
  | case1 marks order =>
    rw [Digraph.finish]
    exact ⟨marks, fun v hv => hv, h⟩
  | case2 marks order v stack ih =>
    rw [Digraph.finish]
    exact ih h.pop
  | case3 marks order v w rest stack hw ih =>
    rw [Digraph.finish, if_pos hw]
    obtain ⟨marks', hmono, hsearch⟩ := ih (h.push hw)
    exact ⟨marks', fun x hx => hmono x ((marked_set (lt_of_unmarked hw)).mpr (Or.inr hx)), hsearch⟩
  | case4 marks order v w rest stack hw ih =>
    rw [Digraph.finish, if_neg hw]
    exact ih (h.skip hw)

end Search

theorem mem_reversePostorder {root v : Nat} :
    v ∈ g.reversePostorder root ↔ root < g.size ∧ ReflTransGen g.Arc root v := by
  unfold reversePostorder
  split
  case isTrue hroot =>
    obtain ⟨marks, hmono, h⟩ := (Search.start hroot).finish
    have hmem : ∀ x, x ∈ g.finish (g.noMarks.setIfInBounds root true) [] [(root, g.next root)] ↔
        Marked marks x := by
      intro x
      rw [h.marked x]
      simp
    rw [hmem]
    refine ⟨fun hv => ⟨hroot, h.sound v hv⟩, ?_⟩
    intro hv
    obtain ⟨_, hv⟩ := hv
    induction hv with
    | refl =>
      have hlt : root < g.noMarks.size := by rw [size_noMarks]; exact hroot
      exact hmono root ((marked_set hlt).mpr (Or.inl rfl))
    | tail _ huv ih => exact h.done _ _ ((hmem _).mpr ih) huv
  case isFalse hroot => simp [hroot]

theorem nodup_reversePostorder (g : Digraph) (root : Nat) : (g.reversePostorder root).Nodup := by
  unfold reversePostorder
  split
  case isTrue hroot =>
    obtain ⟨marks, _, h⟩ := (Search.start hroot).finish
    simpa using h.nodup
  case isFalse => exact List.nodup_nil

end Digraph

end MemDep
