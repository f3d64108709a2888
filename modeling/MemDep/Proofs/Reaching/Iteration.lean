import MemDep.Proofs.AccessGraph.Walks
import MemDep.Reaching

/-!
# What the iteration solves

A visit looks at the predecessors that a node lists, but a change is passed on to the successors
that a node lists. In a graph with asymmetric edges the two differ, and the equations of a node need
not hold in the end: a predecessor that does not list it as a successor may have changed after its
last visit. `Iteration.Steady` is the invariant that holds all the same. What leaves a node is always
what its equation says about what entered it, no fact enters that does not leave a predecessor, and
whatever leaves a predecessor that lists the node as a successor enters it. If edges are listed by
both ends, the equations of all reachable nodes hold when the worklist is empty.
-/

namespace MemDep

namespace Iteration

variable {p : Flow} {s : Iteration}

/-- What entered a node at its last visit. -/
def entering (s : Iteration) (n : Nat) : List Fact := (s.ins[n]?).getD []

structure Solved (p : Flow) (s : Iteration) (n : Nat) : Prop where
  ins : s.ins[n]? = some (p.meet s.out n)
  out : s.out? n = some (p.transfer n (p.meet s.out n))

/-- What every state of the iteration satisfies, also when edges are asymmetric. -/
structure Steady (p : Flow) (s : Iteration) : Prop where
  size_ins : s.ins.size = p.graph.size
  size_outs : s.outs.size = p.graph.size
  reachable : ∀ n ∈ s.worklist, p.isReachable n = true
  visited : ∀ n, p.isReachable n = true → n ∈ s.worklist ∨ ∃ out, s.out? n = some out
  idle : ∀ n, p.isReachable n = false → s.entering n = []
  sorted : ∀ n, Ascending.Sorted (s.entering n)
  leaving : ∀ n out, s.out? n = some out → out = p.transfer n (s.entering n)
  entering : ∀ n, s.entering n ⊆ p.meet s.out n
  current : ∀ m n, p.isReachable n = true → n ∉ s.worklist → m ∈ p.sources n → n ∈ p.targets m →
    s.out m ⊆ s.entering n

/-- The nodes that take part are nodes of the graph, and all of them are on the worklist at first. -/
structure Scheduled (p : Flow) : Prop where
  lt : ∀ n, p.isReachable n = true → n < p.graph.size
  order : ∀ n, n ∈ p.graph.reversePostorder ↔ p.isReachable n = true

/-- The equations are about a graph whose edges are listed by both ends, and about the nodes that its
root leads to. -/
structure Coherent (p : Flow) : Prop extends Scheduled p where
  symmetric : p.graph.Symmetric
  closed : ∀ m n, p.isReachable m = true → n ∈ p.graph.successors m → p.isReachable n = true

theorem Coherent.reachable_of_walk (hp : Coherent p) {inner : Nat → Prop} {m n : Nat}
    (hm : p.isReachable m = true) (h : p.graph.Walk inner m n) : p.isReachable n = true := by
  induction h with
  | edge hn => exact hp.closed _ _ hm hn
  | step _ _ hn ih => exact hp.closed _ _ ih hn

theorem mem_sources_iff (hp : Coherent p) {m n : Nat} (hn : p.isReachable n = true) :
    m ∈ p.sources n ↔ p.isReachable m = true ∧ n ∈ p.targets m := by
  simp only [Flow.sources, Flow.targets, List.mem_filter, hp.symmetric m n, hn, and_true]
  exact and_comm

theorem mem_enqueue {m : Nat} {worklist targets : List Nat} :
    m ∈ enqueue worklist targets ↔ m ∈ worklist ∨ m ∈ targets := by
  induction targets generalizing worklist with
  | nil => simp [enqueue]
  | cons n targets ih =>
    rw [enqueue, ih, List.mem_cons]
    split
    case isTrue hn =>
      constructor
      · rintro (hm | hm)
        · exact .inl hm
        · exact .inr (.inr hm)
      · rintro (hm | rfl | hm)
        · exact .inl hm
        · exact .inl hn
        · exact .inr hm
    case isFalse =>
      rw [List.mem_append, List.mem_singleton, or_assoc]

/-! ## One visit -/

theorem ins_visit (n : Nat) (rest : List Nat) :
    (visit p s n rest).ins = s.ins.setIfInBounds n (p.meet s.out n) := by
  unfold visit
  simp only
  split <;> rfl

theorem size_outs_visit (n : Nat) (rest : List Nat) :
    (visit p s n rest).outs.size = s.outs.size := by
  unfold visit
  simp only
  split
  · exact Array.size_setIfInBounds
  · rfl

theorem out_visit_of_ne {m n : Nat} (rest : List Nat) (hm : m ≠ n) :
    (visit p s n rest).out m = s.out m := by
  unfold out
  rw [out?_visit, if_neg fun h => hm h.1]

/-- Either a visit changes no set that leaves a node, or it queues the nodes that look at it. -/
theorem visit_cases {n : Nat} (hn : n < s.outs.size) (rest : List Nat) :
    (visit p s n rest).worklist = rest ∧ (visit p s n rest).out = s.out ∨
      (visit p s n rest).worklist = enqueue rest (p.targets n) := by
  by_cases hout : s.out? n = some (p.transfer n (p.meet s.out n))
  · left
    constructor
    · simp [visit, hout]
    · funext m
      unfold out
      rw [out?_visit]
      split
      case isTrue h => rw [h.1, hout]
      case isFalse => rfl
  · right
    simp [visit, hn, hout]

theorem mem_worklist_visit {n m : Nat} (hn : n < s.outs.size) {rest : List Nat} (hm : m ∈ rest) :
    m ∈ (visit p s n rest).worklist := by
  rcases visit_cases (p := p) hn rest with ⟨h, _⟩ | h
  · rwa [h]
  · rw [h]
    exact mem_enqueue.mpr (.inl hm)

theorem entering_visit_self {n : Nat} (hn : n < s.ins.size) (rest : List Nat) :
    (visit p s n rest).entering n = p.meet s.out n := by
  unfold entering
  rw [ins_visit, Array.getElem?_setIfInBounds_self_of_lt hn]
  rfl

theorem entering_visit_of_ne {m n : Nat} (hmn : m ≠ n) (rest : List Nat) :
    (visit p s n rest).entering m = s.entering m := by
  unfold entering
  rw [ins_visit, Array.getElem?_setIfInBounds_ne (Ne.symm hmn)]

theorem out?_visit_of_ne {m n : Nat} (hmn : m ≠ n) (rest : List Nat) :
    (visit p s n rest).out? m = s.out? m := by
  rw [out?_visit, if_neg fun h => hmn h.1]

theorem out?_visit_self {n : Nat} (hn : n < s.outs.size) (rest : List Nat) :
    (visit p s n rest).out? n = some (p.transfer n (p.meet s.out n)) := by
  rw [out?_visit, if_pos ⟨rfl, hn⟩]

/-- A visit changes nothing for the nodes that it does not queue. -/
theorem out_visit_of_not_mem {n m k : Nat} (hn : n < s.outs.size) {rest : List Nat}
    (hk : k ∈ p.targets m) (hrest : k ∉ (visit p s n rest).worklist) :
    (visit p s n rest).out m = s.out m := by
  rcases visit_cases (p := p) hn rest with ⟨_, hout⟩ | hwl
  · rw [hout]
  · refine out_visit_of_ne rest ?_
    rintro rfl
    refine hrest ?_
    rw [hwl]
    exact mem_enqueue.mpr (.inr hk)

theorem reachable_visit {n : Nat} (hn : n < s.outs.size) {rest : List Nat}
    (hrest : ∀ k ∈ rest, p.isReachable k = true) :
    ∀ k ∈ (visit p s n rest).worklist, p.isReachable k = true := by
  intro k hk
  rcases visit_cases (p := p) hn rest with ⟨hwl, _⟩ | hwl
  · rw [hwl] at hk
    exact hrest k hk
  · rw [hwl] at hk
    rcases mem_enqueue.mp hk with hk | hk
    · exact hrest k hk
    · exact (List.mem_filter.mp hk).2

theorem Steady.visit (hp : Scheduled p) (hs : s.Sound p) (h : s.Steady p) {n : Nat}
    {rest : List Nat} (hw : s.worklist = n :: rest) : (Iteration.visit p s n rest).Steady p := by
  have hr : p.isReachable n = true := h.reachable n (by simp [hw])
  have hlt : n < p.graph.size := hp.lt n hr
  have hins : n < s.ins.size := by rw [h.size_ins]; exact hlt
  have houts : n < s.outs.size := by rw [h.size_outs]; exact hlt
  constructor
  case size_ins => rw [ins_visit, Array.size_setIfInBounds, h.size_ins]
  case size_outs => rw [size_outs_visit, h.size_outs]
  case reachable => exact reachable_visit houts fun k hk => h.reachable k (by simp [hw, hk])
  case visited =>
    intro k hk
    by_cases hkn : k = n
    · rw [hkn]
      exact .inr ⟨_, out?_visit_self houts rest⟩
    · rw [out?_visit_of_ne hkn]
      rcases h.visited k hk with hmem | hout
      · rw [hw] at hmem
        have hmem : k ∈ rest := (List.mem_cons.mp hmem).resolve_left hkn
        exact .inl (mem_worklist_visit houts hmem)
      · exact .inr hout
  case idle =>
    intro k hk
    have hkn : k ≠ n := by
      rintro rfl
      rw [hr] at hk
      exact absurd hk (by simp)
    rw [entering_visit_of_ne hkn]
    exact h.idle k hk
  case sorted =>
    intro k
    by_cases hkn : k = n
    · rw [hkn, entering_visit_self hins]
      exact Flow.sorted_meet hs.out_sorted n
    · rw [entering_visit_of_ne hkn]
      exact h.sorted k
  case leaving =>
    intro k out hout
    by_cases hkn : k = n
    · subst hkn
      rw [out?_visit_self houts] at hout
      rw [entering_visit_self hins]
      exact (Option.some.inj hout).symm
    · rw [out?_visit_of_ne hkn] at hout
      rw [entering_visit_of_ne hkn]
      exact h.leaving k out hout
  case entering =>
    intro k
    -- what left the predecessors before the visit still leaves them
    have hmono : p.meet s.out k ⊆ p.meet (Iteration.visit p s n rest).out k :=
      Flow.meet_mono (fun m => hs.out_subset_visit n rest m) k
    by_cases hkn : k = n
    · subst hkn
      rw [entering_visit_self hins]
      exact hmono
    · rw [entering_visit_of_ne hkn]
      exact fun f hf => hmono (h.entering k hf)
  case current =>
    intro m k hk hrest hsource htarget
    rw [out_visit_of_not_mem houts htarget hrest]
    by_cases hkn : k = n
    · subst hkn
      rw [entering_visit_self hins]
      exact fun f hf => Flow.mem_meet.mpr ⟨m, hsource, hf⟩
    · rw [entering_visit_of_ne hkn]
      refine h.current m k hk ?_ hsource htarget
      rw [hw]
      intro hmem
      have hmem : k ∈ rest := (List.mem_cons.mp hmem).resolve_left hkn
      exact hrest (mem_worklist_visit houts hmem)

/-! ## The whole iteration -/

theorem entering_start (n : Nat) : (start p).entering n = [] := by
  simp only [entering, start, Array.getElem?_replicate]
  split <;> rfl

theorem steady_start (hp : Scheduled p) : (start p).Steady p := by
  refine ⟨by simp [start], by simp [start], fun n hn => (hp.order n).mp hn,
    fun n hn => .inl ((hp.order n).mpr hn), fun n _ => entering_start n, ?_, ?_, ?_, ?_⟩
  · intro n
    rw [entering_start]
    exact List.Pairwise.nil
  · intro n out hout
    rw [out?_start] at hout
    exact absurd hout (by simp)
  · intro n
    rw [entering_start]
    exact List.nil_subset _
  · intro m n hn hrest _ _
    exact absurd ((hp.order n).mpr hn) hrest

theorem solve_nil {limit : Option Nat} (hs : s.Sound p) (hnil : s.worklist = []) :
    solve p limit s hs = some s := by
  rw [solve]
  split
  case h_1 => rfl
  case h_2 hw => simp [hw] at hnil

theorem solve_cons {limit : Option Nat} (hs : s.Sound p) {n : Nat} {rest : List Nat}
    (hw : s.worklist = n :: rest) : solve p limit s hs =
      if limit.any (· ≤ s.visits) then none
      else solve p limit (visit p s n rest) (hs.visit n rest) := by
  rw [solve]
  split
  case h_1 hnil => simp [hnil] at hw
  case h_2 n' rest' hw' =>
    obtain ⟨rfl, rfl⟩ := List.cons.inj (hw.symm.trans hw')
    rfl

/-- The iteration keeps what each visit keeps, and ends with an empty worklist. -/
theorem of_solve {motive : Iteration → Prop} {limit : Option Nat} {t : Iteration}
    (hstep : ∀ s n rest, s.worklist = n :: rest → motive s → motive (visit p s n rest))
    {hs : s.Sound p} (h : solve p limit s hs = some t) (h0 : motive s) :
    motive t ∧ t.Sound p ∧ t.worklist = [] := by
  induction s, hs using solve.induct p limit with
  | case1 s hs hnil =>
    rw [solve_nil hs hnil] at h
    obtain rfl := Option.some.inj h
    exact ⟨h0, hs, hnil⟩
  | case2 s hs n rest hw hlimit =>
    rw [solve_cons hs hw, if_pos hlimit] at h
    simp at h
  | case3 s hs n rest hw hlimit ih =>
    rw [solve_cons hs hw, if_neg hlimit] at h
    exact ih h (hstep s n rest hw h0)

theorem steady_of_solve (hp : Scheduled p) {limit : Option Nat} {hs : (start p).Sound p}
    (h : solve p limit (start p) hs = some s) :
    s.Steady p ∧ s.Sound p ∧ s.worklist = [] := by
  have hstep : ∀ s n rest, s.worklist = n :: rest → s.Sound p ∧ s.Steady p →
      (Iteration.visit p s n rest).Sound p ∧ (Iteration.visit p s n rest).Steady p := by
    intro s n rest hw hs
    exact ⟨hs.1.visit n rest, hs.2.visit hp hs.1 hw⟩
  obtain ⟨⟨_, hsteady⟩, hsound, hnil⟩ := of_solve hstep h ⟨sound_start p, steady_start hp⟩
  exact ⟨hsteady, hsound, hnil⟩

theorem exists_solve (s : Iteration) (hs : s.Sound p) : ∃ t, solve p none s hs = some t := by
  induction s, hs using solve.induct p none with
  | case1 s hs hnil => exact ⟨s, solve_nil hs hnil⟩
  | case2 s hs n rest hw hlimit => simp at hlimit
  | case3 s hs n rest hw hlimit ih =>
    rw [solve_cons hs hw, if_neg hlimit]
    exact ih

/-! ## A limit on the visits -/

theorem visits_visit (s : Iteration) (n : Nat) (rest : List Nat) :
    (visit p s n rest).visits = s.visits + 1 := by
  unfold visit
  dsimp only
  split <;> rfl

theorem visits_le_of_solve {limit : Option Nat} {hs : s.Sound p} {t : Iteration}
    (h : solve p limit s hs = some t) : s.visits ≤ t.visits := by
  refine (of_solve (motive := fun u => s.visits ≤ u.visits) ?_ h (Nat.le_refl _)).1
  intro u n rest _ hu
  rw [visits_visit]
  omega

/-- With a limit, the iteration ends as it does without one, unless that takes too many visits. -/
theorem solve_some_limit {limit : Nat} (s : Iteration) (hs : s.Sound p) (hle : s.visits ≤ limit) :
    solve p (some limit) s hs = (solve p none s hs).filter fun t => t.visits ≤ limit := by
  induction s, hs using solve.induct p none with
  | case1 s hs hnil =>
    rw [solve_nil hs hnil, solve_nil hs hnil, Option.filter_some, if_pos (by simpa using hle)]
  | case2 s hs n rest hw hlimit => simp at hlimit
  | case3 s hs n rest hw _ ih =>
    rw [solve_cons hs hw, solve_cons hs hw]
    by_cases hlast : limit ≤ s.visits
    case neg =>
      have hnext : (visit p s n rest).visits ≤ limit := by
        rw [visits_visit]
        omega
      simpa [hlast] using ih hnext
    case pos =>
      -- without a limit the visit that is refused here is made, and counted
      obtain ⟨t, ht⟩ := exists_solve (visit p s n rest) (hs.visit n rest)
      have hvisits := visits_le_of_solve ht
      rw [visits_visit] at hvisits
      have hmore : ¬ t.visits ≤ limit := by omega
      simp [hlast, ht, Option.filter_some, hmore]

/-! ## The end of the iteration -/

theorem Steady.exists_out (h : s.Steady p) (hnil : s.worklist = []) {n : Nat}
    (hn : p.isReachable n = true) : s.out? n = some (p.transfer n (s.entering n)) := by
  rcases h.visited n hn with hmem | ⟨out, hout⟩
  · rw [hnil] at hmem
    exact absurd hmem List.not_mem_nil
  · rw [hout, ← h.leaving n out hout]

theorem Steady.out_eq (h : s.Steady p) (hnil : s.worklist = []) {n : Nat}
    (hn : p.isReachable n = true) : s.out n = p.transfer n (s.entering n) := by
  unfold out
  rw [h.exists_out hnil hn]
  rfl

theorem Steady.entering_eq (hp : Coherent p) (hs : s.Sound p) (h : s.Steady p)
    (hnil : s.worklist = []) {n : Nat} (hn : p.isReachable n = true) :
    s.entering n = p.meet s.out n := by
  refine Ascending.eq_of_mem_iff (h.sorted n) (Flow.sorted_meet hs.out_sorted n) ?_
  intro f
  constructor
  · exact fun hf => h.entering n hf
  · intro hf
    obtain ⟨m, hm, hf⟩ := Flow.mem_meet.mp hf
    have htarget := ((mem_sources_iff hp hn).mp hm).2
    refine h.current m n hn ?_ hm htarget hf
    rw [hnil]
    exact List.not_mem_nil

theorem Steady.solved (hp : Coherent p) (hs : s.Sound p) (h : s.Steady p) (hnil : s.worklist = [])
    {n : Nat} (hn : p.isReachable n = true) : Solved p s n := by
  have heq := h.entering_eq hp hs hnil hn
  have hlt : n < s.ins.size := by
    rw [h.size_ins]
    exact hp.lt n hn
  constructor
  · rw [← heq, Iteration.entering, Array.getElem?_eq_getElem hlt]
    rfl
  · rw [← heq]
    exact h.exists_out hnil hn

end Iteration

/-! ## Solving with and without a limit -/

theorem ReachingDefinitions.exists_compute (g : AccessGraph) (fieldInsensitive : Bool) :
    ∃ r, compute g fieldInsensitive none = some r := by
  obtain ⟨t, ht⟩ := Iteration.exists_solve (p := .ofGraph g fieldInsensitive) (.start _)
    (Iteration.sound_start _)
  exact ⟨⟨.ofGraph g fieldInsensitive, t⟩, by simp [compute, ht]⟩

/-- A limit does not change what is computed, but whether it is. -/
theorem ReachingDefinitions.compute_some_limit (g : AccessGraph) (fieldInsensitive : Bool)
    (limit : Nat) : compute g fieldInsensitive (some limit) =
      (compute g fieldInsensitive none).filter fun r => r.visits ≤ limit := by
  unfold compute
  dsimp only
  rw [Iteration.solve_some_limit _ _ (Nat.zero_le _), Option.filter_map]
  rfl

/-- Nothing is computed exactly if there is a limit, and more visits are needed than it allows. -/
theorem ReachingDefinitions.compute_eq_none_iff {g : AccessGraph} {fieldInsensitive : Bool}
    {limit? : Option Nat} : compute g fieldInsensitive limit? = none ↔
      ∃ limit r, limit? = some limit ∧ compute g fieldInsensitive none = some r ∧
        limit < r.visits := by
  obtain ⟨r, hr⟩ := exists_compute g fieldInsensitive
  cases limit? with
  | none => simp [hr]
  | some limit =>
    rw [compute_some_limit, hr]
    simp [Option.filter_some]

end MemDep
