import MemDep.Proofs.Analysis.Reaching
import MemDep.Proofs.Analysis.Ssa

/-!
# What the two analyses refuse

Two analyses of one graph, one of each kind and without a limit, go through the same calls side by
side: both have been run, or neither has. They refuse the same runs and the same questions about
regions, and for the same reasons. Only questions for what a node reads differ. The solved equations
are asked about each read of the node and refuse the first one of an object that is not in the
graph; the static single assignment form has resolved the reads before and refuses none.
-/

namespace MemDep

/-- The first read of a node that is about an object that is not in the graph. -/
def AccessGraph.missingRead? (g : AccessGraph) (n : Nat) : Option Region :=
  (g.reads n).find? fun region => !g.contains region.object

namespace Analysis

variable {g : AccessGraph} {fieldInsensitive : Bool} {a b : Analysis}

/-- Why a call was refused, if it was. -/
def refusal? : Reply → Option AnalysisError
  | .ok _ => none
  | .error e => some e

/-- Why only the analysis by iteration refuses a call. -/
def Call.missing? (g : AccessGraph) : Call → Option AnalysisError
  | .readDefinitions n => (g.missingRead? n).map fun region => .unknownNode region.object
  | _ => none

/-! ## Questions for what a node reads -/

/-- Asking about each element of a list fails as the first element that is refused. -/
theorem mapM_of_find? {α β ε : Type} (p : α → Bool) (k : α → β) (e : α → ε) (l : List α) :
    l.mapM (fun x => if p x then Except.ok (k x) else Except.error (e x)) =
      match l.find? (fun x => !p x) with
      | some x => .error (e x)
      | none => .ok (l.map k) := by
  induction l with
  | nil => rfl
  | cons x l ih =>
    rw [List.mapM_cons, ih]
    cases hx : p x with
    | false =>
      rw [List.find?_cons_of_pos (by simp [hx])]
      rfl
    | true =>
      rw [List.find?_cons_of_neg (by simp [hx])]
      cases l.find? (fun x => !p x) <;> rfl

theorem refusal?_readDefinitions_reaching {s : AnalysisSettings} {r : ReachingDefinitions} {n : Nat}
    (hn : g.contains n = true) :
    refusal? (readDefinitions ⟨g, s, some (.reaching r)⟩ n) =
      (g.missingRead? n).map fun region => .unknownNode region.object := by
  have hask := mapM_of_find? (fun region => g.contains region.object) (r.definitions n)
    (fun region => AnalysisError.unknownNode region.object) (g.reads n)
  rw [readDefinitions_reaching hn, hask]
  unfold AccessGraph.missingRead?
  cases (g.reads n).find? fun region => !g.contains region.object <;> rfl

/-! ## Side by side -/

/-- The states that the two analyses are in after the same calls. -/
inductive Twins (g : AccessGraph) (fieldInsensitive : Bool) : Analysis → Analysis → Prop where
  | fresh : Twins g fieldInsensitive (new g ⟨true, fieldInsensitive, none⟩)
      (new g ⟨false, fieldInsensitive, none⟩)
  | solved (m : MemorySsa) (r : ReachingDefinitions) : Twins g fieldInsensitive
      ⟨g, ⟨true, fieldInsensitive, none⟩, some (.ssa m)⟩
      ⟨g, ⟨false, fieldInsensitive, none⟩, some (.reaching r)⟩

/-- A call to both analyses: why the one by iteration refuses it, and where it leaves the two. -/
def Twins.Step (g : AccessGraph) (fieldInsensitive : Bool) (a b : Analysis) (c : Call) : Prop :=
  refusal? (b.perform c).1 = (refusal? (a.perform c).1).or (c.missing? g) ∧
    Twins g fieldInsensitive (a.perform c).2 (b.perform c).2

theorem Twins.run_fresh : Twins.Step g fieldInsensitive (new g ⟨true, fieldInsensitive, none⟩)
    (new g ⟨false, fieldInsensitive, none⟩) .run := by
  cases hg : g.structuralError with
  | some defect =>
    have ha := run_new_of_defect (s := ⟨true, fieldInsensitive, none⟩) rfl hg
    have hb := run_new_of_defect (s := ⟨false, fieldInsensitive, none⟩) rfl hg
    unfold Step perform
    rw [ha, hb]
    exact ⟨rfl, .fresh⟩
  | none =>
    have ha := run_of_useSsa (s := ⟨true, fieldInsensitive, none⟩) hg rfl rfl
    obtain ⟨b', hb⟩ := exists_run_of_no_limit (s := ⟨false, fieldInsensitive, none⟩) hg rfl rfl
    obtain ⟨r, -, rfl⟩ := exists_compute_of_run rfl hb
    unfold Step perform
    rw [ha, hb]
    exact ⟨rfl, .solved _ r⟩

theorem Twins.definitions_solved (m : MemorySsa) (r : ReachingDefinitions) (n : Nat)
    (region : Region) : Twins.Step g fieldInsensitive
      ⟨g, ⟨true, fieldInsensitive, none⟩, some (.ssa m)⟩
      ⟨g, ⟨false, fieldInsensitive, none⟩, some (.reaching r)⟩ (.definitions n region) := by
  unfold Step perform
  cases hn : g.contains n with
  | false =>
    dsimp only
    rw [definitions_of_missing_node rfl hn, definitions_of_missing_node rfl hn]
    exact ⟨rfl, .solved m r⟩
  | true =>
    cases hobj : g.contains region.object with
    | false =>
      dsimp only
      rw [definitions_of_missing_object rfl hn hobj, definitions_of_missing_object rfl hn hobj]
      exact ⟨rfl, .solved m r⟩
    | true =>
      dsimp only
      rw [definitions_ssa hn hobj, definitions_reaching hn hobj]
      exact ⟨rfl, .solved _ r⟩

theorem Twins.readDefinitions_solved (m : MemorySsa) (r : ReachingDefinitions) (n : Nat) :
    Twins.Step g fieldInsensitive
      ⟨g, ⟨true, fieldInsensitive, none⟩, some (.ssa m)⟩
      ⟨g, ⟨false, fieldInsensitive, none⟩, some (.reaching r)⟩ (.readDefinitions n) := by
  refine ⟨?_, .solved m r⟩
  unfold perform
  cases hn : g.contains n with
  | false =>
    dsimp only
    rw [readDefinitions_of_missing_node rfl hn, readDefinitions_of_missing_node rfl hn]
    rfl
  | true =>
    dsimp only
    rw [refusal?_readDefinitions_reaching hn, readDefinitions_ssa hn]
    rfl

theorem Twins.perform (h : Twins g fieldInsensitive a b) (c : Call) :
    Twins.Step g fieldInsensitive a b c := by
  cases h with
  | fresh =>
    cases c with
    | run => exact run_fresh
    | definitions n region => exact ⟨rfl, .fresh⟩
    | readDefinitions n => exact ⟨rfl, .fresh⟩
  | solved m r =>
    cases c with
    | run => exact ⟨rfl, .solved m r⟩
    | definitions n region => exact definitions_solved m r n region
    | readDefinitions n => exact readDefinitions_solved m r n

theorem Twins.refusals (h : Twins g fieldInsensitive a b) (calls : List Call) :
    (b.performAll calls).1.map refusal? =
      List.zipWith (fun c reply => (refusal? reply).or (c.missing? g)) calls
        (a.performAll calls).1 := by
  induction calls generalizing a b with
  | nil => rfl
  | cons c calls ih =>
    obtain ⟨hreply, hnext⟩ := h.perform c
    have htail := ih hnext
    simp only [performAll, List.map_cons, List.zipWith_cons_cons, hreply, htail]

theorem Twins.refusals_eq (h : Twins g fieldInsensitive a b) (calls : List Call)
    (hcalls : ∀ c ∈ calls, c.missing? g = none) :
    (b.performAll calls).1.map refusal? = (a.performAll calls).1.map refusal? := by
  induction calls generalizing a b with
  | nil => rfl
  | cons c calls ih =>
    obtain ⟨hc, hcalls⟩ := List.forall_mem_cons.mp hcalls
    obtain ⟨hreply, hnext⟩ := h.perform c
    have htail := ih hnext hcalls
    rw [hc, Option.or_none] at hreply
    simp only [performAll, List.map_cons, hreply, htail]

/-- For every graph and every sequence of calls, the analysis by iteration refuses what the one in
static single assignment form refuses, for the same reasons. Beyond that it refuses exactly the
questions for what a node reads, after a run that succeeded, if one of the reads is about an object
that is not in the graph. Without such questions, the two refuse the same calls. -/
theorem refusals_differ_by_missing_reads (g : AccessGraph) (fieldInsensitive : Bool)
    (calls : List Call) :
    let replies := ((new g ⟨true, fieldInsensitive, none⟩).performAll calls).1
    let replies' := ((new g ⟨false, fieldInsensitive, none⟩).performAll calls).1
    replies'.map refusal? =
        List.zipWith (fun c reply => (refusal? reply).or (c.missing? g)) calls replies ∧
      ((∀ c ∈ calls, c.missing? g = none) → replies'.map refusal? = replies.map refusal?) :=
  ⟨Twins.fresh.refusals calls, Twins.fresh.refusals_eq calls⟩

/-- Calls out of order, and questions about nodes and objects that do not exist. -/
theorem refusals_differ_by_missing_reads_storeLoop :
    let calls := [.readDefinitions 5, .run, .run, .definitions 5 (firstBytes 99 4),
      .readDefinitions 99, .readDefinitions 5]
    ((new storeLoop ⟨false, false, none⟩).performAll calls).1.map refusal? =
      ((new storeLoop ⟨true, false, none⟩).performAll calls).1.map refusal? :=
  (refusals_differ_by_missing_reads storeLoop false _).2 (by decide)

/-- The load reads from an object that does not exist, which the graph is not refused for. -/
def danglingLoad : AccessGraph where
  nodes := #[
    ⟨0, .unknownMemory, [], [], [], [], []⟩,
    ⟨1, .alloc, [], [], [], [2], []⟩,
    ⟨2, .load, [], [], [firstBytes 99 4], [], [1]⟩]
  root := some 1

/-- After a run only the analysis by iteration refuses to say what the load reads. -/
theorem refusals_ne_danglingLoad :
    ((new danglingLoad ⟨true, false, none⟩).performAll [.run, .readDefinitions 2]).1.map refusal? =
        [none, none] ∧
      ((new danglingLoad ⟨false, false, none⟩).performAll [.run, .readDefinitions 2]).1.map
        refusal? = [none, some (.unknownNode 99)] := by
  constructor
  · decide +kernel
  · decide +kernel

end Analysis

end MemDep
