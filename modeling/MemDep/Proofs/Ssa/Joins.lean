import MemDep.Proofs.Ssa.Machine
import MemDep.Proofs.Ssa.Reads

/-!
# Where phis are, and what is among their operands

Two more invariants of the machine that looks definitions up. A key is opened only where a walk
stops, so every phi is at the start of a join; and the operands of a phi are put together in the
frame that fills it, each once. While the machine runs these are statements about the table and the
frames on the stack at once (`Machine.Proper`), since most phis in the table have no operands yet.
-/

namespace MemDep

open Relation

/-! ## Operands without duplicates -/

theorem nodup_addDef {defs : List MemoryDef} (h : defs.Nodup) (d : MemoryDef) :
    (addDef defs d).Nodup := by
  unfold addDef
  split
  case isTrue => exact h
  case isFalse hd =>
    have hdisjoint : defs.Disjoint [d] := List.disjoint_singleton.mpr hd
    exact h.append (List.nodup_singleton d) hdisjoint

theorem nodup_addDefs {defs : List MemoryDef} (h : defs.Nodup) (more : List MemoryDef) :
    (addDefs defs more).Nodup :=
  List.foldlRecOn more addDef h fun _ hdefs d _ => nodup_addDef hdefs d

/-- Exactly one operand of a phi that is replaced is not the phi itself. -/
theorem Phi.isSome_replacement?_iff {p : Phi} (h : p.operands.Nodup) (id : Nat) :
    (p.replacement? id).isSome = true ↔ ∃! d, d ∈ p.operands ∧ d ≠ .phi id := by
  have hmem : ∀ d, d ∈ p.operands.filter (· ≠ .phi id) ↔ d ∈ p.operands ∧ d ≠ .phi id := by
    intro d
    rw [List.mem_filter, decide_eq_true_eq]
  simp only [← hmem]
  constructor
  · intro hsome
    unfold replacement? at hsome
    split at hsome
    case h_1 d hd =>
      rw [hd]
      exact ⟨d, List.mem_singleton_self d, fun e he => List.mem_singleton.mp he⟩
    case h_2 => exact absurd hsome (by simp)
  · rintro ⟨d, hd, honly⟩
    have hperm : (p.operands.filter (· ≠ .phi id)).Perm [d] := by
      rw [List.perm_ext_iff_of_nodup (h.filter _) (List.nodup_singleton d)]
      intro e
      rw [List.mem_singleton]
      exact ⟨honly e, fun he => he ▸ hd⟩
    unfold replacement?
    rw [List.perm_singleton.mp hperm]
    rfl

/-! ## Phis at joins -/

/-- A walk that comes to the start of the block stops there: several blocks come before it, or it is
the entry and some block does. -/
def BlockGraph.Join (bg : BlockGraph) (b : Fin bg.count) : Prop :=
  2 ≤ (bg.predecessors b).length ∨ bg.entry = some b ∧ 1 ≤ (bg.predecessors b).length

structure Phi.Proper (bg : BlockGraph) (p : Phi) : Prop where
  join : ∃ b : Fin bg.count, p.key.block = b.val ∧ bg.Join b
  nodup : p.operands.Nodup

def PhiTable.Proper (bg : BlockGraph) (t : PhiTable) : Prop :=
  ∀ (id : Nat) (p : Phi), t.phis[id]? = some p → p.Proper bg

/-- A frame looks up phis at a join, or has collected operands without repeating one. -/
def Frame.Proper (bg : BlockGraph) : Frame bg.count → Prop
  | .lookup _ b _ => bg.Join b
  | .fill _ _ _ operands => operands.Nodup

structure Machine.Proper (bg : BlockGraph) (m : Machine bg.count) : Prop where
  table : m.table.Proper bg
  stack : ∀ f ∈ m.stack, f.Proper bg

theorem PhiTable.proper_empty (bg : BlockGraph) : PhiTable.empty.Proper bg := by
  intro id p hp
  exact absurd hp (by simp [PhiTable.empty])

theorem PhiTable.Proper.enter {bg : BlockGraph} {t : PhiTable} (h : t.Proper bg) {b : Fin bg.count}
    (hb : bg.Join b) (object : Nat) (i : Interval) : (t.enter ⟨b, object, i⟩).Proper bg := by
  intro id p hp
  rw [PhiTable.getElem?_enter] at hp
  split at hp
  case isTrue =>
    obtain rfl := Option.some.inj hp
    exact ⟨⟨b, rfl, hb⟩, List.nodup_nil⟩
  case isFalse => exact h _ p hp

theorem PhiTable.Proper.fill {bg : BlockGraph} {t : PhiTable} (h : t.Proper bg) (id : Nat)
    {operands : List MemoryDef} (hops : operands.Nodup) : (t.fill id operands).Proper bg := by
  intro i p hp
  rw [PhiTable.getElem?_fill] at hp
  split at hp
  case isTrue =>
    obtain ⟨q, hq, rfl⟩ := Option.map_eq_some_iff.mp hp
    exact ⟨(h i q hq).join, hops⟩
  case isFalse => exact h _ p hp

namespace Scope

variable {sc : Scope} {object : Nat}

/-! ## Steps and runs -/

theorem proper_stepWalk {t : PhiTable} {stack : List (Frame sc.blocks.count)}
    {b : Fin sc.blocks.count} (ht : t.Proper sc.blocks) (hs : ∀ f ∈ stack, f.Proper sc.blocks)
    (stop : Nat) (opened : ByteSet) (found : List MemoryDef) :
    (sc.stepWalk object t stack b stop opened found).Proper sc.blocks := by
  have hjoin : sc.blocks.Join b → ∀ f ∈ Frame.lookup (sc.scanBlock object b stop opened found).found
      b (sc.scanBlock object b stop opened found).opened.intervals :: stack, f.Proper sc.blocks :=
    fun hb => List.forall_mem_cons.mpr ⟨hb, hs⟩
  simp only [stepWalk]
  split
  · exact ⟨ht, hs⟩
  · split
    case h_1 => exact ⟨ht, hs⟩
    case h_2 a ha =>
      split
      case isTrue he => exact ⟨ht, hjoin (.inr ⟨he, by simp [ha]⟩)⟩
      case isFalse => exact ⟨ht, hs⟩
    case h_3 a a' rest hb => exact ⟨ht, hjoin (.inl (by simp [hb]))⟩

theorem proper_stepFrame {t : PhiTable} {stack : List (Frame sc.blocks.count)}
    {f : Frame sc.blocks.count} (ht : t.Proper sc.blocks) (hs : ∀ f ∈ stack, f.Proper sc.blocks)
    (hf : f.Proper sc.blocks) : (sc.stepFrame object t stack f).Proper sc.blocks := by
  unfold stepFrame
  split
  case h_1 => exact ⟨ht, hs⟩
  case h_2 found b i opened =>
    -- the frame keeps its block, whatever is looked up next
    have hrest : ∀ found' : List MemoryDef,
        ∀ f ∈ Frame.lookup found' b opened :: stack, f.Proper sc.blocks :=
      fun _ => List.forall_mem_cons.mpr ⟨hf, hs⟩
    split
    case h_1 => exact ⟨ht, hrest _⟩
    case h_2 =>
      have hfill : Frame.Proper sc.blocks
          (.fill ⟨b, object, i⟩ t.size (sc.blocks.predecessors b) []) := List.nodup_nil
      exact ⟨ht.enter hf object i, List.forall_mem_cons.mpr ⟨hfill, hrest _⟩⟩
  case h_3 id operands => exact ⟨ht.fill id hf, hs⟩
  case h_4 key id a preds operands => exact ⟨ht, List.forall_mem_cons.mpr ⟨hf, hs⟩⟩

/-- A result that is handed to the frame on top adds to what the frame has found, once. -/
theorem proper_step {m m' : Machine sc.blocks.count} (h : m.Proper sc.blocks)
    (hstep : sc.step object m = some m') : m'.Proper sc.blocks := by
  obtain ⟨t, stack, control⟩ := m
  have ht : t.Proper sc.blocks := h.table
  cases control with
  | walk b stop opened found =>
    obtain rfl := Option.some.inj hstep
    exact proper_stepWalk ht h.stack stop opened found
  | resume =>
    cases stack with
    | nil => simp [step] at hstep
    | cons frame stack =>
      obtain ⟨hf, hs⟩ := List.forall_mem_cons.mp h.stack
      obtain rfl := Option.some.inj hstep
      exact proper_stepFrame ht hs hf
  | defs found =>
    cases stack with
    | nil => simp [step] at hstep
    | cons frame stack =>
      obtain ⟨hf, hs⟩ := List.forall_mem_cons.mp h.stack
      cases frame with
      | lookup =>
        obtain rfl := Option.some.inj hstep
        exact ⟨ht, List.forall_mem_cons.mpr ⟨hf, hs⟩⟩
      | fill =>
        obtain rfl := Option.some.inj hstep
        exact ⟨ht, List.forall_mem_cons.mpr ⟨nodup_addDefs hf found, hs⟩⟩
  | defn d =>
    cases stack with
    | nil => simp [step] at hstep
    | cons frame stack =>
      obtain ⟨hf, hs⟩ := List.forall_mem_cons.mp h.stack
      cases frame with
      | lookup =>
        obtain rfl := Option.some.inj hstep
        exact ⟨ht, List.forall_mem_cons.mpr ⟨hf, hs⟩⟩
      | fill =>
        obtain rfl := Option.some.inj hstep
        exact ⟨ht, List.forall_mem_cons.mpr ⟨hf, hs⟩⟩

theorem proper_steps {m m' : Machine sc.blocks.count} (h : m.Proper sc.blocks)
    (hsteps : sc.Steps object m m') : m'.Proper sc.blocks := by
  induction hsteps with
  | refl => exact h
  | tail _ hstep ih => exact proper_step ih hstep

/-! ## Questions -/

variable {t : PhiTable}

theorem proper_definitions (hg : sc.blocks.Grounded) (h : t.Proper sc.blocks)
    (b : Fin sc.blocks.count) (stop : Nat) {query : ByteSet} (hq : query.Valid) :
    (sc.definitions object t b stop query hq).1.Proper sc.blocks := by
  have hhalts : sc.Halts object (sc.start t b stop query) _ := halts_start hg t b stop query hq
  have hstart : (sc.start t b stop query).Proper sc.blocks := ⟨h, by simp [start]⟩
  exact (proper_steps hstart hhalts.1).table

theorem proper_definitionsOfAll (hg : sc.blocks.Grounded) (h : t.Proper sc.blocks)
    (b : Fin sc.blocks.count) (stop : Nat) (objects : List Nat) (found : List MemoryDef) :
    (sc.definitionsOfAll b stop objects t found).1.Proper sc.blocks := by
  induction objects generalizing t found with
  | nil => exact h
  | cons object objects ih => exact ih (proper_definitions hg h b stop ByteSet.valid_full) _

theorem proper_resolve (hg : sc.blocks.Grounded) (objects : List Nat) (h : t.Proper sc.blocks)
    (n : Nat) (region : Region) : (sc.resolve objects t n region).1.Proper sc.blocks := by
  unfold resolve
  split
  case h_1 => exact h
  case h_2 b stop _ =>
    simp only
    split
    · exact proper_definitionsOfAll hg h b stop objects []
    · exact proper_definitions hg h b stop _

theorem proper_resolveAll (hg : sc.blocks.Grounded) (objects : List Nat) (h : t.Proper sc.blocks)
    (n : Nat) (regions : List Region) (found : List MemoryDef) :
    (sc.resolveAll objects n regions t found).1.Proper sc.blocks := by
  induction regions generalizing t found with
  | nil => exact h
  | cons region regions ih => exact ih (proper_resolve hg objects h n region) _

/-- The node of a write that a search finds is one that the root leads to, and writes the byte. -/
theorem reached_of_finds {g : AccessGraph} {accesses : Accesses} {byte w stop : Nat}
    {b : Fin (Scope.mk accesses (.ofGraph g)).blocks.count}
    (h : Finds ⟨accesses, .ofGraph g⟩ object byte w b stop) :
    g.Reached w ∧ accesses.Defines object byte w := by
  induction h with
  | write hn hw => exact ⟨(BlockGraph.placed_of_getElem? hn).reached, hw⟩
  | pass _ _ _ ih => exact ih
  | enter _ _ ih => exact ih

end Scope

/-! ## Forms -/

namespace MemorySsa

variable {m : MemorySsa}

theorem proper_resolveReads (hg : m.scope.blocks.Grounded) (h : m.table.Proper m.scope.blocks)
    (n : Nat) : (m.resolveReads n).table.Proper (m.resolveReads n).scope.blocks := by
  unfold resolveReads
  split
  case h_1 => exact h
  case h_2 => exact Scope.proper_resolveAll hg m.objects h n _ []

theorem proper_compute (g : AccessGraph) (fieldInsensitive : Bool) :
    (compute g fieldInsensitive).table.Proper (compute g fieldInsensitive).scope.blocks := by
  have hboth : (compute g fieldInsensitive).Sound ∧
      (compute g fieldInsensitive).table.Proper (compute g fieldInsensitive).scope.blocks := by
    unfold compute
    refine List.foldlRecOn
      (motive := fun m : MemorySsa => m.Sound ∧ m.table.Proper m.scope.blocks) _ _ ?_ ?_
    · exact ⟨⟨Scope.regular_ofGraph _ g, Scope.correct_empty _, by simp⟩, PhiTable.proper_empty _⟩
    · intro m h n _
      exact ⟨h.1.resolveReads n, proper_resolveReads h.1.regular.grounded h.2 n⟩
  exact hboth.2

theorem proper_definitions (hg : m.scope.blocks.Grounded) (h : m.table.Proper m.scope.blocks)
    (n : Nat) (region : Region) :
    (m.definitions n region).2.table.Proper (m.definitions n region).2.scope.blocks :=
  Scope.proper_resolve hg m.objects h n region

end MemorySsa

end MemDep
