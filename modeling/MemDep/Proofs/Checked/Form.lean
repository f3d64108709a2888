import MemDep.Proofs.Checked.LookUp

/-!
# Static single assignment form with checked indices

The form of a graph with its blocks in an array and its phis in a store. Building it and asking it
for the definitions of regions does not fail, whatever the graph is and whatever was asked before.
-/

namespace MemDep

namespace Checked

/-- The static single assignment form of a graph. -/
structure Form where
  /-- The accesses of the nodes. -/
  accesses : Accesses
  /-- The basic blocks. -/
  blocks : Blocks
  /-- The objects that some node writes, in ascending order. -/
  objects : List Nat
  /-- The phis. -/
  store : Store
  /-- The nodes that read something, in reverse postorder. -/
  reads : List ResolvedRead

/-- The same form, with blocks and phis in arrays. -/
def Form.of (m : MemorySsa) : Form :=
  ⟨m.scope.accesses, .of m.scope.blocks, m.objects, .of m.table, m.reads⟩

/-- The definitions of an object as a whole at a place of a block, added to those found so far. -/
noncomputable def addDefinitions (a : Accesses) (bs : Blocks) (b stop : Nat)
    (s : Store × List MemoryDef) (object : Nat) : Option (Store × List MemoryDef) := do
  let (store, defs) ← definitions a bs object s.1 b stop .full
  return (store, addDefs s.2 defs)

/-- The definitions of a region where control enters a node. -/
noncomputable def resolve (a : Accesses) (bs : Blocks) (objects : List Nat) (store : Store)
    (n : Nat) (region : Region) : Option (Store × List MemoryDef) :=
  match bs.position n with
  | none => some (store, [])
  | some (b, stop) =>
    let r := a.normalize region
    if r.object = unknownMemory then
      objects.foldlM (addDefinitions a bs b stop) (store, [])
    else
      definitions a bs r.object store b stop r.bytes

/-- The definitions of a region where control enters a node, added to those found so far. -/
noncomputable def addResolved (a : Accesses) (bs : Blocks) (objects : List Nat) (n : Nat)
    (s : Store × List MemoryDef) (region : Region) : Option (Store × List MemoryDef) := do
  let (store, defs) ← resolve a bs objects s.1 n region
  return (store, addDefs s.2 defs)

namespace Form

/-- Resolves the reads of a node, if it has any. -/
noncomputable def resolveReads (f : Form) (n : Nat) : Option Form := do
  match f.accesses.reads n with
  | [] => return f
  | regions =>
    let (store, defs) ← regions.foldlM (addResolved f.accesses f.blocks f.objects n) (f.store, [])
    return { f with store, reads := f.reads ++ [⟨n, defs, ← expand store defs⟩] }

/-- The form of a graph. -/
noncomputable def compute (g : AccessGraph) (fieldInsensitive : Bool) : Option Form := do
  let a ← Checked.accesses g fieldInsensitive
  let bs ← build g (← reachable g)
  (← reversePostorder g).foldlM resolveReads ⟨a, bs, a.writtenObjects, .empty, []⟩

/-- The definitions of a region where control enters a node, in ascending order. -/
noncomputable def definitions (f : Form) (n : Nat) (region : Region) :
    Option (List Nat × Form) := do
  let (store, defs) ← resolve f.accesses f.blocks f.objects f.store n region
  return (← expand store defs, { f with store })

/-- The definitions of what a node reads. -/
def read? (f : Form) (n : Nat) : Option ResolvedRead := f.reads.find? (·.node = n)

end Form

variable {sc : Scope} {t : PhiTable}

theorem foldlM_addDefinitions (hg : sc.blocks.Grounded) (h : sc.Correct t [])
    {b : Fin sc.blocks.count} {stop : Nat} (hstop : stop ≤ (sc.blocks.nodes b).length)
    (objects : List Nat) (found : List MemoryDef) :
    objects.foldlM (addDefinitions sc.accesses (.of sc.blocks) b stop) (.of t, found) =
      some (.of (sc.definitionsOfAll b stop objects t found).1,
        (sc.definitionsOfAll b stop objects t found).2) := by
  induction objects generalizing t found with
  | nil => rfl
  | cons object objects ih =>
    have hr := Scope.resolved_definitions hg h object hstop ByteSet.valid_full
    have hstep : addDefinitions sc.accesses (.of sc.blocks) b stop (.of t, found) object =
        some (.of (sc.definitions object t b stop .full ByteSet.valid_full).1,
          addDefs found (sc.definitions object t b stop .full ByteSet.valid_full).2) := by
      unfold addDefinitions
      rw [definitions_of hg h b stop .full ByteSet.valid_full]
      rfl
    rw [List.foldlM_cons, hstep]
    exact ih hr.correct _

/-- Resolving a region does not fail. -/
theorem resolve_of (hr : sc.Regular) (objects : List Nat) (h : sc.Correct t []) (n : Nat)
    (region : Region) : resolve sc.accesses (.of sc.blocks) objects (.of t) n region =
      some (.of (sc.resolve objects t n region).1, (sc.resolve objects t n region).2) := by
  unfold resolve Scope.resolve
  simp only [Blocks.of]
  cases hp : sc.blocks.place? n with
  | none => rfl
  | some p =>
    obtain ⟨b, stop⟩ := p
    simp only [Option.map_some]
    split
    case isTrue => exact foldlM_addDefinitions hr.grounded h (hr.place_le hp) objects []
    case isFalse => exact definitions_of hr.grounded h b stop _ _

theorem foldlM_addResolved (hr : sc.Regular) (objects : List Nat) (h : sc.Correct t []) (n : Nat)
    (regions : List Region) (found : List MemoryDef) :
    regions.foldlM (addResolved sc.accesses (.of sc.blocks) objects n) (.of t, found) =
      some (.of (sc.resolveAll objects n regions t found).1,
        (sc.resolveAll objects n regions t found).2) := by
  induction regions generalizing t found with
  | nil => rfl
  | cons region regions ih =>
    have hs := Scope.resolved_resolve hr objects h n region
    have hstep : addResolved sc.accesses (.of sc.blocks) objects n (.of t, found) region =
        some (.of (sc.resolve objects t n region).1,
          addDefs found (sc.resolve objects t n region).2) := by
      unfold addResolved
      rw [resolve_of hr objects h]
      rfl
    rw [List.foldlM_cons, hstep]
    exact ih hs.correct _

namespace Form

variable {m : MemorySsa}

theorem resolveReads_of (h : m.Sound) (n : Nat) :
    (Form.of m).resolveReads n = some (.of (m.resolveReads n)) := by
  unfold resolveReads MemorySsa.resolveReads
  rw [show (Form.of m).accesses = m.scope.accesses from rfl]
  cases m.scope.accesses.reads n with
  | nil => rfl
  | cons region regions =>
    have hfold := foldlM_addResolved h.regular m.objects h.correct n (region :: regions) []
    simp only [Form.of, hfold, Option.bind_eq_bind, Option.bind_some, expand_of]
    rfl

/-- Building the form of a graph does not fail. -/
theorem compute_eq (g : AccessGraph) (fieldInsensitive : Bool) :
    compute g fieldInsensitive = some (.of (.compute g fieldInsensitive)) := by
  have hfold : ∀ (order : List Nat) (m : MemorySsa), m.Sound →
      order.foldlM resolveReads (.of m) = some (.of (order.foldl MemorySsa.resolveReads m)) := by
    intro order
    induction order with
    | nil => exact fun _ _ => rfl
    | cons n order ih =>
      intro m hm
      rw [List.foldlM_cons, resolveReads_of hm, List.foldl_cons]
      exact ih _ (hm.resolveReads n)
  have hstart : MemorySsa.Sound ⟨⟨.ofGraph g fieldInsensitive, .ofGraph g⟩,
      (Accesses.ofGraph g fieldInsensitive).writtenObjects, .empty, []⟩ :=
    ⟨Scope.regular_ofGraph _ g, Scope.correct_empty _, by simp⟩
  unfold compute
  simp only [accesses_eq, reachable_eq, build_eq, reversePostorder_eq, Option.bind_eq_bind,
    Option.bind_some]
  exact hfold _ _ hstart

/-- Asking a form for the definitions of a region does not fail. -/
theorem definitions_of (h : m.Sound) (n : Nat) (region : Region) :
    (Form.of m).definitions n region =
      some ((m.definitions n region).1, .of (m.definitions n region).2) := by
  unfold definitions MemorySsa.definitions
  simp only [Form.of]
  rw [resolve_of h.regular m.objects h.correct]
  simp only [Option.bind_eq_bind, Option.bind_some, expand_of]
  rfl

end Form

end Checked

end MemDep
