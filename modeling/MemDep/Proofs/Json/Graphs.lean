import MemDep.PointsTo.Json
import MemDep.Proofs.Json.Reader

/-!
# Graphs survive being written and read

Reading the text of an access graph or a points-to graph gives the graph back. Nothing is asked of
the graph except that the numbers which name nodes have 32 bits: it may carry wrong ids, and its
edges, operands, objects and root may name nodes that do not exist.

For each type there are two facts. What is written for a value is read as this value, where the
fields of a record are found by their names. And what is written has no numbers but natural ones,
so that its text can be read at all.
-/

namespace MemDep

namespace Json

/-! ## Values of fields -/

theorem nat?_nat {bound n : Nat} (h : n < bound) : nat? bound (.nat n) = some n :=
  if_pos h

theorem list?_map {α : Type} {item? : Json → Option α} {toJson : α → Json} {items : List α}
    (h : ∀ a ∈ items, item? (toJson a) = some a) :
    list? item? (.arr (items.map toJson)) = some items := by
  unfold list?
  simp only
  induction items with
  | nil => rfl
  | cons a items ih =>
    obtain ⟨ha, hitems⟩ := List.forall_mem_cons.mp h
    simp [List.mapM_cons, ha, ih hitems]

end Json

open Json

theorem Offset.ofJson?_toJson (a : Offset) : ofJson? a.toJson = some a := by
  have hcode : a.code < limit + 1 := Nat.lt_succ_of_le a.code_le_limit
  unfold ofJson? toJson
  rw [nat?_nat hcode, Option.map_some, ofNat_code]

theorem NodeKind.ofJson?_name (k : NodeKind) : ofJson? (.str k.name) = some k := ofName?_name k

theorem PointerKind.ofJson?_name (k : PointerKind) : ofJson? (.str k.name) = some k :=
  ofName?_name k

theorem idsOfJson?_idsToJson {ids : List Nat} (h : ∀ n ∈ ids, n < idBound) :
    idsOfJson? (idsToJson ids) = some ids :=
  list?_map fun n hn => nat?_nat (h n hn)

@[simp] theorem whole_idsToJson (ids : List Nat) : (idsToJson ids).Whole := by
  simp [idsToJson]

theorem optional?_rootToJson {root : Option Nat} (h : ∀ n ∈ root, n < idBound) :
    Json.optional? (nat? idBound) (rootToJson root) = some root := by
  cases root with
  | none => rfl
  | some n =>
    have hn : n < idBound := h n rfl
    simp [Json.optional?, rootToJson, nat?_nat hn]

@[simp] theorem whole_rootToJson (root : Option Nat) : (rootToJson root).Whole := by
  cases root <;> simp [rootToJson]

/-! ## Access graphs -/

theorem Region.ofJson?_toJson {r : Region} (h : r.object < idBound) :
    ofJson? r.toJson = some r := by
  simp [ofJson?, toJson, record?, Fields.required?, Fields.get?, nat?_nat h, Offset.ofJson?_toJson]

@[simp] theorem Region.whole_toJson (r : Region) : r.toJson.Whole := by
  simp [toJson, Offset.toJson]

/-- The numbers that name nodes in a node. -/
def AccessNode.ids (n : AccessNode) : List Nat :=
  n.id :: (n.weakWrites ++ n.strongWrites ++ n.reads).map (·.object) ++
    (n.successors ++ n.predecessors)

/-- The numbers that name nodes in a graph. -/
def AccessGraph.ids (g : AccessGraph) : List Nat :=
  g.nodes.toList.flatMap AccessNode.ids ++ g.root.toList

theorem AccessNode.ofJson?_toJson {n : AccessNode} (h : ∀ i ∈ n.ids, i < idBound) :
    ofJson? n.toJson = some n := by
  have hid : n.id < idBound := h _ (by simp [ids])
  have hregions : ∀ rs, (∀ r ∈ rs, r ∈ n.weakWrites ++ n.strongWrites ++ n.reads) →
      list? Region.ofJson? (.arr (rs.map Region.toJson)) = some rs := by
    intro rs hrs
    refine list?_map fun r hr => Region.ofJson?_toJson (h _ ?_)
    refine List.mem_append_left _ (List.mem_cons_of_mem _ (List.mem_map_of_mem (hrs r hr)))
  have hweak := hregions n.weakWrites (by simp +contextual)
  have hstrong := hregions n.strongWrites (by simp +contextual)
  have hreads := hregions n.reads (by simp +contextual)
  have hsuccessors : idsOfJson? (idsToJson n.successors) = some n.successors :=
    idsOfJson?_idsToJson fun m hm => h m (by simp [ids, hm])
  have hpredecessors : idsOfJson? (idsToJson n.predecessors) = some n.predecessors :=
    idsOfJson?_idsToJson fun m hm => h m (by simp [ids, hm])
  simp [ofJson?, toJson, record?, Fields.required?, Fields.get?, nat?_nat hid,
    NodeKind.ofJson?_name, hweak, hstrong, hreads, hsuccessors, hpredecessors]

@[simp] theorem AccessNode.whole_toJson (n : AccessNode) : n.toJson.Whole := by
  simp [toJson]

theorem AccessGraph.ofJson?_toJson {g : AccessGraph} (h : ∀ i ∈ g.ids, i < idBound) :
    ofJson? g.toJson = some g := by
  have hnodes : list? AccessNode.ofJson? (.arr (g.nodes.toList.map AccessNode.toJson)) =
      some g.nodes.toList := by
    refine list?_map fun n hn => AccessNode.ofJson?_toJson fun i hi => h i ?_
    exact List.mem_append_left _ (List.mem_flatMap.mpr ⟨n, hn, hi⟩)
  have hroot : Json.optional? (nat? idBound) (rootToJson g.root) = some g.root :=
    optional?_rootToJson fun n hn => h n (List.mem_append_right _ (Option.mem_toList.mpr hn))
  simp [ofJson?, toJson, record?, Fields.required?, Fields.optional?, Fields.get?, hnodes, hroot]

theorem AccessGraph.whole_toJson (g : AccessGraph) : g.toJson.Whole := by
  simp [toJson]

/-! ## Points-to graphs -/

/-- The numbers that name nodes in a node. -/
def PointerNode.ids (n : PointerNode) : List Nat :=
  n.id :: n.operands ++ (n.successors ++ n.predecessors)

/-- The numbers that name nodes in a graph. -/
def PointerGraph.ids (g : PointerGraph) : List Nat :=
  g.nodes.toList.flatMap PointerNode.ids ++ g.root.toList

theorem PointerNode.ofJson?_toJson {n : PointerNode} (h : ∀ i ∈ n.ids, i < idBound) :
    ofJson? n.toJson = some n := by
  have hid : n.id < idBound := h _ (by simp [ids])
  have hoperands : idsOfJson? (idsToJson n.operands) = some n.operands :=
    idsOfJson?_idsToJson fun m hm => h m (by simp [ids, hm])
  have hsuccessors : idsOfJson? (idsToJson n.successors) = some n.successors :=
    idsOfJson?_idsToJson fun m hm => h m (by simp [ids, hm])
  have hpredecessors : idsOfJson? (idsToJson n.predecessors) = some n.predecessors :=
    idsOfJson?_idsToJson fun m hm => h m (by simp [ids, hm])
  simp [ofJson?, toJson, record?, Fields.required?, Fields.get?, nat?_nat hid,
    PointerKind.ofJson?_name, hoperands, hsuccessors, hpredecessors]

@[simp] theorem PointerNode.whole_toJson (n : PointerNode) : n.toJson.Whole := by
  simp [toJson]

theorem PointerGraph.ofJson?_toJson {g : PointerGraph} (h : ∀ i ∈ g.ids, i < idBound) :
    ofJson? g.toJson = some g := by
  have hnodes : list? PointerNode.ofJson? (.arr (g.nodes.toList.map PointerNode.toJson)) =
      some g.nodes.toList := by
    refine list?_map fun n hn => PointerNode.ofJson?_toJson fun i hi => h i ?_
    exact List.mem_append_left _ (List.mem_flatMap.mpr ⟨n, hn, hi⟩)
  have hroot : Json.optional? (nat? idBound) (rootToJson g.root) = some g.root :=
    optional?_rootToJson fun n hn => h n (List.mem_append_right _ (Option.mem_toList.mpr hn))
  simp [ofJson?, toJson, record?, Fields.required?, Fields.optional?, Fields.get?, hnodes, hroot]

theorem PointerGraph.whole_toJson (g : PointerGraph) : g.toJson.Whole := by
  simp [toJson]

/-! ## Both kinds of graphs -/

/-- Reading the text of a graph gives the graph back, with every field as it was. Offsets and
lengths may be any number of 64 bits, the one that stands for an unknown offset included. -/
theorem decode?_encode :
    (∀ g : AccessGraph, (∀ n ∈ g.ids, n < idBound) → AccessGraph.decode? g.encode = some g) ∧
    (∀ g : PointerGraph, (∀ n ∈ g.ids, n < idBound) → PointerGraph.decode? g.encode = some g) := by
  constructor
  · intro g h
    unfold AccessGraph.decode? AccessGraph.encode
    rw [parse?_text g.whole_toJson, Option.bind_some, AccessGraph.ofJson?_toJson h]
  · intro g h
    unfold PointerGraph.decode? PointerGraph.encode
    rw [parse?_text g.whole_toJson, Option.bind_some, PointerGraph.ofJson?_toJson h]

/-- A node with a wrong id, that reads from an unknown offset up to the last one that is known. Its
object, its edges and the root name nodes that do not exist. -/
def strayAccess : AccessGraph where
  nodes := #[⟨7, .ret, [], [⟨9, .ofNat 0, .ofNat 0⟩],
    [⟨4294967295, .unknown, .ofNat 18446744073709551614⟩], [9, 9], [4294967295]⟩]
  root := some 4294967295

/-- A merge without its own place, with an edge that only one end lists. -/
def strayMerge : PointerGraph where
  nodes := #[⟨3, .phi, [5, 5], [1], []⟩, ⟨1, .callFuncptr, [], [], []⟩]
  root := none

theorem decode?_encode_stray :
    ((∀ n ∈ strayAccess.ids, n < idBound) ∧
      AccessGraph.decode? strayAccess.encode = some strayAccess) ∧
    (∀ n ∈ strayMerge.ids, n < idBound) ∧
      PointerGraph.decode? strayMerge.encode = some strayMerge :=
  ⟨⟨by decide, decode?_encode.1 _ (by decide)⟩, by decide, decode?_encode.2 _ (by decide)⟩

end MemDep
