import MemDep.Proofs.Checked.Traversal
import MemDep.Proofs.Ssa.Replaced

/-!
# Phis in an array

The phis as they are stored: each with its id and a mark whether it is trivial, beside a map from
keys to what their phis stand for and counters of phis and of trivial ones. Map and counters are
kept up to date as phis are opened and closed, and agree with what a table says (`openPhi_of`,
`closePhi_of`). Expanding definitions to writes by a search with a stack finds what
`PhiTable.expand` finds.
-/

namespace MemDep

namespace Checked

/-- A merge of definitions as it is stored. -/
structure StoredPhi where
  /-- The id that definitions refer to. -/
  id : Nat
  /-- What it defines. -/
  key : PhiKey
  /-- The definitions that the predecessors of its block have. -/
  operands : List MemoryDef
  /-- It was replaced by its only operand besides itself. -/
  isTrivial : Bool
deriving DecidableEq, Repr

/-- The stored phis. -/
structure Store where
  /-- The phis, in the order in which they were opened. -/
  phis : Array StoredPhi
  /-- What the phi for each key stands for. -/
  cache : PhiKey → Option MemoryDef
  /-- How many phis were opened. -/
  created : Nat
  /-- How many phis were found to be trivial. -/
  trivials : Nat

open Function (update)

/-- No phis. -/
def Store.empty : Store := ⟨#[], fun _ => none, 0, 0⟩

/-- Adds a phi without operands. -/
def Store.openPhi (s : Store) (key : PhiKey) : Store where
  phis := s.phis.push ⟨s.phis.size, key, [], false⟩
  cache := update s.cache key (some (.phi s.phis.size))
  created := s.created + 1
  trivials := s.trivials

/-- Gives a phi its operands, and finds what it stands for. -/
def Store.closePhi (s : Store) (key : PhiKey) (id : Nat) (operands : List MemoryDef) :
    Option (Store × MemoryDef) := do
  let phi ← s.phis[id]?
  match (⟨key, operands⟩ : Phi).replacement? id with
  | some d =>
    let phis ← put s.phis id { phi with operands, isTrivial := true }
    return (⟨phis, update s.cache key (some d), s.created, s.trivials + 1⟩, d)
  | none =>
    let phis ← put s.phis id { phi with operands }
    return ({ s with phis }, .phi id)

/-- The store that holds the phis of a table. -/
def Store.of (t : PhiTable) : Store where
  phis := t.phis.mapIdx fun id p => ⟨id, p.key, p.operands, (p.replacement? id).isSome⟩
  cache := t.find?
  created := t.size
  trivials := t.trivialCount

variable {t : PhiTable}

theorem size_of (t : PhiTable) : (Store.of t).phis.size = t.size := by
  simp [Store.of, PhiTable.size]

theorem getElem?_of {id : Nat} {p : Phi} (hp : t.phis[id]? = some p) :
    (Store.of t).phis[id]? = some ⟨id, p.key, p.operands, (p.replacement? id).isSome⟩ := by
  simp [Store.of, hp]

/-! ## Opening a phi -/

theorem value_enter {id : Nat} (key : PhiKey) (hid : id < t.size) :
    (t.enter key).value id = t.value id := by
  unfold PhiTable.value
  rw [PhiTable.getElem?_enter, if_neg (Nat.ne_of_lt hid)]

theorem value_enter_size (key : PhiKey) : (t.enter key).value t.size = .phi t.size := by
  rw [PhiTable.value_of_getElem? (t.getElem?_enter_self key), Phi.replacement?_of_nil rfl]
  rfl

theorem id?_enter (key key' : PhiKey) :
    (t.enter key).id? key' = if key' = key then some t.size else t.id? key' := by
  have hlast : t.phis[t.size]? = none := Array.getElem?_eq_none (Nat.le_refl _)
  have hids : (t.enter key).index.ids key'.block =
      if key'.block = key.block then t.size :: t.index.ids key'.block
      else t.index.ids key'.block :=
    BlockIndex.ids_insert _ _ _ _
  unfold PhiTable.id?
  rw [hids]
  by_cases hkey : key' = key
  · subst hkey
    rw [if_pos rfl, if_pos rfl, List.find?_cons, PhiTable.getElem?_enter, if_pos rfl]
    simp
  · have hsame : (fun id : Nat => ((t.enter key).phis[id]?).any (·.key = key')) =
        fun id : Nat => (t.phis[id]?).any (·.key = key') := by
      funext id
      rw [PhiTable.getElem?_enter]
      split
      case isTrue hid => simp [hid, hlast, Ne.symm hkey]
      case isFalse => rfl
    rw [hsame, if_neg hkey]
    split
    case isTrue => simp [hlast]
    case isFalse => rfl

theorem lt_of_id? {key : PhiKey} {id : Nat} (h : t.id? key = some id) : id < t.size := by
  obtain ⟨p, hp, -⟩ := PhiTable.key_of_id? h
  exact PhiTable.lt_of_getElem? hp

theorem find?_enter (key : PhiKey) :
    (t.enter key).find? = update t.find? key (some (.phi t.size)) := by
  funext key'
  unfold PhiTable.find?
  rw [id?_enter]
  by_cases hkey : key' = key
  · rw [if_pos hkey, hkey, Function.update_self, Option.map_some, value_enter_size]
  · rw [if_neg hkey, Function.update_of_ne hkey]
    cases hid : t.id? key' with
    | none => rfl
    | some id => rw [Option.map_some, Option.map_some, value_enter key (lt_of_id? hid)]

theorem trivialCount_enter (key : PhiKey) : (t.enter key).trivialCount = t.trivialCount := by
  have hlast : (t.enter key).isTrivial t.size = false := by
    rw [PhiTable.isTrivial_of_getElem? (t.getElem?_enter_self key), Phi.replacement?_of_nil rfl]
    rfl
  unfold PhiTable.trivialCount
  rw [PhiTable.size_enter, List.range_succ, List.countP_append, List.countP_singleton, hlast]
  refine List.countP_congr fun id hid => ?_
  unfold PhiTable.isTrivial
  rw [PhiTable.getElem?_enter, if_neg (Nat.ne_of_lt (List.mem_range.mp hid))]

theorem openPhi_of (t : PhiTable) (key : PhiKey) :
    (Store.of t).openPhi key = .of (t.enter key) := by
  have hphis : (Store.of (t.enter key)).phis = (Store.of t).phis.push ⟨t.size, key, [], false⟩ :=
    Array.mapIdx_push
  have hcache : (Store.of (t.enter key)).cache = update t.find? key (some (.phi t.size)) :=
    find?_enter key
  have hcreated : (Store.of (t.enter key)).created = t.size + 1 := t.size_enter key
  have htrivials : (Store.of (t.enter key)).trivials = t.trivialCount := trivialCount_enter key
  unfold Store.openPhi
  rw [size_of, ← hphis]
  change Store.mk _ (update t.find? key (some (.phi t.size))) (t.size + 1) t.trivialCount = _
  rw [← hcache, ← hcreated, ← htrivials]

/-! ## Closing a phi -/

section Closing

variable {sc : Scope} {pending : List Nat}

theorem id?_fill (id : Nat) (operands : List MemoryDef) (key : PhiKey) :
    (t.fill id operands).id? key = t.id? key := by
  unfold PhiTable.id?
  refine congrArg (List.find? · _) ?_
  funext i
  rw [PhiTable.getElem?_fill]
  split
  · cases t.phis[i]? <;> rfl
  · rfl

theorem value_fill_of_ne {id i : Nat} (operands : List MemoryDef) (hi : i ≠ id) :
    (t.fill id operands).value i = t.value i := by
  unfold PhiTable.value
  rw [PhiTable.getElem?_fill, if_neg hi]

theorem id?_of_getElem? (h : sc.Correct t pending) {id : Nat} {p : Phi}
    (hp : t.phis[id]? = some p) : t.id? p.key = some id := by
  cases hid : t.id? p.key with
  | none =>
    have hnone : t.find? p.key = none := by simp [PhiTable.find?, hid]
    exact absurd ⟨p, Array.mem_of_getElem? hp, rfl⟩ (PhiTable.not_has_of_find?_eq_none hnone)
  | some id' =>
    obtain ⟨q, hq, hkey⟩ := PhiTable.key_of_id? hid
    rw [h.unique hq hp hkey]

theorem find?_fill (h : sc.Correct t pending) {id : Nat} {p : Phi} (hp : t.phis[id]? = some p)
    (operands : List MemoryDef) : (t.fill id operands).find? =
      update t.find? p.key (some ((t.fill id operands).value id)) := by
  funext key
  unfold PhiTable.find?
  rw [id?_fill]
  by_cases hkey : key = p.key
  · rw [hkey, Function.update_self, id?_of_getElem? h hp, Option.map_some]
  · rw [Function.update_of_ne hkey]
    cases hid : t.id? key with
    | none => rfl
    | some i =>
      obtain ⟨q, hq, rfl⟩ := PhiTable.key_of_id? hid
      have hi : i ≠ id := by
        rintro rfl
        exact hkey (congrArg Phi.key (Option.some.inj (hq.symm.trans hp)))
      rw [Option.map_some, Option.map_some, value_fill_of_ne operands hi]

/-- A count goes up by one if one more element passes. -/
theorem countP_range_succ {test test' : Nat → Bool} {n size : Nat} (hn : n < size)
    (hfalse : test n = false) (hother : ∀ m, m ≠ n → test' m = test m) :
    (List.range size).countP test' =
      (List.range size).countP test + if test' n then 1 else 0 := by
  induction size with
  | zero => exact absurd hn (Nat.not_lt_zero n)
  | succ size ih =>
    rw [List.range_succ, List.countP_append, List.countP_append, List.countP_singleton,
      List.countP_singleton]
    by_cases hlast : size = n
    · subst hlast
      have hsame : (List.range size).countP test' = (List.range size).countP test := by
        refine List.countP_congr fun m hm => ?_
        rw [hother m (Nat.ne_of_lt (List.mem_range.mp hm))]
      rw [hsame, hfalse]
      rfl
    · rw [ih (by omega), hother size hlast]
      omega

theorem trivialCount_fill {id : Nat} {p : Phi} (hp : t.phis[id]? = some p) (hnil : p.operands = [])
    (operands : List MemoryDef) : (t.fill id operands).trivialCount =
      t.trivialCount + if (t.fill id operands).isTrivial id then 1 else 0 := by
  unfold PhiTable.trivialCount
  rw [PhiTable.size_fill]
  refine countP_range_succ (PhiTable.lt_of_getElem? hp) ?_ ?_
  · rw [PhiTable.isTrivial_of_getElem? hp, Phi.replacement?_of_nil hnil]
    rfl
  · intro m hm
    unfold PhiTable.isTrivial
    rw [PhiTable.getElem?_fill, if_neg hm]

theorem phis_fill {id : Nat} {p : Phi} (hp : t.phis[id]? = some p) (operands : List MemoryDef) :
    (Store.of (t.fill id operands)).phis = (Store.of t).phis.setIfInBounds id
      ⟨id, p.key, operands, (({ p with operands } : Phi).replacement? id).isSome⟩ := by
  refine Array.ext_getElem? fun i => ?_
  simp only [Store.of, Array.getElem?_mapIdx, PhiTable.getElem?_fill]
  by_cases hi : i = id
  · subst hi
    have hlt : i < (t.phis.mapIdx fun id p =>
        (⟨id, p.key, p.operands, (p.replacement? id).isSome⟩ : StoredPhi)).size := by
      rw [Array.size_mapIdx]
      exact PhiTable.lt_of_getElem? hp
    rw [if_pos rfl, hp, Array.getElem?_setIfInBounds_self_of_lt hlt]
    rfl
  · rw [if_neg hi, Array.getElem?_setIfInBounds_ne (Ne.symm hi), Array.getElem?_mapIdx]

/-- Closing a phi that was opened for a key gives the table in which it is filled. -/
theorem closePhi_of (h : sc.Correct t pending) {id : Nat} {key : PhiKey}
    (hp : t.phis[id]? = some ⟨key, []⟩) (operands : List MemoryDef) :
    (Store.of t).closePhi key id operands =
      some (.of (t.fill id operands), (t.fill id operands).value id) := by
  have hfilled := PhiTable.getElem?_fill_self hp operands
  have hlt : id < (Store.of t).phis.size := by
    rw [size_of]
    exact PhiTable.lt_of_getElem? hp
  have hphis := phis_fill hp operands
  have hcache := find?_fill h hp operands
  have htrivials := trivialCount_fill hp rfl operands
  have hof : Store.of (t.fill id operands) = ⟨(Store.of (t.fill id operands)).phis,
      (t.fill id operands).find?, t.size, (t.fill id operands).trivialCount⟩ := by
    rw [← t.size_fill id operands]
    rfl
  rw [PhiTable.isTrivial_of_getElem? hfilled] at htrivials
  rw [PhiTable.value_of_getElem? hfilled] at hcache ⊢
  have hget : (Store.of t).phis[id]? = some ⟨id, key, [], false⟩ := by
    rw [getElem?_of hp, Phi.replacement?_of_nil rfl]
    rfl
  rw [hof, hphis, hcache, htrivials]
  unfold Store.closePhi
  simp only [hget, Option.bind_eq_bind, Option.bind_some]
  cases hr : (⟨key, operands⟩ : Phi).replacement? id with
  | some d =>
    simp only [put_eq_some hlt]
    rfl
  | none =>
    have hfind : t.find? key = some (.phi id) := by
      rw [PhiTable.find?, id?_of_getElem? h hp, Option.map_some, PhiTable.value_of_getElem? hp,
        Phi.replacement?_of_nil rfl, Option.getD_none]
    rw [Option.getD_none, ← hfind, Function.update_eq_self]
    simp only [put_eq_some hlt]
    rfl

end Closing

/-! ## Writes behind definitions -/

/-- A state of the search for writes. -/
structure Expansion where
  /-- The phis that were looked at. -/
  visited : Array Bool
  /-- The nodes of the writes found so far. -/
  writes : List Nat
  /-- The definitions to look at; the next one comes first. -/
  stack : List MemoryDef

/-- Looks at the next definition. -/
def expandTurn (s : Store) (e : Expansion) : Option (Turn Expansion (List Nat)) := do
  match e.stack with
  | [] => return .done e.writes
  | .write n :: stack => return .again ⟨e.visited, e.writes ++ [n], stack⟩
  | .phi id :: stack =>
    if (← lookup e.visited id) = some false then
      let visited ← put e.visited id true
      let phi ← s.phis[id]?
      return .again ⟨visited, e.writes, phi.operands.reverse ++ stack⟩
    else
      return .again ⟨e.visited, e.writes, stack⟩

/-- The nodes of the writes behind some definitions, in ascending order. -/
noncomputable def expand (s : Store) (defs : List MemoryDef) : Option (List Nat) := do
  let writes ← loop (expandTurn s) ⟨Array.replicate s.phis.size false, [], defs.reverse⟩
  return Ascending.ofList writes

/-- The search has found a definition or is going to. -/
def Expansion.Covers (t : PhiTable) (e : Expansion) (d : MemoryDef) : Prop :=
  d ∈ e.stack ∨ match d with
    | .write n => n ∈ e.writes
    | .phi id => id < t.size → Digraph.Marked e.visited id

/-- What every state of the search satisfies. -/
structure Expanding (t : PhiTable) (defs : List MemoryDef) (e : Expansion) : Prop where
  size : e.visited.size = t.size
  stack : ∀ d ∈ e.stack, ∀ w, t.Behind w d → w ∈ t.expand defs
  writes : ∀ w ∈ e.writes, w ∈ t.expand defs
  roots : ∀ d ∈ defs, e.Covers t d
  closed : ∀ id, Digraph.Marked e.visited id → ∀ d ∈ t.operands id, e.Covers t d

variable {defs : List MemoryDef} {e e' : Expansion}

/-- A turn that covers the definition it takes off the stack covers whatever was covered. -/
theorem Expansion.Covers.turn {d d' : MemoryDef} (h : e.Covers t d') {stack : List MemoryDef}
    (he : e.stack = d :: stack) (hd : e'.Covers t d) (hstack : stack ⊆ e'.stack)
    (hwrites : e.writes ⊆ e'.writes)
    (hvisited : ∀ id, Digraph.Marked e.visited id → Digraph.Marked e'.visited id) :
    e'.Covers t d' := by
  rcases h with h | h
  · rw [he] at h
    rcases List.mem_cons.mp h with rfl | h
    · exact hd
    · exact .inl (hstack h)
  · refine .inr ?_
    cases d' with
    | write n => exact hwrites h
    | phi id => exact fun hid => hvisited id (h hid)

theorem Expanding.write {n : Nat} {stack : List MemoryDef} (h : Expanding t defs e)
    (he : e.stack = .write n :: stack) :
    Expanding t defs ⟨e.visited, e.writes ++ [n], stack⟩ := by
  have hcovers : ∀ d, e.Covers t d → Expansion.Covers t ⟨e.visited, e.writes ++ [n], stack⟩ d := by
    intro d hd
    refine hd.turn he (.inr ?_) (List.Subset.refl _) (List.subset_append_left _ _) fun _ hid => hid
    exact List.mem_append_right _ (List.mem_singleton_self n)
  refine ⟨h.size, ?_, ?_, fun d hd => hcovers d (h.roots d hd),
    fun id hid d hd => hcovers d (h.closed id hid d hd)⟩
  · intro d hd
    exact h.stack d (by simp [he, hd])
  · intro w hw
    rcases List.mem_append.mp hw with hw | hw
    · exact h.writes w hw
    · obtain rfl := List.mem_singleton.mp hw
      exact h.stack (.write w) (by simp [he]) w .write

theorem Expanding.skip {id : Nat} {stack : List MemoryDef} (h : Expanding t defs e)
    (he : e.stack = .phi id :: stack) (hid : e.visited[id]? ≠ some false) :
    Expanding t defs ⟨e.visited, e.writes, stack⟩ := by
  have hcovers : ∀ d, e.Covers t d → Expansion.Covers t ⟨e.visited, e.writes, stack⟩ d := by
    intro d hd
    refine hd.turn he (.inr ?_) (List.Subset.refl _) (List.Subset.refl _) fun _ hid => hid
    intro hlt
    exact Digraph.marked_of_not_unmarked (by rwa [h.size]) hid
  refine ⟨h.size, ?_, h.writes, fun d hd => hcovers d (h.roots d hd),
    fun id hid d hd => hcovers d (h.closed id hid d hd)⟩
  intro d hd
  exact h.stack d (by simp [he, hd])

theorem Expanding.visit {id : Nat} {stack : List MemoryDef} (h : Expanding t defs e)
    (he : e.stack = .phi id :: stack) (hid : id < e.visited.size) :
    Expanding t defs
      ⟨e.visited.setIfInBounds id true, e.writes, (t.operands id).reverse ++ stack⟩ := by
  have hmarked := fun m => Digraph.marked_set (w := m) hid
  have hcovers : ∀ d, e.Covers t d → Expansion.Covers t
      ⟨e.visited.setIfInBounds id true, e.writes, (t.operands id).reverse ++ stack⟩ d := by
    intro d hd
    refine hd.turn he (.inr ?_) (List.subset_append_right _ _) (List.Subset.refl _) fun m hm =>
      (hmarked m).mpr (.inr hm)
    exact fun _ => (hmarked id).mpr (.inl rfl)
  refine ⟨by simpa using h.size, ?_, h.writes, fun d hd => hcovers d (h.roots d hd), ?_⟩
  · intro d hd w hw
    rcases List.mem_append.mp hd with hd | hd
    · exact h.stack (.phi id) (by simp [he]) w (.operand (List.mem_reverse.mp hd) hw)
    · exact h.stack d (by simp [he, hd]) w hw
  · intro m hm d hd
    rcases (hmarked m).mp hm with rfl | hm
    · exact .inl (List.mem_append_left _ (List.mem_reverse.mpr hd))
    · exact hcovers d (h.closed m hm d hd)

theorem Expanding.mem_writes (h : Expanding t defs e) (hnil : e.stack = []) {d : MemoryDef}
    (hd : e.Covers t d) {w : Nat} (hw : t.Behind w d) : w ∈ e.writes := by
  induction hw with
  | write => exact hd.resolve_left (by simp [hnil])
  | @operand id d hmem _ ih =>
    have hmarked := hd.resolve_left (by simp [hnil]) (PhiTable.lt_of_mem_operands hmem)
    exact ih (h.closed id hmarked d hmem)

/-- Fewer phis are left to look at, or as many phis and fewer definitions. -/
def Expansion.Smaller : Expansion → Expansion → Prop :=
  InvImage (Prod.Lex (· < ·) (· < ·)) fun e => (unmarked e.visited, e.stack.length)

theorem wellFounded_smaller : WellFounded Expansion.Smaller :=
  InvImage.wf _ (WellFounded.prod_lex Nat.lt_wfRel.wf Nat.lt_wfRel.wf)

theorem Expanding.turn (h : Expanding t defs e) :
    (∃ e', expandTurn (.of t) e = some (.again e') ∧ Expanding t defs e' ∧ e'.Smaller e) ∨
      ∃ writes, expandTurn (.of t) e = some (.done writes) ∧
        ∀ w, w ∈ writes ↔ w ∈ t.expand defs := by
  unfold expandTurn
  split
  case h_1 hnil =>
    refine .inr ⟨e.writes, rfl, fun w => ⟨h.writes w, fun hw => ?_⟩⟩
    obtain ⟨d, hd, hw⟩ := PhiTable.mem_expand.mp hw
    exact h.mem_writes hnil (h.roots d hd) hw
  case h_2 n stack he =>
    refine .inl ⟨_, rfl, h.write he, .right _ ?_⟩
    simp only [he, List.length_cons]
    omega
  case h_3 id stack he =>
    rw [lookup_eq]
    by_cases hid : e.visited[id]? = some false
    · have hlt := Digraph.lt_of_unmarked hid
      obtain ⟨p, hphi⟩ : ∃ p, t.phis[id]? = some p :=
        ⟨_, Array.getElem?_eq_getElem (h.size.symm ▸ hlt : id < t.size)⟩
      refine .inl ⟨_, ?_, h.visit he hlt, .left _ _ ?_⟩
      · simp [hid, put_eq_some hlt, getElem?_of hphi, PhiTable.operands_eq hphi]
      · have hleft := unmarked_set hid
        simp only
        omega
    · refine .inl ⟨⟨e.visited, e.writes, stack⟩, by simp [hid], h.skip he hid, .right _ ?_⟩
      simp only [he, List.length_cons]
      omega

/-- Expanding definitions does not fail, and finds the writes behind them. -/
theorem expand_of (t : PhiTable) (defs : List MemoryDef) :
    expand (.of t) defs = some (t.expand defs) := by
  have hstart : Expanding t defs ⟨Array.replicate t.size false, [], defs.reverse⟩ := by
    refine ⟨Array.size_replicate, ?_, by simp, ?_, ?_⟩
    · intro d hd w hw
      exact PhiTable.mem_expand.mpr ⟨d, List.mem_reverse.mp hd, hw⟩
    · exact fun d hd => .inl (List.mem_reverse.mpr hd)
    · intro id hid
      exact absurd hid (t.digraph.not_marked_noMarks id)
  obtain ⟨writes, hloop, hwrites⟩ := loop_of_invariant (Expanding t defs) _ wellFounded_smaller
    (fun e he => he.turn) hstart
  unfold expand
  rw [size_of, hloop]
  have hsorted := Ascending.sorted_ofList writes
  refine congrArg some (Ascending.eq_of_mem_iff hsorted (t.sorted_expand defs) ?_)
  intro w
  rw [Ascending.mem_ofList, hwrites]

end Checked

end MemDep
