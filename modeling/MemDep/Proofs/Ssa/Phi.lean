import MemDep.Proofs.Ascending
import MemDep.Proofs.Digraph
import MemDep.Ssa.Phi
import Mathlib.Logic.Relation
import Mathlib.Tactic.Common

/-!
# Writes behind phis, and the growth of tables

`PhiTable.Behind` says which writes the operands of phis lead to from a definition, and `expand`
finds exactly these. A table grows by phis that are entered without operands and given them later.
What stands for a key, `PhiTable.Stands`, stands for it in every table that has grown from there:
a phi is only replaced once it has its operands, and then it keeps them.
-/

namespace MemDep

open Relation

/-! ## Replacements -/

theorem Phi.mem_of_replacement? {p : Phi} {id : Nat} {d : MemoryDef}
    (h : p.replacement? id = some d) : d ∈ p.operands := by
  unfold replacement? at h
  split at h
  case h_1 e he =>
    obtain rfl := Option.some.inj h
    have hmem : e ∈ p.operands.filter (· ≠ .phi id) := by rw [he]; simp
    exact (List.mem_filter.mp hmem).1
  case h_2 => simp at h

theorem Phi.eq_of_replacement? {p : Phi} {id : Nat} {d e : MemoryDef}
    (h : p.replacement? id = some d) (he : e ∈ p.operands) : e = d ∨ e = .phi id := by
  unfold replacement? at h
  split at h
  case h_1 d' hd' =>
    obtain rfl := Option.some.inj h
    by_cases hid : e = .phi id
    · exact .inr hid
    · have hmem : e ∈ p.operands.filter (· ≠ .phi id) := by simp [he, hid]
      rw [hd'] at hmem
      exact .inl (List.mem_singleton.mp hmem)
  case h_2 => simp at h

theorem Phi.replacement?_of_nil {p : Phi} (h : p.operands = []) (id : Nat) :
    p.replacement? id = none := by
  simp [replacement?, h]

namespace PhiTable

variable {t u : PhiTable}

/-! ## Writes behind definitions -/

/-- The write of a node is behind a definition: it is this definition, or behind an operand of this
phi. -/
inductive Behind (t : PhiTable) (w : Nat) : MemoryDef → Prop where
  | write : Behind t w (.write w)
  | operand {id d} (hd : d ∈ t.operands id) (h : Behind t w d) : Behind t w (.phi id)

theorem operands_eq {id : Nat} {p : Phi} (h : t.phis[id]? = some p) : t.operands id = p.operands := by
  simp [operands, h]

theorem lt_of_mem_operands {id : Nat} {d : MemoryDef} (h : d ∈ t.operands id) : id < t.size := by
  by_contra hlt
  have hnone : t.phis[id]? = none := Array.getElem?_eq_none (Nat.le_of_not_lt hlt)
  simp [operands, hnone] at h

theorem mem_phiIds {id : Nat} {defs : List MemoryDef} : id ∈ phiIds defs ↔ .phi id ∈ defs := by
  simp only [phiIds, List.mem_filterMap]
  constructor
  · rintro ⟨d, hd, h⟩
    cases d with
    | write n => simp at h
    | phi i => exact Option.some.inj h ▸ hd
  · intro h
    exact ⟨_, h, rfl⟩

theorem mem_writeNodes {w : Nat} {defs : List MemoryDef} :
    w ∈ writeNodes defs ↔ .write w ∈ defs := by
  simp only [writeNodes, List.mem_filterMap]
  constructor
  · rintro ⟨d, hd, h⟩
    cases d with
    | write n => exact Option.some.inj h ▸ hd
    | phi i => simp at h
  · intro h
    exact ⟨_, h, rfl⟩

theorem Behind.of_arcs {w id id' : Nat} (h : ReflTransGen t.digraph.Arc id id')
    (hw : .write w ∈ t.operands id') : t.Behind w (.phi id) := by
  induction h using ReflTransGen.head_induction_on with
  | refl => exact .operand hw .write
  | head hij _ ih => exact .operand (mem_phiIds.mp hij.2.1) ih

theorem Behind.exists_arcs {w : Nat} {d : MemoryDef} (h : t.Behind w d) : d = .write w ∨
    ∃ id id', d = .phi id ∧ id < t.size ∧ id' < t.size ∧ ReflTransGen t.digraph.Arc id id' ∧
      .write w ∈ t.operands id' := by
  induction h with
  | write => exact .inl rfl
  | @operand id d hd _ ih =>
    have hid := lt_of_mem_operands hd
    rcases ih with rfl | ⟨j, j', rfl, hj, hj', hjj, hw⟩
    · exact .inr ⟨id, id, rfl, hid, hid, .refl, hd⟩
    · exact .inr ⟨id, j', rfl, hid, hj', .head ⟨hid, mem_phiIds.mpr hd, hj⟩ hjj, hw⟩

theorem mem_expand {defs : List MemoryDef} {w : Nat} :
    w ∈ t.expand defs ↔ ∃ d ∈ defs, t.Behind w d := by
  have hreach : ∀ id, (t.digraph.reach (phiIds defs))[id]? = some true ↔
      ∃ r ∈ phiIds defs, r < t.size ∧ ReflTransGen t.digraph.Arc r id :=
    fun id => Digraph.marked_reach
  simp only [expand, Ascending.mem_ofList, List.mem_append, mem_writeNodes, List.mem_flatMap,
    List.mem_filter, List.mem_range, beq_iff_eq, hreach]
  constructor
  · rintro (hw | ⟨id, ⟨_, r, hr, _, hrid⟩, hw⟩)
    · exact ⟨_, hw, .write⟩
    · exact ⟨_, mem_phiIds.mp hr, .of_arcs hrid hw⟩
  · rintro ⟨d, hd, h⟩
    rcases h.exists_arcs with rfl | ⟨id, id', rfl, hid, hid', harcs, hw⟩
    · exact .inl hd
    · exact .inr ⟨id', ⟨hid', id, mem_phiIds.mpr hd, hid, harcs⟩, hw⟩

theorem sorted_expand (t : PhiTable) (defs : List MemoryDef) : Ascending.Sorted (t.expand defs) :=
  Ascending.sorted_ofList _

/-- What is behind a phi is behind its only operand besides itself. -/
theorem Behind.of_onlyOperand {w id : Nat} {d : MemoryDef}
    (honly : ∀ e ∈ t.operands id, e = d ∨ e = .phi id) (h : t.Behind w (.phi id)) : t.Behind w d := by
  generalize he : MemoryDef.phi id = e at h
  induction h with
  | write => simp at he
  | operand hmem h ih =>
    obtain rfl := MemoryDef.phi.inj he
    rcases honly _ hmem with rfl | rfl
    · exact h
    · exact ih rfl

/-- What is behind a phi is behind its replacement. -/
theorem Behind.of_replacement? {w id : Nat} {p : Phi} {d : MemoryDef} (hp : t.phis[id]? = some p)
    (hd : p.replacement? id = some d) (h : t.Behind w (.phi id)) : t.Behind w d := by
  refine h.of_onlyOperand ?_
  rw [operands_eq hp]
  exact fun e he => Phi.eq_of_replacement? hd he

/-! ## What stands for a key -/

/-- A definition stands for a key: it is the phi for the key, or what replaces it. -/
def Stands (t : PhiTable) (key : PhiKey) (d : MemoryDef) : Prop :=
  ∃ id p, t.phis[id]? = some p ∧ p.key = key ∧ (d = .phi id ∨ p.replacement? id = some d)

theorem stands_value {id : Nat} {p : Phi} (h : t.phis[id]? = some p) :
    t.Stands p.key (t.value id) := by
  refine ⟨id, p, h, rfl, ?_⟩
  simp only [value, h, Option.bind_some]
  cases hr : p.replacement? id with
  | none => exact .inl rfl
  | some d => exact .inr rfl

theorem stands_of_find? {key : PhiKey} {d : MemoryDef} (h : t.find? key = some d) :
    t.Stands key d := by
  obtain ⟨id, hid, rfl⟩ := Option.map_eq_some_iff.mp h
  obtain ⟨p, hp, rfl⟩ := key_of_id? hid
  exact stands_value hp

/-! ## Growth -/

/-- The second table holds the phis of the first one as they are. -/
def Extends (t u : PhiTable) : Prop :=
  ∀ (id : Nat) (p : Phi), t.phis[id]? = some p → u.phis[id]? = some p

theorem Extends.refl (t : PhiTable) : t.Extends t := fun _ _ hp => hp

theorem Extends.trans {v : PhiTable} (h : t.Extends u) (k : u.Extends v) : t.Extends v :=
  fun id p hp => k id p (h id p hp)

/-- The second table has the keys of the first one at the same positions, and what stands for a key
in the first table stands for it in the second one. -/
structure Grows (t u : PhiTable) : Prop where
  keys : ∀ {id : Nat} {p : Phi}, t.phis[id]? = some p → ∃ q, u.phis[id]? = some q ∧ q.key = p.key
  stands : ∀ {key : PhiKey} {d : MemoryDef}, t.Stands key d → u.Stands key d

theorem Extends.grows (h : t.Extends u) : t.Grows u := by
  constructor
  · intro id p hp
    exact ⟨p, h id p hp, rfl⟩
  · rintro key d ⟨id, p, hp, hd⟩
    exact ⟨id, p, h id p hp, hd⟩

theorem getElem?_enter (t : PhiTable) (key : PhiKey) (id : Nat) :
    (t.enter key).phis[id]? = if id = t.size then some ⟨key, []⟩ else t.phis[id]? :=
  Array.getElem?_push

theorem getElem?_enter_self (t : PhiTable) (key : PhiKey) :
    (t.enter key).phis[t.size]? = some ⟨key, []⟩ := by
  rw [getElem?_enter, if_pos rfl]

theorem size_enter (t : PhiTable) (key : PhiKey) : (t.enter key).size = t.size + 1 :=
  Array.size_push _

theorem size_fill (t : PhiTable) (id : Nat) (operands : List MemoryDef) :
    (t.fill id operands).size = t.size :=
  Array.size_modify

theorem getElem?_fill (t : PhiTable) (id : Nat) (operands : List MemoryDef) (i : Nat) :
    (t.fill id operands).phis[i]? =
      if i = id then (t.phis[i]?).map fun p => { p with operands } else t.phis[i]? := by
  simp only [fill, Array.getElem?_modify, eq_comm]

theorem lt_of_getElem? {id : Nat} {p : Phi} (h : t.phis[id]? = some p) : id < t.size :=
  (Array.getElem?_eq_some_iff.mp h).1

theorem extends_enter (t : PhiTable) (key : PhiKey) : t.Extends (t.enter key) := by
  intro id p hp
  rw [getElem?_enter, if_neg (Nat.ne_of_lt (lt_of_getElem? hp))]
  exact hp

/-- Filling a phi leaves the phis of an earlier table as they are. -/
theorem Extends.fill (h : t.Extends u) {id : Nat} (hid : t.size ≤ id) (operands : List MemoryDef) :
    t.Extends (u.fill id operands) := by
  intro i p hp
  have hi := lt_of_getElem? hp
  rw [getElem?_fill, if_neg (by omega)]
  exact h i p hp

theorem getElem?_fill_self {id : Nat} {p : Phi} (hp : t.phis[id]? = some p)
    (operands : List MemoryDef) : (t.fill id operands).phis[id]? = some { p with operands } := by
  rw [getElem?_fill, if_pos rfl, hp]
  rfl

/-- A phi without operands stands for its key with any operands. -/
theorem grows_fill {id : Nat} {p : Phi} (hp : t.phis[id]? = some p) (hnil : p.operands = [])
    (operands : List MemoryDef) : t.Grows (t.fill id operands) := by
  have hother : ∀ {i : Nat} {q : Phi}, t.phis[i]? = some q → i ≠ id →
      (t.fill id operands).phis[i]? = some q := by
    intro i q hq hi
    rw [getElem?_fill, if_neg hi]
    exact hq
  constructor
  · intro i q hq
    by_cases hi : i = id
    · subst hi
      obtain rfl := Option.some.inj (hp.symm.trans hq)
      exact ⟨_, getElem?_fill_self hp operands, rfl⟩
    · exact ⟨q, hother hq hi, rfl⟩
  · rintro key d ⟨i, q, hq, hkey, hd⟩
    by_cases hi : i = id
    · subst hi
      obtain rfl := Option.some.inj (hp.symm.trans hq)
      rw [Phi.replacement?_of_nil hnil] at hd
      exact ⟨i, _, getElem?_fill_self hp operands, hkey, .inl (hd.resolve_right (by simp))⟩
    · exact ⟨i, q, hother hq hi, hkey, hd⟩

/-! ## Keys -/

def keys (t : PhiTable) : List PhiKey := t.phis.toList.map (·.key)

theorem mem_keys {key : PhiKey} : key ∈ t.keys ↔ t.Has key := by
  simp [keys, Has]

theorem keys_enter (t : PhiTable) (key : PhiKey) : (t.enter key).keys = t.keys ++ [key] := by
  simp [keys, enter]

theorem keys_fill (t : PhiTable) (id : Nat) (operands : List MemoryDef) :
    (t.fill id operands).keys = t.keys := by
  refine List.ext_getElem? ?_
  intro i
  have hget := t.getElem?_fill id operands i
  simp only [keys, List.getElem?_map, Array.getElem?_toList, hget]
  split
  · cases t.phis[i]? <;> rfl
  · rfl

end PhiTable

end MemDep
