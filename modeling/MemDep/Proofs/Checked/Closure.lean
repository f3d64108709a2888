import MemDep.Proofs.Checked.Store

/-!
# The writes that phis lead to

Operands lead from phis to other definitions, around loops and back to the same phi, and sometimes
nowhere. For any phis, the search with a stack ends, and gives the writes that operands lead to from the
definitions it was asked about (`Checked.expand_closure`). A phi with only one operand besides itself
leads to what this operand leads to, so it makes no difference which of the two is asked about.
-/

namespace MemDep

open Relation

/-! ## From definitions to operands -/

/-- A definition is a phi that has another definition as an operand. -/
def HasOperand (phis : Array Phi) (d e : MemoryDef) : Prop :=
  ∃ id p, d = .phi id ∧ phis[id]? = some p ∧ e ∈ p.operands

/-- A definition is the only operand that a phi has besides itself. -/
def OnlyOperand (phis : Array Phi) (id : Nat) (d : MemoryDef) : Prop :=
  ∃ p, phis[id]? = some p ∧ d ∈ p.operands ∧ ∀ e ∈ p.operands, e = d ∨ e = .phi id

/-- A definition is kept, or it is a phi and its only operand takes its place. -/
def Replaces (phis : Array Phi) (d d' : MemoryDef) : Prop :=
  d' = d ∨ ∃ id, d = .phi id ∧ OnlyOperand phis id d'

/-- What replaces a phi is its only operand. -/
theorem Phi.onlyOperand_of_replacement? {phis : Array Phi} {id : Nat} {p : Phi} {d : MemoryDef}
    (hp : phis[id]? = some p) (hd : p.replacement? id = some d) : OnlyOperand phis id d :=
  ⟨p, hp, mem_of_replacement? hd, fun _ he => eq_of_replacement? hd he⟩

namespace PhiTable

variable {t : PhiTable} {d d' : MemoryDef} {w : Nat}

theorem behind_iff : t.Behind w d ↔ ReflTransGen (HasOperand t.phis) d (.write w) := by
  constructor
  · intro h
    induction h with
    | write => exact .refl
    | operand hd _ ih =>
      obtain ⟨p, hp⟩ : ∃ p, t.phis[_]? = some p :=
        ⟨_, Array.getElem?_eq_getElem (lt_of_mem_operands hd)⟩
      exact .head ⟨_, p, rfl, hp, operands_eq hp ▸ hd⟩ ih
  · intro h
    induction h using ReflTransGen.head_induction_on with
    | refl => exact .write
    | head hstep _ ih =>
      obtain ⟨id, p, rfl, hp, hmem⟩ := hstep
      exact .operand (operands_eq hp ▸ hmem) ih

theorem behind_iff_of_replaces (h : Replaces t.phis d d') : t.Behind w d' ↔ t.Behind w d := by
  rcases h with rfl | ⟨id, rfl, p, hp, hmem, honly⟩
  · exact Iff.rfl
  · rw [← operands_eq hp] at hmem honly
    exact ⟨.operand hmem, .of_onlyOperand honly⟩

theorem expand_of_replaces {defs defs' : List MemoryDef}
    (h : List.Forall₂ (Replaces t.phis) defs defs') : t.expand defs' = t.expand defs := by
  refine Ascending.eq_of_mem_iff (t.sorted_expand defs') (t.sorted_expand defs) fun w => ?_
  rw [mem_expand, mem_expand]
  induction h with
  | nil => rfl
  | cons hd _ ih => simp only [List.exists_mem_cons_iff, behind_iff_of_replaces hd, ih]

/-- Any phis can be entered one after the other, each being given its operands at once. -/
theorem exists_phis_eq (phis : Array Phi) : ∃ t : PhiTable, t.phis = phis := by
  obtain ⟨l⟩ := phis
  induction l using List.reverseRecOn with
  | nil => exact ⟨empty, rfl⟩
  | append_singleton l p ih =>
    obtain ⟨t, ht⟩ := ih
    have hlast : t.phis[t.size]? = none := Array.getElem?_eq_none (Nat.le_refl _)
    refine ⟨(t.enter p.key).fill t.size p.operands, ?_⟩
    have hpush : (⟨l ++ [p]⟩ : Array Phi) = t.phis.push p := by rw [ht, List.push_toArray]
    rw [hpush]
    refine Array.ext_getElem? fun i => ?_
    rw [getElem?_fill, getElem?_enter, Array.getElem?_push]
    change _ = if i = t.size then _ else _
    split <;> rfl

end PhiTable

namespace Checked

/-- The keys and the operands of the phis. -/
def Store.merges (s : Store) : Array Phi := s.phis.map fun p => ⟨p.key, p.operands⟩

/-- A turn looks at nothing of a phi but its operands. -/
theorem expandTurn_congr {s u : Store} (h : s.merges = u.merges) (e : Expansion) :
    expandTurn s e = expandTurn u e := by
  have hphi : ∀ id : Nat,
      (s.phis[id]?).map StoredPhi.operands = (u.phis[id]?).map StoredPhi.operands := by
    intro id
    have hid := congrArg (fun phis : Array Phi => (phis[id]?).map Phi.operands) h
    simpa [Store.merges, Function.comp_def] using hid
  unfold expandTurn
  split
  case h_1 => rfl
  case h_2 => rfl
  case h_3 id stack _ =>
    have hid := hphi id
    cases hs : s.phis[id]? with
    | none =>
      have hu : u.phis[id]? = none := by simpa [hs] using hid.symm
      simp only [hu]
    | some p =>
      obtain ⟨q, hu, hq⟩ : ∃ q, u.phis[id]? = some q ∧ q.operands = p.operands := by
        simpa [hs] using hid.symm
      simp only [hu, hq, Option.bind_eq_bind, Option.bind_some]

theorem expand_congr {s u : Store} (h : s.merges = u.merges) (defs : List MemoryDef) :
    expand s defs = expand u defs := by
  have hsize : s.phis.size = u.phis.size := by
    simpa [Store.merges] using congrArg Array.size h
  have hturn : expandTurn s = expandTurn u := funext (expandTurn_congr h)
  unfold expand
  rw [hsize, hturn]

theorem merges_of (t : PhiTable) : (Store.of t).merges = t.phis := by
  refine Array.ext_getElem? fun id => ?_
  cases hp : t.phis[id]? <;> simp [Store.merges, Store.of, hp]

/-- The search for the writes behind definitions ends for any phis, and gives in ascending order the
writes that operands lead to from the definitions. A table that holds the phis says the same. Putting
their only operands in the place of any phis that are asked about gives the same writes again. -/
theorem expand_closure (s : Store) (defs : List MemoryDef) : ∃ nodes,
    expand s defs = some nodes ∧ Ascending.Sorted nodes ∧
    (∀ w, w ∈ nodes ↔ ∃ d ∈ defs, ReflTransGen (HasOperand s.merges) d (.write w)) ∧
    (∀ t : PhiTable, t.phis = s.merges → t.expand defs = nodes) ∧
    ∀ defs', List.Forall₂ (Replaces s.merges) defs defs' → expand s defs' = some nodes := by
  have htable : ∀ t : PhiTable, t.phis = s.merges → ∀ defs, expand s defs = some (t.expand defs) := by
    intro t ht defs
    rw [expand_congr ((merges_of t).trans ht).symm, expand_of]
  obtain ⟨t, ht⟩ := PhiTable.exists_phis_eq s.merges
  refine ⟨t.expand defs, htable t ht defs, t.sorted_expand defs, ?_, ?_, ?_⟩
  · intro w
    rw [PhiTable.mem_expand, ← ht]
    simp only [PhiTable.behind_iff]
  · intro u hu
    exact Option.some.inj ((htable u hu defs).symm.trans (htable t ht defs))
  · intro defs' hreplaced
    rw [← ht] at hreplaced
    rw [htable t ht, PhiTable.expand_of_replaces hreplaced]

/-- Two phis that lead to each other, of which the second one also leads to itself, and a phi that leads
nowhere. -/
def circle : PhiTable :=
  let key := fun block => (⟨block, 1, ⟨0, 4⟩⟩ : PhiKey)
  let entered := ((PhiTable.empty.enter (key 0)).enter (key 1)).enter (key 2)
  (entered.fill 0 [.write 2, .phi 1]).fill 1 [.phi 0, .phi 1]

/-- The second phi is trivial, and the first one, which leads back to it, takes its place. -/
theorem expand_closure_circle :
    expand (.of circle) [.phi 2, .phi 1] = some [2] ∧
      expand (.of circle) [.phi 2, .phi 0] = some [2] ∧
      ∀ w, ReflTransGen (HasOperand circle.phis) (.phi 1) (.write w) → w = 2 := by
  obtain ⟨nodes, hnodes, -, hmem, htable, hreplaced⟩ :=
    expand_closure (.of circle) [.phi 2, .phi 1]
  rw [merges_of] at hmem htable hreplaced
  have hwrites : circle.expand [.phi 2, .phi 1] = Ascending.ofList [2] := by
    unfold PhiTable.expand
    exact congrArg Ascending.ofList (by decide +kernel)
  obtain rfl : [2] = nodes := by
    rw [← htable circle rfl, hwrites]
    refine Ascending.eq_of_mem_iff (by decide) (Ascending.sorted_ofList _) fun w => ?_
    rw [Ascending.mem_ofList]
  have hsecond : circle.phis[1]? = some ⟨⟨1, 1, ⟨0, 4⟩⟩, [.phi 0, .phi 1]⟩ := by decide +kernel
  have honly : OnlyOperand circle.phis 1 (.phi 0) :=
    Phi.onlyOperand_of_replacement? hsecond (by decide)
  refine ⟨hnodes, hreplaced _ (.cons (.inl rfl) (.cons (.inr ⟨1, rfl, honly⟩) .nil)), ?_⟩
  intro w hw
  exact List.mem_singleton.mp ((hmem w).mpr ⟨.phi 1, by simp, hw⟩)

end Checked

end MemDep
