import Mathlib.Data.List.Nodup
import MemDep.Proofs.PointsTo.Findings

/-!
# The findings on operands, in order

What the check of operands reports, as rules. A node that breaks what its kind asks for is reported with
all its operands, and every operand that does not exist is reported on its own, also if the same operand
was reported before. The rules allow exactly one report on a list of nodes, and it is the one that the
check gives (`checkOperands_eq_iff_operandReport`). Neither edges, nor the root, nor the places of nodes
have a say in it, and no fault hides another one.
-/

namespace MemDep

/-- The operands of a node break what its kind asks for, with or without one that occurs twice. -/
inductive PointerNode.Breach (node : PointerNode) : (duplicate : Bool) → Prop where
  | count {n : Nat} (harity : node.kind.arity = .exactly n) (h : node.operands.length ≠ n) :
      Breach node false
  | none (harity : node.kind.arity = .merge) (h : node.operands.length = 0) : Breach node false
  | twice {i j m : Nat} (harity : node.kind.arity = .merge) (hij : i < j)
      (hi : node.operands[i]? = some m) (hj : node.operands[j]? = some m) : Breach node true

namespace PointerGraph

/-- One finding for each entry of a list that does not exist, in the order of the list. -/
inductive MissingReport (g : PointerGraph) (node : PointerNode) : List Nat → List Finding → Prop where
  | nil : MissingReport g node [] []
  | present {m : Nat} {operands : List Nat} {findings : List Finding} (h : m < g.size)
      (hrest : MissingReport g node operands findings) : MissingReport g node (m :: operands) findings
  | missing {m : Nat} {operands : List Nat} {findings : List Finding} (h : ¬ m < g.size)
      (hrest : MissingReport g node operands findings) :
      MissingReport g node (m :: operands) (.missingOperand node.kind node.id m :: findings)

/-- The findings on the operands of a node: what they break, and then those that do not exist. -/
inductive NodeReport (g : PointerGraph) (node : PointerNode) : List Finding → Prop where
  | kept {missing : List Finding} (h : ∀ duplicate, ¬ node.Breach duplicate)
      (hmissing : MissingReport g node node.operands missing) : NodeReport g node missing
  | broken {duplicate : Bool} {missing : List Finding} (h : node.Breach duplicate)
      (hmissing : MissingReport g node node.operands missing) :
      NodeReport g node
        (.invalidOperands node.kind node.id node.operands duplicate :: missing)

/-- The findings on the operands of nodes, node by node. -/
inductive OperandReport (g : PointerGraph) : List PointerNode → List Finding → Prop where
  | nil : OperandReport g [] []
  | cons {node : PointerNode} {nodes : List PointerNode} {findings rest : List Finding}
      (hnode : NodeReport g node findings) (hrest : OperandReport g nodes rest) :
      OperandReport g (node :: nodes) (findings ++ rest)

variable {g : PointerGraph} {node : PointerNode} {findings : List Finding}

/-- An operand occurs twice if it stands at two positions. -/
theorem not_nodup_operands_iff : ¬ node.operands.Nodup ↔
    ∃ i j m : Nat, i < j ∧ node.operands[i]? = some m ∧ node.operands[j]? = some m := by
  rw [List.nodup_iff_getElem?_ne_getElem?]
  push Not
  constructor
  · rintro ⟨i, j, hij, hj, heq⟩
    have hjth : node.operands[j]? = some node.operands[j] := List.getElem?_eq_getElem hj
    exact ⟨i, j, _, hij, heq.trans hjth, hjth⟩
  · rintro ⟨i, j, m, hij, hi, hj⟩
    exact ⟨i, j, hij, (List.getElem?_eq_some_iff.mp hj).1, hi.trans hj.symm⟩

theorem breach_iff {duplicate : Bool} : node.Breach duplicate ↔
    ¬ node.kind.arity.Accepts node.operands ∧
      duplicate = decide (node.kind.arity = .merge ∧ ¬ node.operands.Nodup) := by
  constructor
  · rintro (⟨harity, h⟩ | ⟨harity, h⟩ | ⟨harity, hij, hi, hj⟩)
    · simp [harity, Arity.Accepts, h]
    · have hnil : node.operands = [] := List.length_eq_zero_iff.mp h
      simp [harity, Arity.Accepts, hnil]
    · have hdup := not_nodup_operands_iff.mpr ⟨_, _, _, hij, hi, hj⟩
      simp [harity, Arity.Accepts, hdup]
  · rintro ⟨hnot, rfl⟩
    cases harity : node.kind.arity with
    | exactly n =>
      rw [harity] at hnot
      simpa using PointerNode.Breach.count harity hnot
    | merge =>
      by_cases hdup : node.operands.Nodup
      · have hnil : node.operands = [] := by
          rw [harity] at hnot
          by_contra hne
          exact hnot ⟨hne, hdup⟩
        simpa [hdup] using PointerNode.Breach.none harity (List.length_eq_zero_iff.mpr hnil)
      · obtain ⟨i, j, m, hij, hi, hj⟩ := not_nodup_operands_iff.mp hdup
        simpa [hdup] using PointerNode.Breach.twice harity hij hi hj
    | unchecked =>
      rw [harity] at hnot
      exact absurd trivial hnot

theorem missingReport_iff {operands : List Nat} : MissingReport g node operands findings ↔
    (operands.filter (!g.contains ·)).map (.missingOperand node.kind node.id ·) = findings := by
  constructor
  · intro h
    induction h with
    | nil => rfl
    | present h _ ih => simpa [contains, h] using ih
    | missing h _ ih => simpa [contains, h] using ih
  · rintro rfl
    induction operands with
    | nil => exact .nil
    | cons m operands ih =>
      by_cases hm : m < g.size
      · simpa [contains, hm] using MissingReport.present hm ih
      · simpa [contains, hm] using MissingReport.missing hm ih

theorem nodeReport_iff : NodeReport g node findings ↔ g.operandFindings node = findings := by
  unfold operandFindings
  constructor
  · rintro (⟨h, hmissing⟩ | ⟨h, hmissing⟩)
    · have hnone : arityFinding? node = none := by
        rw [Option.eq_none_iff_forall_ne_some]
        intro f hf
        obtain ⟨hnot, _⟩ := arityFinding?_eq_some.mp hf
        exact h _ (breach_iff.mpr ⟨hnot, rfl⟩)
      simp [hnone, missingReport_iff.mp hmissing]
    · obtain ⟨hnot, rfl⟩ := breach_iff.mp h
      rw [arityFinding?_eq_some.mpr ⟨hnot, rfl⟩, missingReport_iff.mp hmissing]
      rfl
  · rintro rfl
    have hmissing : MissingReport g node node.operands _ := missingReport_iff.mpr rfl
    cases harity : arityFinding? node with
    | none =>
      refine .kept (fun duplicate h => ?_) hmissing
      obtain ⟨hnot, _⟩ := breach_iff.mp h
      simp [arityFinding?_eq_some.mpr ⟨hnot, rfl⟩] at harity
    | some f =>
      obtain ⟨hnot, rfl⟩ := arityFinding?_eq_some.mp harity
      exact .broken (breach_iff.mpr ⟨hnot, rfl⟩) hmissing

theorem operandReport_iff {nodes : List PointerNode} :
    OperandReport g nodes findings ↔ nodes.flatMap g.operandFindings = findings := by
  constructor
  · intro h
    induction h with
    | nil => rfl
    | cons hnode _ ih => rw [List.flatMap_cons, nodeReport_iff.mp hnode, ih]
  · rintro rfl
    induction nodes with
    | nil => exact .nil
    | cons node nodes ih =>
      rw [List.flatMap_cons]
      exact .cons (nodeReport_iff.mpr rfl) ih

/-- The check of operands gives the report on the operands of the nodes in their order, and no other list
of findings is such a report. -/
theorem checkOperands_eq_iff_operandReport (g : PointerGraph) (findings : List Finding) :
    g.checkOperands.findings = findings ↔ OperandReport g g.nodes.toList findings := by
  rw [operandReport_iff]
  rfl

/-- A store with one operand too few, which does not exist, and merges without operands and with two
times the same one; the last node is in order. -/
def mixedOperands : PointerGraph where
  nodes := #[
    ⟨0, .store, [9], [], []⟩,
    ⟨7, .phi, [], [5], []⟩,
    ⟨2, .phi, [8, 0, 8], [], []⟩,
    ⟨3, .load, [2], [], [1]⟩]
  root := some 6

example : mixedOperands.checkOperands.findings = [.invalidOperands .store 0 [9] false,
    .missingOperand .store 0 9, .invalidOperands .phi 7 [] false,
    .invalidOperands .phi 2 [8, 0, 8] true, .missingOperand .phi 2 8, .missingOperand .phi 2 8] := by
  decide +kernel

end PointerGraph

end MemDep
