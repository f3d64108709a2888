import MemDep.Proofs.ByteSet
import Mathlib.Logic.Relation
import Mathlib.Tactic.Common

/-!
# What a scan finds

The meaning of writes for single bytes: which bytes of an object a write may touch, and which ones
it certainly overwrites. For each byte that is open, a scan finds the nodes that may touch it and
that no node behind them hides; the bytes that it leaves open are those that no node hides.
-/

namespace MemDep

/-! ## Writes and bytes -/

/-- The write may touch a byte of an object: it writes unknown memory, or it writes the object, and
its bytes are not known or include this one. -/
def Write.Touches (w : Write) (object byte : Nat) : Prop :=
  w.region.object = unknownMemory ∨
    w.region.object = object ∧ ∀ i, w.region.interval? = some i → byte ∈ i

def Write.Overwrites (w : Write) (object byte : Nat) : Prop :=
  w.strong = true ∧ w.region.object = object ∧ ∃ i, w.region.interval? = some i ∧ byte ∈ i

def Accesses.Defines (t : Accesses) (object byte n : Nat) : Prop :=
  ∃ w ∈ t.writes n, w.Touches object byte

/-- A write of the node certainly overwrites a byte of an object. Nothing certainly overwrites a
byte of the unknown memory. -/
def Accesses.Hides (t : Accesses) (object byte n : Nat) : Prop :=
  object ≠ unknownMemory ∧ ∃ w ∈ t.writes n, w.Overwrites object byte

theorem Write.mayDefine_iff {w : Write} {object : Nat} {opened : ByteSet} (h : opened.Valid) :
    w.region.mayDefine object opened = true ↔ ∃ b ∈ opened, w.Touches object b := by
  by_cases hempty : opened.isEmpty = true
  · have hnone := (ByteSet.isEmpty_iff h).mp hempty
    simp only [Region.mayDefine, hempty, if_true, Bool.false_eq_true, false_iff]
    rintro ⟨b, hb, _⟩
    exact hnone b hb
  · have hsome : ∃ b, b ∈ opened := by
      by_contra hnone
      exact hempty ((ByteSet.isEmpty_iff h).mpr (not_exists.mp hnone))
    obtain ⟨b, hb⟩ := hsome
    simp only [Region.mayDefine, hempty, if_false, Write.Touches, Bool.false_eq_true]
    by_cases hobj : object = unknownMemory
    · simp only [hobj, if_true, beq_iff_eq]
      exact ⟨fun hw => ⟨b, hb, .inl hw⟩, fun ⟨_, _, hw⟩ => hw.elim id And.left⟩
    · by_cases hw : w.region.object = unknownMemory
      · simp only [hobj, hw, if_true, if_false, true_iff]
        exact ⟨b, hb, .inl trivial⟩
      · simp only [hobj, hw, if_false, false_or, Bool.and_eq_true, beq_iff_eq]
        cases hi : w.region.interval? with
        | none =>
          simp only [and_true]
          exact ⟨fun ho => ⟨b, hb, ho, by simp⟩, fun ⟨_, _, ho, _⟩ => ho⟩
        | some i =>
          rw [ByteSet.intersects_iff h]
          simp only [Option.some.injEq, forall_eq']
          exact ⟨fun ⟨ho, c, hc, hci⟩ => ⟨c, hc, ho, hci⟩, fun ⟨c, hc, ho, hci⟩ => ⟨ho, c, hc, hci⟩⟩

theorem Write.mem_close {w : Write} {object b : Nat} {opened : ByteSet} :
    b ∈ w.close object opened ↔ b ∈ opened ∧ ¬ w.Overwrites object b := by
  unfold close Overwrites
  split
  case isTrue hw =>
    simp only [Bool.and_eq_true, beq_iff_eq] at hw
    cases hi : w.region.interval? with
    | none => simp
    | some i =>
      rw [ByteSet.mem_remove]
      simp [hw]
  case isFalse hw =>
    simp only [Bool.and_eq_true, beq_iff_eq] at hw
    constructor
    · intro hb
      exact ⟨hb, fun ho => hw ⟨ho.1, ho.2.1⟩⟩
    · intro hb
      exact hb.1

theorem mem_closeAll {object b : Nat} {writes : List Write} {opened : ByteSet} :
    b ∈ closeAll object writes opened ↔
      b ∈ opened ∧ ¬ (object ≠ unknownMemory ∧ ∃ w ∈ writes, w.Overwrites object b) := by
  unfold closeAll
  split
  case isTrue hobj => simp [hobj]
  case isFalse hobj =>
    simp only [ne_eq, hobj, not_false_eq_true, true_and]
    induction writes generalizing opened with
    | nil => simp
    | cons w writes ih =>
      rw [List.foldl_cons, ih, Write.mem_close]
      simp only [List.mem_cons, exists_eq_or_imp, not_or]
      exact and_assoc

/-! ## Lists of definitions -/

theorem mem_addDef {d e : MemoryDef} {defs : List MemoryDef} :
    d ∈ addDef defs e ↔ d ∈ defs ∨ d = e := by
  unfold addDef
  split
  case isTrue h =>
    constructor
    · exact .inl
    · rintro (hd | rfl)
      · exact hd
      · exact h
  case isFalse => simp

theorem mem_addDefs {d : MemoryDef} {defs more : List MemoryDef} :
    d ∈ addDefs defs more ↔ d ∈ defs ∨ d ∈ more := by
  induction more generalizing defs with
  | nil => simp [addDefs]
  | cons e more ih =>
    have hstep : addDefs defs (e :: more) = addDefs (addDef defs e) more := rfl
    rw [hstep, ih, mem_addDef, List.mem_cons, or_assoc]

/-! ## Scans -/

namespace Scope

variable {sc : Scope} {object : Nat}

/-- Of some nodes, the last one in the order of control first, `w` may touch a byte and no node
before it in the list hides the byte. -/
def Sees (sc : Scope) (object byte w : Nat) : List Nat → Prop
  | [] => False
  | n :: before =>
    n = w ∧ sc.accesses.Defines object byte w ∨
      ¬ sc.accesses.Hides object byte n ∧ Sees sc object byte w before

/-- What a scan leaves open is what no node hides. -/
theorem mem_opened_scan {nodes : List Nat} {opened : ByteSet} {found : List MemoryDef}
    (h : opened.Valid) {b : Nat} : b ∈ (sc.scan object nodes opened found).opened ↔
      b ∈ opened ∧ ∀ n ∈ nodes, ¬ sc.accesses.Hides object b n := by
  induction nodes generalizing opened found with
  | nil => simp [scan]
  | cons n before ih =>
    have hmem : b ∈ closeAll object (sc.accesses.writes n) opened ↔
        b ∈ opened ∧ ¬ sc.accesses.Hides object b n := mem_closeAll
    have hvalid := h.closeAll object (sc.accesses.writes n)
    simp only [scan, List.forall_mem_cons]
    split
    case isTrue hempty =>
      have hnone := (ByteSet.isEmpty_iff hvalid).mp hempty b
      constructor
      · intro hb
        exact absurd hb hnone
      · intro hb
        exact absurd (hmem.mpr ⟨hb.1, hb.2.1⟩) hnone
    case isFalse => rw [ih hvalid, hmem, and_assoc]

/-- A scan adds the nodes that are seen for an open byte. -/
theorem mem_found_scan {nodes : List Nat} {opened : ByteSet} {found : List MemoryDef}
    (h : opened.Valid) {d : MemoryDef} : d ∈ (sc.scan object nodes opened found).found ↔
      d ∈ found ∨ ∃ w, d = .write w ∧ ∃ b ∈ opened, sc.Sees object b w nodes := by
  induction nodes generalizing opened found with
  | nil => simp [scan, Sees]
  | cons n before ih =>
    have hmem : ∀ b, b ∈ closeAll object (sc.accesses.writes n) opened ↔
        b ∈ opened ∧ ¬ sc.accesses.Hides object b n := fun b => mem_closeAll
    have hvalid := h.closeAll object (sc.accesses.writes n)
    have hnode : (d ∈ if (sc.accesses.writes n).any fun w => w.region.mayDefine object opened then
        addDef found (.write n) else found) ↔
          d ∈ found ∨ d = .write n ∧ ∃ b ∈ opened, sc.accesses.Defines object b n := by
      have hany : ((sc.accesses.writes n).any fun w => w.region.mayDefine object opened) = true ↔
          ∃ b ∈ opened, sc.accesses.Defines object b n := by
        simp only [List.any_eq_true, Write.mayDefine_iff h, Accesses.Defines]
        grind
      split
      case isTrue ht => simp [mem_addDef, hany.mp ht]
      case isFalse hf => simp [mt hany.mpr hf]
    simp only [scan, Sees]
    split
    case isTrue hempty =>
      have hnone := (ByteSet.isEmpty_iff hvalid).mp hempty
      rw [hnode]
      grind
    case isFalse =>
      rw [ih hvalid, hnode]
      grind

end Scope

end MemDep
