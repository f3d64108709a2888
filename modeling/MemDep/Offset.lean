import MemDep.Interval

/-!
# Offsets

An offset counts bytes from the start of a memory object; the same type measures lengths. It is
either a known count below `Offset.limit` or unknown. Nothing that is computed from an unknown
offset is known, a sum that reaches the limit is unknown, and so is a difference below zero.

Comparison follows the same rule: an unknown offset is neither equal to, nor less or greater than
any offset, itself included. Equality of Lean values (`=`) is the finer relation, in which an
unknown offset equals itself.

An offset is written as one number: a known offset as its count, an unknown one as the limit.
-/

namespace MemDep

/-- The count that stands for an unknown offset; known offsets are below it. -/
def Offset.limit : Nat := UInt64.size - 1

/-- A number of bytes, or not known. -/
inductive Offset where
  /-- Nothing is known about the number of bytes. -/
  | unknown
  /-- Exactly `count` bytes. -/
  | known (count : Nat) (count_lt : count < Offset.limit)
deriving DecidableEq, Repr

namespace Offset

/-- The offset that a number stands for: a number that no known offset can hold is unknown. -/
def ofNat (n : Nat) : Offset := if h : n < limit then known n h else unknown

instance : Inhabited Offset := ⟨ofNat 0⟩

/-- The known count. -/
def count? : Offset → Option Nat
  | unknown => none
  | known n _ => some n

/-- The number that an offset is written as. -/
def code : Offset → Nat
  | unknown => limit
  | known n _ => n

/-- Whether the offset is known. -/
def isKnown (a : Offset) : Bool := a.count?.isSome

/-- An offset in text: its digits, or a question mark. -/
def text : Offset → String
  | unknown => "?"
  | known n _ => toString n

/-! ## Arithmetic -/

/-- The sum, unknown if it reaches the limit. -/
def add : Offset → Offset → Offset
  | known a _, known b _ => ofNat (a + b)
  | _, _ => unknown

/-- The difference, unknown if it is below zero. -/
def sub : Offset → Offset → Offset
  | known a _, known b _ => if b ≤ a then ofNat (a - b) else unknown
  | _, _ => unknown

instance : Add Offset := ⟨add⟩
instance : Sub Offset := ⟨sub⟩

/-! ## Comparison -/

/-- The order of two known offsets. -/
def compare? : Offset → Offset → Option Ordering
  | known a _, known b _ => some (compare a b)
  | _, _ => none

/-- Both offsets are known and the same. -/
def same (a b : Offset) : Bool := compare? a b == some .eq

/-- Both offsets are known and the first is smaller. -/
def below (a b : Offset) : Bool := compare? a b == some .lt

/-- Both offsets are known and the first is not larger. -/
def atMost (a b : Offset) : Bool := a.below b || a.same b

/-! ## The number an offset is written as -/

theorem code_le_limit (a : Offset) : a.code ≤ limit := by
  cases a with
  | unknown => exact Nat.le_refl _
  | known n h => exact Nat.le_of_lt h

theorem ofNat_code (a : Offset) : ofNat a.code = a := by
  cases a with
  | unknown => simp [ofNat, code]
  | known n h => simp [ofNat, code, h]

theorem code_ofNat {n : Nat} (h : n ≤ limit) : (ofNat n).code = n := by
  unfold ofNat
  split
  · rfl
  · simp only [code]
    omega

end Offset

/-! ## Byte ranges -/

/-- The bytes from `offset` on, `length` of them. -/
structure ByteRange where
  /-- Where the range starts. -/
  offset : Offset
  /-- How many bytes it has. -/
  length : Offset
deriving DecidableEq, Repr, Inhabited

namespace ByteRange

/-- The range of which nothing is known. -/
def anywhere : ByteRange := ⟨.unknown, .unknown⟩

/-- The bytes of a range, if its offset, its length and its end are all known. -/
def interval? (r : ByteRange) : Option Interval := do
  let start ← r.offset.count?
  let stop ← (r.offset + r.length).count?
  return ⟨start, stop⟩

@[simp]
theorem interval?_unknown_offset (b : Offset) : (⟨.unknown, b⟩ : ByteRange).interval? = none := rfl

@[simp]
theorem interval?_unknown_length (a : Offset) : (⟨a, .unknown⟩ : ByteRange).interval? = none := by
  cases a <;> rfl

theorem interval?_known {a b : Nat} (ha : a < Offset.limit) (hb : b < Offset.limit) :
    (⟨.known a ha, .known b hb⟩ : ByteRange).interval? =
      if a + b < Offset.limit then some ⟨a, a + b⟩ else none := by
  change (do let stop ← (Offset.ofNat (a + b)).count?; return (⟨a, stop⟩ : Interval)) = _
  unfold Offset.ofNat
  split <;> rfl

theorem exists_known_of_interval? {r : ByteRange} {i : Interval} (h : r.interval? = some i) :
    ∃ a b ha hb, r = ⟨.known a ha, .known b hb⟩ ∧ a + b < Offset.limit ∧ i = ⟨a, a + b⟩ := by
  obtain ⟨offset, length⟩ := r
  cases offset with
  | unknown => simp at h
  | known a ha =>
    cases length with
    | unknown => simp at h
    | known b hb =>
      rw [interval?_known] at h
      split at h
      case isTrue hlt => exact ⟨a, b, ha, hb, rfl, hlt, (Option.some.inj h).symm⟩
      case isFalse => exact absurd h (by simp)

theorem stop_lt_of_interval? {r : ByteRange} {i : Interval} (h : r.interval? = some i) :
    i.stop < Offset.limit := by
  obtain ⟨a, b, _, _, _, hlt, rfl⟩ := exists_known_of_interval? h
  exact hlt

theorem start_le_stop_of_interval? {r : ByteRange} {i : Interval} (h : r.interval? = some i) :
    i.start ≤ i.stop := by
  obtain ⟨a, b, _, _, _, _, rfl⟩ := exists_known_of_interval? h
  exact Nat.le_add_right a b

/-- The two ranges may share a byte: they cross, or one of them is not fully known. -/
def mayOverlap (r s : ByteRange) : Bool :=
  match r.interval?, s.interval? with
  | some i, some j => i.crosses j
  | _, _ => true

/-- The first range contains the second for certain: both are fully known and one encloses the
other. -/
def covers (r s : ByteRange) : Bool :=
  match r.interval?, s.interval? with
  | some i, some j => i.encloses j
  | _, _ => false

end ByteRange

end MemDep
