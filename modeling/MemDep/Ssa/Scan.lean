import MemDep.AccessGraph.Accesses
import MemDep.AccessGraph.Blocks
import MemDep.ByteSet
import MemDep.Ssa.Phi

/-!
# Scanning backwards for definitions

A search for the definitions of some bytes of an object walks backwards, first through the nodes of
a block and then, as long as a block has a single predecessor, through the blocks before it. It
keeps the bytes that are still open. A node with a write that may touch an open byte is a
definition. A strong write of known bytes of the object closes these bytes for everything before
it. The walk ends when no byte is open, when no block comes before, or at a join: a block with
several predecessors, or the entry block if it has any.

Unknown memory is searched for as an object of its own: its definitions are the writes to unknown
memory, and nothing closes a byte of it.
-/

namespace MemDep

/-- Adds a definition at the end, unless it is listed. -/
def addDef (defs : List MemoryDef) (d : MemoryDef) : List MemoryDef :=
  if d ∈ defs then defs else defs ++ [d]

/-- Adds definitions in order. -/
def addDefs (defs more : List MemoryDef) : List MemoryDef := more.foldl addDef defs

/-- What searches look at. -/
structure Scope where
  /-- The accesses of the nodes. -/
  accesses : Accesses
  /-- The basic blocks. -/
  blocks : BlockGraph

/-- The write may define one of the open bytes of an object. -/
def Region.mayDefine (r : Region) (object : Nat) (opened : ByteSet) : Bool :=
  if opened.isEmpty then
    false
  else if object = unknownMemory then
    r.object == unknownMemory
  else if r.object = unknownMemory then
    true
  else
    r.object == object && (match r.interval? with
      | some i => opened.intersects i
      | none => true)

/-- Closes the bytes that a write certainly overwrites. -/
def Write.close (object : Nat) (opened : ByteSet) (w : Write) : ByteSet :=
  if w.strong && w.region.object == object then
    match w.region.interval? with
    | some i => opened.remove i
    | none => opened
  else
    opened

/-- Closes the bytes of an object that the writes of a node overwrite. -/
def closeAll (object : Nat) (writes : List Write) (opened : ByteSet) : ByteSet :=
  if object = unknownMemory then opened else writes.foldl (Write.close object) opened

/-- What a scan of some nodes found. -/
structure Scan where
  /-- The definitions, the last one in the order of control first. -/
  found : List MemoryDef
  /-- The bytes that are still open. -/
  opened : ByteSet
  /-- The scan ended because no byte was open. -/
  covered : Bool

namespace Scope

/-- Scans nodes, the last one in the order of control first, until no byte is open. -/
def scan (sc : Scope) (object : Nat) : List Nat → ByteSet → List MemoryDef → Scan
  | [], opened, found => ⟨found, opened, false⟩
  | n :: before, opened, found =>
    let writes := sc.accesses.writes n
    let found :=
      if writes.any fun w => w.region.mayDefine object opened then addDef found (.write n) else found
    let opened := closeAll object writes opened
    if opened.isEmpty then ⟨found, opened, true⟩ else sc.scan object before opened found

/-- Scans the first `stop` nodes of a block. -/
def scanBlock (sc : Scope) (object : Nat) (b : Fin sc.blocks.count) (stop : Nat) (opened : ByteSet)
    (found : List MemoryDef) : Scan :=
  sc.scan object ((sc.blocks.nodes b).take stop).reverse opened found

end Scope

/-- How a walk ended. -/
inductive Walk (count : Nat) where
  /-- Everything was found. -/
  | done (found : List MemoryDef)
  /-- At a join, with intervals that are still open. -/
  | join (found : List MemoryDef) (block : Fin count) (opened : List Interval)

namespace Scope

/-- Walks backwards from place `stop` of a block, through at most `blocks` blocks. -/
def walkFrom (sc : Scope) (object : Nat) : (blocks : Nat) → Fin sc.blocks.count → (stop : Nat) →
    ByteSet → List MemoryDef → Walk sc.blocks.count
  | 0, _, _, _, found => .done found
  | blocks + 1, b, stop, opened, found =>
    let s := sc.scanBlock object b stop opened found
    if s.covered then
      .done s.found
    else
      match sc.blocks.predecessors b with
      | [] => .done s.found
      | [a] =>
        if sc.blocks.entry = some b then .join s.found b s.opened.intervals
        else sc.walkFrom object blocks a (sc.blocks.nodes a).length s.opened s.found
      | _ :: _ :: _ => .join s.found b s.opened.intervals

/-- Walks backwards from place `stop` of a block. No walk passes a block twice, so the number of
blocks bounds it. -/
def walk (sc : Scope) (object : Nat) (b : Fin sc.blocks.count) (stop : Nat) (opened : ByteSet) :
    Walk sc.blocks.count :=
  sc.walkFrom object sc.blocks.count b stop opened []

end Scope

/-! ## Open intervals stay within the bytes of a query -/

/-- The interval is not empty and below the limit of known offsets. -/
def Interval.Valid (i : Interval) : Prop := i.start < i.stop ∧ i.stop ≤ Offset.limit

/-- All intervals of the set are valid. -/
def ByteSet.Valid (s : ByteSet) : Prop := ∀ i ∈ s.intervals, i.Valid

theorem ByteSet.valid_ofInterval {i : Interval} (h : i.stop ≤ Offset.limit) :
    (ByteSet.ofInterval i).Valid := by
  intro j hj
  unfold ByteSet.ofInterval at hj
  split at hj
  next hi => rw [List.mem_singleton.1 hj]; exact ⟨hi, h⟩
  next => simp at hj

theorem ByteSet.valid_full : ByteSet.full.Valid := ByteSet.valid_ofInterval (Nat.le_refl _)

theorem ByteSet.Valid.remove {s : ByteSet} (h : s.Valid) (cut : Interval) : (s.remove cut).Valid := by
  unfold ByteSet.remove
  split
  next =>
    intro i hi
    simp only [List.mem_flatMap] at hi
    obtain ⟨j, hj, hi⟩ := hi
    have hjv := h j hj
    simp only [Interval.Valid] at hjv ⊢
    split at hi
    next hc =>
      simp only [Interval.crosses, Bool.and_eq_true, decide_eq_true_eq] at hc
      simp only [Interval.minus, List.mem_append] at hi
      rcases hi with hi | hi <;> split at hi <;> simp only [List.mem_singleton, List.not_mem_nil] at hi
        <;> subst hi <;> simp only <;> omega
    next => rw [List.mem_singleton.1 hi]; exact hjv
  next => exact h

theorem ByteSet.Valid.close {s : ByteSet} (h : s.Valid) (object : Nat) (w : Write) :
    (w.close object s).Valid := by
  unfold Write.close
  split
  · split
    · exact h.remove _
    · exact h
  · exact h

theorem ByteSet.Valid.closeAll {s : ByteSet} (h : s.Valid) (object : Nat) (writes : List Write) :
    (closeAll object writes s).Valid := by
  unfold MemDep.closeAll
  split
  · exact h
  · induction writes generalizing s with
    | nil => exact h
    | cons w writes ih => exact ih (h.close object w)

namespace Scope

theorem valid_scan (sc : Scope) {object : Nat} {nodes : List Nat} {opened : ByteSet}
    {found : List MemoryDef} (h : opened.Valid) : (sc.scan object nodes opened found).opened.Valid := by
  induction nodes generalizing opened found with
  | nil => exact h
  | cons n before ih =>
    simp only [scan]
    split
    · exact h.closeAll object _
    · exact ih (h.closeAll object _)

theorem valid_walkFrom (sc : Scope) {object blocks : Nat} {b c : Fin sc.blocks.count} {stop : Nat}
    {opened : ByteSet} {found found' : List MemoryDef} {is : List Interval} (h : opened.Valid)
    (hw : sc.walkFrom object blocks b stop opened found = .join found' c is) :
    ∀ i ∈ is, i.Valid := by
  induction blocks generalizing b stop opened found with
  | zero => simp [walkFrom] at hw
  | succ blocks ih =>
    have hs : (sc.scanBlock object b stop opened found).opened.Valid := sc.valid_scan h
    simp only [walkFrom] at hw
    split at hw
    · simp at hw
    · split at hw
      · simp at hw
      · split at hw
        · simp only [Walk.join.injEq] at hw
          rw [← hw.2.2]
          exact hs
        · exact ih hs hw
      · simp only [Walk.join.injEq] at hw
        rw [← hw.2.2]
        exact hs

/-- A walk leaves valid intervals open. -/
theorem valid_of_walk (sc : Scope) {object : Nat} {b c : Fin sc.blocks.count} {stop : Nat}
    {opened : ByteSet} {found : List MemoryDef} {is : List Interval} (h : opened.Valid)
    (hw : sc.walk object b stop opened = .join found c is) : ∀ i ∈ is, i.Valid :=
  sc.valid_walkFrom h hw

end Scope

end MemDep
