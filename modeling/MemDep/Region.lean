import MemDep.Offset

/-!
# Memory regions

A region is a range of bytes of a memory object. Objects are nodes of the graph that reads and
writes them, and nodes are named by their positions in that graph. Node `unknownMemory` stands for
memory whose object is not known. It aliases every object, and a range inside it says nothing about
the object that is really meant, so a region of unknown memory may overlap every region and covers
none.
-/

namespace MemDep

/-- The node that stands for memory whose object is not known. -/
abbrev unknownMemory : Nat := 0

/-- A range of bytes of a memory object. -/
structure Region where
  /-- The memory object. -/
  object : Nat
  /-- The bytes of it. -/
  range : ByteRange
deriving DecidableEq, Repr, Inhabited

namespace Region

/-- The region of an object of which no bytes are known. -/
def whole (object : Nat) : Region := ⟨object, .anywhere⟩

/-- The same object with the byte range dropped. -/
def widened (r : Region) : Region := whole r.object

/-- The offset or the length is not known. -/
def hasUnknownRange (r : Region) : Bool := !(r.range.offset.isKnown && r.range.length.isKnown)

/-- The bytes of a region whose range is fully known. -/
def interval? (r : Region) : Option Interval := r.range.interval?

/-- The two objects may be the same memory. -/
def mayAlias (r s : Region) : Bool :=
  r.object == s.object || r.object == unknownMemory || s.object == unknownMemory

/-- The two regions may share a byte. -/
def mayOverlap (r s : Region) : Bool :=
  r.object == unknownMemory || s.object == unknownMemory ||
    r.object == s.object && r.range.mayOverlap s.range

/-- A write to the first region certainly overwrites all of the second. -/
def covers (r s : Region) : Bool :=
  r.object == s.object && r.object != unknownMemory && r.range.covers s.range

/-- A region in text: object, offset and length. -/
def text (r : Region) : String :=
  toString r.object ++ "[" ++ r.range.offset.text ++ ", +" ++ r.range.length.text ++ "]"

end Region

end MemDep
