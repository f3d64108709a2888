import MemDep.Digits
import MemDep.Yaml.Document

/-!
# Decoding YAML

What the typed values of the library are read from. Truth values and numbers are plain scalars of a
fixed form, whatever their tag; or literal ones with the tag of their type. Any scalar is a text.
-/

namespace MemDep.Yaml

/-- The tag of a type that YAML has names for. -/
def coreTag (name : String) : String := "tag:yaml.org,2002:" ++ name

/-- A text for nothing. -/
def isNullText (s : String) : Bool := ["null", "Null", "NULL", "~"].contains s

/-- The truth value that a text stands for. -/
def boolOfText? (s : String) : Option Bool :=
  if ["true", "True", "TRUE"].contains s then some true
  else if ["false", "False", "FALSE"].contains s then some false
  else none

/-- The number that digits in decimal or after the mark of another base stand for. Zeros in front of
a decimal number are refused. -/
def natOfUnsigned? : List Char → Option Nat
  | '0' :: 'x' :: digits => natOfDigits? 16 digits
  | '0' :: 'o' :: digits => natOfDigits? 8 digits
  | '0' :: 'b' :: digits => natOfDigits? 2 digits
  | '0' :: _ :: _ => none
  | digits => natOfDigits? 10 digits

/-- The number that a text stands for. It may have a plus sign. -/
def natOfText? (s : String) : Option Nat :=
  match s.toList with
  | '+' :: cs => natOfUnsigned? cs
  | cs => natOfUnsigned? cs

namespace Node

/-- The text of a scalar that may be a value of a type with a name. -/
def textOf? (type : String) : Node → Option String
  | scalar _ .plain text => some text
  | scalar (some tag) .literal text => if tag = coreTag type then some text else none
  | _ => none

/-- A truth value. -/
def bool? (n : Node) : Option Bool := (n.textOf? "bool").bind boolOfText?

/-- A natural number below a bound. -/
def nat? (bound : Nat) (n : Node) : Option Nat :=
  ((n.textOf? "int").bind natOfText?).filter (· < bound)

/-- A text. -/
def text? : Node → Option String
  | scalar _ _ text => some text
  | _ => none

/-- A value of a type, or nothing. A plain scalar without a tag is nothing if it is empty. -/
def optional? {α : Type} (value? : Node → Option α) (n : Node) : Option (Option α) :=
  match n with
  | scalar none .plain text =>
    if text = "" ∨ isNullText text then some none else (value? n).map some
  | scalar (some tag) .plain text =>
    if tag = coreTag "null" then if isNullText text then some none else none
    else (value? n).map some
  | n => (value? n).map some

end Node

/-- The entries of a mapping whose keys are different texts out of the given ones. Nothing is a
mapping without entries. References in the mapping are replaced by what they stand for. -/
def Document.record? (d : Document) (names : List String) : Node → Option (List (String × Node))
  | .mapping entries => do
    let fields ← entries.mapM fun (key, value) => (d.resolve key).text?.map (·, d.resolve value)
    let keys := fields.map (·.1)
    if keys.all names.contains ∧ keys.Nodup then some fields else none
  | .scalar _ .plain "" => some []
  | _ => none

/-- The value of a field that may be left out or empty. -/
def optionalField? {α : Type} (fields : List (String × Node)) (name : String)
    (value? : Node → Option α) : Option (Option α) :=
  match fields.lookup name with
  | some n => n.optional? value?
  | none => some none

/-- The value of a field that stands for a given one if it is left out. -/
def fieldWithDefault? {α : Type} (fields : List (String × Node)) (name : String)
    (value? : Node → Option α) (default : α) : Option α :=
  match fields.lookup name with
  | some n => value? n
  | none => some default

end MemDep.Yaml
