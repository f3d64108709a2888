import MemDep.Json.Value

/-!
# Decoding JSON

What the typed values of the library are read from. A number of a type is a natural number below the
type's bound; truth values, texts and numbers are not converted into each other.

A record is an object with fields of given names, or a list of the values of all fields in their
order. Of fields with the same name the last one counts. Fields of other names are ignored, or
refused by a strict record. Names of a finite type are texts, or objects with the name as their only
field and no value in it.
-/

namespace MemDep.Json

/-- A natural number below a bound. -/
def nat? (bound : Nat) : Json → Option Nat
  | nat n => if n < bound then some n else none
  | _ => none

/-- A truth value. -/
def bool? : Json → Option Bool
  | bool b => some b
  | _ => none

/-- A list of values of one type. -/
def list? {α : Type} (item? : Json → Option α) : Json → Option (List α)
  | arr items => items.mapM item?
  | _ => none

/-- A value of a type, or nothing. -/
def optional? {α : Type} (value? : Json → Option α) : Json → Option (Option α)
  | null => some none
  | j => (value? j).map some

/-- A name of a finite type. -/
def name? {α : Type} (ofName? : String → Option α) : Json → Option α
  | str s => ofName? s
  | obj [(s, null)] => ofName? s
  | _ => none

/-! ## Records -/

/-- The values of a record, by the names of its fields. -/
structure Fields where
  /-- The named values. -/
  values : List (String × Json)

namespace Fields

/-- The value of a field, if it is there. -/
def get? (r : Fields) (name : String) : Option Json :=
  (r.values.findRev? (·.1 == name)).map (·.2)

/-- The value of a field that has to be there. -/
def required? {α : Type} (r : Fields) (name : String) (value? : Json → Option α) : Option α :=
  (r.get? name).bind value?

/-- The value of a field that may be left out or empty. -/
def optional? {α : Type} (r : Fields) (name : String) (value? : Json → Option α) :
    Option (Option α) :=
  match r.get? name with
  | some j => Json.optional? value? j
  | none => some none

/-- The value of a field that stands for a given one if it is left out. -/
def withDefault? {α : Type} (r : Fields) (name : String) (value? : Json → Option α) (default : α) :
    Option α :=
  match r.get? name with
  | some j => value? j
  | none => some default

end Fields

/-- A record with fields of the given names and perhaps others. As a list it has all the fields. -/
def record? (names : List String) : Json → Option Fields
  | obj fields => some ⟨fields⟩
  | arr items => if items.length = names.length then some ⟨names.zip items⟩ else none
  | _ => none

/-- A record with fields of the given names and no others. As a list it may end early. -/
def strictRecord? (names : List String) : Json → Option Fields
  | obj fields => if fields.all (names.contains ·.1) then some ⟨fields⟩ else none
  | arr items => if items.length ≤ names.length then some ⟨names.zip items⟩ else none
  | _ => none

end MemDep.Json
