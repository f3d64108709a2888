/-!
# JSON values and their text

A value as it is written: the fields of an object keep their order, and a number is either a natural
number or some other literal, kept as it stands. `Json.write` is the compact form, without blanks:
it puts the text of a value in front of some text that follows.
-/

namespace MemDep

/-- A JSON value. -/
inductive Json where
  /-- The value that stands for nothing. -/
  | null
  /-- A truth value. -/
  | bool (value : Bool)
  /-- A number written with digits alone. -/
  | nat (value : Nat)
  /-- Any other number, as it is written. -/
  | number (literal : String)
  /-- A text. -/
  | str (value : String)
  /-- A list of values. -/
  | arr (items : List Json)
  /-- Named values, in the order in which they are written. -/
  | obj (fields : List (String × Json))
deriving Repr, Inhabited

namespace Json

/-! ## Text in quotes -/

/-- A digit of a number in base 16. -/
def hexDigit (n : Nat) : Char := Nat.digitChar n

/-- A character as it is written between quotes. Quotes, backslashes and control characters are
escaped, and nothing else. -/
def escape (c : Char) : List Char :=
  if c = '"' then ['\\', '"']
  else if c = '\\' then ['\\', '\\']
  else if c = '\n' then ['\\', 'n']
  else if c = '\r' then ['\\', 'r']
  else if c = '\t' then ['\\', 't']
  else if c = '\x08' then ['\\', 'b']
  else if c = '\x0c' then ['\\', 'f']
  else if c.toNat < 32 then
    ['\\', 'u', '0', '0', hexDigit (c.toNat / 16), hexDigit (c.toNat % 16)]
  else [c]

/-- A text in quotes, in front of what follows. -/
def writeString (s : String) (rest : List Char) : List Char :=
  '"' :: (s.toList.flatMap escape ++ '"' :: rest)

/-! ## Values -/

mutual

/-- The compact text of a value, in front of what follows. -/
def write : Json → (rest : List Char) → List Char
  | null, rest => 'n' :: 'u' :: 'l' :: 'l' :: rest
  | bool true, rest => 't' :: 'r' :: 'u' :: 'e' :: rest
  | bool false, rest => 'f' :: 'a' :: 'l' :: 's' :: 'e' :: rest
  | nat n, rest => Nat.toDigits 10 n ++ rest
  | number literal, rest => literal.toList ++ rest
  | str s, rest => writeString s rest
  | arr [], rest => '[' :: ']' :: rest
  | arr (item :: items), rest => '[' :: write item (writeItems items rest)
  | obj [], rest => '{' :: '}' :: rest
  | obj (field :: fields), rest => '{' :: writeField field (writeFields fields rest)

/-- The items of a list after the first one, and the end of the list. -/
def writeItems : List Json → (rest : List Char) → List Char
  | [], rest => ']' :: rest
  | item :: items, rest => ',' :: write item (writeItems items rest)

/-- A named value. -/
def writeField : String × Json → (rest : List Char) → List Char
  | (name, value), rest => writeString name (':' :: write value rest)

/-- The fields of an object after the first one, and the end of the object. -/
def writeFields : List (String × Json) → (rest : List Char) → List Char
  | [], rest => '}' :: rest
  | field :: fields, rest => ',' :: writeField field (writeFields fields rest)

end

/-- The compact text of a value. -/
def text (j : Json) : String := String.ofList (j.write [])

end Json

end MemDep
