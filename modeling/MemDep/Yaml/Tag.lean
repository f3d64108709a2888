import MemDep.Digits
import MemDep.Yaml.Token

/-!
# Names, tags and directives of YAML

The parts of a document that describe others. An anchor names a node, so that a reference can stand
for it. A tag is the type of a node: in full, or as a handle and a name, where a directive at the
head of a document may say what the handle means.
-/

namespace MemDep.Yaml

/-- Reads the name after the mark of an anchor or a reference. -/
def name? (cs : List Char) : Option String :=
  let name := cs.takeWhile isNameChar
  let rest := cs.drop name.length
  let ended := startsBlank rest ||
    startsWith (['?', ':', ',', ']', '}', '%', '@', '\x60'].contains ·) rest
  if !name.isEmpty && ended then some (String.ofList name) else none

/-! ## Tags -/

/-- A character of a tag. -/
def isTagChar (c : Char) : Bool :=
  isNameChar c || [';', '/', '?', ':', '@', '&', '=', '+', '$', '.', '%', '!', '~', '*', '\x27', '(',
    ')'].contains c

/-- A character of a tag in full. -/
def isFullTagChar (c : Char) : Bool := isTagChar c || c = ',' || c = '[' || c = ']'

/-- How many bytes follow the first byte of a character in UTF-8. -/
def bytesAfter? (byte : Nat) : Option Nat :=
  if byte < 0x80 then some 0
  else if 0xC0 ≤ byte ∧ byte < 0xE0 then some 1
  else if 0xE0 ≤ byte ∧ byte < 0xF0 then some 2
  else if 0xF0 ≤ byte ∧ byte < 0xF8 then some 3
  else none

/-- Replaces percent signs and the two digits after them by the bytes they stand for. So many bytes
of the last character are still to come. -/
def unescape? (left : Nat) : List Char → Option (List Char)
  | [] => if left = 0 then some [] else none
  | '%' :: a :: b :: cs => do
    let byte ← natOfDigits? 16 [a, b]
    let left ←
      if left = 0 then bytesAfter? byte
      else if 0x80 ≤ byte ∧ byte < 0xC0 then some (left - 1)
      else none
    return Char.ofNat byte :: (← unescape? left cs)
  | c :: cs => if left = 0 ∧ c ≠ '%' then (unescape? 0 cs).map (c :: ·) else none

/-- A part of a tag. A byte of zero ends it. -/
def tagText? (cs : List Char) : Option String :=
  (unescape? 0 cs).map fun bytes => String.ofList (bytes.takeWhile (· ≠ '\x00'))

/-- The handle that a tag starts with after its exclamation mark. -/
def handle? (cs : List Char) : Option (List Char) :=
  let name := cs.takeWhile isNameChar
  if (cs.drop name.length).head? = some '!' then some (name ++ ['!']) else none

/-- Reads a tag after its exclamation mark. -/
def tag? (inFlow : Bool) (cs : List Char) : Option Lexeme := do
  let word := cs.takeWhile isTagChar
  let (token, length) ←
    if startsWith (· = '<') cs then do
      let full := (cs.drop 1).takeWhile isFullTagChar
      guard (!full.isEmpty && (cs.drop (full.length + 1)).head? = some '>')
      pure (.tag "" (← tagText? full), full.length + 2)
    else match handle? cs with
      | some handle => do
        let name := word.drop handle.length
        guard !name.isEmpty
        pure (.tag (String.ofList ('!' :: handle)) (← tagText? name), word.length)
      | none => do
        let name ← tagText? word
        pure (if name.isEmpty then .tag "" "!" else .tag "!" name, word.length)
  let rest := cs.drop length
  guard (startsBlank rest || (inFlow && rest.head? = some ','))
  return ⟨token, length + 1⟩

/-! ## Directives -/

/-- Nothing but blanks and a comment is left of a line. -/
def endsLine (cs : List Char) : Bool :=
  let rest := cs.dropWhile isBlank
  rest.isEmpty || startsWith (· = '#') rest

/-- Reads a number of a version. -/
def versionNumber? (cs : List Char) : Option (Nat × List Char) :=
  let digits := cs.takeWhile Char.isDigit
  if digits.length ≤ 9 then (natOfDigits? 10 digits).map (·, cs.drop digits.length) else none

/-- Reads what a directive says about the version. -/
def versionDirective? (cs : List Char) : Option Token := do
  let (major, cs) ← versionNumber? cs
  guard (cs.head? = some '.')
  let (minor, cs) ← versionNumber? (cs.drop 1)
  guard (endsLine cs)
  return .version major minor

/-- Reads what a directive says about a handle. -/
def handleDirective? (cs : List Char) : Option Token := do
  guard (cs.head? = some '!')
  let handle := '!' :: (handle? (cs.drop 1)).getD []
  let cs := cs.drop handle.length
  guard (startsWith isBlank cs)
  let cs := cs.dropWhile isBlank
  let meaning := cs.takeWhile isFullTagChar
  let cs := cs.drop meaning.length
  guard (!meaning.isEmpty && startsBlank cs && endsLine cs)
  return .handle (String.ofList handle) (← tagText? meaning)

/-- Reads a directive after its percent sign. -/
def directive? (line : List Char) : Option Token :=
  let name := line.takeWhile isNameChar
  let rest := line.drop name.length
  if !startsBlank rest then none
  else if name = ['Y', 'A', 'M', 'L'] then versionDirective? (rest.dropWhile isBlank)
  else if name = ['T', 'A', 'G'] then handleDirective? (rest.dropWhile isBlank)
  else none

end MemDep.Yaml
