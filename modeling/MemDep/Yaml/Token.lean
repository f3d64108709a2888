/-!
# Tokens of YAML

The units of a document in YAML. Some of them stand for what only the layout of the text shows: a
mapping that is given by its indentation is put between `blockStart` and `blockEnd`, and `key` stands
in front of a node that a colon turns into a key.

There are no tokens for lists: a text that has one is refused.
-/

namespace MemDep.Yaml

/-- How a scalar is written. -/
inductive Style where
  /-- Without a mark. -/
  | plain
  /-- In quotes of either kind. -/
  | quoted
  /-- As indented lines that are kept. -/
  | literal
  /-- As indented lines that are joined. -/
  | folded
deriving DecidableEq, Repr

/-- A unit of a document. -/
inductive Token where
  /-- The version of YAML that a document is in. -/
  | version (major minor : Nat)
  /-- The meaning of a handle in the tags of a document. -/
  | handle (name meaning : String)
  /-- The line that starts a document. -/
  | documentStart
  /-- The line that ends a document. -/
  | documentEnd
  /-- The start of a mapping that is given by its indentation. -/
  | blockStart
  /-- The end of a mapping that is given by its indentation. -/
  | blockEnd
  /-- The brace that opens a mapping. -/
  | flowStart
  /-- The brace that closes a mapping. -/
  | flowEnd
  /-- The comma after an entry of a mapping in braces. -/
  | comma
  /-- The mark of a key. -/
  | key
  /-- The colon before a value. -/
  | colon
  /-- A name for the node that follows. -/
  | anchor (name : String)
  /-- A node that has been given a name. -/
  | reference (name : String)
  /-- The type of the node that follows. -/
  | tag (handle name : String)
  /-- A node without parts. -/
  | scalar (style : Style) (text : String)
deriving DecidableEq, Repr

/-- What was read at the start of a text. -/
structure Lexeme where
  /-- What it is. -/
  token : Token
  /-- The number of characters that it takes up. -/
  length : Nat

/-! ## Characters -/

/-- The end of a line, in a text whose lines all end with one character. -/
def isBreak (c : Char) : Bool := c = '\n' || c = '\u2028' || c = '\u2029'

/-- A blank within a line. -/
def isBlank (c : Char) : Bool := c = ' ' || c = '\t'

/-- There is a blank, or the end of a line or of the text. -/
def startsBlank : List Char → Bool
  | [] => true
  | c :: _ => isBlank c || isBreak c

/-- There is a character of this kind. -/
def startsWith (p : Char → Bool) : List Char → Bool
  | [] => false
  | c :: _ => p c

/-- There is the mark of the start or the end of a document. It has to be the first on its line. -/
def startsMark : List Char → Bool
  | '-' :: '-' :: '-' :: cs => startsBlank cs
  | '.' :: '.' :: '.' :: cs => startsBlank cs
  | _ => false

/-- A character of the marks of a mapping in braces, or of a list in brackets. -/
def isFlowMark (c : Char) : Bool := c = ',' || c = '[' || c = ']' || c = '{' || c = '}'

/-- A character of a name. -/
def isNameChar (c : Char) : Bool := c.isAlphanum || c = '_' || c = '-'

/-- A character that may stand in a text. -/
def isPrintable (c : Char) : Bool :=
  c = '\t' || c = '\n' || c = '\r' || c = '\x85' || (' ' ≤ c && c ≤ '~') ||
    ('\xa0' ≤ c && c.toNat ≠ 0xFFFE && c.toNat ≠ 0xFFFF)

/-- A text with one character at the end of each line. A paragraph and a line have separators of
their own, which are kept. -/
def unifyBreaks : List Char → List Char
  | [] => []
  | '\r' :: '\n' :: cs => '\n' :: unifyBreaks cs
  | c :: cs => (if c = '\r' || c = '\x85' then '\n' else c) :: unifyBreaks cs

end MemDep.Yaml
