import MemDep.Yaml.Scalar
import MemDep.Yaml.Tag

/-!
# The layout of a text in YAML

How a text is divided into tokens. A mapping is given by its indentation, and a key by the colon
after it, so neither is known where it starts. The lexer therefore keeps the columns of the mappings
that are open, and the last place where a key may have started: when a colon is met on the same
line, the marks of the key and of a new mapping are put in at that place.

The lexer takes one character at a time. A token is read as a whole where it starts, by looking
ahead, and its other characters are then passed over; so reading ends with the text.
-/

namespace MemDep.Yaml

/-- A place where a key may have started. -/
structure Candidate where
  /-- The number of tokens before it. -/
  position : Nat
  /-- Its line. -/
  line : Nat
  /-- Its column. -/
  column : Nat
  /-- The number of characters before it. -/
  index : Nat
  /-- Nothing but a key may stand there. -/
  required : Bool

/-- The number of characters in which a key has to be followed by its colon. -/
def keyLimit : Nat := 1024

/-- The state of reading a text. -/
structure Lexer where
  /-- The line of the next character. -/
  line : Nat := 0
  /-- Its column. -/
  column : Nat := 0
  /-- The number of characters before it. -/
  index : Nat := 0
  /-- The number of characters to be passed over. -/
  skip : Nat := 0
  /-- The columns of the mappings that are open by their indentation, innermost first. -/
  indents : List Nat := []
  /-- The last place for a key in the innermost mapping. -/
  candidate : Option Candidate := none
  /-- The same for the mappings around each open brace. -/
  outer : List (Option Candidate) := []
  /-- A key may start at the next character. -/
  keyAllowed : Bool := true
  /-- The tokens so far. -/
  tokens : Array Token := #[]

namespace Lexer

/-- The lexer is between braces. -/
def inFlow (l : Lexer) : Bool := !l.outer.isEmpty

/-- The least column of what is in the innermost mapping that is given by its indentation. -/
def margin (l : Lexer) : Nat :=
  match l.indents with
  | [] => 0
  | column :: _ => column + 1

/-- Passes a character. -/
def advance (l : Lexer) (c : Char) : Lexer :=
  if isBreak c then { l with line := l.line + 1, column := 0, index := l.index + 1 }
  else { l with column := l.column + 1, index := l.index + 1 }

/-- Adds a token of one character. -/
def emit (l : Lexer) (t : Token) : Lexer := { l with tokens := l.tokens.push t }

/-- Adds a token of several characters. -/
def emitLexeme (l : Lexer) (x : Lexeme) : Lexer := { l.emit x.token with skip := x.length - 1 }

/-! ## Keys -/

/-- A key can no longer be followed by its colon. -/
def isStale (l : Lexer) (c : Candidate) : Bool := c.line < l.line || c.index + keyLimit < l.index

/-- Gives up a place for a key that is stale. -/
def refresh (l : Lexer) : Option Candidate → Option (Option Candidate)
  | none => some none
  | some c => if !l.isStale c then some (some c) else if c.required then none else some none

/-- Gives up all places for keys that are stale. -/
def refreshAll (l : Lexer) : Option Lexer := do
  let candidate ← l.refresh l.candidate
  let outer ← l.outer.mapM l.refresh
  return { l with candidate, outer }

/-- Gives up the last place for a key. -/
def dropCandidate (l : Lexer) : Option Lexer :=
  if l.candidate.any (·.required) then none else some { l with candidate := none }

/-- Notes that a key may start here. -/
def saveCandidate (l : Lexer) : Option Lexer :=
  if l.keyAllowed then do
    let required := !l.inFlow && l.margin = l.column + 1
    let candidate := ⟨l.tokens.size, l.line, l.column, l.index, required⟩
    return { ← l.dropCandidate with candidate := some candidate }
  else
    some l

/-! ## Indentation -/

/-- Opens a mapping at a column, with its mark at a position, unless there is one. -/
def openAt (l : Lexer) (column position : Nat) : Lexer :=
  if !l.inFlow && l.margin ≤ column then
    { l with
      indents := column :: l.indents
      tokens := l.tokens.insertIdxIfInBounds position .blockStart }
  else
    l

/-- Closes the mappings that are indented more than a column. -/
def closeTo (l : Lexer) (column : Nat) : Lexer :=
  if l.inFlow then l
  else
    let closed := l.indents.takeWhile (column < ·)
    { l with
      indents := l.indents.drop closed.length
      tokens := l.tokens ++ Array.replicate closed.length .blockEnd }

/-- Closes all mappings. -/
def closeAll (l : Lexer) : Lexer :=
  if l.inFlow then l
  else
    { l with
      indents := []
      tokens := l.tokens ++ Array.replicate l.indents.length .blockEnd }

/-! ## Tokens -/

/-- Reads the mark of a key. -/
def readKey (l : Lexer) : Option Lexer := do
  guard (l.inFlow || l.keyAllowed)
  let l ← (l.openAt l.column l.tokens.size).dropCandidate
  return { l with keyAllowed := !l.inFlow }.emit .key

/-- Reads a colon. Without a key before it, it belongs to one that has a mark. -/
def readColon (l : Lexer) : Option Lexer :=
  match l.candidate with
  | some c =>
    let l := { l with tokens := l.tokens.insertIdxIfInBounds c.position .key }
    let l := l.openAt c.column c.position
    some ({ l with candidate := none, keyAllowed := false }.emit .colon)
  | none => do
    guard (l.inFlow || l.keyAllowed)
    let l := l.openAt l.column l.tokens.size
    return { l with keyAllowed := !l.inFlow }.emit .colon

/-- Reads a brace that opens a mapping. -/
def readFlowStart (l : Lexer) : Option Lexer := do
  let l ← l.saveCandidate
  return { l with
    candidate := none, outer := l.candidate :: l.outer, keyAllowed := true }.emit .flowStart

/-- Reads a brace that closes a mapping. -/
def readFlowEnd (l : Lexer) : Option Lexer := do
  let l ← l.dropCandidate
  match l.outer with
  | [] => none
  | candidate :: outer => return { l with candidate, outer, keyAllowed := false }.emit .flowEnd

/-- Reads a comma. -/
def readComma (l : Lexer) : Option Lexer := do
  return { ← l.dropCandidate with keyAllowed := true }.emit .comma

/-- Reads the mark of the start or the end of a document, or what is said about a document. -/
def readDocumentLine (l : Lexer) (x : Lexeme) : Option Lexer := do
  return { ← l.closeAll.dropCandidate with keyAllowed := false }.emitLexeme x

/-- Reads a directive, together with the end of its line. -/
def readDirective (l : Lexer) (cs : List Char) : Option Lexer := do
  let line := cs.takeWhile (!isBreak ·)
  let ending := (cs.drop line.length).take 1
  l.readDocumentLine ⟨← directive? line, line.length + ending.length + 1⟩

/-- Reads a node, or what stands before it. -/
def readNode (l : Lexer) (x : Lexeme) : Option Lexer := do
  return { ← l.saveCandidate with keyAllowed := false }.emitLexeme x

/-- Reads a plain scalar. A key may follow if it ends with a line. -/
def readPlain (l : Lexer) (cs : List Char) : Option Lexer := do
  let (x, endsLine) ← plain l.inFlow l.margin l.column [] .empty 0 cs
  return { ← l.readNode x with keyAllowed := endsLine }

/-- Reads a block scalar. A key may follow. -/
def readBlock (l : Lexer) (folded : Bool) (cs : List Char) : Option Lexer := do
  let x ← block folded l.margin cs
  return { ← l.dropCandidate with keyAllowed := true }.emitLexeme { x with length := x.length + 1 }

/-- A character that stands for a mark of its own where a plain scalar may start. -/
def isIndicator (c : Char) : Bool :=
  isFlowMark c || ['-', '?', ':', '#', '&', '*', '!', '|', '>', singleQuote, doubleQuote, '%', '@',
    '\x60'].contains c

/-- Reads a token. A dash before a blank is the mark of a list and so refused. -/
def readToken (l : Lexer) (c : Char) (cs : List Char) : Option Lexer :=
  if l.column = 0 ∧ c = '%' then
    l.readDirective cs
  else if l.column = 0 ∧ startsMark (c :: cs) then
    l.readDocumentLine ⟨if c = '-' then .documentStart else .documentEnd, 3⟩
  else if c = '{' then l.readFlowStart
  else if c = '}' then l.readFlowEnd
  else if c = ',' then l.readComma
  else if c = '?' ∧ (l.inFlow ∨ startsBlank cs) then l.readKey
  else if c = ':' ∧ (l.inFlow ∨ startsBlank cs) then l.readColon
  else if c = '*' then (name? cs).bind fun name => l.readNode ⟨.reference name, name.length + 1⟩
  else if c = '&' then (name? cs).bind fun name => l.readNode ⟨.anchor name, name.length + 1⟩
  else if c = '!' then (tag? l.inFlow cs).bind l.readNode
  else if (c = '|' ∨ c = '>') ∧ !l.inFlow then l.readBlock (c = '>') cs
  else if c = singleQuote ∨ c = doubleQuote then (quoted c [] .empty 1 cs).bind l.readNode
  else if (c = '-' ∧ !startsBlank cs) ∨ c = '?' ∨ c = ':' ∨ (!isIndicator c ∧ !isBlank c) then
    l.readPlain (c :: cs)
  else
    none

/-- Reads a character. A tab counts as a blank where no key may start. -/
def feed (l : Lexer) (c : Char) (cs : List Char) : Option Lexer :=
  match l.skip with
  | n + 1 => some { l with skip := n }
  | 0 =>
    if l.column = 0 ∧ c = '\uFEFF' then some l
    else if c = ' ' ∨ (c = '\t' ∧ (l.inFlow ∨ !l.keyAllowed)) then some l
    else if c = '#' then some { l with skip := (cs.takeWhile (!isBreak ·)).length }
    else if isBreak c then some { l with keyAllowed := l.keyAllowed || !l.inFlow }
    else l.refreshAll.bind fun l => (l.closeTo l.column).readToken c cs

/-- The tokens of the text, if it ends here. -/
def finish (l : Lexer) : Option (List Token) := do
  return (← (← l.refreshAll).dropCandidate).closeAll.tokens.toList

/-- Reads the rest of a text. -/
def read (l : Lexer) : List Char → Option (List Token)
  | [] => l.finish
  | c :: cs => (l.feed c cs).bind fun l => (l.advance c).read cs

end Lexer

/-- The tokens of a text. -/
def tokens? (s : String) : Option (List Token) :=
  if s.toList.all isPrintable then ({} : Lexer).read (unifyBreaks s.toList) else none

end MemDep.Yaml
