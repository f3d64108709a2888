import MemDep.Digits
import MemDep.Yaml.Token

/-!
# Scalars of YAML

How scalars are read, each kind by a function from the text that starts with the scalar. Blanks and
ends of lines between words form a gap. A gap within a line is kept, and one that goes on to another
line counts as a space, or as the empty lines in it if there are some.
-/

namespace MemDep.Yaml

/-! ## Gaps -/

/-- The blanks and ends of lines since the last word, the latest first. -/
inductive Gap where
  /-- Blanks in a line. -/
  | within (blanks : List Char)
  /-- The end of the line of the word, unless it does not count, and those of the lines after it. -/
  | across (first : Option Char) (more : List Char)

namespace Gap

/-- No gap. -/
def empty : Gap := within []

/-- There is a gap. -/
def isSome : Gap → Bool
  | within blanks => !blanks.isEmpty
  | across _ _ => true

/-- The gap goes on to another line. -/
def crosses : Gap → Bool
  | within _ => false
  | across _ _ => true

/-- The gap after another blank. -/
def addBlank (c : Char) : Gap → Gap
  | within blanks => within (c :: blanks)
  | across first more => across first more

/-- The gap after another end of a line. -/
def addBreak (c : Char) : Gap → Gap
  | within _ => across (some c) []
  | across first more => across first (c :: more)

/-- What the gap counts as, the latest character first. -/
def chars : Gap → List Char
  | within blanks => blanks
  | across (some '\n') [] => [' ']
  | across (some '\n') more => more
  | across first more => more ++ first.toList

end Gap

/-! ## Plain scalars -/

/-- Reads a plain scalar, given what has been read of it. It ends before a colon or a comment;
between braces also before one of their marks, and elsewhere before a line that starts in front of
the margin. The answer tells, too, if it ends with a line. -/
def plain (inFlow : Bool) (margin column : Nat) (text : List Char) (gap : Gap) (length : Nat) :
    List Char → Option (Lexeme × Bool)
  | [] => some (⟨.scalar .plain (String.ofList text.reverse), length⟩, gap.crosses)
  | c :: cs =>
    if isBlank c then
      if gap.crosses && column < margin && c = '\t' then none
      else plain inFlow margin (column + 1) text (gap.addBlank c) (length + 1) cs
    else if isBreak c then
      plain inFlow margin 0 text (gap.addBreak c) (length + 1) cs
    else
      let ended := gap.isSome &&
        (c = '#' || (!inFlow && column < margin) || (column = 0 && startsMark (c :: cs)))
      if !ended && inFlow && c = ':' && startsWith (fun d => d = '?' || isFlowMark d) cs then
        none
      else if ended || (c = ':' && startsBlank cs) || (inFlow && isFlowMark c) then
        some (⟨.scalar .plain (String.ofList text.reverse), length⟩, gap.crosses)
      else
        plain inFlow margin (column + 1) (c :: (gap.chars ++ text)) .empty (length + 1) cs

/-! ## Quoted scalars -/

/-- The quote that leaves everything as it is. -/
def singleQuote : Char := '\x27'

/-- The quote within which there are escapes. -/
def doubleQuote : Char := '"'

/-- The character that a letter after a backslash stands for. -/
def ofEscape? : Char → Option Char
  | '0' => some '\x00'
  | 'a' => some '\x07'
  | 'b' => some '\x08'
  | 't' | '\t' => some '\t'
  | 'n' => some '\n'
  | 'v' => some '\x0b'
  | 'f' => some '\x0c'
  | 'r' => some '\r'
  | 'e' => some '\x1b'
  | ' ' => some ' '
  | '"' => some '"'
  | '/' => some '/'
  | '\\' => some '\\'
  | 'N' => some '\x85'
  | '_' => some '\xa0'
  | 'L' => some '\u2028'
  | 'P' => some '\u2029'
  | _ => none

/-- The number of digits after a letter that announces the number of a character. -/
def escapeDigits? : Char → Option Nat
  | 'x' => some 2
  | 'u' => some 4
  | 'U' => some 8
  | _ => none

/-- The character that is written after a backslash, and the number of characters it takes up. -/
def escape? : List Char → Option (Char × Nat)
  | [] => none
  | c :: cs =>
    match escapeDigits? c with
    | none => (ofEscape? c).map (·, 1)
    | some count => do
      let digits := cs.take count
      let n ← natOfDigits? 16 digits
      if digits.length = count ∧ n.isValidChar then some (Char.ofNat n, count + 1) else none

/-- Reads a scalar in quotes, given what has been read of it. -/
def quoted (quote : Char) (text : List Char) (gap : Gap) (length : Nat) :
    List Char → Option Lexeme
  | [] => none
  | c :: cs =>
    if isBlank c then
      quoted quote text (gap.addBlank c) (length + 1) cs
    else if isBreak c then
      if startsMark cs then none else quoted quote text (gap.addBreak c) (length + 1) cs
    else
      let text := gap.chars ++ text
      if c = quote then
        if quote = singleQuote ∧ cs.head? = some quote then
          quoted quote (c :: text) .empty (length + 2) (cs.drop 1)
        else
          some ⟨.scalar .quoted (String.ofList text.reverse), length + 1⟩
      else if c = '\\' ∧ quote = doubleQuote then
        if startsWith isBreak cs then
          if startsMark (cs.drop 1) then none
          else quoted quote text (.across none []) (length + 2) (cs.drop 1)
        else
          match escape? cs with
          | some (d, n) => quoted quote (d :: text) .empty (length + 1 + n) (cs.drop n)
          | none => none
      else
        quoted quote (c :: text) .empty (length + 1) cs
termination_by cs => cs.length
decreasing_by all_goals (simp; try omega)

/-! ## Block scalars -/

/-- A line of a text. -/
structure Line where
  /-- Its characters. -/
  content : List Char
  /-- Its end, if the text does not end first. -/
  ending : Option Char

namespace Line

/-- The number of characters of the line. -/
def length (l : Line) : Nat := l.content.length + l.ending.toList.length

/-- The number of spaces that the line starts with. -/
def indentation (l : Line) : Nat := (l.content.takeWhile (· = ' ')).length

/-- The line has nothing but spaces, and an end. -/
def isEmpty (l : Line) : Bool := l.content.all (· = ' ') && l.ending.isSome

/-- The first visible character of the line is a tab. -/
def startsTab (l : Line) : Bool := startsWith (· = '\t') (l.content.dropWhile (· = ' '))

/-- The lines of a text. -/
def ofChars : List Char → List Line
  | [] => [⟨[], none⟩]
  | c :: cs =>
    if isBreak c then ⟨[], some c⟩ :: ofChars cs
    else (ofChars cs).modifyHead fun l => { l with content := c :: l.content }

end Line

/-- What becomes of the empty lines at the end of a block scalar. -/
inductive Chomping where
  /-- The last line has no end either. -/
  | strip
  /-- The last line has its end. -/
  | clip
  /-- They are kept. -/
  | keep
deriving DecidableEq

/-- The head of a block scalar. -/
structure BlockHeader where
  /-- How much deeper than the margin it is indented, if that is said. -/
  indentation : Option Nat
  /-- What becomes of the empty lines at its end. -/
  chomping : Chomping

namespace BlockHeader

/-- Reads the mark for empty lines, if it is there. -/
def chompingOf : List Char → Chomping × List Char
  | '-' :: cs => (.strip, cs)
  | '+' :: cs => (.keep, cs)
  | cs => (.clip, cs)

/-- Reads the indentation, if it is there. -/
def indentationOf : List Char → Option Nat × List Char
  | c :: cs => if c.isDigit then (digitValue? c, cs) else (none, c :: cs)
  | [] => (none, [])

/-- Reads the rest of the line after the mark of a block scalar. The two parts of the head come in
any order. -/
def ofChars? (cs : List Char) : Option BlockHeader := do
  let (before, cs) := chompingOf cs
  let (indentation, cs) := indentationOf cs
  let (chomping, cs) := if before = .clip then chompingOf cs else (before, cs)
  let cs := cs.dropWhile isBlank
  guard (indentation ≠ some 0 ∧ (cs = [] ∨ cs.head? = some '#'))
  return ⟨indentation, chomping⟩

end BlockHeader

/-- The indentation of a block scalar that does not say it: that of the deepest of the empty lines
at its start and the line after them. -/
def findIndentation (margin : Nat) (lines : List Line) : Option Nat :=
  let empty := lines.takeWhile Line.isEmpty
  let next := (lines.drop empty.length).take 1
  if next.any Line.startsTab then none
  else some ((empty ++ next).foldl (fun n l => max n l.indentation) (max margin 1))

/-- What has been read of a block scalar. Characters are kept in reverse. -/
structure BlockScalar where
  /-- The text without the end of the last line. -/
  text : List Char := []
  /-- The end of the last line. -/
  lastBreak : Option Char := none
  /-- The last line starts with a blank. -/
  lastIndented : Bool := false
  /-- The empty lines after the last line. -/
  emptyLines : List Char := []
  /-- The number of characters that were read. -/
  length : Nat := 0

namespace BlockScalar

/-- The scalar with another line. Two lines are joined if none of them starts with a blank. -/
def addLine (folded : Bool) (content : List Char) (line : Line) (b : BlockScalar) : BlockScalar :=
  let indented := startsWith isBlank content
  let separator :=
    if folded && b.lastBreak = some '\n' && !b.lastIndented && !indented then
      if b.emptyLines.isEmpty then [' '] else []
    else
      b.lastBreak.toList
  { text := content.reverse ++ (b.emptyLines ++ (separator ++ b.text))
    lastBreak := line.ending
    lastIndented := indented
    emptyLines := []
    length := b.length + line.length }

/-- The text of the scalar. -/
def chars (chomping : Chomping) (b : BlockScalar) : List Char :=
  let text := if chomping = .strip then b.text else b.lastBreak.toList ++ b.text
  (if chomping = .keep then b.emptyLines ++ text else text).reverse

/-- Reads the lines of a block scalar up to one that is indented less. -/
def read (folded : Bool) (indentation : Nat) (b : BlockScalar) : List Line → Option BlockScalar
  | [] => some b
  | line :: lines =>
    let content := line.content.drop (min line.indentation indentation)
    if content.isEmpty then
      match line.ending with
      | some c =>
        read folded indentation
          { b with emptyLines := c :: b.emptyLines, length := b.length + line.length } lines
      | none => some b
    else if line.indentation < indentation then
      if line.startsTab then none else some b
    else
      read folded indentation (b.addLine folded content line) lines

end BlockScalar

/-- Reads a block scalar from behind its mark. -/
def block (folded : Bool) (margin : Nat) (cs : List Char) : Option Lexeme :=
  match Line.ofChars cs with
  | [] => none
  | first :: lines => do
    let header ← BlockHeader.ofChars? first.content
    let indentation ← match header.indentation with
      | some n => some (margin - 1 + n)
      | none => findIndentation margin lines
    let b ← BlockScalar.read folded indentation {} lines
    let text := String.ofList (b.chars header.chomping)
    return ⟨.scalar (if folded then .folded else .literal) text, first.length + b.length⟩

end MemDep.Yaml
