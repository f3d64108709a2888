import MemDep.Digits
import MemDep.Json.Value

/-!
# Reading JSON

A reader is fed a text character by character. It has two layers. The lexical state collects the
characters of a word, a number or a text in quotes; what is complete is handed on as a token. The
syntactic state holds the lists and objects that are still open, innermost first, and what may come
next. A text is accepted if it holds exactly one value, with blanks around the tokens.

Reading is one pass over the characters and so ends with them.
-/

namespace MemDep.Json

/-! ## Open lists and objects -/

/-- A list or an object that is not closed yet, the latest item first. -/
inductive Frame where
  /-- A list. -/
  | arr (items : List Json)
  /-- An object. -/
  | obj (fields : List (String × Json))
  /-- An object in which a name has been read and its value has not. -/
  | field (fields : List (String × Json)) (name : String)

/-- What may come next. -/
inductive Expected where
  /-- A value. -/
  | value
  /-- A value, or the end of a list that has no items. -/
  | valueOrEnd
  /-- A name. -/
  | name
  /-- A name, or the end of an object that has no fields. -/
  | nameOrEnd
  /-- The colon after a name. -/
  | colon
  /-- A comma, or the end of a list or object. -/
  | commaOrEnd
deriving DecidableEq

/-- The state of reading tokens. -/
inductive Syntactic where
  /-- Within the value. -/
  | within (stack : List Frame) (next : Expected)
  /-- After the value. -/
  | done (value : Json)
  /-- The text is no value. -/
  | failed

/-- A unit of the text. -/
inductive Token where
  /-- One of the marks that structure a value. -/
  | mark (c : Char)
  /-- A value without parts. -/
  | atom (value : Json)

namespace Syntactic

/-- The state after a complete value. -/
def put (value : Json) : (stack : List Frame) → Syntactic
  | [] => done value
  | .arr items :: stack => within (.arr (value :: items) :: stack) .commaOrEnd
  | .field fields name :: stack => within (.obj ((name, value) :: fields) :: stack) .commaOrEnd
  | .obj _ :: _ => failed

/-- The state after the innermost list or object is closed by a mark. -/
def close : (c : Char) → (stack : List Frame) → Syntactic
  | ']', .arr items :: stack => put (.arr items.reverse) stack
  | '}', .obj fields :: stack => put (.obj fields.reverse) stack
  | _, _ => failed

/-- The state after a token that starts a value. -/
def start (stack : List Frame) : Token → Syntactic
  | .atom value => put value stack
  | .mark '[' => within (.arr [] :: stack) .valueOrEnd
  | .mark '{' => within (.obj [] :: stack) .nameOrEnd
  | .mark _ => failed

/-- The state after the name of a field. -/
def nameField : (stack : List Frame) → Token → Syntactic
  | .obj fields :: stack, .atom (.str name) => within (.field fields name :: stack) .colon
  | _, _ => failed

/-- The state after a token. -/
def feed : Syntactic → Token → Syntactic
  | within stack .value, token => start stack token
  | within stack .valueOrEnd, .mark ']' => close ']' stack
  | within stack .valueOrEnd, token => start stack token
  | within stack .name, token => nameField stack token
  | within stack .nameOrEnd, .mark '}' => close '}' stack
  | within stack .nameOrEnd, token => nameField stack token
  | within stack .colon, .mark ':' => within stack .value
  | within (.arr items :: stack) .commaOrEnd, .mark ',' => within (.arr items :: stack) .value
  | within (.obj fields :: stack) .commaOrEnd, .mark ',' => within (.obj fields :: stack) .name
  | within stack .commaOrEnd, .mark c => close c stack
  | _, _ => failed

end Syntactic

/-! ## Characters -/

/-- The state of reading characters. Collected characters are kept in reverse. -/
inductive Lexical where
  /-- Between tokens. -/
  | between
  /-- In a word or a number. -/
  | literal (chars : List Char)
  /-- In a text in quotes. -/
  | quoted (chars : List Char)
  /-- After a backslash. -/
  | escaped (chars : List Char)
  /-- In a character that is given by its number in UTF-16, with so many digits to come; before it
  there may have been the first half of a pair. -/
  | numbered (chars : List Char) (first : Option Nat) (left value : Nat)
  /-- After the first half of a pair, where a backslash has to come. -/
  | halfway (chars : List Char) (first : Nat)
  /-- After the first half of a pair and a backslash. -/
  | halfwayEscaped (chars : List Char) (first : Nat)
deriving DecidableEq

/-- A natural number in decimal digits, without needless zeros. -/
def isNatLiteral (cs : List Char) : Bool :=
  cs.all Char.isDigit && !cs.isEmpty && (cs.head? != some '0' || cs.length = 1)

/-- An exponent, or nothing. -/
def isExponent : List Char → Bool
  | [] => true
  | e :: cs =>
    (e = 'e' || e = 'E') &&
      (let digits := match cs with
        | '+' :: cs | '-' :: cs => cs
        | cs => cs
      !digits.isEmpty && digits.all Char.isDigit)

/-- A decimal fraction or nothing, and an exponent or nothing. -/
def isFractionAndExponent : List Char → Bool
  | '.' :: cs =>
    let digits := cs.takeWhile Char.isDigit
    !digits.isEmpty && isExponent (cs.dropWhile Char.isDigit)
  | cs => isExponent cs

/-- A number. -/
def isNumberLiteral (cs : List Char) : Bool :=
  let cs := match cs with
    | '-' :: cs => cs
    | cs => cs
  isNatLiteral (cs.takeWhile Char.isDigit) && isFractionAndExponent (cs.dropWhile Char.isDigit)

/-- The value of a word or a number. -/
def ofLiteral? (cs : List Char) : Option Json :=
  if cs = ['n', 'u', 'l', 'l'] then some .null
  else if cs = ['t', 'r', 'u', 'e'] then some (.bool true)
  else if cs = ['f', 'a', 'l', 's', 'e'] then some (.bool false)
  else if isNatLiteral cs then (natOfDigits? 10 cs).map .nat
  else if isNumberLiteral cs then some (.number (String.ofList cs))
  else none

/-- The character that a letter after a backslash stands for. -/
def ofEscape? : Char → Option Char
  | '"' => some '"'
  | '\\' => some '\\'
  | '/' => some '/'
  | 'b' => some '\x08'
  | 'f' => some '\x0c'
  | 'n' => some '\n'
  | 'r' => some '\r'
  | 't' => some '\t'
  | _ => none

/-- A unit of UTF-16 that is the first half of a pair. -/
def isFirstHalf (n : Nat) : Bool := 0xD800 ≤ n && n < 0xDC00

/-- A unit of UTF-16 that is the second half of a pair. -/
def isSecondHalf (n : Nat) : Bool := 0xDC00 ≤ n && n < 0xE000

/-- A blank between tokens. -/
def isBlank (c : Char) : Bool := c = ' ' || c = '\n' || c = '\r' || c = '\t'

/-- One of the marks that structure a value. -/
def isMark (c : Char) : Bool :=
  c = '[' || c = ']' || c = '{' || c = '}' || c = ',' || c = ':'

/-- A reader at some point of a text. -/
structure Reader where
  /-- What the last characters are part of. -/
  lexical : Lexical
  /-- What the tokens before them are part of. -/
  syntactic : Syntactic

namespace Reader

/-- The reader at the start of a text. -/
def start : Reader := ⟨.between, .within [] .value⟩

/-- The reader of a text that is no value. -/
def fail : Reader := ⟨.between, .failed⟩

/-- Reads a character between tokens. -/
def feedBetween (s : Syntactic) (c : Char) : Reader :=
  if isBlank c then ⟨.between, s⟩
  else if isMark c then ⟨.between, s.feed (.mark c)⟩
  else if c = '"' then ⟨.quoted [], s⟩
  else ⟨.literal [c], s⟩

/-- Ends a word or a number. -/
def endLiteral (s : Syntactic) (chars : List Char) : Syntactic :=
  match ofLiteral? chars.reverse with
  | some value => s.feed (.atom value)
  | none => .failed

/-- Reads the last digit of a numbered character. -/
def endNumbered (s : Syntactic) (chars : List Char) (first : Option Nat) (n : Nat) : Reader :=
  match first with
  | none =>
    if isFirstHalf n then ⟨.halfway chars n, s⟩
    else if isSecondHalf n then fail
    else ⟨.quoted (Char.ofNat n :: chars), s⟩
  | some m =>
    if isSecondHalf n then
      ⟨.quoted (Char.ofNat (0x10000 + (m - 0xD800) * 0x400 + (n - 0xDC00)) :: chars), s⟩
    else
      fail

/-- Reads a character. -/
def feed (r : Reader) (c : Char) : Reader :=
  match r.lexical with
  | .between => feedBetween r.syntactic c
  | .literal chars =>
    if isBlank c || isMark c || c = '"' then feedBetween (endLiteral r.syntactic chars) c
    else ⟨.literal (c :: chars), r.syntactic⟩
  | .quoted chars =>
    if c = '"' then ⟨.between, r.syntactic.feed (.atom (.str (String.ofList chars.reverse)))⟩
    else if c = '\\' then ⟨.escaped chars, r.syntactic⟩
    else if c.toNat < 32 then fail
    else ⟨.quoted (c :: chars), r.syntactic⟩
  | .escaped chars =>
    if c = 'u' then ⟨.numbered chars none 4 0, r.syntactic⟩
    else match ofEscape? c with
      | some d => ⟨.quoted (d :: chars), r.syntactic⟩
      | none => fail
  | .numbered chars first left value =>
    match digitOf? 16 c with
    | none => fail
    | some d =>
      if left = 1 then endNumbered r.syntactic chars first (16 * value + d)
      else ⟨.numbered chars first (left - 1) (16 * value + d), r.syntactic⟩
  | .halfway chars first =>
    if c = '\\' then ⟨.halfwayEscaped chars first, r.syntactic⟩ else fail
  | .halfwayEscaped chars first =>
    if c = 'u' then ⟨.numbered chars (some first) 4 0, r.syntactic⟩ else fail

/-- The value that was read, if the text ends here. -/
def finish (r : Reader) : Option Json :=
  let s := match r.lexical with
    | .between => r.syntactic
    | .literal chars => endLiteral r.syntactic chars
    | _ => .failed
  match s with
  | .done value => some value
  | _ => none

end Reader

/-- The value that a text is written as. -/
def parse? (s : String) : Option Json := (s.toList.foldl Reader.feed Reader.start).finish

end MemDep.Json
