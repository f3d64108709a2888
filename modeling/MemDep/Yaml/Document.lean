import MemDep.Yaml.Layout

/-!
# Documents in YAML

A document has one node: a scalar, or a mapping of nodes to nodes. It is read from the tokens of the
text one by one. The reader keeps the mappings that are open, innermost first, and what may come
next in the innermost one. A node that is left out is an empty scalar.

An anchor names a node. Each name has a slot: when a node gets a name, the slot of that name becomes
the number of different names before it. A name that is used for the first time so gets a slot of
its own, and one that is used again leaves its slot for the next one, which it may have to share.
A reference to a name stands for the last node in the document that got the slot which the name has
where the reference is.
-/

namespace MemDep.Yaml

/-- A node of a document. -/
inductive Node where
  /-- A text, and its type if that is said. -/
  | scalar (tag : Option String) (style : Style) (text : String)
  /-- A mapping, in the order in which it is written. -/
  | mapping (entries : List (Node × Node))
  /-- The named node of a slot. -/
  | reference (slot : Nat)

/-- What stands for a node that is left out. -/
def Node.empty : Node := .scalar none .plain ""

/-- A document. -/
structure Document where
  /-- Its node. -/
  node : Node
  /-- The named nodes with their slots, in the order in which they start. -/
  named : Array (Nat × Node)

/-- The node that a node stands for. No reference has a name, so none stands for another one. -/
def Document.resolve (d : Document) : Node → Node
  | .reference slot => ((d.named.findRev? (·.1 = slot)).map (·.2)).getD .empty
  | n => n

/-- What is said about a node before it. -/
structure Properties where
  /-- Its name. -/
  anchor : Option String := none
  /-- Its type. -/
  tag : Option String := none

/-- Nothing is said about a node. -/
def Properties.isEmpty (p : Properties) : Bool := p.anchor.isNone && p.tag.isNone

/-- What a node is going to be. -/
inductive Role where
  /-- A key, which may have a value. -/
  | key
  /-- A key without a value. -/
  | loneKey
  /-- The value of a key. -/
  | value (key : Node)

/-- A mapping that is still open. -/
structure Frame where
  /-- It is written in braces. -/
  inFlow : Bool
  /-- Its place among the named nodes, if it has a name. -/
  place : Option Nat
  /-- Its complete entries, the latest first. -/
  entries : List (Node × Node) := []
  /-- What the next node in it is. -/
  role : Role := .key

/-- What may come next. -/
inductive Expected where
  /-- A node of which this much has been said. -/
  | node (p : Properties)
  /-- The colon between a key and its value. -/
  | colon
  /-- An entry, or the end of the mapping. -/
  | entry
  /-- A comma, or the end of the mapping. -/
  | comma

/-- How much of a document has been read. -/
inductive Progress where
  /-- None of it, or only directives. -/
  | before (directives : Bool)
  /-- A part of the node. -/
  | within (stack : List Frame) (next : Expected)
  /-- The node. -/
  | after (node : Node)

/-- The state of reading tokens. -/
structure Reader where
  /-- How much of the document has been read. -/
  progress : Progress := .before false
  /-- A directive has said the version. -/
  hasVersion : Bool := false
  /-- The meanings of handles, the latest first. -/
  handles : List (String × String) := []
  /-- The names and their slots, each name once. -/
  slots : List (String × Nat) := []
  /-- The named nodes with their slots. A mapping that is open has no entries yet. -/
  named : Array (Nat × Node) := #[]

namespace Reader

/-! ## Nodes -/

/-- Goes on to what comes next in some open mappings. -/
def goOn (r : Reader) (stack : List Frame) (next : Expected) : Reader :=
  { r with progress := .within stack next }

/-- Gives a node its name. -/
def define (r : Reader) (anchor : Option String) (node : Node) : Reader :=
  match anchor with
  | none => r
  | some name =>
    let slot := r.slots.length
    { r with
      slots := (name, slot) :: r.slots.filter (·.1 ≠ name)
      named := r.named.push (slot, node) }

/-- Adds a complete node to the innermost open mapping. -/
def put (r : Reader) (node : Node) : (stack : List Frame) → Reader
  | [] => { r with progress := .after node }
  | f :: stack =>
    let next : Expected := if f.inFlow then .comma else .entry
    match f.role with
    | .key => r.goOn ({ f with role := .value node } :: stack) .colon
    | .loneKey =>
      r.goOn ({ f with entries := (node, .empty) :: f.entries, role := .key } :: stack) next
    | .value key =>
      r.goOn ({ f with entries := (key, node) :: f.entries, role := .key } :: stack) next

/-- Opens a mapping. -/
def openMapping (r : Reader) (inFlow : Bool) (anchor : Option String) (stack : List Frame) :
    Reader :=
  let place := anchor.map fun _ => r.named.size
  (r.define anchor (.mapping [])).goOn ({ inFlow, place } :: stack) .entry

/-- Closes the innermost open mapping. -/
def closeMapping (r : Reader) (f : Frame) (stack : List Frame) : Reader :=
  let node := .mapping f.entries.reverse
  match f.place with
  | none => r.put node stack
  | some place =>
    { r with named := r.named.modify place fun (slot, _) => (slot, node) }.put node stack

/-- The tag that a handle and a name stand for. -/
def tag? (r : Reader) (handle name : String) : Option String :=
  if handle = "" then some name
  else match r.handles.lookup handle with
    | some meaning => some (meaning ++ name)
    | none =>
      if handle = "!" then some ("!" ++ name)
      else if handle = "!!" then some ("tag:yaml.org,2002:" ++ name)
      else none

/-! ## Tokens -/

/-- Reads a token where an entry may start or a mapping may end. -/
def feedEntry (r : Reader) (f : Frame) (stack : List Frame) (next : Expected) :
    Token → Option Reader
  | .blockEnd => if f.inFlow then none else some (r.closeMapping f stack)
  | .flowEnd => if f.inFlow then some (r.closeMapping f stack) else none
  | .comma =>
    match next with
    | .comma => some (r.goOn (f :: stack) .entry)
    | _ => none
  | .key =>
    match next with
    | .entry => some (r.goOn (f :: stack) (.node {}))
    | _ => none
  | _ => none

/-- Reads a token after a node. -/
def feedMark (r : Reader) (t : Token) : Option Reader :=
  match r.progress with
  | .after _ => if t = .documentEnd then some r else none
  | .within (f :: stack) .colon =>
    match t with
    | .colon => some (r.goOn (f :: stack) (.node {}))
    | t =>
      match (r.put .empty (f :: stack)).progress with
      | .within (f :: stack) next => r.feedEntry f stack next t
      | _ => none
  | .within (f :: stack) next => r.feedEntry f stack next t
  | _ => none

/-- Reads a token where a node may start. If none does, it is left out. -/
def feedNode (r : Reader) (stack : List Frame) (p : Properties) (t : Token) : Option Reader :=
  let complete (node : Node) : Reader := (r.define p.anchor node).put node stack
  let leftOut : Option Reader := (complete (.scalar p.tag .plain "")).feedMark t
  match t with
  | .anchor name =>
    if p.anchor.isNone then some (r.goOn stack (.node { p with anchor := some name })) else leftOut
  | .tag handle name =>
    if p.tag.isNone then do
      let tag ← r.tag? handle name
      return r.goOn stack (.node { p with tag := some tag })
    else
      leftOut
  | .reference name =>
    if p.isEmpty then do
      let slot ← r.slots.lookup name
      return r.put (.reference slot) stack
    else
      leftOut
  | .scalar style text => some (complete (.scalar p.tag style text))
  | .blockStart => some (r.openMapping false p.anchor stack)
  | .flowStart => some (r.openMapping true p.anchor stack)
  | _ => leftOut

/-- A token that a node starts with. -/
def startsNode : Token → Bool
  | .anchor _ | .tag .. | .reference _ | .scalar .. | .blockStart | .flowStart => true
  | _ => false

/-- Reads a token before the document. -/
def feedBefore (r : Reader) (directives : Bool) (t : Token) : Option Reader :=
  match t with
  | .version major minor =>
    if !r.hasVersion ∧ major = 1 ∧ (minor = 1 ∨ minor = 2) then
      some { r with hasVersion := true, progress := .before true }
    else
      none
  | .handle name meaning =>
    if (r.handles.lookup name).isNone then
      some { r with handles := (name, meaning) :: r.handles, progress := .before true }
    else
      none
  | .documentStart => some (r.goOn [] (.node {}))
  | t => if !directives && startsNode t then r.feedNode [] {} t else none

/-- Reads a token. -/
def feed (r : Reader) (t : Token) : Option Reader :=
  match r.progress with
  | .before directives => r.feedBefore directives t
  | .within stack (.node p) => r.feedNode stack p t
  | .within (f :: stack) .entry =>
    if f.inFlow && startsNode t then r.feedNode ({ f with role := .loneKey } :: stack) {} t
    else r.feedMark t
  | _ => r.feedMark t

/-- The document, if the text ends here. One without a node has an empty scalar. -/
def finish (r : Reader) : Option Document :=
  match r.progress with
  | .before directives => if directives then none else some ⟨.empty, r.named⟩
  | .within [] (.node p) =>
    let node := .scalar p.tag .plain ""
    some ⟨node, (r.define p.anchor node).named⟩
  | .within _ _ => none
  | .after node => some ⟨node, r.named⟩

end Reader

/-- The document that a text is. -/
def Document.parse? (s : String) : Option Document :=
  (tokens? s).bind fun tokens => (tokens.foldlM Reader.feed {}).bind Reader.finish

end MemDep.Yaml
