import FlowCircuit.Options.Yaml.Token

/-!
# Nodes of a YAML document

A node is a scalar, a sequence, a mapping, or a reference to a node with an anchor.  What is left
out, such as a value after a colon with nothing behind it, is the empty plain scalar.

Anchors are numbered: one that is set gets as its number how many different names were set before.
A reference goes by the number that its name has at that place.  Once a document has been read to
its end, the number means the last node that got it (`Anchored.find?`).
-/

set_option autoImplicit false

namespace FlowCircuit.Yaml

/-- What a document is made of. -/
inductive Node where
  | scalar (text : String) (style : Style) (tag : Option String)
  | sequence (items : List Node)
  /-- Keys with their values, in order. -/
  | mapping (entries : List (Node × Node))
  /-- The node whose anchor has the number. -/
  | reference (number : Nat)

/-- What stands where nothing is written. -/
def Node.absent : Node := .scalar "" .plain none

/-- The nodes that have an anchor. -/
structure Anchored where
  /-- Names with their numbers, each name once. -/
  numbers : List (String × Nat)
  /-- Numbers with their nodes, the latest first.  A node comes where it begins, and is missing
  until it ends. -/
  nodes : List (Nat × Option Node)

namespace Anchored

/-- No node has an anchor. -/
def none : Anchored := ⟨[], []⟩

/-- Sets an anchor for the node that begins here. -/
def add (a : Anchored) (name : String) : Anchored :=
  let number := a.numbers.length
  ⟨(name, number) :: a.numbers.filter fun entry => entry.1 ≠ name, (number, Option.none) :: a.nodes⟩

/-- Ends the node that was the `place`th to begin. -/
def finish (a : Anchored) (place : Nat) (node : Node) : Anchored :=
  { a with
    nodes := a.nodes.modify (a.nodes.length - 1 - place) fun (number, _) => (number, some node) }

/-- The node that a number means. -/
def find? (a : Anchored) (number : Nat) : Option Node := (a.nodes.lookup number).join

end Anchored

/-- How far a document's tokens have been read. -/
structure Reading where
  tokens : List Token
  /-- What handles of tags stand for. -/
  handles : List (String × String)
  anchored : Anchored

/-- What reads off the tokens of a document. -/
abbrev Reader := StateT Reading Option

namespace Reader

/-- The token that comes next. -/
def next : Reader (Option Token) := return (← get).tokens.head?

/-- Steps over a token. -/
def advance : Reader Unit := modify fun r => { r with tokens := r.tokens.tail }

/-- Steps over a token if it is the given one, and says whether it was. -/
def accept (t : Token) : Reader Bool := do
  if (← next) = some t then
    advance
    return true
  else return false

/-- Whether one of the tokens comes next, or none at all. -/
def nextIn (tokens : List Token) : Reader Bool := return (← next).all tokens.contains

/-- Steps over an anchor. -/
def anchor : Reader (Option String) := do
  match ← next with
  | some (.anchor name) =>
    advance
    return some name
  | _ => return none

/-- Steps over a tag. -/
def tag : Reader (Option Tag) := do
  match ← next with
  | some (.tag tag) =>
    advance
    return some tag
  | _ => return none

/-- Steps over an anchor and a tag, in either order.  Both may be left out. -/
def properties : Reader (Option String × Option String) := do
  let early ← anchor
  let tag ← tag
  let late ← if early.isNone && tag.isSome then anchor else pure none
  let handles := (← get).handles
  return (early.or late, ← tag.mapM fun tag => tag.resolve? handles)

/-- What `read` gives, set under the anchor if there is one. -/
def anchoredAs (name : Option String) (read : Reader Node) : Reader Node := do
  match name with
  | none => read
  | some name =>
    let place := (← get).anchored.nodes.length
    modify fun r => { r with anchored := r.anchored.add name }
    let node ← read
    modify fun r => { r with anchored := r.anchored.finish place node }
    return node

/-- The number that the name of an anchor has here. -/
def number (name : String) : Reader Nat := do
  (← get).anchored.numbers.lookup name

mutual

/-- Reads a node.  `block` says whether block collections may begin here, and `compact` whether a
sequence may begin without standing further right.  The first argument bounds the depth. -/
def node : Nat → Bool → Bool → Reader Node
  | 0, _, _ => failure
  | steps + 1, block, compact => do
    match ← next with
    | some (.reference name) =>
      advance
      return .reference (← number name)
    | _ =>
      let (name, tag) ← properties
      anchoredAs name (content steps block compact tag (name.isSome || tag.isSome))

/-- Reads what stands behind the anchor and the tag of a node; nothing may if there is one of
them. -/
def content : Nat → Bool → Bool → Option String → Bool → Reader Node
  | 0, _, _, _, _ => failure
  | steps + 1, block, compact, tag, optional => do
    match ← next with
    | some (.scalar text style) =>
      advance
      return .scalar text style tag
    | some .flowSequenceStart =>
      advance
      return .sequence (← flowItems steps true)
    | some .flowMappingStart =>
      advance
      return .mapping (← flowEntries steps true)
    | t =>
      if block && t = some .blockSequenceStart then
        advance
        return .sequence (← blockItems steps)
      else if block && t = some .blockMappingStart then
        advance
        return .mapping (← blockEntries steps)
      else if compact && t = some .blockEntry then
        return .sequence (← compactItems steps)
      else if optional then return .scalar "" .plain tag
      else failure

/-- A node, or nothing when one of `ends` follows. -/
def optionalNode : Nat → Bool → Bool → List Token → Reader Node
  | 0, _, _, _ => failure
  | steps + 1, block, compact, ends => do
    if ← nextIn ends then return .absent else node steps block compact

/-- Items of a block sequence, up to its end. -/
def blockItems : Nat → Reader (List Node)
  | 0 => failure
  | steps + 1 => do
    if ← accept .blockEnd then return []
    else if ← accept .blockEntry then
      let item ← optionalNode steps true false [.blockEntry, .blockEnd]
      return item :: (← blockItems steps)
    else failure

/-- Items of a sequence that stands no further right than its key, as long as there are some. -/
def compactItems : Nat → Reader (List Node)
  | 0 => failure
  | steps + 1 => do
    if ← accept .blockEntry then
      let item ← optionalNode steps true false [.blockEntry, .key, .value, .blockEnd]
      return item :: (← compactItems steps)
    else return []

/-- Entries of a block mapping, up to its end. -/
def blockEntries : Nat → Reader (List (Node × Node))
  | 0 => failure
  | steps + 1 => do
    if ← accept .blockEnd then return []
    else if ← accept .key then
      let entry ← entry steps true [.key, .value, .blockEnd] [.key, .value, .blockEnd]
      return entry :: (← blockEntries steps)
    else failure

/-- A key, which one of `keyEnds` shows to be left out, and its value, which one of `valueEnds`
does. -/
def entry : Nat → Bool → List Token → List Token → Reader (Node × Node)
  | 0, _, _, _ => failure
  | steps + 1, block, keyEnds, valueEnds => do
    let key ← optionalNode steps block block keyEnds
    if ← accept .value then return (key, ← optionalNode steps block block valueEnds)
    else return (key, .absent)

/-- Items of a flow sequence, up to its closing bracket.  A comma stands before all but the first,
and may stand before the bracket.  An item may be a mapping with a single entry. -/
def flowItems : Nat → Bool → Reader (List Node)
  | 0, _ => failure
  | steps + 1, first => do
    if ← accept .flowSequenceEnd then return []
    if !first then
      if !(← accept .flowEntry) then failure
      if ← accept .flowSequenceEnd then return []
    let item ←
      if ← accept .key then
        let entry ← entry steps false [.value, .flowEntry, .flowSequenceEnd]
          [.flowEntry, .flowSequenceEnd]
        pure (.mapping [entry])
      else node steps false false
    return item :: (← flowItems steps false)

/-- Entries of a flow mapping, up to its closing bracket.  An entry may be a key without a colon. -/
def flowEntries : Nat → Bool → Reader (List (Node × Node))
  | 0, _ => failure
  | steps + 1, first => do
    if ← accept .flowMappingEnd then return []
    if !first then
      if !(← accept .flowEntry) then failure
      if ← accept .flowMappingEnd then return []
    let entry ←
      if ← accept .key then
        entry steps false [.value, .flowEntry, .flowMappingEnd] [.flowEntry, .flowMappingEnd]
      else
        pure (← node steps false false, .absent)
    return entry :: (← flowEntries steps false)

end

end Reader

end FlowCircuit.Yaml
