import FlowCircuit.Options.Yaml.Node

/-!
# YAML documents

A document is a node, together with the nodes in it that have an anchor.  `Document.read` gives the
one document of a text; a text without any, such as one that holds only comments, has the empty one,
and a text with several is refused.
-/

set_option autoImplicit false

namespace FlowCircuit.Yaml

/-- A document that was read: its root, and the nodes that have anchors. -/
structure Document where
  root : Node
  anchored : Anchored

namespace Document

/-- The node that is meant by a node: the one that a reference goes to, and every other itself. -/
def resolve? (d : Document) : Node → Option Node
  | .reference number => d.anchored.find? number
  | node => some node

/-- The handles that directives set, and the tokens behind them.  A version may be given once, and
has to be one of two; a handle may be set once. -/
def directives? : Bool → List (String × String) → List Token →
    Option (List (String × String) × List Token)
  | versioned, handles, .directive (.version major minor) :: rest =>
    if !versioned && major = 1 && (minor = 1 || minor = 2) then
      directives? true handles rest
    else none
  | versioned, handles, .directive (.handle handle stem) :: rest =>
    if (handles.lookup handle).isSome then none
    else directives? versioned ((handle, stem) :: handles) rest
  | _, handles, rest => some (handles, rest)

/-- Whether a token cannot belong to a document that has begun. -/
def isBoundary : Token → Bool
  | .directive _ | .documentStart | .documentEnd => true
  | _ => false

/-- The node at the root of a document.  There may be nothing behind the mark of a start, and there
must be that mark behind directives. -/
def readRoot (steps : Nat) : Reader Node := do
  match ← Reader.next with
  | none => return .absent
  | some (.directive _) | some .documentStart =>
    let (handles, tokens) ← directives? false [] (← get).tokens
    modify fun r => { r with tokens, handles := handles ++ Tag.defaultHandles }
    if !(← Reader.accept .documentStart) then failure
    if (← Reader.next).all isBoundary then return .absent
    else Reader.node steps true false
  | _ => Reader.node steps true false

/-- The one document made of the tokens.  Marks of an end may follow it, but not come first. -/
def ofTokens? (tokens : List Token) : Option Document := do
  let (root, reading) ←
    (readRoot (5 * tokens.length + 5)).run ⟨tokens, Tag.defaultHandles, Anchored.none⟩
  if reading.tokens.all (· = .documentEnd) then return ⟨root, reading.anchored⟩ else none

/-- The one document of a text. -/
def read (text : String) : Option Document := (Token.scan text).bind ofTokens?

end Document

end FlowCircuit.Yaml
