import FlowCircuit.Options.Yaml.Tag

/-!
# Tokens of a YAML document

A document is cut into tokens: scalars, what stands before nodes, the marks of flow collections, and
marks that say where block collections begin and end.  The latter are not written but follow from
indentation: a collection begins at the first entry that stands further right than the collection
around it, and ends before the first token that stands further left.

A key of a mapping shows itself only by the colon behind it, so every token that may turn out to be
a key is remembered (`Candidate`) until the line ends or has become too long; when the colon comes,
the mark of a key is put before it.
-/

set_option autoImplicit false

namespace FlowCircuit.Yaml

/-- What the scanner hands to the reader of nodes. -/
inductive Token where
  | directive (directive : Directive)
  | documentStart
  | documentEnd
  | blockSequenceStart
  | blockMappingStart
  | blockEnd
  | flowSequenceStart
  | flowSequenceEnd
  | flowMappingStart
  | flowMappingEnd
  | blockEntry
  | flowEntry
  | key
  | value
  | anchor (name : String)
  /-- Stands for the node whose anchor has the name. -/
  | reference (name : String)
  | tag (tag : Tag)
  | scalar (text : String) (style : Style)
deriving DecidableEq

/-- A token that may turn out to be a key. -/
structure Candidate where
  /-- Its place among the tokens. -/
  index : Nat
  line : Nat
  column : Nat
  /-- Whether it must be a key, because it stands where an entry of a block mapping does. -/
  required : Bool

/-- How far a document has been cut. -/
structure Scan where
  cursor : Cursor
  tokens : List Token
  /-- Column of the innermost block collection; `-1` outside of all. -/
  indent : Int
  /-- Columns of the block collections around it. -/
  outer : List Int
  /-- Candidates of the flow collections around, the innermost first, and last that of the block. -/
  candidates : List (Option Candidate)
  /-- Whether a key may begin here. -/
  keyAllowed : Bool

namespace Scan

/-- The scanner before the first character. -/
def start (chars : List Char) : Scan := ⟨⟨chars, 0, 0⟩, [], -1, [], [none], true⟩

/-- Whether the place is inside brackets. -/
def inFlow (s : Scan) : Bool := 1 < s.candidates.length

/-- One token more. -/
def add (s : Scan) (t : Token) : Scan := { s with tokens := s.tokens ++ [t] }

/-- A token in front of others: a key is known to be one only after it was scanned. -/
def insertAt (s : Scan) (index : Nat) (t : Token) : Scan :=
  { s with tokens := s.tokens.take index ++ t :: s.tokens.drop index }

/-- Steps over `n` characters of a line. -/
def skip (s : Scan) (n : Nat) : Scan :=
  { s with cursor := ⟨s.cursor.rest.drop n, s.cursor.line, s.cursor.column + n⟩ }

/-- Begins a block collection at `column`, if that is further right than the one around it. -/
def openBlock (s : Scan) (column index : Nat) (t : Token) : Scan :=
  if !s.inFlow && s.indent < column then
    { (s.insertAt index t) with indent := column, outer := s.indent :: s.outer }
  else s

/-- Ends the block collections that stand further right than `column`. -/
def closeBlocks (column indent : Int) (tokens : List Token) : List Int → Int × List Int × List Token
  | [] => (indent, [], tokens)
  | next :: outer =>
    if column < indent then closeBlocks column next (tokens ++ [.blockEnd]) outer
    else (indent, next :: outer, tokens)

/-- Closes the blocks that a line beginning at `column` ends; in flow style lines end nothing. -/
def close (s : Scan) (column : Int) : Scan :=
  if s.inFlow then s
  else
    let (indent, outer, tokens) := closeBlocks column s.indent s.tokens s.outer
    { s with indent, outer, tokens }

/-- The candidate that may still turn out to be a key here. -/
def candidate (s : Scan) : Option Candidate := s.candidates.head?.join

/-- Replaces the candidate for a key at the innermost level. -/
def setCandidate (s : Scan) (c : Option Candidate) : Scan :=
  { s with candidates := c :: s.candidates.tail }

/-- Gives up the candidate, unless it must be a key. -/
def dropCandidate (s : Scan) : Option Scan :=
  if s.candidate.any Candidate.required then none else some (s.setCandidate none)

/-- Remembers the next token as a candidate. -/
def saveCandidate (s : Scan) : Option Scan :=
  if s.keyAllowed then do
    let s ← s.dropCandidate
    let column := s.cursor.column
    return s.setCandidate
      (some ⟨s.tokens.length, s.cursor.line, column, !s.inFlow && s.indent == Int.ofNat column⟩)
  else some s

/-- How far behind the start of a key its colon may stand. -/
def longestKey : Nat := 1024

/-- Gives up the candidates of earlier lines, and those that begin more than `longestKey` characters
before this place, unless one of them must be a key. -/
def dropStale (s : Scan) : Option Scan :=
  let stale (c : Candidate) : Bool :=
    c.line < s.cursor.line || c.column + longestKey < s.cursor.column
  if s.candidates.any fun c => c.any fun c => stale c && c.required then none
  else some { s with candidates := s.candidates.map fun c => c.filter fun c => !stale c }

/-- The mark of byte order. -/
def isByteOrderMark (c : Char) : Bool := c.toNat = 0xfeff

/-- Steps over white space and comments.  Outside of brackets a key may begin on every new line, and
a tab is no white space where a key may begin.  A mark of byte order may begin a line. -/
def skipBlanks (flow : Bool) : Bool → Bool → Nat → Nat → List Char → Cursor × Bool
  | _, keyAllowed, line, column, [] => (⟨[], line, column⟩, keyAllowed)
  | comment, keyAllowed, line, column, c :: rest =>
    if isBreak c then skipBlanks flow false (keyAllowed || !flow) (line + 1) 0 rest
    else if comment || c = ' ' || c = '\t' && (flow || !keyAllowed)
        || column = 0 && isByteOrderMark c then
      skipBlanks flow comment keyAllowed line (column + 1) rest
    else if c = '#' then skipBlanks flow true keyAllowed line (column + 1) rest
    else (⟨c :: rest, line, column⟩, keyAllowed)

/-- The place of the next token. -/
def toNext (s : Scan) : Scan :=
  let (cursor, keyAllowed) :=
    skipBlanks s.inFlow false s.keyAllowed s.cursor.line s.cursor.column s.cursor.rest
  { s with cursor, keyAllowed }

/-- A directive, which takes up its line. -/
def directive (s : Scan) (chars : List Char) : Option Scan := do
  let s ← (s.close (-1)).dropCandidate
  let (d, rest) ← Directive.read? chars
  return { s.add (.directive d) with cursor := ⟨rest, s.cursor.line + 1, 0⟩, keyAllowed := false }

/-- The mark of a document. -/
def documentMark (s : Scan) (t : Token) : Option Scan := do
  let s ← (s.close (-1)).dropCandidate
  return { (s.add t).skip 3 with keyAllowed := false }

/-- The opening bracket of a flow collection. -/
def openFlow (s : Scan) (t : Token) : Option Scan := do
  let s ← s.saveCandidate
  let s := (s.add t).skip 1
  return { s with candidates := none :: s.candidates, keyAllowed := true }

/-- The closing bracket of a flow collection. -/
def closeFlow (s : Scan) (t : Token) : Option Scan := do
  let s ← s.dropCandidate
  let s := (s.add t).skip 1
  return { s with candidates := if s.inFlow then s.candidates.tail else s.candidates,
                  keyAllowed := false }

/-- The mark of an entry of a block sequence, or of a key that is spelled out. -/
def entry (s : Scan) (t opening : Token) (keyAllowed : Bool) : Option Scan := do
  if !s.inFlow && !s.keyAllowed then none
  let s := s.openBlock s.cursor.column s.tokens.length opening
  let s ← s.dropCandidate
  return { (s.add t).skip 1 with keyAllowed }

/-- The colon before a value. -/
def valueMark (s : Scan) : Option Scan :=
  match s.candidate with
  | some c =>
    let s := (s.insertAt c.index .key).openBlock c.column c.index .blockMappingStart
    some { ((s.setCandidate none).add .value).skip 1 with keyAllowed := false }
  | none =>
    if !s.inFlow && !s.keyAllowed then none
    else
      let keyAllowed := !s.inFlow
      let s := s.openBlock s.cursor.column s.tokens.length .blockMappingStart
      some { (s.add .value).skip 1 with keyAllowed }

/-- What stands before a node or for one, with what follows it on the line. -/
def property (s : Scan) (read : Option (Token × List Char)) : Option Scan := do
  let s ← s.saveCandidate
  let (t, rest) ← read
  return { s.add t with cursor := s.cursor.onLine rest, keyAllowed := false }

/-- Reads a tag, which must end a word; inside brackets a comma may follow it. -/
def tag? (flow : Bool) (chars : List Char) : Option (Token × List Char) := do
  let (tag, rest) ← Tag.read? chars
  if endsWord rest || flow && rest.head? = some ',' then return (.tag tag, rest) else none

/-- A plain or quoted scalar. -/
def scalar (s : Scan) (read : Option Read) (style : Style) : Option Scan := do
  let s ← s.saveCandidate
  let r ← read
  return { s.add (.scalar r.text style) with cursor := r.cursor, keyAllowed := r.newLine }

/-- A block scalar. -/
def blockScalar (s : Scan) (style : Style) (chars : List Char) : Option Scan := do
  let s ← s.dropCandidate
  let (text, cursor) ← readBlock (style = .folded) s.indent s.cursor.line chars
  return { s.add (.scalar text style) with cursor, keyAllowed := true }

/-- Characters that cannot begin a plain scalar. -/
def isIndicator (c : Char) : Bool := "-?:,[]\x7b\x7d#&*!|>'\"%@\x60".contains c

/-- Whether a plain scalar begins here. -/
def beginsPlain (flow : Bool) (c : Char) (rest : List Char) : Bool :=
  !isIndicator c && !isBlank c
    || c = '-' && !(rest.head?.all isBlank)
    || !flow && (c = '?' || c = ':') && !endsWord rest

/-- Cuts off one token at a place where one begins. -/
def token (s : Scan) : List Char → Option Scan
  | [] => some s
  | c :: rest =>
    let flow := s.inFlow
    let atStart := s.cursor.column = 0
    let line := s.cursor.line
    let column := s.cursor.column + 1
    if atStart && c = '%' then s.directive rest
    else if atStart && c = '-' && isDocumentMark (c :: rest) then s.documentMark .documentStart
    else if atStart && c = '.' && isDocumentMark (c :: rest) then s.documentMark .documentEnd
    else if c = '[' then s.openFlow .flowSequenceStart
    else if c = '\x7b' then s.openFlow .flowMappingStart
    else if c = ']' then s.closeFlow .flowSequenceEnd
    else if c = '\x7d' then s.closeFlow .flowMappingEnd
    else if c = ',' then do
      let s ← s.dropCandidate
      return { (s.add .flowEntry).skip 1 with keyAllowed := true }
    else if c = '-' && endsWord rest then s.entry .blockEntry .blockSequenceStart true
    else if c = '?' && (flow || endsWord rest) then s.entry .key .blockMappingStart (!flow)
    else if c = ':' && (flow || endsWord rest) then s.valueMark
    else if c = '*' then
      s.property ((readAnchor rest).map fun (name, rest) => (.reference name, rest))
    else if c = '&' then s.property ((readAnchor rest).map fun (name, rest) => (.anchor name, rest))
    else if c = '!' then s.property (tag? flow rest)
    else if c = '|' && !flow then s.blockScalar .literal rest
    else if c = '>' && !flow then s.blockScalar .folded rest
    else if c = '\'' then s.scalar (readSingle [] Gap.none line column rest) .quoted
    else if c = '"' then s.scalar (readDouble [] Gap.none .outside line column rest) .quoted
    else if beginsPlain flow c rest then
      s.scalar (readPlain flow (s.indent + 1).toNat true [c] Gap.none line column rest) .plain
    else none

/-- Cuts off tokens until the document ends.  The first argument bounds their number. -/
def tokens? : Nat → Scan → Option (List Token)
  | 0, _ => none
  | steps + 1, s => do
    let s ← s.toNext.dropStale
    let s := s.close s.cursor.column
    match s.cursor.rest with
    | [] =>
      let s ← (s.close (-1)).dropCandidate
      return s.tokens
    | chars =>
      let s ← s.token chars
      tokens? steps s

end Scan

/-- Characters a document may hold. -/
def isAllowed (c : Char) : Bool :=
  let code := c.toNat
  code = 0x09 || code = 0x0a || code = 0x0d || 0x20 ≤ code && code ≤ 0x7e || code = 0x85
    || 0xa0 ≤ code && code ≤ 0xd7ff || 0xe000 ≤ code && code ≤ 0xfffd
    || 0x10000 ≤ code

/-- The tokens of a text, if it can be cut into some. -/
def Token.scan (text : String) : Option (List Token) :=
  if text.toList.all isAllowed then
    let chars := unifyBreaks text.toList
    Scan.tokens? (chars.length + 1) (Scan.start chars)
  else none

end FlowCircuit.Yaml
