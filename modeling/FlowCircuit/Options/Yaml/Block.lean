import FlowCircuit.Options.Yaml.Scalar

/-!
# Block scalars of a YAML document

A block scalar is the lines below its header that stand far enough to the right.  A literal one
keeps its line breaks.  A folded one reads a single break between two lines as a blank, and drops
the first of several, unless one of the two lines begins with a blank itself.  The header says what
becomes of the breaks at the end, and may say how far to the right the lines stand; otherwise the
first of them that is not blank does.
-/

set_option autoImplicit false

namespace FlowCircuit.Yaml

/-- What is left of the line breaks at the end of a block scalar. -/
inductive Chomp where
  /-- None of them. -/
  | strip
  /-- The one of the last line. -/
  | clip
  /-- All of them. -/
  | keep
deriving DecidableEq

/-- What a block scalar's header says. -/
structure Header where
  chomp : Chomp
  /-- How much further right than the collection around it the lines stand. -/
  indent : Option Nat

namespace Header

/-- A sign for what is left at the end, and what follows. -/
def sign : List Char → Option Chomp × List Char
  | '+' :: rest => (some .keep, rest)
  | '-' :: rest => (some .strip, rest)
  | rest => (none, rest)

/-- A digit, and what follows. -/
def digit : List Char → Option Nat × List Char
  | [] => (none, [])
  | c :: rest => if c.isDigit then (some (c.toNat - '0'.toNat), rest) else (none, c :: rest)

/-- Reads a sign and a digit other than nought, in either order; both may be left out. -/
def read? (chars : List Char) : Option (Header × List Char) :=
  let (early, rest) := sign chars
  let (indent, rest) := digit rest
  let (late, rest) := if early.isNone && indent.isSome then sign rest else (none, rest)
  if indent = some 0 then none else some (⟨(early.or late).getD .clip, indent⟩, rest)

end Header

/-- What follows on the next line, if there is nothing but blanks and a comment left on this one. -/
def nextLine? (chars : List Char) : Option (List Char) :=
  let rest := match chars.dropWhile isBlank with
    | '#' :: comment => comment.dropWhile fun c => !isBreak c
    | rest => rest
  match rest with
  | [] => some []
  | c :: rest => if isBreak c then some rest else none

/-- The column of the first line that is not blank, or the length of a longer line before it.  A tab
may not stand there. -/
def firstColumn? : Nat → Nat → List Char → Option Nat
  | longest, column, [] => some (max longest column)
  | longest, column, c :: rest =>
    if c = ' ' then firstColumn? longest (column + 1) rest
    else if c = '\t' then none
    else if isBreak c then firstColumn? (max longest column) 0 rest
    else some (max longest column)

/-- How much of a block scalar has been read. -/
structure Block where
  /-- Its characters, the latest first. -/
  chars : List Char
  /-- The break that ended its last line. -/
  ending : Option Char
  /-- The breaks of the blank lines since, the latest first. -/
  blankLines : List Char
  /-- Whether its last line began with a blank. -/
  indented : Bool

namespace Block

/-- Before the first line. -/
def start : Block := ⟨[], none, [], false⟩

/-- Begins a line; `blank` says whether it does so with a blank. -/
def beginLine (b : Block) (folded blank : Bool) : Block :=
  let breaks :=
    if folded && b.ending = some '\n' && !b.indented && !blank then
      if b.blankLines.isEmpty then [' '] else b.blankLines
    else b.blankLines ++ b.ending.toList
  ⟨breaks ++ b.chars, none, [], blank⟩

/-- The text, with what is left of the breaks at its end. -/
def text (b : Block) (chomp : Chomp) : String :=
  let breaks := match chomp with
    | .strip => []
    | .clip => b.ending.toList
    | .keep => b.blankLines ++ b.ending.toList
  String.ofList (breaks ++ b.chars).reverse

/-- Reads lines that stand at column `indent`.  `inLine` says whether one of them has been begun. -/
def lines? (folded : Bool) (indent : Nat) :
    Bool → Block → Nat → Nat → List Char → Option (Block × Cursor)
  | _, b, line, column, [] => some (b, ⟨[], line, column⟩)
  | true, b, line, column, c :: rest =>
    if isBreak c then lines? folded indent false { b with ending := some c } (line + 1) 0 rest
    else lines? folded indent true { b with chars := c :: b.chars } line (column + 1) rest
  | false, b, line, column, c :: rest =>
    if column < indent && c = ' ' then lines? folded indent false b line (column + 1) rest
    else if column < indent && c = '\t' then none
    else if isBreak c then
      lines? folded indent false { b with blankLines := c :: b.blankLines } (line + 1) 0 rest
    else if column = indent then
      let b := b.beginLine folded (isBlank c)
      lines? folded indent true { b with chars := c :: b.chars } line (column + 1) rest
    else some (b, ⟨c :: rest, line, column⟩)

end Block

/-- Reads a block scalar from behind its first character.  `outer` is the column of the block
collection around it, `-1` when there is none. -/
def readBlock (folded : Bool) (outer : Int) (line : Nat) (chars : List Char) :
    Option (String × Cursor) := do
  let (header, rest) ← Header.read? chars
  let rest ← nextLine? rest
  let indent ← match header.indent with
    | some n => some (outer.toNat + n)
    | none => (firstColumn? 0 0 rest).map fun column => max column (max (outer + 1).toNat 1)
  let (block, cursor) ← Block.lines? folded indent false Block.start (line + 1) 0 rest
  return (block.text header.chomp, cursor)

end FlowCircuit.Yaml
