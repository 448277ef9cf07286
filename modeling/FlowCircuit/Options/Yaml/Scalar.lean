/-!
# Scalars of a YAML document

How scalars that are plain or stand in quotes are read off a list of characters.  A plain one ends
where something else begins; a quoted one ends with its quote.  All of them may run over several
lines: a line break inside reads as a blank, and each further one as a line break.

Several code points break lines.  `unifyBreaks` makes those that mean no more than that into one,
before anything is read; the two separators, of lines and of paragraphs, are kept as they are
wherever they stand.

`Cursor` is a place in a document.  A reader gives the text and the place behind it, or `none` when
the scalar is malformed.
-/

set_option autoImplicit false

namespace FlowCircuit.Yaml

/-- How a scalar was written. -/
inductive Style where
  | plain
  | quoted
  | literal
  | folded
deriving DecidableEq

/-- A place in a document: what is left to read, and where that is. -/
structure Cursor where
  rest : List Char
  line : Nat
  column : Nat

/-- A later place on the same line, given by what is left there. -/
def Cursor.onLine (c : Cursor) (rest : List Char) : Cursor :=
  ⟨rest, c.line, c.column + (c.rest.length - rest.length)⟩

/-- Blanks separate words on a line. -/
def isBlank (c : Char) : Bool := c = ' ' || c = '\t'

/-- Writes every line break but the two separators as a line feed. -/
def unifyBreaks : List Char → List Char
  | [] => []
  | '\r' :: '\n' :: rest => '\n' :: unifyBreaks rest
  | c :: rest => (if c = '\r' || c.toNat = 0x85 then '\n' else c) :: unifyBreaks rest

/-- Whether a unified text has a line break here. -/
def isBreak (c : Char) : Bool := c = '\n' || c.toNat = 0x2028 || c.toNat = 0x2029

/-- Whether a word has ended here. -/
def endsWord : List Char → Bool
  | [] => true
  | c :: _ => isBlank c || isBreak c

/-- Whether a mark between documents stands here. -/
def isDocumentMark : List Char → Bool
  | '-' :: '-' :: '-' :: rest => endsWord rest
  | '.' :: '.' :: '.' :: rest => endsWord rest
  | _ => false

/-- The white space between two words of a scalar. -/
inductive Gap where
  /-- Blanks on one line, the latest first. -/
  | blanks (blanks : List Char)
  /-- A line break and further ones, the latest first. -/
  | breaks (first : Char) (further : List Char)
  /-- A line break that was taken back, and further ones, the latest first. -/
  | continued (further : List Char)

namespace Gap

/-- The gap that nothing was skipped in. -/
def none : Gap := .blanks []

/-- Takes in a blank; at the start of a line blanks do not count. -/
def addBlank (c : Char) : Gap → Gap
  | .blanks cs => .blanks (c :: cs)
  | gap => gap

/-- Takes in a line break; blanks before it do not count. -/
def addBreak (c : Char) : Gap → Gap
  | .blanks _ => .breaks c []
  | .breaks first further => .breaks first (c :: further)
  | .continued further => .continued (c :: further)

/-- Whether a new line was begun. -/
def newLine : Gap → Bool
  | .blanks _ => false
  | _ => true

/-- What the gap reads as, the latest first.  Only a line feed gives way to the breaks behind it. -/
def reads : Gap → List Char
  | .blanks cs => cs
  | .breaks '\n' [] => [' ']
  | .breaks '\n' further => further
  | .breaks first further => further ++ [first]
  | .continued further => further

end Gap

/-- A scalar that was read: its text, the place behind it, and whether a new line was begun
there. -/
structure Read where
  text : String
  cursor : Cursor
  newLine : Bool

/-- The end of a scalar, with its characters the latest first. -/
def Read.done (chars rest : List Char) (line column : Nat) (newLine : Bool) : Read :=
  ⟨String.ofList chars.reverse, ⟨rest, line, column⟩, newLine⟩

/-- Reads a plain scalar.  `flow` says whether it stands inside brackets, where brackets and commas
end it; outside, a line that starts before column `indent` does.  `inWord` says whether the
character before belongs to it. -/
def readPlain (flow : Bool) (indent : Nat) :
    Bool → List Char → Gap → Nat → Nat → List Char → Option Read
  | _, chars, gap, line, column, [] => some (.done chars [] line column gap.newLine)
  | inWord, chars, gap, line, column, c :: rest =>
    let stop := some (Read.done chars (c :: rest) line column gap.newLine)
    if isBreak c then
      readPlain flow indent false chars (gap.addBreak c) (line + 1) 0 rest
    else if isBlank c then
      if gap.newLine && column < indent && c = '\t' then none
      else readPlain flow indent false chars (gap.addBlank c) line (column + 1) rest
    else if !inWord && gap.newLine && !flow && column < indent then stop
    else if !inWord && (c = '#' || column = 0 && isDocumentMark (c :: rest)) then stop
    else if c = ':' && endsWord rest then stop
    else if flow && c = ':' && (rest.head?.any fun d => ",?[]\x7b\x7d".contains d) then none
    else if flow && ",[]\x7b\x7d".contains c then stop
    else readPlain flow indent true (c :: gap.reads ++ chars) Gap.none line (column + 1) rest

/-- Reads up to the closing single quote, which is written twice to stand for itself. -/
def readSingle : List Char → Gap → Nat → Nat → List Char → Option Read
  | _, _, _, _, [] => none
  | chars, gap, line, column, '\'' :: '\'' :: rest =>
    readSingle ('\'' :: gap.reads ++ chars) Gap.none line (column + 2) rest
  | chars, gap, line, column, c :: rest =>
    if column = 0 && isDocumentMark (c :: rest) then none
    else if c = '\'' then some (.done (gap.reads ++ chars) rest line (column + 1) false)
    else if isBreak c then readSingle chars (gap.addBreak c) (line + 1) 0 rest
    else if isBlank c then readSingle chars (gap.addBlank c) line (column + 1) rest
    else readSingle (c :: gap.reads ++ chars) Gap.none line (column + 1) rest

/-- The character that a letter stands for after a backslash. -/
def escapedChar? (c : Char) : Option Char :=
  match c with
  | '0' => some (Char.ofNat 0)
  | 'a' => some (Char.ofNat 0x07)
  | 'b' => some (Char.ofNat 0x08)
  | 't' => some '\t'
  | '\t' => some '\t'
  | 'n' => some '\n'
  | 'v' => some (Char.ofNat 0x0b)
  | 'f' => some (Char.ofNat 0x0c)
  | 'r' => some '\r'
  | 'e' => some (Char.ofNat 0x1b)
  | ' ' => some ' '
  | '"' => some '"'
  | '/' => some '/'
  | '\\' => some '\\'
  | 'N' => some (Char.ofNat 0x85)
  | '_' => some (Char.ofNat 0xa0)
  | 'L' => some (Char.ofNat 0x2028)
  | 'P' => some (Char.ofNat 0x2029)
  | _ => none

/-- How many hexadecimal digits follow a letter after a backslash. -/
def escapedLength? (c : Char) : Option Nat :=
  match c with
  | 'x' => some 2
  | 'u' => some 4
  | 'U' => some 8
  | _ => none

/-- The value of a hexadecimal digit, in either case. -/
def hexDigit? (c : Char) : Option Nat :=
  if '0' ≤ c && c ≤ '9' then some (c.toNat - '0'.toNat)
  else if 'a' ≤ c && c ≤ 'f' then some (c.toNat - 'a'.toNat + 10)
  else if 'A' ≤ c && c ≤ 'F' then some (c.toNat - 'A'.toNat + 10)
  else none

/-- How far an escaped character has been read. -/
inductive Escape where
  | outside
  /-- Its backslash has been read. -/
  | begun
  /-- So many of its hexadecimal digits are still to come; those before stand for `code`. -/
  | digits (left code : Nat)

/-- Reads up to the closing double quote. -/
def readDouble : List Char → Gap → Escape → Nat → Nat → List Char → Option Read
  | _, _, _, _, _, [] => none
  | chars, gap, .outside, line, column, c :: rest =>
    if column = 0 && isDocumentMark (c :: rest) then none
    else if c = '"' then some (.done (gap.reads ++ chars) rest line (column + 1) false)
    else if c = '\\' then readDouble chars gap .begun line (column + 1) rest
    else if isBreak c then readDouble chars (gap.addBreak c) .outside (line + 1) 0 rest
    else if isBlank c then readDouble chars (gap.addBlank c) .outside line (column + 1) rest
    else readDouble (c :: gap.reads ++ chars) Gap.none .outside line (column + 1) rest
  | chars, gap, .begun, line, column, c :: rest =>
    if isBreak c then readDouble (gap.reads ++ chars) (.continued []) .outside (line + 1) 0 rest
    else
      match escapedLength? c, escapedChar? c with
      | some n, _ => readDouble chars gap (.digits n 0) line (column + 1) rest
      | none, some d =>
        readDouble (d :: gap.reads ++ chars) Gap.none .outside line (column + 1) rest
      | none, none => none
  | chars, gap, .digits left code, line, column, c :: rest =>
    match hexDigit? c with
    | none => none
    | some d =>
      let code := 16 * code + d
      if 1 < left then readDouble chars gap (.digits (left - 1) code) line (column + 1) rest
      else if Nat.isValidChar code then
        readDouble (Char.ofNat code :: gap.reads ++ chars) Gap.none .outside line (column + 1) rest
      else none

end FlowCircuit.Yaml
