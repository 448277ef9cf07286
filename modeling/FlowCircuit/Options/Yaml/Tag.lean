import FlowCircuit.Options.Yaml.Block

/-!
# Tags, anchors and directives of a YAML document

A node may be given a name, its anchor, by which it can be referred to further down, and a tag,
which says what sort of thing it is.  Tags are resource identifiers, mostly written in short as a
handle and a suffix; directives before a document say what a handle stands for.
-/

set_option autoImplicit false

namespace FlowCircuit.Yaml

/-- Characters of names. -/
def isNameChar (c : Char) : Bool := c.isAlphanum || c = '_' || c = '-'

/-- Reads the name of an anchor, and what follows. -/
def readAnchor (chars : List Char) : Option (String × List Char) :=
  let name := chars.takeWhile isNameChar
  let rest := chars.dropWhile isNameChar
  if !name.isEmpty && (endsWord rest || rest.head?.any fun c => "?:,]\x7d%@\x60".contains c) then
    some (String.ofList name, rest)
  else none

/-- Characters of a resource identifier.  Commas and square brackets are so only in one that is
written in full. -/
def isUriChar (full : Bool) (c : Char) : Bool :=
  isNameChar c || ";/?:@&=+$.!~*'()".contains c || full && ",[]".contains c

/-- How many octets follow the first one of an encoded character. -/
def furtherOctets? (octet : Nat) : Option Nat :=
  if octet < 0x80 then some 0
  else if 0xc0 ≤ octet && octet < 0xe0 then some 1
  else if 0xe0 ≤ octet && octet < 0xf0 then some 2
  else if 0xf0 ≤ octet && octet < 0xf8 then some 3
  else none

/-- Reads the octets of a resource identifier, the latest first, and what follows.  A percent sign
stands before the number of an octet; `left` octets of the same character are still to come. -/
def readUri (full : Bool) : Nat → List Char → List Char → Option (List Char × List Char)
  | left, octets, '%' :: a :: b :: rest => do
    let octet := 16 * (← hexDigit? a) + (← hexDigit? b)
    let left ←
      if left = 0 then furtherOctets? octet
      else if 0x80 ≤ octet && octet < 0xc0 then some (left - 1)
      else none
    readUri full left (Char.ofNat octet :: octets) rest
  | 0, octets, c :: rest =>
    if isUriChar full c then readUri full 0 (c :: octets) rest
    else if c = '%' then none
    else some (octets, c :: rest)
  | 0, octets, [] => some (octets, [])
  | _ + 1, _, _ => none

/-- The text of octets, which ends before the first that is nought. -/
def uriText (octets : List Char) : String :=
  String.ofList (octets.reverse.takeWhile fun c => c.toNat ≠ 0)

/-- Reads a resource identifier that is not empty, and what follows. -/
def readUri? (full : Bool) (chars : List Char) : Option (String × List Char) := do
  let (octets, rest) ← readUri full 0 [] chars
  if octets.isEmpty then none else return (uriText octets, rest)

/-- Reads a handle behind its first character: the name in it, whether it is closed, and what
follows. -/
def readHandle (chars : List Char) : String × Bool × List Char :=
  let name := String.ofList (chars.takeWhile isNameChar)
  match chars.dropWhile isNameChar with
  | '!' :: rest => (name, true, rest)
  | rest => (name, false, rest)

/-- A tag as it is written: a suffix of what its handle stands for.  The empty handle stands for
nothing, so that the suffix is all there is. -/
structure Tag where
  handle : String
  suffix : String
deriving DecidableEq

namespace Tag

/-- Reads a tag behind its first character, and what follows. -/
def read? : List Char → Option (Tag × List Char)
  | '<' :: chars => do
    let (uri, rest) ← readUri? true chars
    match rest with
    | '>' :: rest => return (⟨"", uri⟩, rest)
    | _ => none
  | chars =>
    match readHandle chars with
    | (name, true, rest) => do
      let (suffix, rest) ← readUri? false rest
      return (⟨"!" ++ name ++ "!", suffix⟩, rest)
    | (name, false, rest) => do
      let (octets, rest) ← readUri false 0 name.toList.reverse rest
      let suffix := uriText octets
      return (if suffix = "" then ⟨"", "!"⟩ else ⟨"!", suffix⟩, rest)

/-- The handles that stand for something unless directives say otherwise. -/
def defaultHandles : List (String × String) := [("!", "!"), ("!!", "tag:yaml.org,2002:")]

/-- The tag in full, if its handle stands for something. -/
def resolve? (handles : List (String × String)) (t : Tag) : Option String :=
  if t.handle = "" then some t.suffix else (handles.lookup t.handle).map (· ++ t.suffix)

end Tag

/-- A line that says how to read the document behind it. -/
inductive Directive where
  | version (major minor : Nat)
  /-- What a handle stands for. -/
  | handle (handle stem : String)
deriving DecidableEq

namespace Directive

/-- Reads a number of at most nine digits, and what follows. -/
def number? (chars : List Char) : Option (Nat × List Char) :=
  let digits := chars.takeWhile Char.isDigit
  if digits.isEmpty || 9 < digits.length then none
  else
    some (digits.foldl (fun n c => 10 * n + (c.toNat - '0'.toNat)) 0, chars.dropWhile Char.isDigit)

/-- Reads two numbers with a point between them. -/
def version? (chars : List Char) : Option (Directive × List Char) := do
  let (major, rest) ← number? (chars.dropWhile isBlank)
  match rest with
  | '.' :: rest =>
    let (minor, rest) ← number? rest
    return (.version major minor, rest)
  | _ => none

/-- Reads a handle and what it stands for. -/
def handle? (chars : List Char) : Option (Directive × List Char) :=
  match chars.dropWhile isBlank with
  | '!' :: chars => do
    let (name, closed, rest) := readHandle chars
    if !closed && name ≠ "" then none
    if !(rest.head?.any isBlank) then none
    let (stem, rest) ← readUri? true (rest.dropWhile isBlank)
    if !endsWord rest then none
    return (.handle (if closed then "!" ++ name ++ "!" else "!") stem, rest)
  | _ => none

/-- Reads a directive behind its first character, and gives what follows on the next line. -/
def read? (chars : List Char) : Option (Directive × List Char) := do
  let name := String.ofList (chars.takeWhile isNameChar)
  let rest := chars.dropWhile isNameChar
  if !endsWord rest then none
  let (directive, rest) ← match name with
    | "YAML" => version? rest
    | "TAG" => handle? rest
    | _ => none
  return (directive, ← nextLine? rest)

end Directive

end FlowCircuit.Yaml
