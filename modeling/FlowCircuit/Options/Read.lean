import FlowCircuit.Options.Basic
import FlowCircuit.Options.Yaml.Document
import FlowCircuit.Session

/-!
# Reading options

Options are written as a YAML mapping with the keys `passes`, `verify` and `log_statistics`, each at
most once and no others; what is left out has its default.  A text of white space alone, or a
document with nothing in it, gives the defaults.
-/

set_option autoImplicit false

namespace FlowCircuit.Options

open Yaml (Document)

/-- The tag of switches. -/
def switchTag : String := "tag:yaml.org,2002:bool"

/-- A switch: one of six words.  It is plain, or else a literal block with the tag of switches. -/
def readBool : Yaml.Node → Option Bool
  | .scalar text style tag =>
    if style = .plain || style = .literal && tag = some switchTag then
      match text with
      | "true" | "True" | "TRUE" => some true
      | "false" | "False" | "FALSE" => some false
      | _ => none
    else none
  | _ => none

/-- A name: any scalar, taken as its text. -/
def readName : Yaml.Node → Option String
  | .scalar text _ _ => some text
  | _ => none

/-- A list of names; nothing at all is the list without any. -/
def readNames (d : Document) : Yaml.Node → Option (List String)
  | .sequence items => items.mapM fun item => (d.resolve? item).bind readName
  | .scalar "" .plain _ => some []
  | _ => none

/-- What has been read of each option. -/
structure Given where
  passes : Option (List String)
  verify : Option Bool
  logStatistics : Option Bool

/-- No option is given. -/
def Given.nothing : Given := ⟨none, none, none⟩

/-- Takes in one entry of the mapping; a key given before, or unknown, is refused. -/
def Given.add (g : Given) (d : Document) (entry : Yaml.Node × Yaml.Node) : Option Given := do
  let key ← d.resolve? entry.1
  let value ← d.resolve? entry.2
  match ← readName key with
  | "passes" =>
    if g.passes.isSome then none else return { g with passes := some (← readNames d value) }
  | "verify" =>
    if g.verify.isSome then none else return { g with verify := some (← readBool value) }
  | "log_statistics" =>
    if g.logStatistics.isSome then none
    else return { g with logStatistics := some (← readBool value) }
  | _ => none

/-- The options, with defaults for what was not given. -/
def Given.options (g : Given) : Options :=
  ⟨g.passes.getD defaults.passes, g.verify.getD defaults.verify,
    g.logStatistics.getD defaults.logStatistics⟩

/-- The options a document spells out. -/
def ofDocument? (d : Document) : Option Options :=
  match d.root with
  | .mapping entries =>
    (entries.foldlM (fun (g : Given) entry => g.add d entry) Given.nothing).map Given.options
  | .scalar "" .plain _ => some defaults
  | _ => none

/-- Code points that are white space. -/
def isWhiteSpace (c : Char) : Bool :=
  let code := c.toNat
  9 ≤ code && code ≤ 13 || code = 0x20 || code = 0x85 || code = 0xa0 || code = 0x1680
    || 0x2000 ≤ code && code ≤ 0x200a || code = 0x2028 || code = 0x2029 || code = 0x202f
    || code = 0x205f || code = 0x3000

/-- The options a text spells out. -/
def ofText (text : String) : Except CompileError Options :=
  if text.toList.all isWhiteSpace then .ok defaults
  else
    match (Document.read text).bind ofDocument? with
    | some options => .ok options
    | none => .error .optionsMalformed

/-- What is found under a path. -/
inductive Found where
  | nothing
  | directory
  | file (bytes : ByteArray)

/-- The options in what is found under a path, which has to be a file of text. -/
def load (path : String) (found : Found) : Job CompileError Unit Options := do
  match found with
  | .nothing => throw (.optionsNotFound path)
  | .directory => throw (.optionsUnreadable path)
  | .file bytes =>
    match String.fromUTF8? bytes with
    | none => throw (.optionsUnreadable path)
    | some text =>
      let options ← Job.ofExcept (ofText text)
      Job.report (.optionsLoaded path options.passes)
      return options

end FlowCircuit.Options
