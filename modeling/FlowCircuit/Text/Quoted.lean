import FlowCircuit.Text.Unprintable
import FlowCircuit.Text.Extending

/-!
# Quoted text

Names and character data are shown between double quotes, so that what is shown is one line of
printable text from which the value can be read off.  A quote and a backslash are written with a
backslash before them, four controls have a letter of their own, and every other code point that
would not show, or would attach itself to its neighbour, is written by its number in hexadecimal.
-/

set_option autoImplicit false

namespace FlowCircuit.Text

/-- Whether `code` lies in one of the ranges. -/
def inRanges (ranges : List (Nat × Nat)) (code : Nat) : Bool :=
  ranges.any fun (lo, hi) => lo ≤ code && code ≤ hi

/-- Letters that stand for nothing: fillers that are shown as if they were absent. -/
def isFiller (code : Nat) : Bool :=
  code == 0x115f || code == 0x1160 || code == 0x3164 || code == 0xffa0

/-- Whether a code point shows as itself inside quotes. -/
def showsAsItself (c : Char) : Bool :=
  let code := c.toNat
  if code < 0x7f then
    0x20 ≤ code
  else
    !(inRanges extendingRanges code || inRanges unprintableRanges code || isFiller code)

/-- A code point by its number, in hexadecimal without leading zeros. -/
def numbered (c : Char) : String :=
  "\\u\x7b" ++ String.ofList (Nat.toDigits 16 c.toNat) ++ "\x7d"

/-- How one code point is written inside quotes. -/
def quotedChar (c : Char) : String :=
  if c = '"' then "\\\""
  else if c = '\\' then "\\\\"
  else if c = '\n' then "\\n"
  else if c = '\r' then "\\r"
  else if c = '\t' then "\\t"
  else if c = Char.ofNat 0 then "\\0"
  else if showsAsItself c then String.singleton c
  else numbered c

/-- The text between double quotes. -/
def quoted (s : String) : String :=
  "\"" ++ String.join (s.toList.map quotedChar) ++ "\""

end FlowCircuit.Text
