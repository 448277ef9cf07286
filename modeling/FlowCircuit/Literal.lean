import FlowCircuit.Ty.Basic
import FlowCircuit.Decimal.Shortest
import FlowCircuit.Text.Quoted

/-!
# Literal values

The scalar values an expression can spell out.  A floating-point value is kept as its binary64 bit
pattern, so two of them are equal exactly when their patterns are: `-0.0` differs from `0.0`, and a
NaN equals itself.  A decimal is kept as its text.

A literal has two texts: `Literal.described` names the value in messages, and `Literal.source`
writes it as source of the target runtime, where the literal's type decides suffix and wrapper.
-/

set_option autoImplicit false

namespace FlowCircuit

/-- A literal value. -/
inductive Literal where
  | null
  | bool (value : Bool)
  | integer (value : Int64)
  /-- The bit pattern of a binary64 number. -/
  | float (bits : UInt64)
  | decimal (digits : String)
  | string (value : String)
  /-- Days since the epoch. -/
  | date (days : Int32)
  /-- Milliseconds since the epoch. -/
  | timestamp (millis : Int64)
deriving DecidableEq

namespace Literal

/-- Floating-point text is positional from `1e-4` up to, and without, `1e16`. -/
def floatLayout : Decimal.Layout := ⟨-4, 15⟩

/-- Whether the value is one of type `ty`: NULL is a value of every nullable type, and any other
value of the scalar types of its sort, integers within the width. -/
def fits (value : Literal) (ty : Ty) : Bool :=
  match value, ty.scalar? with
  | .null, _ => ty.nullable
  | .bool _, some .bool => true
  | .integer n, some (.integer w) => decide (w.Holds n.toInt)
  | .float _, some (.float _) => true
  | .decimal _, some .decimal => true
  | .string _, some .string => true
  | .date _, some .date => true
  | .timestamp _, some .timestamp => true
  | _, _ => false

/-- The value with the name of its sort, as messages show it. -/
def described : Literal → String
  | .null => "Null"
  | .bool b => "Bool(" ++ toString b ++ ")"
  | .integer n => "Integer(" ++ toString n.toInt ++ ")"
  | .float bits => "Float(" ++ floatLayout.render bits ++ ")"
  | .decimal d => "Decimal(" ++ Text.quoted d ++ ")"
  | .string s => "String(" ++ Text.quoted s ++ ")"
  | .date d => "Date(" ++ toString d.toInt ++ ")"
  | .timestamp t => "Timestamp(" ++ toString t.toInt ++ ")"

/-- The text of a value that is not NULL, without the mark of a nullable type. -/
def bare (value : Literal) (ty : Ty) : String :=
  match value with
  | .null => ""
  | .bool b => toString b
  | .integer n => toString n.toInt ++ (ty.scalar?.map Scalar.shortName).getD "i64"
  | .float bits =>
    (if ty.width = some 32 then "F32" else "F64") ++ "::new(" ++ floatLayout.render bits ++ ")"
  | .decimal d => "dec!(" ++ d ++ ")"
  | .string s => "String::from(" ++ Text.quoted s ++ ")"
  | .date d => "Date::new(" ++ toString d.toInt ++ ")"
  | .timestamp t => "Timestamp::new(" ++ toString t.toInt ++ ")"

/-- The literal as source: `None` for NULL, and `Some(…)` around a value of nullable type. -/
def source (value : Literal) (ty : Ty) : String :=
  if value = .null then "None"
  else if ty.nullable then "Some(" ++ value.bare ty ++ ")"
  else value.bare ty

end Literal

end FlowCircuit
