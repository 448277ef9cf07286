import FlowCircuit.Json

/-!
# Scalar kinds

The kinds of single values a column can hold.  Each has a name in the target runtime, a short
mnemonic for generated identifiers and literal suffixes, and, character data apart, a fixed storage
width.
-/

set_option autoImplicit false

namespace FlowCircuit

/-- Widths of signed integers. -/
inductive IntWidth where
  | w8
  | w16
  | w32
  | w64
deriving DecidableEq

/-- Widths of floating-point numbers. -/
inductive FloatWidth where
  | w32
  | w64
deriving DecidableEq

/-- The number of bits. -/
def IntWidth.bits : IntWidth → Nat
  | .w8 => 8
  | .w16 => 16
  | .w32 => 32
  | .w64 => 64

/-- The number of bits. -/
def FloatWidth.bits : FloatWidth → Nat
  | .w32 => 32
  | .w64 => 64

/-- How many integers of the width are negative, and how many are not. -/
def IntWidth.half : IntWidth → Int
  | .w8 => 128
  | .w16 => 32768
  | .w32 => 2147483648
  | .w64 => 9223372036854775808

/-- Whether `n` lies in the two's-complement range of the width. -/
def IntWidth.Holds (w : IntWidth) (n : Int) : Prop := -w.half ≤ n ∧ n < w.half

theorem IntWidth.half_eq (w : IntWidth) : w.half = Int.pow 2 (w.bits - 1) := by
  cases w <;> decide

instance (w : IntWidth) (n : Int) : Decidable (w.Holds n) :=
  inferInstanceAs (Decidable (_ ∧ _))

/-- Kinds of scalar values. -/
inductive Scalar where
  | bool
  | integer (width : IntWidth)
  | float (width : FloatWidth)
  /-- Exact numbers. -/
  | decimal
  /-- Character data. -/
  | string
  /-- Days since the epoch. -/
  | date
  /-- Milliseconds since the epoch. -/
  | timestamp
deriving DecidableEq

namespace Scalar

/-- Integers, floating-point numbers and decimals are numeric. -/
def isNumeric : Scalar → Bool
  | .integer _ | .float _ | .decimal => true
  | _ => false

/-- Storage width in bits, for the kinds that have one. -/
def width : Scalar → Option Nat
  | .bool => some 1
  | .integer w => some w.bits
  | .float w => some w.bits
  | .decimal => some 128
  | .date => some 32
  | .timestamp => some 64
  | .string => none

/-- Mnemonic used in generated identifiers and as the suffix of integer literals. -/
def shortName : Scalar → String
  | .bool => "b"
  | .integer .w8 => "i8"
  | .integer .w16 => "i16"
  | .integer .w32 => "i32"
  | .integer .w64 => "i64"
  | .float .w32 => "f"
  | .float .w64 => "d"
  | .decimal => "decimal"
  | .string => "s"
  | .date => "Date"
  | .timestamp => "Timestamp"

/-- Name of the kind in the target runtime. -/
def runtimeName : Scalar → String
  | .bool => "bool"
  | .integer .w8 => "i8"
  | .integer .w16 => "i16"
  | .integer .w32 => "i32"
  | .integer .w64 => "i64"
  | .float .w32 => "F32"
  | .float .w64 => "F64"
  | .decimal => "Decimal"
  | .string => "String"
  | .date => "Date"
  | .timestamp => "Timestamp"

/-- Machine-readable form. -/
def toJson : Scalar → Json
  | .bool => .string "Bool"
  | .integer w => .tagged "Integer" (.tagged "bits" (.string ("I" ++ toString w.bits)))
  | .float w => .tagged "Float" (.tagged "bits" (.string ("F" ++ toString w.bits)))
  | .decimal => .string "Decimal"
  | .string => .string "String"
  | .date => .string "Date"
  | .timestamp => .string "Timestamp"

end Scalar

end FlowCircuit
