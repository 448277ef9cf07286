import FlowCircuit.Error

/-!
# Row layouts

The JIT backend is told about a row as a list of scalar columns, each with its flag for NULL.  A row
is a tuple type whose fields are scalars; whether the tuple itself may be NULL is not part of the
layout.  A tuple without fields has one column of the placeholder type.
-/

set_option autoImplicit false

namespace FlowCircuit

/-- Types of columns. -/
inductive ColumnTy where
  /-- The placeholder of a row without fields. -/
  | unit
  | bool
  | i8
  | i16
  | i32
  | i64
  | f32
  | f64
  | string
  | decimal
  | date
  | timestamp
deriving DecidableEq

namespace ColumnTy

/-- The column type of a kind of scalar. -/
def ofScalar : Scalar → ColumnTy
  | .bool => .bool
  | .integer .w8 => .i8
  | .integer .w16 => .i16
  | .integer .w32 => .i32
  | .integer .w64 => .i64
  | .float .w32 => .f32
  | .float .w64 => .f64
  | .decimal => .decimal
  | .string => .string
  | .date => .date
  | .timestamp => .timestamp

/-- The name of a column type for the backend. -/
def text : ColumnTy → String
  | .unit => "Unit"
  | .bool => "Bool"
  | .i8 => "I8"
  | .i16 => "I16"
  | .i32 => "I32"
  | .i64 => "I64"
  | .f32 => "F32"
  | .f64 => "F64"
  | .string => "String"
  | .decimal => "Decimal"
  | .date => "Date"
  | .timestamp => "Timestamp"

end ColumnTy

/-- A column of a row. -/
structure Column where
  nullable : Bool
  ty : ColumnTy
deriving DecidableEq

/-- What the backend is given about a column. -/
def Column.toJson (c : Column) : Json :=
  .object [("nullable", .bool c.nullable), ("ty", .string c.ty.text)]

/-- The layout of a row, under the number that the backend gave it. -/
structure RowLayout where
  id : Nat
  columns : List Column
deriving DecidableEq

namespace RowLayout

/-- The columns for field types, counted from `start`. -/
def columnsOf (start : Nat) : List Ty → Except Error (List Column)
  | [] => .ok []
  | ty :: tys =>
    match ty.scalar? with
    | none => .error (.violation (.columnNotScalar start ty))
    | some kind => do
      let rest ← columnsOf (start + 1) tys
      return ⟨ty.nullable, .ofScalar kind⟩ :: rest

/-- The layout of a tuple type. -/
def ofTy (id : Nat) (ty : Ty) : Except Error RowLayout :=
  match ty.fields? with
  | none => .error (.violation (.rowNotTuple ty))
  | some [] => .ok ⟨id, [⟨false, .unit⟩]⟩
  | some fields => do
    let columns ← columnsOf 0 fields
    return ⟨id, columns⟩

/-- What the backend is given. -/
def toJson (r : RowLayout) : Json :=
  .object [("columns", .array (r.columns.map Column.toJson))]

/-- The types of the columns. -/
def text (r : RowLayout) : String :=
  "[" ++ Text.listed (r.columns.map fun c => c.ty.text) ++ "]"

end RowLayout

end FlowCircuit
