import FlowCircuit.ZSet.Arithmetic

/-!
# Building expressions

The only ways to make an expression node.  Each takes the label of the new node, computes the node's
type from what it is given, and refuses parts that do not fit together, so an expression that exists
is well typed.  `Expr.withChildren` rebuilds a node over other sub-expressions through the
constructor of its sort.
-/

set_option autoImplicit false

namespace FlowCircuit

/-- The type with its flag set to `nullable`.  References stay as they are: one that is asked to be
nullable is refused. -/
def Ty.withNullable (ty : Ty) (nullable : Bool) : Except Error Ty :=
  if ty.nullable = nullable then .ok ty
  else if nullable && ty.isReference then .error (.violation (.nullableReference ty))
  else .ok (ty.setNullable nullable)

namespace Expr

/-- A literal of the given type. -/
def literal (label : Label) (value : Literal) (ty : Ty) : Except Error Expr :=
  if value.fits ty then .ok ⟨label, ty, .literal value⟩
  else if value = .null then .error (.violation (.nullOfRequired ty))
  else .error (.violation (.literalMisfit value ty))

/-- NULL of a nullable type. -/
def null (label : Label) (ty : Ty) : Except Error Expr := literal label .null ty

/-- A truth value that cannot be NULL. -/
def bool (label : Label) (value : Bool) : Expr := ⟨label, Ty.bool false, .literal (.bool value)⟩

/-- A number of 32 bits that cannot be NULL. -/
def int32 (label : Label) (value : Int32) : Expr :=
  ⟨label, Ty.int32 false, .literal (.integer value.toInt64)⟩

/-- A number of 64 bits that cannot be NULL. -/
def int64 (label : Label) (value : Int64) : Expr :=
  ⟨label, Ty.int64 false, .literal (.integer value)⟩

/-- A float that cannot be NULL, given by its bits. -/
def double (label : Label) (bits : UInt64) : Expr :=
  ⟨label, Ty.double false, .literal (.float bits)⟩

/-- Character data that cannot be NULL. -/
def string (label : Label) (value : String) : Expr :=
  ⟨label, Ty.string false, .literal (.string value)⟩

/-- A finished Z-set. -/
def zset (label : Label) (z : ZSet Expr) : Expr := ⟨label, z.ty, .zset z⟩

/-- A tuple whose type is that of its fields. -/
def tuple (label : Label) (fields : List Expr) : Expr :=
  ⟨label, Ty.tupleOf (fields.map Expr.ty), .tuple fields⟩

/-- The first field that does not have its declared type, counted from `start`. -/
def fieldMismatch? (start : Nat) : List Ty → List Expr → Option Error
  | declared :: tys, field :: fields =>
    if declared.same field.ty then fieldMismatch? (start + 1) tys fields
    else some (.mismatch (.tupleField start) declared field.ty)
  | _, _ => none

/-- A tuple of a declared type: as many fields, each of exactly the declared type. -/
def tupleTyped (label : Label) (ty : Ty) (fields : List Expr) : Except Error Expr :=
  match ty.fields? with
  | none => .error (.violation (.tupleOfNonTuple ty))
  | some declared =>
    if declared.length ≠ fields.length then
      .error (.mismatch .tupleArity ty (Ty.tupleOf (fields.map Expr.ty)))
    else
      match fieldMismatch? 0 declared fields with
      | some e => .error e
      | none => .ok ⟨label, ty, .tuple fields⟩

/-- A reference to the value of `operand`. -/
def borrow (label : Label) (operand : Expr) : Expr :=
  ⟨label, Ty.refTo operand.ty false, .borrow operand⟩

/-- A named value of type `ty`. -/
def var (label : Label) (name : String) (ty : Ty) : Expr := ⟨label, ty, .var name⟩

/-- The type of a field of a tuple, or of a reference to one.  Fields of a nullable tuple are
nullable. -/
def fieldTy (base : Ty) (index : Nat) : Except Error Ty :=
  let tuple := base.target?.getD base
  match tuple.fields? with
  | none => .error (.violation (.fieldOfNonTuple index tuple))
  | some fields =>
    match fields[index]? with
    | none => .error (.violation (.fieldOutOfRange index tuple))
    | some ty => if tuple.nullable then ty.withNullable true else .ok ty

/-- Field `index` of a tuple, or of a reference to one. -/
def field (label : Label) (base : Expr) (index : Nat) : Except Error Expr := do
  let ty ← fieldTy base.ty index
  return ⟨label, ty, .field base index⟩

/-- A closure; its type is the matching signature. -/
def closure (label : Label) (params : List Parameter) (body : Expr) : Expr :=
  ⟨label, Ty.functionOf (params.map Parameter.ty) body.ty, .closure params body⟩

/-- The type of a binary operation.  Both operands have one type up to the flag.  Arithmetic is on
numeric types, conjunction and disjunction on booleans, and comparisons give a boolean; the result
is nullable when an operand is. -/
def binaryTy (op : BinOp) (left right : Ty) : Except Error Ty :=
  if !left.sameUpToNull right then
    .error (.mismatch (.rightOperand op) left right)
  else
    let nullable := left.nullable || right.nullable
    if op.isArithmetic then
      if left.isNumeric then left.withNullable nullable
      else .error (.violation (.nonNumericOperands op left))
    else if op.isLogical && !left.isBool then
      .error (.mismatch (.leftOperand op) (Ty.bool left.nullable) left)
    else
      .ok (Ty.bool nullable)

/-- A binary operation. -/
def binary (label : Label) (op : BinOp) (left right : Expr) : Except Error Expr := do
  let ty ← binaryTy op left.ty right.ty
  return ⟨label, ty, .binary op left right⟩

/-- The number `n` as a literal of a numeric type; `float` is its binary64 pattern. -/
def numeral (label : Label) (ty : Ty) (n : Nat) (float : UInt64) : Except Error Expr :=
  match ty.scalar? with
  | some (.integer _) => literal label (.integer (Int64.ofNat n)) ty
  | some (.float _) => literal label (.float float) ty
  | some .decimal => literal label (.decimal (toString n)) ty
  | _ => .error (.violation (.noConstant ty n))

/-- Zero of a numeric type, nullable when the type is. -/
def zero (label : Label) (ty : Ty) : Except Error Expr := numeral label ty 0 0

/-- One of a numeric type, nullable when the type is. -/
def one (label : Label) (ty : Ty) : Except Error Expr := numeral label ty 1 0x3ff0000000000000

/-- The node rebuilt over other sub-expressions, given in the order of `children`.  A node that has
none is kept. -/
def withChildren (label : Label) (e : Expr) (children : List Expr) : Except Error Expr :=
  if children.length ≠ e.children.length then
    .error (.violation (.childCount e.kindName children.length e.children.length))
  else
    match e.form, children with
    | .zset z, elements => do
      let start ← ZSet.ofTy z.ty
      let rebuilt ← ZSet.complete (start.addAll (elements.zip (z.rows.map Row.weight)))
      return zset label rebuilt
    | .tuple _, fields => tupleTyped label e.ty fields
    | .borrow _, [operand] => .ok (borrow label operand)
    | .field _ index, [base] => field label base index
    | .closure params _, [body] => .ok (closure label params body)
    | .binary op _ _, [left, right] => binary label op left right
    | _, _ => .ok e

end Expr

end FlowCircuit
