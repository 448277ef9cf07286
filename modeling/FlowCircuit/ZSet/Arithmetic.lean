import FlowCircuit.Error

/-!
# Arithmetic of constant Z-sets

Z-sets whose elements are constant expressions are added and negated weight by weight.  An element
has to be a constant of the declared type; a weight that leaves the signed 64-bit range is refused.

A Z-set is changed in place, so what changes it gives the Z-set that was reached together with the
refusal, if there was one.  Adding several rows stops at the first refusal with the rows before it
already added.
-/

set_option autoImplicit false

namespace FlowCircuit.ZSet

/-- The Z-set without rows of type `ty`. -/
def ofTy (ty : Ty) : Except Error (ZSet Expr) :=
  match ZSet.ofTy? ty with
  | some z => .ok z
  | none => .error (.violation (.zsetOfNonZSet ty))

/-- Adds `weight` to the weight of `element`. -/
def add (z : ZSet Expr) (element : Expr) (weight : Int64) : ZSet Expr × Option Error :=
  if !element.ty.same z.elementTy then
    (z, some (.mismatch .zsetElement z.elementTy element.ty))
  else
    match element.key with
    | .error part => (z, some (.violation (.nonConstantElement part)))
    | .ok key =>
      match Row.addWeight key element weight z.rows with
      | none => (z, some (.violation (.overflowAdding weight element)))
      | some rows => ({ z with rows }, none)

/-- Adds `element` once. -/
def insert (z : ZSet Expr) (element : Expr) : ZSet Expr × Option Error := z.add element 1

/-- Adds elements with their weights in order, up to the first refusal. -/
def addAll (z : ZSet Expr) : List (Expr × Int64) → ZSet Expr × Option Error
  | [] => (z, none)
  | (element, weight) :: rest =>
    match z.add element weight with
    | (z', some e) => (z', some e)
    | (z', none) => z'.addAll rest

/-- Adds every row of `other`, which must have the same declared type. -/
def merge (z other : ZSet Expr) : ZSet Expr × Option Error :=
  if !z.ty.same other.ty then
    (z, some (.mismatch .zsetMerge z.ty other.ty))
  else
    z.addAll other.entries

/-- The outcome of a change when a partial result is of no use. -/
def complete : ZSet Expr × Option Error → Except Error (ZSet Expr)
  | (z, none) => .ok z
  | (_, some e) => .error e

/-- The rows with every weight negated. -/
def negateRows : List (Row Expr) → Except Error (List (Row Expr))
  | [] => .ok []
  | row :: rows =>
    match Word.neg? row.weight with
    | none => .error (.violation (.overflowNegating row.weight row.element))
    | some weight => do
      let rest ← negateRows rows
      return { row with weight } :: rest

/-- The Z-set with every weight negated. -/
def negate (z : ZSet Expr) : Except Error (ZSet Expr) := do
  let rows ← negateRows z.rows
  return { z with rows }

/-- The Z-set holding each element once; the first one gives the type. -/
def ofElements : List Expr → Except Error (ZSet Expr)
  | [] => .error (.violation .noElements)
  | first :: rest =>
    complete ((ZSet.empty first.ty).addAll ((first :: rest).map fun e => (e, 1)))

/-- The weight of an element; `none` for what is absent or not a constant at all. -/
def weight? (z : ZSet Expr) (element : Expr) : Option Int64 :=
  match element.key with
  | .ok key => z.weightAt? key
  | .error _ => none

end FlowCircuit.ZSet
