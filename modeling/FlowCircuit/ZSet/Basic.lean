import FlowCircuit.Key
import FlowCircuit.Word

/-!
# Z-sets

A Z-set gives every element an integer weight, almost all of them zero.  A constant Z-set lists the
elements of non-zero weight as rows in ascending order of their keys.  The elements themselves are a
parameter here: what they are and how their keys are found is the business of expressions.

`addWeight` is the one way in which rows change.  It adds a weight at a key: the row is created when
there was none, keeps its element when there was one, and goes away when its weight becomes zero.
-/

set_option autoImplicit false

namespace FlowCircuit

/-- An element of a Z-set with its weight and the key it is found by. -/
structure Row (α : Type) where
  key : Key
  element : α
  weight : Int64
deriving DecidableEq

/-- A constant Z-set with its declared type. -/
structure ZSet (α : Type) where
  elementTy : Ty
  weightTy : Ty
  nullable : Bool
  rows : List (Row α)
deriving DecidableEq

namespace Row

variable {α : Type}

/-- Adds `weight` at `key`; `none` when the sum is no word. -/
def addWeight (key : Key) (element : α) (weight : Int64) : List (Row α) → Option (List (Row α))
  | [] => some (if weight = 0 then [] else [⟨key, element, weight⟩])
  | row :: rows =>
    match key.compare row.key with
    | .lt => some (if weight = 0 then row :: rows else ⟨key, element, weight⟩ :: row :: rows)
    | .eq => (Word.add? row.weight weight).map fun sum =>
        if sum = 0 then rows else ⟨row.key, row.element, sum⟩ :: rows
    | .gt => (addWeight key element weight rows).map (row :: ·)

end Row

namespace ZSet

variable {α β : Type}

/-- The declared type. -/
def ty (z : ZSet α) : Ty := .zset z.elementTy z.weightTy z.nullable

/-- The Z-set without rows, with the usual type of weights. -/
def empty (elementTy : Ty) : ZSet α := ⟨elementTy, Ty.defaultWeight, false, []⟩

/-- The Z-set without rows of the given type, if that is a Z-set type. -/
def ofTy? : Ty → Option (ZSet α)
  | .zset element weight nullable => some ⟨element, weight, nullable, []⟩
  | _ => none

/-- Number of elements, each counted once whatever its weight. -/
def size (z : ZSet α) : Nat := z.rows.length

/-- Whether no element has a weight. -/
def isEmpty (z : ZSet α) : Bool := z.rows.isEmpty

/-- The elements in the order of their keys. -/
def elements (z : ZSet α) : List α := z.rows.map Row.element

/-- The elements with their weights, in the order of their keys. -/
def entries (z : ZSet α) : List (α × Int64) := z.rows.map fun row => (row.element, row.weight)

/-- The keys with their weights, in order: all that a Z-set says about values. -/
def weights (z : ZSet α) : List (Key × Int64) := z.rows.map fun row => (row.key, row.weight)

/-- The weight found at a key. -/
def weightAt? (z : ZSet α) (key : Key) : Option Int64 :=
  (z.rows.find? fun row => row.key = key).map Row.weight

/-- The same Z-set over other elements. -/
def map (f : α → β) (z : ZSet α) : ZSet β :=
  ⟨z.elementTy, z.weightTy, z.nullable,
    z.rows.map fun row => ⟨row.key, f row.element, row.weight⟩⟩

/-- Same declared type, and the same weight at every key. -/
def same (a b : ZSet α) : Bool := a.ty.same b.ty && a.weights == b.weights

end ZSet

end FlowCircuit
