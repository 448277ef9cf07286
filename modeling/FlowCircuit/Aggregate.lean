import FlowCircuit.Expr.Build

/-!
# Aggregates

An accumulator folds the rows of a group into one value: it starts from `zero`, takes in one row at
a time with the closure `increment`, and may end with a closure `post`.  A group without rows gives
`emptyResult`.  An aggregate runs one or more accumulators over the same rows; it is a node that
operators may share, and so carries a label.
-/

set_option autoImplicit false

namespace FlowCircuit

/-- A fold over the rows of a group. -/
structure Accumulator where
  zero : Expr
  /-- A closure from the accumulated value and a row to the next accumulated value. -/
  increment : Expr
  /-- A closure from the accumulated value to the result. -/
  post : Option Expr
  emptyResult : Expr
  rowTy : Ty

namespace Accumulator

/-- The type of rows an increment closure takes in, when it folds into `accTy`. -/
def incrementRow (accTy incrementTy : Ty) : Except Error Ty :=
  match incrementTy.signature? with
  | none => .error (.violation (.incrementNotClosure incrementTy))
  | some ([first, row], result) =>
    if !first.same accTy then .error (.mismatch .incrementParameter accTy first)
    else if !result.same accTy then .error (.mismatch .incrementResult accTy result)
    else .ok row
  | some (params, _) => .error (.violation (.incrementArity params.length))

/-- The type of the result: that of the accumulated value, unless a closure is applied to it. -/
def resultOf (accTy : Ty) : Option Expr → Except Error Ty
  | none => .ok accTy
  | some post =>
    match post.ty.signature? with
    | none => .error (.violation (.postNotClosure post.ty))
    | some (params, result) =>
      if Ty.sameAll params [accTy] then .ok result
      else .error (.mismatch .postParameter (Ty.functionOf [accTy] result) post.ty)

/-- An accumulator of parts whose types fit together. -/
def build (zero increment : Expr) (post : Option Expr) (emptyResult : Expr) :
    Except Error Accumulator := do
  let rowTy ← incrementRow zero.ty increment.ty
  let resultTy ← resultOf zero.ty post
  if emptyResult.ty.same resultTy then
    return ⟨zero, increment, post, emptyResult, rowTy⟩
  else
    throw (.mismatch .emptyResult resultTy emptyResult.ty)

/-- The type of the value this accumulator contributes. -/
def resultTy (a : Accumulator) : Ty := a.emptyResult.ty

/-- Sub-expressions in order. -/
def children (a : Accumulator) : List Expr :=
  [a.zero, a.increment] ++ a.post.toList ++ [a.emptyResult]

/-- The accumulator as it is printed: its parts, listed. -/
def text (a : Accumulator) : String := "[" ++ Text.listed (a.children.map Expr.text) ++ "]"

end Accumulator

/-- One or more accumulators over the same rows. -/
structure Aggregate where
  label : Label
  first : Accumulator
  rest : List Accumulator

instance : Labelled Aggregate := ⟨Aggregate.label⟩

namespace Aggregate

/-- The accumulators in order. -/
def components (a : Aggregate) : List Accumulator := a.first :: a.rest

/-- The type of rows all accumulators take in. -/
def rowTy (a : Aggregate) : Ty := a.first.rowTy

/-- An aggregate of accumulators over one type of rows. -/
def build (label : Label) : List Accumulator → Except Error Aggregate
  | [] => .error (.violation .noAccumulators)
  | first :: rest =>
    match rest.find? fun a => !a.rowTy.same first.rowTy with
    | some odd => .error (.mismatch .aggregateRow first.rowTy odd.rowTy)
    | none => .ok ⟨label, first, rest⟩

/-- The tuple of the accumulators' results. -/
def resultTy (a : Aggregate) : Ty := Ty.tupleOf (a.components.map Accumulator.resultTy)

/-- All sub-expressions, accumulator by accumulator. -/
def children (a : Aggregate) : List Expr := a.components.flatMap Accumulator.children

/-- The aggregate as it is printed, component by component. -/
def text (a : Aggregate) : String :=
  "Fold::new(" ++ Text.listed (a.components.map Accumulator.text) ++ ")"

end Aggregate

end FlowCircuit
