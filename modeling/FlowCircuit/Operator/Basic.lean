import FlowCircuit.Aggregate

/-!
# Operators

An operator is a node of a circuit.  It has a number that stays with it through every replacement, a
kind, the type of the stream it produces, an optional function and aggregate, and the operators it
reads.  Like expressions, operators carry a label that says which of them are one node: a
replacement has the number of what it replaces and a label of its own.

`Operator.build` checks the rules of the kind in a fixed order and reports the first one that is
broken.
-/

set_option autoImplicit false

namespace FlowCircuit

/-- A node of a circuit. -/
structure Operator where
  label : Label
  id : OpId
  kind : OpKind
  outputTy : Ty
  function : Option Expr
  aggregate : Option Aggregate
  inputs : List Operator

instance : Labelled Operator := ⟨Operator.label⟩

namespace Operator

/-- Whether a function can serve an operator of the kind: a constant needs a Z-set of its output
type, a filter a closure that gives a boolean. -/
def checkFunction (id : OpId) (kind : OpKind) (outputTy : Ty) (function : Expr) :
    Except Error Unit :=
  match kind with
  | .constant =>
    if function.zset?.isNone then
      .error (.violation (.constantNotZSet id function.kindName))
    else if !function.ty.same outputTy then
      .error (.mismatch (.constantOperator id) outputTy function.ty)
    else .ok ()
  | .filter =>
    if function.ty.signature?.any fun signature => signature.2.isBool then .ok ()
    else .error (.violation (.filterNotPredicate id function.ty))
  | _ => .ok ()

/-- The rules of the kind, in the order in which they are reported. -/
def check (op : Operator) : Except Error Unit := do
  if !op.kind.arity.accepts op.inputs.length then
    throw (.violation (.inputCount op.kind op.id op.inputs.length))
  if op.kind.needsFunction && op.function.isNone then
    throw (.violation (.functionMissing op.kind op.id))
  if op.aggregate.isSome && !op.kind.isAggregate then
    throw (.violation (.aggregateRefused op.kind op.id))
  if op.kind.isAggregate && op.aggregate.isNone && op.function.isNone then
    throw (.violation (.aggregateMissing op.kind op.id))
  match op.function with
  | some function => checkFunction op.id op.kind op.outputTy function
  | none => pure ()
  if op.kind.preservesType then
    match op.inputs.find? fun input => !input.outputTy.same op.outputTy with
    | some input =>
      throw (.mismatch (.operatorInput input.id op.kind op.id) op.outputTy input.outputTy)
    | none => pure ()

/-- An operator that keeps the rules of its kind. -/
def build (label : Label) (id : OpId) (kind : OpKind) (outputTy : Ty) (function : Option Expr)
    (aggregate : Option Aggregate) (inputs : List Operator) : Except Error Operator := do
  let op : Operator := ⟨label, id, kind, outputTy, function, aggregate, inputs⟩
  op.check
  return op

/-- The name of a sink. -/
def sinkName? (op : Operator) : Option String := op.kind.sinkName?

/-- A replacement with the same number, kind and output type. -/
def withParts (label : Label) (op : Operator) (function : Option Expr)
    (aggregate : Option Aggregate) (inputs : List Operator) : Except Error Operator :=
  build label op.id op.kind op.outputTy function aggregate inputs

/-- A replacement with another function. -/
def withFunction (label : Label) (op : Operator) (function : Expr) : Except Error Operator :=
  op.withParts label (some function) op.aggregate op.inputs

/-- A replacement that reads other inputs. -/
def withInputs (label : Label) (op : Operator) (inputs : List Operator) : Except Error Operator :=
  op.withParts label op.function op.aggregate inputs

/-- Whether `inputs` are the very operators that `op` reads. -/
def hasInputs (op : Operator) (inputs : List Operator) : Bool :=
  op.inputs.map Operator.label == inputs.map Operator.label

/-- The operator itself when it reads `inputs` already, and a replacement that does otherwise. -/
def rebuildWithInputs (label : Label) (op : Operator) (inputs : List Operator) :
    Except Error Operator :=
  if op.hasInputs inputs then .ok op else op.withInputs label inputs

/-- The stream a method is called on: the first input, or the circuit. -/
def receiver (op : Operator) : String :=
  match op.inputs with
  | [] => "circuit"
  | first :: _ => streamName first.id

/-- Arguments of the method: further inputs, the relation, the aggregate, the function. -/
def arguments (op : Operator) : List String :=
  op.inputs.tail.map (fun input => streamName input.id)
    ++ op.kind.relation?.toList.map Text.quoted
    ++ op.aggregate.toList.map Aggregate.text
    ++ op.function.toList.map Expr.text

/-- The operator as a line of source. -/
def text (op : Operator) : String :=
  "let " ++ streamName op.id ++ ": " ++ op.outputTy.text ++ " = " ++ op.receiver ++ "."
    ++ op.kind.operation ++ "(" ++ Text.listed op.arguments ++ ");"

end Operator

end FlowCircuit
