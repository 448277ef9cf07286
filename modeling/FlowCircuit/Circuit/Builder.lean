import FlowCircuit.Session

/-!
# Building circuits

A builder collects declarations and operators and numbers the operators from zero upwards.  A call
that is refused leaves the builder as it was.
-/

set_option autoImplicit false

namespace FlowCircuit

/-- A circuit under construction. -/
structure Builder where
  name : String
  /-- Nodes so far, the latest first. -/
  nodes : List Node
  nextId : OpId

namespace Builder

/-- A builder without nodes. -/
def start (name : String) : Builder := ⟨name, [], 0⟩

/-- Appends an operator with the next number. -/
def addOperator (kind : OpKind) (outputTy : Ty) (function : Option Expr)
    (aggregate : Option Aggregate) (inputs : List Operator) : Run Builder Operator := do
  let b ← Job.state
  let op ← Job.make fun label =>
    Operator.build label b.nextId kind outputTy function aggregate inputs
  Job.update fun b => { b with nodes := .operator op :: b.nodes, nextId := b.nextId + 1 }
  return op

/-- Appends a declaration. -/
def addDeclaration (name : String) (value : Expr) : Run Builder Declaration := do
  let label ← Job.fresh
  let d : Declaration := ⟨label, name, value⟩
  Job.update fun b => { b with nodes := .declaration d :: b.nodes }
  return d

/-- An input relation with rows of type `rowTy`. -/
def source (name : String) (rowTy : Ty) : Run Builder Operator :=
  addOperator (.source name) (Ty.zsetOf rowTy Ty.defaultWeight) none none []

/-- A relation that holds `data`. -/
def constant (data : ZSet Expr) : Run Builder Operator := do
  let label ← Job.fresh
  addOperator .constant data.ty (some (Expr.zset label data)) none []

/-- Applies a closure to every row of `input`. -/
def map (input : Operator) (function : Expr) : Run Builder Operator :=
  match function.ty.signature? with
  | none => throw (.violation (.mapNotClosure function.ty))
  | some (_, rowTy) =>
    let weight := (input.outputTy.zset?.map Prod.snd).getD Ty.defaultWeight
    addOperator .map (Ty.zsetOf rowTy weight) (some function) none [input]

/-- Keeps the rows of `input` for which a predicate holds. -/
def filter (input : Operator) (predicate : Expr) : Run Builder Operator :=
  addOperator .filter input.outputTy (some predicate) none [input]

/-- An output relation fed by `input`. -/
def sink (name : String) (input : Operator) : Run Builder Operator :=
  addOperator (.sink name) input.outputTy none none [input]

/-- The finished circuit. -/
def finish (b : Builder) : Circuit := ⟨b.name, b.nodes.reverse⟩

end Builder

end FlowCircuit
