import FlowCircuit.Expr.Text
import FlowCircuit.Operator.Kind

/-!
# What can go wrong with a circuit

Every refusal is a value that says what was refused: two types that disagree and where (`Context`),
a rule that was broken and by what (`Violation`), or a visitor that gave up.  The wording is in
`Error.message` alone.
-/

set_option autoImplicit false

namespace FlowCircuit

/-- Where two types disagree. -/
inductive Context where
  | leftOperand (op : BinOp)
  | rightOperand (op : BinOp)
  | tupleArity
  | tupleField (index : Nat)
  | zsetElement
  | zsetMerge
  | incrementParameter
  | incrementResult
  | postParameter
  | emptyResult
  | aggregateRow
  | constantOperator (id : OpId)
  | operatorInput (input : OpId) (kind : OpKind) (id : OpId)

/-- The place of a mismatch as messages name it. -/
def Context.text : Context → String
  | .leftOperand op => s!"left operand of '{op.symbol}'"
  | .rightOperand op => s!"right operand of '{op.symbol}'"
  | .tupleArity => "tuple arity"
  | .tupleField i => s!"tuple field {i}"
  | .zsetElement => "ZSet element"
  | .zsetMerge => "ZSet merge"
  | .incrementParameter => "accumulator increment parameter"
  | .incrementResult => "accumulator increment result"
  | .postParameter => "accumulator post-processing parameter"
  | .emptyResult => "accumulator empty-group result"
  | .aggregateRow => "aggregate row type"
  | .constantOperator id => s!"constant operator {streamName id}"
  | .operatorInput input kind id =>
    s!"input {streamName input} of {kind.operation} operator {streamName id}"

/-- A rule that was broken. -/
inductive Violation where
  -- types and expressions
  | nullableReference (ty : Ty)
  | noConstant (ty : Ty) (n : Nat)
  | nullOfRequired (ty : Ty)
  | literalMisfit (value : Literal) (ty : Ty)
  | tupleOfNonTuple (ty : Ty)
  | fieldOfNonTuple (index : Nat) (base : Ty)
  | fieldOutOfRange (index : Nat) (base : Ty)
  | nonNumericOperands (op : BinOp) (ty : Ty)
  | childCount (kindName : String) (given expected : Nat)
  -- Z-sets
  | zsetOfNonZSet (ty : Ty)
  | noElements
  | nonConstantElement (part : Expr)
  | overflowAdding (weight : Int64) (element : Expr)
  | overflowNegating (weight : Int64) (element : Expr)
  -- aggregates
  | incrementNotClosure (ty : Ty)
  | incrementArity (count : Nat)
  | postNotClosure (ty : Ty)
  | noAccumulators
  -- operators
  | inputCount (kind : OpKind) (id : OpId) (count : Nat)
  | functionMissing (kind : OpKind) (id : OpId)
  | aggregateRefused (kind : OpKind) (id : OpId)
  | aggregateMissing (kind : OpKind) (id : OpId)
  | constantNotZSet (id : OpId) (kindName : String)
  | filterNotPredicate (id : OpId) (ty : Ty)
  | mapNotClosure (ty : Ty)
  -- circuits
  | staleInput (reader input : OpId) (circuit : String)
  | undefinedInput (reader input : OpId) (circuit : String)
  | foreignInput (reader input : OpId) (circuit : String)
  | duplicateId (id : OpId) (circuit : String)
  | cycle (id : OpId)
  -- row layouts
  | rowNotTuple (ty : Ty)
  | columnNotScalar (index : Nat) (ty : Ty)

/-- The message for a violation. -/
def Violation.text : Violation → String
  | .nullableReference ty => s!"reference types cannot be null: {ty}"
  | .noConstant ty n => s!"type {ty} is not numeric and has no constant {n}"
  | .nullOfRequired ty => s!"NULL literal of non-nullable type {ty}"
  | .literalMisfit value ty => s!"literal {value.described} cannot have type {ty}"
  | .tupleOfNonTuple ty => s!"tuple expression needs a tuple type, got {ty}"
  | .fieldOfNonTuple i base => s!"field access .{i} on non-tuple type {base}"
  | .fieldOutOfRange i base => s!"field index {i} out of range for {base}"
  | .nonNumericOperands op ty => s!"operator '{op.symbol}' needs numeric operands, got {ty}"
  | .childCount kind given expected =>
    s!"rebuilding {kind} with {given} children, expected {expected}"
  | .zsetOfNonZSet ty => s!"ZSet literal needs a ZSet type, got {ty}"
  | .noElements => "cannot infer the element type of an empty ZSet literal"
  | .nonConstantElement part => s!"ZSet elements must be constants, got {part.kindName} {part}"
  | .overflowAdding weight element =>
    s!"ZSet weight overflow adding {weight.toInt} to {element}"
  | .overflowNegating weight element =>
    s!"ZSet weight overflow negating {weight.toInt} of {element}"
  | .incrementNotClosure ty => s!"accumulator increment must be a closure, got {ty}"
  | .incrementArity n => s!"accumulator increment takes (accumulator, row), got {n} parameters"
  | .postNotClosure ty => s!"accumulator post-processing must be a closure, got {ty}"
  | .noAccumulators => "aggregate needs at least one accumulator"
  | .inputCount kind id n =>
    s!"{kind.operation} operator {streamName id} takes {kind.arity.text} inputs, got {n}"
  | .functionMissing kind id => s!"{kind.operation} operator {streamName id} needs a function"
  | .aggregateRefused kind id =>
    s!"{kind.operation} operator {streamName id} cannot carry an aggregate"
  | .aggregateMissing kind id =>
    s!"{kind.operation} operator {streamName id} needs an aggregate or a function"
  | .constantNotZSet id kind =>
    s!"constant operator {streamName id} needs a ZSet literal, got {kind}"
  | .filterNotPredicate id ty => s!"filter operator {streamName id} needs a predicate, got {ty}"
  | .mapNotClosure ty => s!"map needs a closure, got {ty}"
  | .staleInput reader input circuit =>
    s!"{streamName reader} reads a stale copy of {streamName input} in circuit '{circuit}'"
  | .undefinedInput reader input circuit =>
    s!"{streamName reader} reads {streamName input} before it is defined in circuit '{circuit}'"
  | .foreignInput reader input circuit =>
    s!"{streamName reader} reads {streamName input} which is not part of circuit '{circuit}'"
  | .duplicateId id circuit => s!"duplicate operator id {streamName id} in circuit '{circuit}'"
  | .cycle id => s!"circuit contains a cycle through {streamName id}"
  | .rowNotTuple ty => s!"JIT row type needs a tuple type, got {ty}"
  | .columnNotScalar i ty => s!"JIT row column {i} must be a scalar, got {ty}"

/-- Why a node was not built, or a walk not finished. -/
inductive Error where
  /-- A declared type and an actual one disagree. -/
  | mismatch (context : Context) (expected actual : Ty)
  /-- A rule was broken that is not about two types. -/
  | violation (cause : Violation)
  /-- A visitor gave up. -/
  | traversal (visitor reason : String)

/-- The error in words. -/
def Error.message : Error → String
  | .mismatch context expected actual =>
    s!"[IR001] Type mismatch in {context.text}: expected {expected}, found {actual}"
  | .violation cause => s!"[IR002] Invariant violated: {cause.text}"
  | .traversal visitor reason => s!"[IR003] Visitor '{visitor}' failed: {reason}"

end FlowCircuit
