/-!
# Kinds of operators

What an operator does to the streams it reads.  The kind fixes how many inputs there are, whether a
function is needed, whether an aggregate may be attached, and whether every input has the type of
the output.
-/

set_option autoImplicit false

namespace FlowCircuit

/-- Operators of a circuit are known by a number. -/
abbrev OpId := Nat

/-- The name of the stream that operator `id` produces. -/
def streamName (id : OpId) : String := "stream" ++ toString id

/-- How many inputs a kind of operator takes. -/
inductive Arity where
  | exactly (count : Nat)
  | atLeast (count : Nat)
deriving DecidableEq

namespace Arity

/-- Whether there may be `n` inputs. -/
def accepts : Arity → Nat → Bool
  | .exactly k, n => n == k
  | .atLeast k, n => decide (k ≤ n)

/-- The number of inputs as messages put it. -/
def text : Arity → String
  | .exactly k => toString k
  | .atLeast k => "at least " ++ toString k

end Arity

/-- What an operator does. -/
inductive OpKind where
  /-- A named input relation. -/
  | source (name : String)
  /-- A named output relation. -/
  | sink (name : String)
  /-- A constant Z-set, given by the function. -/
  | constant
  /-- A projection of each row. -/
  | map
  /-- A predicate on each row. -/
  | filter
  /-- Any number of rows for each row. -/
  | flatMap
  /-- A key and a value for each row. -/
  | index
  /-- The equi-join of two indexed inputs. -/
  | join
  /-- The sum of all inputs. -/
  | sum
  /-- The first input without the second. -/
  | subtract
  /-- Every weight negated. -/
  | negate
  /-- Every weight clamped to one. -/
  | distinct
  /-- The running sum over time. -/
  | integrate
  /-- The change since the step before. -/
  | differentiate
  /-- Aggregation by group. -/
  | aggregate
  /-- Aggregation kept up to date step by step. -/
  | incrementalAggregate
  /-- Aggregation over a sliding window. -/
  | windowAggregate
deriving DecidableEq

namespace OpKind

/-- The method that stands for the kind in source text. -/
def operation : OpKind → String
  | .source _ => "add_source"
  | .sink _ => "output"
  | .constant => "add_source"
  | .map => "map"
  | .filter => "filter"
  | .flatMap => "flat_map"
  | .index => "index_with"
  | .join => "join"
  | .sum => "sum"
  | .subtract => "minus"
  | .negate => "neg"
  | .distinct => "distinct"
  | .integrate => "integrate"
  | .differentiate => "differentiate"
  | .aggregate => "aggregate"
  | .incrementalAggregate => "aggregate_incremental"
  | .windowAggregate => "window"

/-- Whether the kind may carry an aggregate. -/
def isAggregate : OpKind → Bool
  | .aggregate | .incrementalAggregate | .windowAggregate => true
  | _ => false

/-- Whether the kind needs a function. -/
def needsFunction : OpKind → Bool
  | .constant | .map | .filter | .flatMap | .index | .join => true
  | _ => false

/-- How many inputs an operator of the kind reads. -/
def arity : OpKind → Arity
  | .source _ | .constant => .exactly 0
  | .join | .subtract => .exactly 2
  | .sum => .atLeast 1
  | _ => .exactly 1

/-- Whether every input has the type of the output. -/
def preservesType : OpKind → Bool
  | .sink _ | .filter | .sum | .subtract | .negate | .distinct | .integrate | .differentiate => true
  | _ => false

/-- The name of a sink. -/
def sinkName? : OpKind → Option String
  | .sink name => some name
  | _ => none

/-- The relation an operator reads from or writes to. -/
def relation? : OpKind → Option String
  | .source name | .sink name => some name
  | _ => none

end OpKind

end FlowCircuit
