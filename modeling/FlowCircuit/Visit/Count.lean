import FlowCircuit.Visit.Circuit

/-!
# Counting the parts of a circuit

The statistics of a circuit are collected by a visitor that counts expressions and aggregates as it
enters them and remembers which expression nodes it has met.
-/

set_option autoImplicit false

namespace FlowCircuit

/-- What the counting visitor knows. -/
structure Tally where
  visits : Nat
  aggregates : Nat
  /-- Labels of the expression nodes met, each once. -/
  met : List Label

namespace Tally

/-- Before the walk nothing is counted. -/
def start : Tally := ⟨0, 0, []⟩

/-- Counts a visit to an expression node. -/
def visit (t : Tally) (e : Expr) : Tally :=
  { t with
    visits := t.visits + 1,
    met := if t.met.contains e.label then t.met else e.label :: t.met }

/-- The visitor that counts. -/
def counter : Visitor Tally where
  enterExpr e := do
    Job.update fun t => t.visit e
    return .descend
  enterAggregate _ := do
    Job.update fun t => { t with aggregates := t.aggregates + 1 }
    return .descend

end Tally

/-- The statistics of a circuit. -/
def Statistics.ofCircuit (c : Circuit) : Statistics :=
  let tally := ((Tally.counter.walkCircuit c).exec ⟨0, [], Tally.start⟩).2.state
  ⟨c.operators.length, c.declarations.length, tally.aggregates, tally.visits, tally.met.length⟩

end FlowCircuit
