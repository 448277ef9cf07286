/-!
# The size of a circuit

Counts of a circuit's parts.  A shared expression is one distinct node, but is visited once for
every path that leads to it, so the two expression counts differ by what sharing saves.
-/

set_option autoImplicit false

namespace FlowCircuit

/-- Counts of a circuit's parts. -/
structure Statistics where
  operators : Nat
  declarations : Nat
  /-- Aggregates attached to operators. -/
  aggregates : Nat
  /-- Expression nodes, a shared one once for each path to it. -/
  visits : Nat
  /-- Expression nodes, a shared one once. -/
  distinct : Nat
deriving DecidableEq

/-- The figures as they are reported. -/
def Statistics.text (s : Statistics) : String :=
  s!"{s.operators} operators, {s.declarations} declarations, {s.aggregates} aggregates, "
    ++ s!"{s.visits} expressions ({s.distinct} distinct)"

end FlowCircuit
