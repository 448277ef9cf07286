import FlowCircuit.Edit.Circuit
import FlowCircuit.Circuit.Graph

/-!
# Removing dead operators

An operator is live when a sink can be reached from it along readers; sinks reach themselves.  The
pass drops every operator that is not live.  Declarations stay, and so do the survivors, as they are
and in their order.
-/

set_option autoImplicit false

namespace FlowCircuit.DeadCode

/-- The name of the pass in what it reports. -/
def name : String := "dead_code"

/-- Numbers of the live operators, in ascending order. -/
def live (c : Circuit) (g : Graph) : List OpId := g.reaching (c.sinks.map Operator.id)

/-- The edit that keeps the operators listed. -/
def keepOnly (live : List OpId) : CircuitEdit Unit where
  name := name
  keep op := pure (live.contains op.id)

/-- Drops every operator that is not live. -/
def run (c : Circuit) : Run Unit Circuit := do
  let graph ← Job.ofExcept (Graph.ofCircuit c)
  let live := live c graph
  let total := c.operators.length
  if live.isEmpty && 0 < total then
    Job.report (.noSinks c.name total)
  Job.report (.operatorsLive name live.length total c.name)
  (keepOnly live).apply c

end FlowCircuit.DeadCode
