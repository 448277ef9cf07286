import FlowCircuit.Pass.DeadCode
import FlowCircuit.Pass.ConstantFold
import FlowCircuit.Pass.Dedup
import FlowCircuit.Visit.Count
import FlowCircuit.Options.Basic

/-!
# The pipeline of passes

A pipeline runs passes one after another, each on the result of the one before.  With verification
on, the circuit it is given and the result of every pass have to be well formed.  The first failure
ends the run.
-/

set_option autoImplicit false

namespace FlowCircuit

/-- The passes there are. -/
inductive Pass where
  | deadCode
  | constantFold
  | dedup
deriving DecidableEq

namespace Pass

/-- The name by which a pass is asked for. -/
def name : Pass → String
  | .deadCode => DeadCode.name
  | .constantFold => ConstantFold.name
  | .dedup => Dedup.name

/-- What a pass does, in a line. -/
def description : Pass → String
  | .deadCode => "Removes operators whose output never reaches a sink"
  | .constantFold => "Evaluates operations on literals and projections of tuple constructions"
  | .dedup => "Shares structurally equal sub-expressions across the circuit"

/-- All passes, in the order in which they run unless told otherwise. -/
def all : List Pass := [.deadCode, .constantFold, .dedup]

/-- The pass called `name`. -/
def ofName? (name : String) : Option Pass := all.find? fun pass => pass.name = name

/-- The pass on a circuit. -/
def run : Pass → Circuit → Run Unit Circuit
  | .deadCode => DeadCode.run
  | .constantFold => ConstantFold.run
  | .dedup => Dedup.run

end Pass

/-- Passes with what is to be checked and reported around them. -/
structure Pipeline where
  passes : List Pass
  /-- Whether circuits are checked before the first and after every pass. -/
  verify : Bool
  /-- The level at which sizes before and after each pass are reported. -/
  statisticsLevel : Level

namespace Pipeline

/-- All passes, with verification. -/
def standard : Pipeline := ⟨Pass.all, true, .debug⟩

/-- The pass called `name`, which has to exist. -/
def passNamed (name : String) : Except CompileError Pass :=
  match Pass.ofName? name with
  | some pass => .ok pass
  | none => .error (.unknownPass name (Pass.all.map Pass.name))

/-- The pipeline that options ask for. -/
def ofOptions (o : Options) : Except CompileError Pipeline := do
  let passes ← o.passes.mapM passNamed
  return ⟨passes, o.verify, if o.logStatistics then .info else .debug⟩

/-- Checks a circuit, if circuits are to be checked. -/
def verified (p : Pipeline) (c : Circuit) : Except Error Unit :=
  if p.verify then c.validate else .ok ()

/-- Runs one pass. -/
def step (p : Pipeline) (c : Circuit) (pass : Pass) : Job CompileError Unit Circuit := do
  Job.report (.passStarted pass.name c.name)
  let result ← Job.mapError (.passFailed pass.name) (pass.run c)
  Job.ofExcept ((p.verified result).mapError (.malformedResult pass.name))
  Job.report
    (.passFinished p.statisticsLevel pass.name (Statistics.ofCircuit c)
      (Statistics.ofCircuit result))
  return result

/-- Runs passes in order. -/
def steps (p : Pipeline) (c : Circuit) : List Pass → Job CompileError Unit Circuit
  | [] => pure c
  | pass :: rest => do
    let result ← p.step c pass
    p.steps result rest

/-- Runs all passes of the pipeline. -/
def run (p : Pipeline) (c : Circuit) : Job CompileError Unit Circuit := do
  Job.ofExcept ((p.verified c).mapError .circuit)
  p.steps c p.passes

end Pipeline

end FlowCircuit
