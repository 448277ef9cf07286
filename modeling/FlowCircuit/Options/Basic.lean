import FlowCircuit.Error

/-!
# Options of the pipeline

Which passes run, whether circuits are checked around them, and how loudly their sizes are reported,
with what can go wrong on the way from a set of options to a finished circuit.
-/

set_option autoImplicit false

namespace FlowCircuit

/-- Options of the pipeline. -/
structure Options where
  /-- Names of the passes to run, in order. -/
  passes : List String
  /-- Whether circuits are checked before the first and after every pass. -/
  verify : Bool
  /-- Whether sizes around passes are reported to every reader, not only to those who ask for
  detail. -/
  logStatistics : Bool
deriving DecidableEq

/-- The options that hold unless others are given. -/
def Options.defaults : Options := ⟨["dead_code", "constant_fold", "dedup"], true, false⟩

/-- Why options or a pipeline failed. -/
inductive CompileError where
  | optionsNotFound (path : String)
  | optionsUnreadable (path : String)
  | optionsMalformed
  | unknownPass (name : String) (known : List String)
  | passFailed (pass : String) (cause : Error)
  | malformedResult (pass : String) (cause : Error)
  /-- The circuit given to the pipeline was at fault. -/
  | circuit (cause : Error)

/-- The error in words. -/
def CompileError.message : CompileError → String
  | .optionsNotFound path => s!"[DC001] Compiler options not found: {path}"
  | .optionsUnreadable path => s!"[DC002] Failed to read {path}"
  | .optionsMalformed => "[DC003] Failed to parse compiler options"
  | .unknownPass name known => s!"[DC004] Unknown pass '{name}' (available: {Text.listed known})"
  | .passFailed pass cause => s!"[DC005] Pass '{pass}' failed: {cause.message}"
  | .malformedResult pass cause =>
    s!"[DC006] Circuit produced by pass '{pass}' is malformed: {cause.message}"
  | .circuit cause => cause.message

end FlowCircuit
