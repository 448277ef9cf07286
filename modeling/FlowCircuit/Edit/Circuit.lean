import FlowCircuit.Edit.Replacements
import FlowCircuit.Session

/-!
# Changing circuits node by node

An edit decides for each node what becomes of it.  `CircuitEdit.apply` takes a circuit through an
edit in the order of its nodes and puts together what comes out.  An operator is offered with its
inputs already replaced, so all readers of an operator read the same replacement; a node met a
second time gets the replacement it had, and an operator once dropped stays dropped.

`keep` is asked before the inputs of an operator are looked up, so an operator dropped there may
read operators that were dropped too.  One that is kept and reads a dropped operator ends the run
with an error.
-/

set_option autoImplicit false

namespace FlowCircuit

/-- What becomes of the nodes of a circuit.  The hooks left out keep every node, and rebuild an
operator only when its inputs were replaced. -/
structure CircuitEdit (σ : Type) where
  /-- Name in errors and notices. -/
  name : String := "circuit rewrite"
  /-- Whether an operator survives. -/
  keep : Operator → Run σ Bool := fun _ => pure true
  /-- The replacement of a kept operator over its replaced inputs; `none` drops it. -/
  operator : Operator → List Operator → Run σ (Option Operator) := fun op inputs => do
    let new ← Job.make fun label => op.rebuildWithInputs label inputs
    return some new
  /-- The replacement of a declaration; `none` drops it. -/
  declaration : Declaration → Run σ (Option Declaration) := fun d => pure (some d)

namespace CircuitEdit

/-- How far an edit has come. -/
structure Progress (σ : Type) where
  hooks : σ
  operators : Replacements Operator
  /-- Labels of the operators that were dropped. -/
  removed : List Label
  declarations : Replacements Declaration

namespace Progress

variable {σ α : Type}

/-- At first nothing was met. -/
def start (hooks : σ) : Progress σ := ⟨hooks, .empty, [], .empty⟩

/-- Asks a hook. -/
def ask (hook : Run σ α) : Run (Progress σ) α :=
  Job.onPart Progress.hooks (fun p hooks => { p with hooks }) hook

end Progress

variable {σ : Type} (r : CircuitEdit σ)

/-- The replacement of an input of `op`. -/
def replacedInput (op input : Operator) : Run (Progress σ) Operator := do
  let p ← Job.state
  match p.operators.get? input with
  | some new => return new
  | none =>
    let why := if p.removed.contains input.label then "which was removed"
      else "which has not been visited"
    throw (.traversal r.name s!"{streamName op.id} reads {streamName input.id} {why}")

/-- Notes that an operator was dropped. -/
def drop (op : Operator) : Run (Progress σ) (Option Operator) := do
  Job.report (.removedOperator r.name op.id)
  Job.update fun p => { p with removed := op.label :: p.removed }
  return none

/-- What becomes of an operator that was not met before. -/
def newOperator (op : Operator) : Run (Progress σ) (Option Operator) := do
  if ← Progress.ask (r.keep op) then
    let inputs ← op.inputs.mapM (r.replacedInput op)
    match ← Progress.ask (r.operator op inputs) with
    | some new =>
      if !identical op new then
        Job.report (.replacedOperator r.name op.id)
      Job.update fun p => { p with operators := p.operators.insert op new }
      return some new
    | none => r.drop op
  else
    r.drop op

/-- What becomes of an operator. -/
def editOperator (op : Operator) : Run (Progress σ) (Option Operator) := do
  let p ← Job.state
  match p.operators.get? op with
  | some new => return some new
  | none => if p.removed.contains op.label then return none else r.newOperator op

/-- What becomes of a declaration. -/
def editDeclaration (d : Declaration) : Run (Progress σ) (Option Declaration) := do
  let p ← Job.state
  match p.declarations.get? d with
  | some new => return some new
  | none =>
    match ← Progress.ask (r.declaration d) with
    | some new =>
      Job.update fun p => { p with declarations := p.declarations.insert d new }
      return some new
    | none =>
      Job.report (.removedDeclaration r.name d.name)
      return none

/-- What becomes of a node; `none` if it is dropped. -/
def editNode : Node → Run (Progress σ) (Option Node)
  | .declaration d => do return (← r.editDeclaration d).map .declaration
  | .operator op => do return (← r.editOperator op).map .operator

/-- Edits nodes in order; what is dropped leaves no trace. -/
def editNodes : List Node → Run (Progress σ) (List Node)
  | [] => pure []
  | node :: nodes => do
    let new ← r.editNode node
    let rest ← editNodes nodes
    return new.toList ++ rest

/-- What becomes of a circuit: its nodes, edited in order, under its name. -/
def editCircuit (c : Circuit) : Run (Progress σ) Circuit := do
  let nodes ← r.editNodes c.nodes
  return ⟨c.name, nodes⟩

/-- What becomes of an item of a file; only a declaration can be dropped. -/
def editItem : FileItem → Run (Progress σ) (Option FileItem)
  | .declaration d => do return (← r.editDeclaration d).map .declaration
  | .circuit c => do return some (.circuit (← r.editCircuit c))

/-- Edits items in order.  Circuits of one file share what has become of their nodes. -/
def editItems : List FileItem → Run (Progress σ) (List FileItem)
  | [] => pure []
  | item :: items => do
    let new ← r.editItem item
    let rest ← editItems items
    return new.toList ++ rest

/-- Runs an edit from its start, and gives how far it came beside the outcome. -/
def runFromStart {α : Type} (job : Run (Progress σ) α) (s : Session σ) :
    Except Error α × Session (Progress σ) :=
  job.exec ⟨s.next, s.notices, .start s.state⟩

/-- Takes a circuit through the edit.  How many operators were replaced is reported also when the
run fails. -/
def apply (c : Circuit) : Run σ Circuit :=
  Job.of fun s =>
    let (outcome, s') := runFromStart (r.editCircuit c) s
    let operators := s'.state.operators
    let notice := Notice.operatorsReplaced r.name operators.replaced operators.size c.name
    (outcome, ⟨s'.next, notice :: s'.notices, s'.state.hooks⟩)

/-- Takes every declaration and circuit of a file through the edit. -/
def applyFile (f : File) : Run σ File :=
  Job.of fun s =>
    let (outcome, s') := runFromStart (r.editItems f.items) s
    (outcome.map File.mk, ⟨s'.next, s'.notices, s'.state.hooks⟩)

end CircuitEdit

end FlowCircuit
