import FlowCircuit.Visit.Expr

/-!
# Walking circuits and files

The same convention of hooks one layer up: files, circuits, operators and declarations.  Nodes are
visited in the order of the list, and an operator is a leaf here — what it reads stands earlier in
the circuit and is not visited again.  `Visitor.onCircuit` reaches the expressions: it runs a
visitor of expressions over the aggregate and the function of every operator and over the value of
every declaration.
-/

set_option autoImplicit false

namespace FlowCircuit

/-- Hooks on files, circuits, operators and declarations.  Those left out do nothing. -/
structure CircuitVisitor (σ : Type) where
  enterFile : File → Run σ Flow := fun _ => pure .descend
  leaveFile : File → Run σ Unit := fun _ => pure ()
  enterCircuit : Circuit → Run σ Flow := fun _ => pure .descend
  leaveCircuit : Circuit → Run σ Unit := fun _ => pure ()
  enterOperator : Operator → Run σ Flow := fun _ => pure .descend
  leaveOperator : Operator → Run σ Unit := fun _ => pure ()
  enterDeclaration : Declaration → Run σ Flow := fun _ => pure .descend
  leaveDeclaration : Declaration → Run σ Unit := fun _ => pure ()

namespace CircuitVisitor

variable {σ : Type} (v : CircuitVisitor σ)

/-- An operator is entered and left; its inputs are visited as nodes of their own. -/
def walkOperator (op : Operator) : Run σ Unit :=
  Flow.around (v.enterOperator op) (pure ()) (v.leaveOperator op)

/-- A declaration is entered and left. -/
def walkDeclaration (d : Declaration) : Run σ Unit :=
  Flow.around (v.enterDeclaration d) (pure ()) (v.leaveDeclaration d)

/-- A node of either sort. -/
def walkNode : Node → Run σ Unit
  | .declaration d => v.walkDeclaration d
  | .operator op => v.walkOperator op

/-- The nodes of a circuit, in order. -/
def walkNodes : List Node → Run σ Unit
  | [] => pure ()
  | node :: nodes => do
    v.walkNode node
    walkNodes nodes

/-- Walks the nodes of a circuit in order. -/
def walkCircuit (c : Circuit) : Run σ Unit :=
  Flow.around (v.enterCircuit c) (v.walkNodes c.nodes) (v.leaveCircuit c)

/-- An item of a file. -/
def walkItem : FileItem → Run σ Unit
  | .declaration d => v.walkDeclaration d
  | .circuit c => v.walkCircuit c

/-- The items of a file, in order. -/
def walkItems : List FileItem → Run σ Unit
  | [] => pure ()
  | item :: items => do
    v.walkItem item
    walkItems items

/-- Walks the items of a file in order. -/
def walkFile (f : File) : Run σ Unit :=
  Flow.around (v.enterFile f) (v.walkItems f.items) (v.leaveFile f)

end CircuitVisitor

namespace Visitor

variable {σ : Type} (v : Visitor σ)

/-- Walks what is attached to an operator: the aggregate, then the function. -/
def walkAttached (op : Operator) : Run σ Unit := do
  match op.aggregate with
  | some a => v.walkAggregate a
  | none => pure ()
  match op.function with
  | some f => v.walkExpr f
  | none => pure ()

/-- The visitor over every expression of a circuit. -/
def onCircuit : CircuitVisitor σ where
  leaveOperator := v.walkAttached
  leaveDeclaration d := v.walkExpr d.value

/-- Walks every expression of a circuit. -/
def walkCircuit (c : Circuit) : Run σ Unit := v.onCircuit.walkCircuit c

end Visitor

end FlowCircuit
