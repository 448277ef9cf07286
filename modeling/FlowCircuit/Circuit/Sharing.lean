import FlowCircuit.Circuit.Basic

/-!
# Which nodes are shared

Labels say which nodes are one, but their values say nothing.  A numbering makes sharing visible:
nodes get the numbers 0, 1, 2 … in the order in which they are first met, and the outline of an
expression lists the numbers of its nodes, going below a node only the first time.  Two circuits
with equal texts and equal outlines are the same up to the choice of labels.
-/

set_option autoImplicit false

namespace FlowCircuit

/-- Labels met so far; the number of a label is its place in the list. -/
structure Numbering where
  met : List Label

namespace Numbering

/-- At first no node has a number. -/
def start : Numbering := ⟨[]⟩

/-- The number of a label, and whether it is new. -/
def number (label : Label) : StateM Numbering (Nat × Bool) := fun n =>
  match n.met.findIdx? (· = label) with
  | some i => ((i, false), n)
  | none => ((n.met.length, true), ⟨n.met ++ [label]⟩)

/-- Numbers one node, and what is below it when it is new. -/
def outlineNode (label : Label) (below : StateM Numbering (List Nat)) :
    StateM Numbering (List Nat) := do
  let (i, isNew) ← number label
  if isNew then return i :: (← below) else return [i]

mutual

/-- The numbers of the nodes of an expression. -/
def outline : Expr → StateM Numbering (List Nat)
  | ⟨l, _, .literal _⟩ => outlineNode l (pure [])
  | ⟨l, _, .zset ⟨_, _, _, rows⟩⟩ => outlineNode l (outlineRows rows)
  | ⟨l, _, .tuple fields⟩ => outlineNode l (outlineAll fields)
  | ⟨l, _, .borrow a⟩ => outlineNode l (outline a)
  | ⟨l, _, .var _⟩ => outlineNode l (pure [])
  | ⟨l, _, .field a _⟩ => outlineNode l (outline a)
  | ⟨l, _, .closure _ a⟩ => outlineNode l (outline a)
  | ⟨l, _, .binary _ a b⟩ => outlineNode l (do return (← outline a) ++ (← outline b))

/-- The numbers of the nodes of several expressions, one after another. -/
def outlineAll : List Expr → StateM Numbering (List Nat)
  | [] => pure []
  | e :: es => do return (← outline e) ++ (← outlineAll es)

/-- The outlines of the elements of rows, one after another. -/
def outlineRows : List (Row Expr) → StateM Numbering (List Nat)
  | [] => pure []
  | ⟨_, e, _⟩ :: rows => do return (← outline e) ++ (← outlineRows rows)

end

end Numbering

/-- The expressions attached to a node: those of the aggregate and then the function of an operator,
or the value of a declaration. -/
def Node.expressions : Node → List Expr
  | .declaration d => [d.value]
  | .operator op => (op.aggregate.map Aggregate.children).getD [] ++ op.function.toList

/-- The outlines of the nodes of a circuit. -/
def Circuit.outlines (c : Circuit) : StateM Numbering (List (List Nat)) :=
  c.nodes.mapM fun node => Numbering.outlineAll node.expressions

/-- The place of a label among nodes. -/
def Circuit.position? (c : Circuit) (label : Label) : Option Nat :=
  c.nodes.findIdx? fun node => node.label = label

/-- For each operator, the places of its inputs among the nodes of the circuit. -/
def Circuit.inputPositions (c : Circuit) : List (List (Option Nat)) :=
  c.operators.map fun op => op.inputs.map fun input => c.position? input.label

end FlowCircuit
