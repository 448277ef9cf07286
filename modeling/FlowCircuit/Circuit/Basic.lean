import FlowCircuit.Operator.Basic

/-!
# Circuits and files

A circuit is a named list of declarations and operators, and a file a list of declarations and
circuits.  The order of the list is the order in which everything is visited and printed, and every
change of a circuit keeps it.

Nothing is checked when a circuit is put together.  `Circuit.validate` says whether it is well
formed: no two operators share a number, and every operator reads only operators that stand before
it in the list — those very nodes, not copies with the same number.
-/

set_option autoImplicit false

namespace FlowCircuit

/-- A named constant that every operator of a circuit can refer to. -/
structure Declaration where
  label : Label
  name : String
  value : Expr

instance : Labelled Declaration := ⟨Declaration.label⟩

namespace Declaration

/-- The type of what is declared. -/
def ty (d : Declaration) : Ty := d.value.ty

/-- A replacement bound to another value. -/
def withValue (label : Label) (d : Declaration) (value : Expr) : Declaration :=
  ⟨label, d.name, value⟩

/-- A variable that refers to the declaration. -/
def reference (label : Label) (d : Declaration) : Expr := Expr.var label d.name d.ty

/-- The declaration as a line of source. -/
def text (d : Declaration) : String :=
  "let " ++ d.name ++ ": " ++ d.ty.text ++ " = " ++ d.value.text ++ ";"

end Declaration

/-- A node of a circuit. -/
inductive Node where
  | declaration (d : Declaration)
  | operator (op : Operator)

namespace Node

/-- What tells the node from others. -/
def label : Node → Label
  | .declaration d => d.label
  | .operator op => op.label

/-- The operator, if the node is one. -/
def operator? : Node → Option Operator
  | .operator op => some op
  | .declaration _ => none

/-- The declaration, if the node is one. -/
def declaration? : Node → Option Declaration
  | .declaration d => some d
  | .operator _ => none

end Node

instance : Labelled Node := ⟨Node.label⟩

/-- A named list of nodes. -/
structure Circuit where
  name : String
  nodes : List Node

namespace Circuit

/-- The operators in order. -/
def operators (c : Circuit) : List Operator := c.nodes.filterMap Node.operator?

/-- The declarations in order. -/
def declarations (c : Circuit) : List Declaration := c.nodes.filterMap Node.declaration?

/-- The first operator with the given number. -/
def operator? (c : Circuit) (id : OpId) : Option Operator := c.operators.find? fun op => op.id = id

/-- The sinks in order. -/
def sinks (c : Circuit) : List Operator := c.operators.filter fun op => op.sinkName?.isSome

/-- Whether `op` may read `input`, given the operators before it. -/
def checkInput (circuit : String) (before : List Operator) (op input : Operator) :
    Except Error Unit :=
  match before.find? fun known => known.id = input.id with
  | none => .error (.violation (.undefinedInput op.id input.id circuit))
  | some known =>
    if identical known input then .ok ()
    else .error (.violation (.staleInput op.id input.id circuit))

/-- Checks operators in order; `before` are the ones already passed. -/
def checkOperators (circuit : String) (before : List Operator) : List Operator → Except Error Unit
  | [] => .ok ()
  | op :: rest => do
    op.inputs.forM (checkInput circuit before op)
    if before.any fun known => known.id = op.id then
      throw (.violation (.duplicateId op.id circuit))
    checkOperators circuit (op :: before) rest

/-- Whether the circuit is well formed; if not, what is wrong with the first operator at fault. -/
def validate (c : Circuit) : Except Error Unit := checkOperators c.name [] c.operators

end Circuit

/-- An item of a file. -/
inductive FileItem where
  /-- A declaration that all circuits of the file can refer to. -/
  | declaration (d : Declaration)
  | circuit (c : Circuit)

/-- A list of declarations and circuits. -/
structure File where
  items : List FileItem

/-- The circuits in order. -/
def File.circuits (f : File) : List Circuit :=
  f.items.filterMap fun
    | .circuit c => some c
    | .declaration _ => none

end FlowCircuit
