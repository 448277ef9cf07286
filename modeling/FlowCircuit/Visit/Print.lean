import FlowCircuit.Visit.Circuit

/-!
# Printing circuits and files

A circuit is printed as a function of the target runtime, one line to a node, and a file as its
items with a blank line between them.  The printer is a visitor: it indents by the number of
circuits it is in, which is at most one, and separates the items it meets outside of any circuit.
-/

set_option autoImplicit false

namespace FlowCircuit

/-- Text under construction. -/
structure Printer where
  text : String
  /-- How many circuits enclose what is printed next. -/
  depth : Nat
  /-- Items begun outside of any circuit. -/
  items : Nat

namespace Printer

/-- Nothing is printed, and nothing is open. -/
def start : Printer := ⟨"", 0, 0⟩

/-- Writes an indented line. -/
def line (content : String) (p : Printer) : Printer :=
  { p with text := p.text ++ String.join (List.replicate p.depth "    ") ++ content ++ "\n" }

/-- Begins an item: a blank line before it, unless it is the first or stands in a circuit. -/
def beginItem (p : Printer) : Printer :=
  if p.depth = 0 then
    { p with text := if p.items = 0 then p.text else p.text ++ "\n", items := p.items + 1 }
  else p

/-- What follows is inside of what was begun. -/
def deepen (p : Printer) : Printer := { p with depth := p.depth + 1 }

/-- What follows is outside again. -/
def rise (p : Printer) : Printer := { p with depth := p.depth - 1 }

/-- The first line of a circuit. -/
def header (name : String) : String := "fn " ++ name ++ "(circuit: &mut RootCircuit) \x7b"

/-- The visitor that prints. -/
def visitor : CircuitVisitor Printer where
  enterCircuit c := do
    Job.update fun p => (p.beginItem.line (header c.name)).deepen
    return .descend
  leaveCircuit _ := Job.update fun p => p.rise.line "\x7d"
  leaveOperator op := Job.update fun p => p.line op.text
  leaveDeclaration d := Job.update fun p => p.beginItem.line d.text

/-- What the visitor prints during a walk. -/
def printed (walk : Run Printer Unit) : String := (walk.exec ⟨0, [], start⟩).2.state.text

end Printer

/-- The circuit as source text. -/
def Circuit.text (c : Circuit) : String := Printer.printed (Printer.visitor.walkCircuit c)

/-- The file as source text. -/
def File.text (f : File) : String := Printer.printed (Printer.visitor.walkFile f)

end FlowCircuit
