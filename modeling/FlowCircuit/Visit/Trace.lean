import FlowCircuit.Visit.Circuit

/-!
# Traces of walks

The calls a walk makes on a visitor, in order.  A recorder is a visitor that writes down each call
and then answers as a given rule says: go on, skip what is below, or fail.  The rule knows the calls
before, so it can single out any call of the walk.  An answer to skip means nothing on leaving a
part.
-/

set_option autoImplicit false

namespace FlowCircuit

/-- What a recorder answers to a call. -/
inductive Reply where
  | proceed
  | skip
  | fail (e : Error)

namespace Reply

variable {κ : Type}

/-- Writes a call down and answers it, knowing the calls before it, the latest first. -/
def record (reply : List κ → κ → Reply) (call : κ) : Run (List κ) Flow := do
  let before ← Job.state
  Job.update (call :: ·)
  match reply before call with
  | .proceed => pure .descend
  | .skip => pure .skip
  | .fail e => throw e

/-- Writes down a call to which an answer to skip means nothing. -/
def recordLeaving (reply : List κ → κ → Reply) (call : κ) : Run (List κ) Unit := do
  let _ ← record reply call

end Reply

/-- A call on a visitor of types, expressions and aggregates. -/
inductive Visitor.Call where
  | enterTy (t : Ty)
  | leaveTy (t : Ty)
  | enterExpr (e : Expr)
  | leaveExpr (e : Expr)
  | enterAggregate (a : Aggregate)
  | leaveAggregate (a : Aggregate)

/-- A recorder of calls, the latest first. -/
def Visitor.recorder (reply : List Visitor.Call → Visitor.Call → Reply) :
    Visitor (List Visitor.Call) where
  enterTy t := Reply.record reply (.enterTy t)
  leaveTy t := Reply.recordLeaving reply (.leaveTy t)
  enterExpr e := Reply.record reply (.enterExpr e)
  leaveExpr e := Reply.recordLeaving reply (.leaveExpr e)
  enterAggregate a := Reply.record reply (.enterAggregate a)
  leaveAggregate a := Reply.recordLeaving reply (.leaveAggregate a)

/-- A call on a visitor of circuits. -/
inductive CircuitVisitor.Call where
  | enterFile (f : File)
  | leaveFile (f : File)
  | enterCircuit (c : Circuit)
  | leaveCircuit (c : Circuit)
  | enterOperator (op : Operator)
  | leaveOperator (op : Operator)
  | enterDeclaration (d : Declaration)
  | leaveDeclaration (d : Declaration)

/-- A recorder of calls, the latest first. -/
def CircuitVisitor.recorder (reply : List CircuitVisitor.Call → CircuitVisitor.Call → Reply) :
    CircuitVisitor (List CircuitVisitor.Call) where
  enterFile f := Reply.record reply (.enterFile f)
  leaveFile f := Reply.recordLeaving reply (.leaveFile f)
  enterCircuit c := Reply.record reply (.enterCircuit c)
  leaveCircuit c := Reply.recordLeaving reply (.leaveCircuit c)
  enterOperator op := Reply.record reply (.enterOperator op)
  leaveOperator op := Reply.recordLeaving reply (.leaveOperator op)
  enterDeclaration d := Reply.record reply (.enterDeclaration d)
  leaveDeclaration d := Reply.recordLeaving reply (.leaveDeclaration d)

end FlowCircuit
