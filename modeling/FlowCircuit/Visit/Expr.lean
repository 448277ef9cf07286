import FlowCircuit.Session

/-!
# Walking types, expressions and aggregates

A visitor is a set of hooks, two for each sort of part: one on entering a part, before anything
below it, and one on leaving it, after everything below it.  The hook on entering may ask to skip
the part; then neither what is below it nor its hook on leaving is visited.  A hook that fails ends
the walk with its error.

Below an expression come its type and then its sub-expressions; below an aggregate the expressions
of each accumulator in turn.
-/

set_option autoImplicit false

namespace FlowCircuit

/-- What to do below a part that was entered. -/
inductive Flow where
  | descend
  | skip
deriving DecidableEq

/-- Hooks on types, expressions and aggregates.  Those left out do nothing. -/
structure Visitor (σ : Type) where
  enterTy : Ty → Run σ Flow := fun _ => pure .descend
  leaveTy : Ty → Run σ Unit := fun _ => pure ()
  enterExpr : Expr → Run σ Flow := fun _ => pure .descend
  leaveExpr : Expr → Run σ Unit := fun _ => pure ()
  enterAggregate : Aggregate → Run σ Flow := fun _ => pure .descend
  leaveAggregate : Aggregate → Run σ Unit := fun _ => pure ()

/-- Enters a part, and unless told to skip it goes below and leaves. -/
def Flow.around {σ : Type} (enter : Run σ Flow) (below leave : Run σ Unit) : Run σ Unit := do
  match ← enter with
  | .skip => pure ()
  | .descend =>
    below
    leave

namespace Visitor

variable {σ : Type} (v : Visitor σ)

mutual

/-- Walks a type and the types nested in it. -/
def walkTy : Ty → Run σ Unit
  | .scalar k n => Flow.around (v.enterTy (.scalar k n)) (pure ()) (v.leaveTy (.scalar k n))
  | .tuple fs n => Flow.around (v.enterTy (.tuple fs n)) (walkTys fs) (v.leaveTy (.tuple fs n))
  | .ref t m n => Flow.around (v.enterTy (.ref t m n)) (walkTy t) (v.leaveTy (.ref t m n))
  | .zset e w n =>
    Flow.around (v.enterTy (.zset e w n)) (do walkTy e; walkTy w) (v.leaveTy (.zset e w n))
  | .function ps r n =>
    Flow.around (v.enterTy (.function ps r n)) (do walkTys ps; walkTy r)
      (v.leaveTy (.function ps r n))

/-- Several types, in order. -/
def walkTys : List Ty → Run σ Unit
  | [] => pure ()
  | t :: ts => do
    walkTy t
    walkTys ts

end

/-- Walks one expression node, given the walk over its sub-expressions. -/
def walkNode (e : Expr) (below : Run σ Unit) : Run σ Unit :=
  Flow.around (v.enterExpr e) (do v.walkTy e.ty; below) (v.leaveExpr e)

mutual

/-- Walks an expression: its type, then its sub-expressions in order. -/
def walkExpr : Expr → Run σ Unit
  | ⟨l, t, .literal x⟩ => v.walkNode ⟨l, t, .literal x⟩ (pure ())
  | ⟨l, t, .zset ⟨e, w, n, rows⟩⟩ => v.walkNode ⟨l, t, .zset ⟨e, w, n, rows⟩⟩ (walkRows rows)
  | ⟨l, t, .tuple fs⟩ => v.walkNode ⟨l, t, .tuple fs⟩ (walkExprs fs)
  | ⟨l, t, .borrow a⟩ => v.walkNode ⟨l, t, .borrow a⟩ (walkExpr a)
  | ⟨l, t, .var x⟩ => v.walkNode ⟨l, t, .var x⟩ (pure ())
  | ⟨l, t, .field a i⟩ => v.walkNode ⟨l, t, .field a i⟩ (walkExpr a)
  | ⟨l, t, .closure ps a⟩ => v.walkNode ⟨l, t, .closure ps a⟩ (walkExpr a)
  | ⟨l, t, .binary o a b⟩ => v.walkNode ⟨l, t, .binary o a b⟩ (do walkExpr a; walkExpr b)

/-- Several expressions, in order. -/
def walkExprs : List Expr → Run σ Unit
  | [] => pure ()
  | e :: es => do
    walkExpr e
    walkExprs es

/-- The elements of rows, in order. -/
def walkRows : List (Row Expr) → Run σ Unit
  | [] => pure ()
  | ⟨_, e, _⟩ :: rows => do
    walkExpr e
    walkRows rows

end

/-- Walks every expression of every accumulator. -/
def walkAggregate (a : Aggregate) : Run σ Unit :=
  Flow.around (v.enterAggregate a) (v.walkExprs a.children) (v.leaveAggregate a)

theorem walkRows_eq (rows : List (Row Expr)) :
    v.walkRows rows = v.walkExprs (rows.map Row.element) := by
  induction rows with
  | nil => rfl
  | cons row rows ih => simp [walkRows, walkExprs, ih]

/-- The walk of an expression in terms of its children. -/
theorem walkExpr_eq (e : Expr) : v.walkExpr e = v.walkNode e (v.walkExprs e.children) := by
  rcases e with ⟨l, t, form⟩
  cases form <;>
    simp [walkExpr, walkExprs, Expr.children, Form.children, ZSet.elements, walkRows_eq]

end Visitor

end FlowCircuit
