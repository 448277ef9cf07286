import FlowCircuit.Edit.Circuit

/-!
# Changing expressions

Expressions are changed from the leaves up.  A hook may replace a node before anything below it is
looked at; otherwise its sub-expressions are changed first, the node is rebuilt if one of them came
back as another node, and a second hook has the last word.  What became of each node is remembered
by its label, so a shared node is changed once and stays shared.

`CircuitEdit.ofTransform` lifts a change of expressions to circuits: it is applied to the function
of every operator and the value of every declaration, once for each node among them.
-/

set_option autoImplicit false

namespace FlowCircuit

/-- State of hooks together with what became of the expressions so far. -/
structure Memo (σ : Type) where
  hooks : σ
  done : Replacements Expr

namespace Memo

variable {σ α : Type}

/-- At first no expression is done. -/
def start (hooks : σ) : Memo σ := ⟨hooks, .empty⟩

/-- Asks a hook. -/
def ask (hook : Run σ α) : Run (Memo σ) α :=
  Job.onPart Memo.hooks (fun m hooks => { m with hooks }) hook

/-- What became of `e` before, or else what `compute` makes of it now. -/
def remember (e : Expr) (compute : Run (Memo σ) Expr) : Run (Memo σ) Expr := do
  let m ← Job.state
  match m.done.get? e with
  | some result => return result
  | none =>
    let result ← compute
    Job.update fun m => { m with done := m.done.insert e result }
    return result

end Memo

/-- What becomes of an expression node.  The hooks left out change nothing. -/
structure ExprEdit (σ : Type) where
  /-- Replaces a node with everything below it. -/
  before : Expr → Run σ (Option Expr) := fun _ => pure none
  /-- Replaces a node whose sub-expressions are already changed. -/
  after : Expr → Run σ Expr := fun e => pure e

namespace ExprEdit

/-- The node over changed sub-expressions: itself when they are the ones it has. -/
def rebuild {σ : Type} (e : Expr) (children : List Expr) : Run σ Expr :=
  if e.children.map Expr.label = children.map Expr.label then pure e
  else Job.make fun label => e.withChildren label children

variable {σ : Type} (r : ExprEdit σ)

/-- What becomes of one node, given what becomes of its sub-expressions. -/
def applyNode (e : Expr) (below : Run (Memo σ) (List Expr)) : Run (Memo σ) Expr :=
  Memo.remember e do
    match ← Memo.ask (r.before e) with
    | some replacement => return replacement
    | none =>
      let children ← below
      let rebuilt ← rebuild e children
      Memo.ask (r.after rebuilt)

mutual

/-- What becomes of an expression. -/
def apply : Expr → Run (Memo σ) Expr
  | ⟨l, t, .literal x⟩ => r.applyNode ⟨l, t, .literal x⟩ (pure [])
  | ⟨l, t, .zset ⟨e, w, n, rows⟩⟩ => r.applyNode ⟨l, t, .zset ⟨e, w, n, rows⟩⟩ (applyRows rows)
  | ⟨l, t, .tuple fs⟩ => r.applyNode ⟨l, t, .tuple fs⟩ (applyAll fs)
  | ⟨l, t, .borrow a⟩ => r.applyNode ⟨l, t, .borrow a⟩ (do return [← apply a])
  | ⟨l, t, .var x⟩ => r.applyNode ⟨l, t, .var x⟩ (pure [])
  | ⟨l, t, .field a i⟩ => r.applyNode ⟨l, t, .field a i⟩ (do return [← apply a])
  | ⟨l, t, .closure ps a⟩ => r.applyNode ⟨l, t, .closure ps a⟩ (do return [← apply a])
  | ⟨l, t, .binary o a b⟩ =>
    r.applyNode ⟨l, t, .binary o a b⟩ (do return [← apply a, ← apply b])

/-- Several expressions, in order. -/
def applyAll : List Expr → Run (Memo σ) (List Expr)
  | [] => pure []
  | e :: es => do
    let new ← apply e
    let rest ← applyAll es
    return new :: rest

/-- The elements of rows, in order. -/
def applyRows : List (Row Expr) → Run (Memo σ) (List Expr)
  | [] => pure []
  | ⟨_, e, _⟩ :: rows => do
    let new ← apply e
    let rest ← applyRows rows
    return new :: rest

end

theorem applyRows_eq (rows : List (Row Expr)) :
    r.applyRows rows = r.applyAll (rows.map Row.element) := by
  induction rows with
  | nil => rfl
  | cons row rows ih => simp [applyRows, applyAll, ih]

/-- What becomes of an expression, in terms of its children. -/
theorem apply_eq (e : Expr) : r.apply e = r.applyNode e (r.applyAll e.children) := by
  rcases e with ⟨l, t, form⟩
  cases form <;>
    simp [apply, applyAll, Expr.children, Form.children, ZSet.elements, applyRows_eq]

end ExprEdit

namespace CircuitEdit

variable {σ : Type}

/-- The edit that applies a transform to functions of operators and values of declarations. -/
def ofTransform (transform : Expr → Run σ Expr) : CircuitEdit (Memo σ) where
  name := "function rewriter"
  operator op inputs := do
    let function ← match op.function with
      | none => pure none
      | some f => do pure (some (← Memo.remember f (Memo.ask (transform f))))
    if function.map Expr.label = op.function.map Expr.label && op.hasInputs inputs then
      return some op
    else
      let new ← Job.make fun label => op.withParts label function op.aggregate inputs
      return some new
  declaration d := do
    let value ← Memo.remember d.value (Memo.ask (transform d.value))
    if identical value d.value then return some d
    else
      let label ← Job.fresh
      return some (d.withValue label value)

end CircuitEdit

/-- Applies a transform to every function and declaration value of a circuit. -/
def Circuit.editFunctions {σ : Type} (transform : Expr → Run σ Expr) (c : Circuit) :
    Run (Memo σ) Circuit :=
  (CircuitEdit.ofTransform transform).apply c

end FlowCircuit
