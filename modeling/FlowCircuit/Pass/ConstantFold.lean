import FlowCircuit.Edit.Expr

/-!
# Evaluating constants

Sub-expressions that can be evaluated without running the circuit are replaced by what they evaluate
to, from the leaves up, in every function and declaration value:

* a binary operation on two integer or two boolean literals becomes a literal, unless the result
  does not fit the type of the operation or there is none;
* a field of a tuple that is spelled out, directly or behind a reference, becomes that field, unless
  the field's type differs from that of the access, as it does behind a nullable tuple.
-/

set_option autoImplicit false

namespace FlowCircuit.ConstantFold

/-- The name of the pass in what it reports. -/
def name : String := "constant_fold"

/-- The value of an operation on two integers. -/
def onIntegers (op : BinOp) (a b : Int64) : Option Literal :=
  match op with
  | .add => (Word.add? a b).map .integer
  | .sub => (Word.sub? a b).map .integer
  | .mul => (Word.mul? a b).map .integer
  | .div => (Word.div? a b).map .integer
  | .eq => some (.bool (decide (a.toInt = b.toInt)))
  | .ne => some (.bool (decide (a.toInt ≠ b.toInt)))
  | .lt => some (.bool (decide (a.toInt < b.toInt)))
  | .le => some (.bool (decide (a.toInt ≤ b.toInt)))
  | .gt => some (.bool (decide (a.toInt > b.toInt)))
  | .ge => some (.bool (decide (a.toInt ≥ b.toInt)))
  | .and | .or => none

/-- The value of an operation on two booleans. -/
def onBooleans (op : BinOp) (a b : Bool) : Option Literal :=
  match op with
  | .and => some (.bool (a && b))
  | .or => some (.bool (a || b))
  | .eq => some (.bool (a == b))
  | .ne => some (.bool (a != b))
  | _ => none

/-- The value of an operation on two literals. -/
def evaluate (op : BinOp) : Literal → Literal → Option Literal
  | .integer a, .integer b => onIntegers op a b
  | .bool a, .bool b => onBooleans op a b
  | _, _ => none

/-- The literal a binary operation of type `ty` stands for. -/
def foldBinary (label : Label) (op : BinOp) (left right : Expr) (ty : Ty) : Option Expr := do
  let a ← left.literal?
  let b ← right.literal?
  let value ← evaluate op a b
  (Expr.literal label value ty).toOption

/-- The fields of a tuple that is spelled out, directly or behind a reference. -/
def spelledFields (base : Expr) : Option (List Expr) :=
  match base.form with
  | .tuple fields => some fields
  | .borrow ⟨_, _, .tuple fields⟩ => some fields
  | _ => none

/-- The field that an access of type `ty` stands for. -/
def foldField (base : Expr) (index : Nat) (ty : Ty) : Option Expr := do
  let fields ← spelledFields base
  let field ← fields[index]?
  if field.ty.same ty then some field else none

/-- What a node whose sub-expressions are evaluated stands for, if it can be evaluated; `label` is
for a literal that has to be made. -/
def fold (label : Label) (e : Expr) : Option Expr :=
  match e.form with
  | .binary op left right => foldBinary label op left right e.ty
  | .field base index => foldField base index e.ty
  | _ => none

/-- The edit that evaluates, counting how often it does. -/
def edit : ExprEdit Nat where
  after e := do
    let label ← Job.fresh
    match fold label e with
    | some result =>
      Job.report (.folded name e result)
      Job.update (· + 1)
      return result
    | none => return e

/-- Evaluates constants in every function and declaration value. -/
def run (c : Circuit) : Run Unit Circuit := do
  let (result, memo) ← Job.withState (Memo.start (Memo.start 0)) (c.editFunctions edit.apply)
  Job.report (.expressionsFolded name memo.hooks.hooks c.name)
  return result

end FlowCircuit.ConstantFold
