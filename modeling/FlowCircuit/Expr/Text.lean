import FlowCircuit.Expr.Basic

/-!
# Expressions as source text

Expressions are written as source of the target runtime.  A borrow is `&e`, a field `t.0`, a binary
operation stands in parentheses, and a closure spells out its parameters and the type of its body.
-/

set_option autoImplicit false

namespace FlowCircuit

/-- A parameter as it stands in the head of a closure. -/
def Parameter.text (p : Parameter) : String := p.name ++ ": " ++ p.ty.text

/-- A Z-set from the texts of its elements with their weights.  One without rows shows the type of
its elements instead. -/
def ZSet.textOf (elementTy : Ty) : List String → String
  | [] => "zset!(<" ++ elementTy.text ++ ">)"
  | rows => "zset!(" ++ Text.listed rows ++ ")"

namespace Expr

mutual

/-- The expression as source text. -/
def text : Expr → String
  | ⟨_, ty, .literal value⟩ => value.source ty
  | ⟨_, _, .zset ⟨elementTy, _, _, rows⟩⟩ => ZSet.textOf elementTy (rowTexts rows)
  | ⟨_, _, .tuple fields⟩ => Text.tupled (texts fields)
  | ⟨_, _, .borrow operand⟩ => "&" ++ text operand
  | ⟨_, _, .var name⟩ => name
  | ⟨_, _, .field base index⟩ => text base ++ "." ++ toString index
  | ⟨_, _, .closure params body⟩ =>
    "move |" ++ Text.listed (params.map Parameter.text) ++ "| -> " ++ body.ty.text
      ++ " \x7b " ++ text body ++ " \x7d"
  | ⟨_, _, .binary op left right⟩ =>
    "(" ++ text left ++ " " ++ op.symbol ++ " " ++ text right ++ ")"

/-- The texts of several expressions. -/
def texts : List Expr → List String
  | [] => []
  | e :: es => text e :: texts es

/-- The texts of rows: the element, an arrow and the weight. -/
def rowTexts : List (Row Expr) → List String
  | [] => []
  | ⟨_, element, weight⟩ :: rows =>
    (text element ++ " => " ++ toString weight.toInt) :: rowTexts rows

end

theorem texts_eq_map (es : List Expr) : texts es = es.map text := by
  induction es with
  | nil => rfl
  | cons e es ih => simp [texts, ih]

instance : ToString Expr := ⟨text⟩

end Expr

/-- The Z-set as source text. -/
def ZSet.text (z : ZSet Expr) : String := ZSet.textOf z.elementTy (Expr.rowTexts z.rows)

end FlowCircuit
