import FlowCircuit.ZSet.Basic

/-!
# Expressions

An expression is a tree of typed nodes, but also a graph: one node may stand in many places, and
whether two places hold *the same node* or only equal ones is something every later stage cares
about.  Each node therefore carries a label.  Labels are drawn from a supply that never repeats
itself, so equal labels mean one node; structural comparison (`Expr.same`) does not look at them.

`Form α` is one layer of an expression: the sort of node with its payload, and `α` in the places of
the sub-expressions.  With every sub-expression replaced by its label (`Expr.outline`), "the same
payload over the same child nodes" can be read off two layers (`Form.alike`), which is what
`Expr.shallowSame` tests.

Nodes are made by the checked constructors of `FlowCircuit.Expr.Build`; this file has their parts
and the comparisons.
-/

set_option autoImplicit false

namespace FlowCircuit

/-- What tells one node from another. -/
abbrev Label := Nat

/-- Values that are nodes. -/
class Labelled (α : Type) where
  label : α → Label

/-- Whether two handles are to one node. -/
def identical {α : Type} [Labelled α] (a b : α) : Bool := Labelled.label a == Labelled.label b

/-- Binary operators. -/
inductive BinOp where
  | add
  | sub
  | mul
  | div
  | eq
  | ne
  | lt
  | le
  | gt
  | ge
  | and
  | or
deriving DecidableEq

namespace BinOp

/-- The operator as it is written. -/
def symbol : BinOp → String
  | .add => "+"
  | .sub => "-"
  | .mul => "*"
  | .div => "/"
  | .eq => "=="
  | .ne => "!="
  | .lt => "<"
  | .le => "<="
  | .gt => ">"
  | .ge => ">="
  | .and => "&&"
  | .or => "||"

/-- Operators on numbers that give a number. -/
def isArithmetic : BinOp → Bool
  | .add | .sub | .mul | .div => true
  | _ => false

/-- Operators that compare two values of one type. -/
def isComparison : BinOp → Bool
  | .eq | .ne | .lt | .le | .gt | .ge => true
  | _ => false

/-- Conjunction and disjunction. -/
def isLogical : BinOp → Bool
  | .and | .or => true
  | _ => false

/-- All operators, in the order in which they are declared. -/
def all : List BinOp := [.add, .sub, .mul, .div, .eq, .ne, .lt, .le, .gt, .ge, .and, .or]

/-- The operator written as `symbol`. -/
def ofSymbol? (symbol : String) : Option BinOp := all.find? fun op => op.symbol = symbol

end BinOp

/-- A parameter of a closure. -/
structure Parameter where
  name : String
  ty : Ty
deriving DecidableEq

/-- One layer of an expression over sub-expressions `α`. -/
inductive Form (α : Type) where
  | literal (value : Literal)
  /-- A constant Z-set; its elements are the sub-expressions. -/
  | zset (rows : ZSet α)
  | tuple (fields : List α)
  /-- A reference to a value. -/
  | borrow (operand : α)
  /-- A parameter of an enclosing closure, or a declaration. -/
  | var (name : String)
  /-- A field of a tuple, or of a reference to one. -/
  | field (base : α) (index : Nat)
  | closure (params : List Parameter) (body : α)
  | binary (op : BinOp) (left right : α)
deriving DecidableEq

namespace Form

variable {α β : Type}

/-- Sub-expressions in order. -/
def children : Form α → List α
  | .literal _ | .var _ => []
  | .zset z => z.elements
  | .tuple fields => fields
  | .borrow operand => [operand]
  | .field base _ => [base]
  | .closure _ body => [body]
  | .binary _ left right => [left, right]

/-- The same layer over other sub-expressions. -/
def map (f : α → β) : Form α → Form β
  | .literal value => .literal value
  | .zset z => .zset (z.map f)
  | .tuple fields => .tuple (fields.map f)
  | .borrow operand => .borrow (f operand)
  | .var name => .var name
  | .field base index => .field (f base) index
  | .closure params body => .closure params (f body)
  | .binary op left right => .binary op (f left) (f right)

/-- The name of the sort of node in messages. -/
def kindName : Form α → String
  | .literal _ => "literal"
  | .zset _ => "zset"
  | .tuple _ => "tuple"
  | .borrow _ => "deref"
  | .var _ => "variable"
  | .field .. => "field"
  | .closure .. => "closure"
  | .binary .. => "binary"

/-- The same payload over the same nodes.  Of Z-sets the weights and the nodes are compared, and not
the keys or the declared types. -/
def alike : Form Label → Form Label → Bool
  | .zset a, .zset b => a.entries == b.entries
  | a, b => a == b

end Form

/-- A typed expression node. -/
structure Expr where
  label : Label
  ty : Ty
  form : Form Expr

instance : Labelled Expr := ⟨Expr.label⟩

namespace Expr

/-- Sub-expressions in order. -/
def children (e : Expr) : List Expr := e.form.children

mutual

/-- A property that passes from the sub-expressions of a node to the node holds of every
expression. -/
theorem induction_children {P : Expr → Prop} (node : ∀ e, (∀ c ∈ e.children, P c) → P e) :
    ∀ e : Expr, P e
  | ⟨l, t, .literal x⟩ => node _ (by simp [children, Form.children])
  | ⟨l, t, .zset ⟨e, w, n, rows⟩⟩ => node _ (by
      simpa [children, Form.children, ZSet.elements] using induction_rows node rows)
  | ⟨l, t, .tuple fs⟩ => node _ (by simpa [children, Form.children] using induction_list node fs)
  | ⟨l, t, .borrow a⟩ => node _ (by simpa [children, Form.children] using induction_children node a)
  | ⟨l, t, .var x⟩ => node _ (by simp [children, Form.children])
  | ⟨l, t, .field a i⟩ =>
    node _ (by simpa [children, Form.children] using induction_children node a)
  | ⟨l, t, .closure ps a⟩ => node _ (by
      simpa [children, Form.children] using induction_children node a)
  | ⟨l, t, .binary o a b⟩ => node _ (by
      simpa [children, Form.children] using
        ⟨induction_children node a, induction_children node b⟩)

theorem induction_list {P : Expr → Prop} (node : ∀ e, (∀ c ∈ e.children, P c) → P e) :
    ∀ es : List Expr, ∀ c ∈ es, P c
  | [] => by simp
  | e :: es => by
    simpa using ⟨induction_children node e, induction_list node es⟩

theorem induction_rows {P : Expr → Prop} (node : ∀ e, (∀ c ∈ e.children, P c) → P e) :
    ∀ rows : List (Row Expr), ∀ row ∈ rows, P row.element
  | [] => by simp
  | ⟨_, e, _⟩ :: rows => by
    simpa using ⟨induction_children node e, induction_rows node rows⟩

end

/-- The name of the sort of node in messages. -/
def kindName (e : Expr) : String := e.form.kindName

/-- The value, if the node is a scalar literal. -/
def literal? (e : Expr) : Option Literal :=
  match e.form with
  | .literal value => some value
  | _ => none

/-- The Z-set, if the node is a Z-set literal. -/
def zset? (e : Expr) : Option (ZSet Expr) :=
  match e.form with
  | .zset z => some z
  | _ => none

mutual

/-- Literals, Z-sets, and tuples of constants are constants. -/
def isConstant : Expr → Bool
  | ⟨_, _, .literal _⟩ => true
  | ⟨_, _, .zset _⟩ => true
  | ⟨_, _, .tuple fields⟩ => areConstant fields
  | _ => false

/-- Whether every one of several expressions is constant. -/
def areConstant : List Expr → Bool
  | [] => true
  | e :: es => isConstant e && areConstant es

end

mutual

/-- The value of a constant; of any other expression, the first part that is not constant. -/
def key : Expr → Except Expr Key
  | ⟨_, _, .literal value⟩ => .ok value.key
  | ⟨_, _, .zset z⟩ => .ok (.zset z.weights)
  | ⟨_, _, .tuple fields⟩ => (keys fields).map .tuple
  | e => .error e

/-- The values of several constants, or the first part that is not constant. -/
def keys : List Expr → Except Expr (List Key)
  | [] => .ok []
  | e :: es => do
    let k ← key e
    let ks ← keys es
    return k :: ks

end

/-! ## Comparison -/

mutual

/-- Deep comparison of two expressions: types, payloads and sub-expressions, but not labels. -/
def same : Expr → Expr → Bool
  | ⟨_, s, .literal a⟩, ⟨_, t, .literal b⟩ => s.same t && a == b
  | ⟨_, s, .zset a⟩, ⟨_, t, .zset b⟩ => s.same t && a.same b
  | ⟨_, s, .tuple as⟩, ⟨_, t, .tuple bs⟩ => s.same t && sameAll as bs
  | ⟨_, s, .borrow a⟩, ⟨_, t, .borrow b⟩ => s.same t && same a b
  | ⟨_, s, .var a⟩, ⟨_, t, .var b⟩ => s.same t && a == b
  | ⟨_, s, .field a i⟩, ⟨_, t, .field b j⟩ => s.same t && i == j && same a b
  | ⟨_, s, .closure ps a⟩, ⟨_, t, .closure qs b⟩ => s.same t && ps == qs && same a b
  | ⟨_, s, .binary o a c⟩, ⟨_, t, .binary p b d⟩ => s.same t && o == p && same a b && same c d
  | _, _ => false

/-- Two lists of expressions that agree one by one. -/
def sameAll : List Expr → List Expr → Bool
  | [], [] => true
  | a :: as, b :: bs => same a b && sameAll as bs
  | _, _ => false

end

/-- The top layer with every sub-expression replaced by its label. -/
def outline (e : Expr) : Form Label := e.form.map Expr.label

/-- Shallow comparison: one node, or the same type and payload over the same child nodes. -/
def shallowSame (a b : Expr) : Bool :=
  identical a b || a.ty.same b.ty && a.outline.alike b.outline

end Expr

end FlowCircuit
