import FlowCircuit.Expr.Build
import FlowCircuit.Proofs.Shape
import Mathlib.Data.List.Basic

/-!
# Well-typed expressions

The checked constructors give every node the type that its sort and its sub-expressions determine,
and refuse the rest.  `Expr.Typed` is that promise for one node, and `Expr.WellTyped` for a node and
all the nodes below it.  A Z-set literal promises more than a type: its rows are in strictly
ascending order of their keys, each key is that of its element, and no weight is zero
(`ZSet.WellFormed`).

What rests on it is that rebuilding cannot fail: over sub-expressions of the same types, every node
other than a Z-set is accepted again by its constructor, with the type it had
(`Expr.accepts_of_types`).
-/

set_option autoImplicit false

namespace FlowCircuit

/-- What holds of every constant Z-set: ascending keys, those of the elements, elements of the
declared type, and no weight zero. -/
structure ZSet.WellFormed (z : ZSet Expr) : Prop where
  ascending : z.rows.Pairwise fun a b => a.key.compare b.key = .lt
  keyed : ∀ row ∈ z.rows, row.element.key = .ok row.key
  typed : ∀ row ∈ z.rows, row.element.ty = z.elementTy
  nonzero : ∀ row ∈ z.rows, row.weight ≠ 0

namespace Expr

/-- The node has the type that its sort and the types of its sub-expressions determine. -/
def Typed (e : Expr) : Prop :=
  match e.form with
  | .literal value => value.fits e.ty = true
  | .zset z => e.ty = z.ty ∧ z.WellFormed
  | .tuple fields => e.ty.fields? = some (fields.map Expr.ty)
  | .borrow operand => e.ty = Ty.refTo operand.ty false
  | .var _ => True
  | .field base index => fieldTy base.ty index = .ok e.ty
  | .closure params body => e.ty = Ty.functionOf (params.map Parameter.ty) body.ty
  | .binary op left right => binaryTy op left.ty right.ty = .ok e.ty

/-- Every node of the expression is typed. -/
def WellTyped (e : Expr) : Prop := e.All Typed

theorem wellTyped_iff {e : Expr} :
    e.WellTyped ↔ e.Typed ∧ ∀ c ∈ e.children, c.WellTyped := all_iff

namespace WellTyped

variable {e : Expr}

theorem typed (h : e.WellTyped) : e.Typed := (wellTyped_iff.mp h).1

theorem child (h : e.WellTyped) {c : Expr} (hc : c ∈ e.children) : c.WellTyped :=
  (wellTyped_iff.mp h).2 c hc

end WellTyped

/-! ## Rebuilding over sub-expressions of the same types -/

theorem fieldMismatch?_eq_none (start : Nat) (fields : List Expr) :
    fieldMismatch? start (fields.map Expr.ty) fields = none := by
  induction fields generalizing start with
  | nil => rfl
  | cons field fields ih =>
    rw [List.map_cons, fieldMismatch?, if_pos (Ty.same_refl _)]
    exact ih (start + 1)

/-- Fields of exactly the declared types make a tuple. -/
theorem tupleTyped_of_types {ty : Ty} {fields : List Expr}
    (h : ty.fields? = some (fields.map Expr.ty)) (label : Label) :
    tupleTyped label ty fields = .ok ⟨label, ty, .tuple fields⟩ := by
  rw [tupleTyped, h]
  simp [fieldMismatch?_eq_none]

/-- The constructor of `e` accepts the sub-expressions `cs`: it makes a node of the type and the
shape of `e` over them. -/
def Accepts (e : Expr) (label : Label) (cs : List Expr) : Prop :=
  ∃ e', e.withChildren label cs = .ok e' ∧ e'.label = label ∧ e'.ty = e.ty ∧ e'.shape = e.shape ∧
    e'.children = cs ∧ e'.Typed

/-- **Sub-expressions of the same types are always accepted.**  Nodes without sub-expressions are
kept and not rebuilt, and Z-sets look at more than types. -/
theorem accepts_of_types {e : Expr} (he : e.Typed) (hz : e.zset? = none) {cs : List Expr}
    (hcs : cs.map Expr.ty = e.children.map Expr.ty) (hne : e.children ≠ []) (label : Label) :
    e.Accepts label cs := by
  have hlen : cs.length = e.children.length := by simpa using congrArg List.length hcs
  rcases e with ⟨l, ty, form⟩
  cases form with
  | literal x => exact absurd rfl hne
  | var x => exact absurd rfl hne
  | zset z => simp [zset?] at hz
  | tuple fs =>
    have hty : ty.fields? = some (cs.map Expr.ty) := by
      rw [hcs]
      exact he
    refine ⟨⟨label, ty, .tuple cs⟩, ?_, rfl, rfl, ?_, rfl, hty⟩
    · simp only [withChildren, hlen, ne_eq, not_true_eq_false, if_false]
      exact tupleTyped_of_types hty label
    · have hlen' : cs.length = fs.length := hlen
      simp [shape, Form.shape, Form.map, List.map_const', hlen']
  | borrow a =>
    obtain ⟨c, rfl⟩ : ∃ c, cs = [c] := List.length_eq_one_iff.mp hlen
    have hc : c.ty = a.ty := by simpa [children, Form.children] using hcs
    have he : ty = Ty.refTo a.ty false := he
    refine ⟨borrow label c, rfl, rfl, ?_, rfl, rfl, rfl⟩
    rw [borrow, hc, he]
  | field a i =>
    obtain ⟨c, rfl⟩ : ∃ c, cs = [c] := List.length_eq_one_iff.mp hlen
    have hc : c.ty = a.ty := by simpa [children, Form.children] using hcs
    have hty : fieldTy c.ty i = .ok ty := by
      rw [hc]
      exact he
    refine ⟨⟨label, ty, .field c i⟩, ?_, rfl, rfl, rfl, rfl, hty⟩
    change field label c i = _
    rw [field, hty]
    rfl
  | closure ps a =>
    obtain ⟨c, rfl⟩ : ∃ c, cs = [c] := List.length_eq_one_iff.mp hlen
    have hc : c.ty = a.ty := by simpa [children, Form.children] using hcs
    have he : ty = Ty.functionOf (ps.map Parameter.ty) a.ty := he
    refine ⟨closure label ps c, rfl, rfl, ?_, rfl, rfl, rfl⟩
    rw [closure, hc, he]
  | binary o a b =>
    obtain ⟨c, d, rfl⟩ : ∃ c d, cs = [c, d] := List.length_eq_two.mp hlen
    have hcd : c.ty = a.ty ∧ d.ty = b.ty := by simpa [children, Form.children] using hcs
    have hty : binaryTy o c.ty d.ty = .ok ty := by
      rw [hcd.1, hcd.2]
      exact he
    refine ⟨⟨label, ty, .binary o c d⟩, ?_, rfl, rfl, rfl, rfl, hty⟩
    change binary label o c d = _
    rw [binary, hty]
    rfl

end Expr

end FlowCircuit
