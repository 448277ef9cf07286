import FlowCircuit.Expr.Basic
import Mathlib.Data.Set.Basic

/-!
# Expressions, layer by layer

An expression is a layer over sub-expressions.  The layer alone, with nothing in the places of the
sub-expressions, is its *shape*: the sort of node and its payload.  Shape and sub-expressions
together are all there is to a layer (`Form.map_eq_map_iff`), so comparing two nodes, rebuilding
one, or giving one a value never needs a case for each sort of node.

`Expr.Within` is the other direction: the nodes that make up an expression, at any depth.
-/

set_option autoImplicit false

namespace FlowCircuit

/-! ## A layer is its shape and its places -/

theorem ZSet.map_eq_map_iff {α β γ : Type} {f : α → γ} {g : β → γ} {z : ZSet α} {w : ZSet β} :
    z.map f = w.map g ↔
      z.map (fun _ => ()) = w.map (fun _ => ()) ∧ z.elements.map f = w.elements.map g := by
  rcases z with ⟨e, t, n, rows⟩
  rcases w with ⟨e', t', n', rows'⟩
  have rowwise : (rows.map fun row => (⟨row.key, f row.element, row.weight⟩ : Row γ)) =
        (rows'.map fun row => ⟨row.key, g row.element, row.weight⟩) ↔
      (rows.map fun row => (⟨row.key, (), row.weight⟩ : Row Unit)) =
          (rows'.map fun row => ⟨row.key, (), row.weight⟩) ∧
        (rows.map Row.element).map f = (rows'.map Row.element).map g := by
    induction rows generalizing rows' with
    | nil => cases rows' <;> simp
    | cons row rows ih =>
      cases rows' with
      | nil => simp
      | cons row' rows' =>
        simp only [List.map_cons, List.cons.injEq, Row.mk.injEq, ih]
        grind
  simp only [map, elements, mk.injEq]
  rw [rowwise]
  grind

namespace Form

variable {α β γ : Type}

/-- The sort of node with its payload. -/
def shape (form : Form α) : Form Unit := form.map fun _ => ()

/-- Two layers agree exactly when their shapes do and what stands in their places does. -/
theorem map_eq_map_iff {f : α → γ} {g : β → γ} {a : Form α} {b : Form β} :
    a.map f = b.map g ↔ a.shape = b.shape ∧ a.children.map f = b.children.map g := by
  cases a with
  | zset z =>
    cases b with
    | zset w =>
      simp only [shape, map, children, zset.injEq]
      exact ZSet.map_eq_map_iff
    | _ => simp [shape, map]
  | tuple fs =>
    cases b with
    | tuple gs =>
      simp only [shape, map, children, tuple.injEq]
      refine ⟨fun h => ⟨?_, h⟩, fun h => h.2⟩
      have := congrArg (List.map fun _ => ()) h
      simpa [Function.comp_def] using this
    | _ => simp [shape, map]
  | field x i => cases b <;> simp [shape, map, children, and_comm]
  | _ => cases b <;> simp [shape, map, children]

theorem kindName_map (f : α → β) (form : Form α) : (form.map f).kindName = form.kindName := by
  cases form <;> rfl

end Form

namespace Expr

/-- The sort of node with its payload. -/
def shape (e : Expr) : Form Unit := e.form.shape

/-- The outline is the shape over the labels of the sub-expressions. -/
theorem outline_eq_iff {a b : Expr} :
    a.outline = b.outline ↔
      a.shape = b.shape ∧ a.children.map label = b.children.map label :=
  Form.map_eq_map_iff

/-- The name of the sort of node is part of the shape. -/
theorem kindName_eq_of_shape {a b : Expr} (h : a.shape = b.shape) : a.kindName = b.kindName := by
  have hkind (e : Expr) : e.shape.kindName = e.kindName := Form.kindName_map _ e.form
  rw [← hkind, h, hkind]

/-! ## The nodes of an expression -/

/-- `d` is `e` itself, or a sub-expression of it at some depth. -/
inductive Within (d : Expr) : Expr → Prop
  | refl : Within d d
  | child {c e : Expr} (hc : c ∈ e.children) (h : Within d c) : Within d e

theorem Within.trans {a b c : Expr} (hab : a.Within b) (hbc : b.Within c) : a.Within c := by
  induction hbc with
  | refl => exact hab
  | child hc _ ih => exact .child hc ih

theorem within_of_mem_children {c e : Expr} (h : c ∈ e.children) : c.Within e := .child h .refl

theorem within_iff {d e : Expr} : d.Within e ↔ d = e ∨ ∃ c ∈ e.children, d.Within c := by
  constructor
  · rintro (_ | ⟨hc, h⟩)
    · exact Or.inl rfl
    · exact Or.inr ⟨_, hc, h⟩
  · rintro (rfl | ⟨c, hc, h⟩)
    · exact .refl
    · exact .child hc h

/-- A set that holds the children of its members holds their nodes at every depth. -/
theorem Within.mem_of_closed {S : Set Expr} (hS : ∀ e ∈ S, ∀ c ∈ e.children, c ∈ S) {d e : Expr}
    (h : d.Within e) (he : e ∈ S) : d ∈ S := by
  induction h with
  | refl => exact he
  | child hc _ ih => exact ih (hS _ he _ hc)

/-- Every node of `e` has the property. -/
def All (P : Expr → Prop) (e : Expr) : Prop := ∀ d : Expr, d.Within e → P d

theorem All.within {P : Expr → Prop} {d e : Expr} (h : e.All P) (hd : d.Within e) : d.All P :=
  fun d' hd' => h d' (hd'.trans hd)

theorem all_iff {P : Expr → Prop} {e : Expr} : e.All P ↔ P e ∧ ∀ c ∈ e.children, c.All P := by
  refine ⟨fun h => ⟨h e .refl, fun c hc => h.within (within_of_mem_children hc)⟩, fun h d hd => ?_⟩
  rcases within_iff.mp hd with rfl | ⟨c, hc, hd⟩
  · exact h.1
  · exact h.2 c hc d hd

end Expr

end FlowCircuit
