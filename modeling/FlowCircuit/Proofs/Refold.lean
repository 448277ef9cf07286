import FlowCircuit.Proofs.Folding

/-!
# Evaluating equal expressions, and evaluating twice

What evaluating constants makes of an expression depends on the expression alone and not on which
node it is: expressions that are the same become expressions that are the same (`Folds.same`).
Labels, sharing and the order in which nodes were met play no part in it.

Nothing is left to be evaluated in the result (`Folds.normal`), and an expression in which nothing
can be evaluated becomes itself (`Folds.of_normal`).  So evaluating twice is evaluating once.
-/

set_option autoImplicit false

namespace FlowCircuit

/-! ## What is the same looks the same -/

namespace Expr

variable {a b : Expr} (h : a.same b = true)
include h

theorem same_literal {value : Literal} (ha : a.form = .literal value) :
    b.form = .literal value := by
  obtain ⟨-, hshape, -⟩ := same_iff_shape.mp h
  rcases a with ⟨l, s, f⟩
  rcases b with ⟨m, t, g⟩
  obtain rfl : f = .literal value := ha
  cases g with
  | literal y => exact congrArg Form.literal (Form.literal.inj hshape).symm
  | _ => cases hshape

theorem same_tuple {xs : List Expr} (ha : a.form = .tuple xs) :
    ∃ ys, b.form = .tuple ys ∧ List.Forall₂ (fun x y => x.same y = true) xs ys := by
  obtain ⟨-, hshape, hchildren⟩ := same_iff_shape.mp h
  rcases a with ⟨l, s, f⟩
  rcases b with ⟨m, t, g⟩
  obtain rfl : f = .tuple xs := ha
  cases g with
  | tuple ys => exact ⟨ys, rfl, hchildren rfl⟩
  | _ => cases hshape

theorem same_borrow {x : Expr} (ha : a.form = .borrow x) :
    ∃ y, b.form = .borrow y ∧ x.same y = true := by
  obtain ⟨-, hshape, hchildren⟩ := same_iff_shape.mp h
  rcases a with ⟨l, s, f⟩
  rcases b with ⟨m, t, g⟩
  obtain rfl : f = .borrow x := ha
  cases g with
  | borrow y => exact ⟨y, rfl, (List.forall₂_cons.mp (hchildren rfl)).1⟩
  | _ => cases hshape

theorem same_field {x : Expr} {i : Nat} (ha : a.form = .field x i) :
    ∃ y, b.form = .field y i ∧ x.same y = true := by
  obtain ⟨-, hshape, hchildren⟩ := same_iff_shape.mp h
  rcases a with ⟨l, s, f⟩
  rcases b with ⟨m, t, g⟩
  obtain rfl : f = .field x i := ha
  cases g with
  | field y j =>
    obtain rfl : i = j := (Form.field.inj hshape).2
    exact ⟨y, rfl, (List.forall₂_cons.mp (hchildren rfl)).1⟩
  | _ => cases hshape

theorem same_binary {op : BinOp} {x x' : Expr} (ha : a.form = .binary op x x') :
    ∃ y y', b.form = .binary op y y' ∧ x.same y = true ∧ x'.same y' = true := by
  obtain ⟨-, hshape, hchildren⟩ := same_iff_shape.mp h
  rcases a with ⟨l, s, f⟩
  rcases b with ⟨m, t, g⟩
  obtain rfl : f = .binary op x x' := ha
  cases g with
  | binary op' y y' =>
    obtain rfl : op = op' := (Form.binary.inj hshape).1
    obtain ⟨hx, hrest⟩ := List.forall₂_cons.mp (hchildren rfl)
    exact ⟨y, y', rfl, hx, (List.forall₂_cons.mp hrest).1⟩
  | _ => cases hshape

end Expr

namespace ConstantFold

variable {a b e e' x : Expr} {label label' : Label}

/-! ## One node -/

/-- A node that stands for something is evaluated. -/
theorem fold_of_evaluated (h : Evaluated label e e') : fold label e = some e' := by
  cases h with
  | binary hform hleft hright hvalue hfits =>
    simp [fold, hform, foldBinary, Expr.literal?, hleft, hright, hvalue, Expr.literal, hfits,
      Except.toOption]
  | @field base _ index fields hform hbase hfield hty =>
    have hspelled : spelledFields base = some fields := by
      rcases hbase with hform | ⟨⟨l, t, f⟩, hform, rfl⟩ <;> simp [spelledFields, hform]
    simp [fold, hform, foldField, hspelled, hfield, hty]

/-- What a node stands for depends on the node only up to `same`. -/
theorem Evaluated.same (h : Evaluated label a x) (hab : a.same b = true) (label' : Label) :
    ∃ y, Evaluated label' b y ∧ x.same y = true := by
  have hty : a.ty = b.ty := (Expr.same_iff_shape.mp hab).1
  cases h with
  | @binary op left right u v value hform hleft hright hvalue hfits =>
    obtain ⟨left', right', hform', hl, hr⟩ := Expr.same_binary hab hform
    refine ⟨⟨label', b.ty, .literal value⟩, ?_, by simp [Expr.same, hty]⟩
    exact .binary hform' (Expr.same_literal hl hleft) (Expr.same_literal hr hright) hvalue
      (hty ▸ hfits)
  | @field base _ index fields hform hbase hfield hxty =>
    obtain ⟨base', hform', hbase'⟩ := Expr.same_field hab hform
    obtain ⟨fields', hspelled, hfields⟩ : ∃ fields', (base'.form = .tuple fields' ∨
        ∃ t, base'.form = .borrow t ∧ t.form = .tuple fields') ∧
        List.Forall₂ (fun x y => x.same y = true) fields fields' := by
      rcases hbase with htuple | ⟨t, hborrow, htuple⟩
      · obtain ⟨fields', htuple', hfields⟩ := Expr.same_tuple hbase' htuple
        exact ⟨fields', .inl htuple', hfields⟩
      · obtain ⟨t', hborrow', ht⟩ := Expr.same_borrow hbase' hborrow
        obtain ⟨fields', htuple', hfields⟩ := Expr.same_tuple ht htuple
        exact ⟨fields', .inr ⟨t', hborrow', htuple'⟩, hfields⟩
    obtain ⟨hi, rfl⟩ := List.getElem?_eq_some_iff.mp hfield
    have hi' : index < fields'.length := hfields.length_eq ▸ hi
    have hsame : fields[index].same fields'[index] = true := hfields.get hi hi'
    have hyty : fields'[index].ty = b.ty :=
      (Expr.same_iff_shape.mp hsame).1.symm.trans (hxty.trans hty)
    exact ⟨fields'[index], .field hform' hspelled (List.getElem?_eq_getElem hi') hyty, hsame⟩

/-- Nodes that are the same are the same once they are evaluated. -/
theorem same_getD_fold (h : a.same b = true) (label label' : Label) :
    ((fold label a).getD a).same ((fold label' b).getD b) = true := by
  cases ha : fold label a with
  | some x =>
    obtain ⟨y, hy, hxy⟩ := (evaluated_of_fold ha).same h label'
    rw [fold_of_evaluated hy]
    exact hxy
  | none =>
    cases hb : fold label' b with
    | none => exact h
    | some y =>
      obtain ⟨x, hx, -⟩ := (evaluated_of_fold hb).same (Expr.same_symm h) label
      cases ha.symm.trans (fold_of_evaluated hx)

/-- Whether a node can be evaluated does not depend on the label to be used. -/
theorem fold_eq_none (h : fold label e = none) (label' : Label) : fold label' e = none := by
  cases h' : fold label' e with
  | none => rfl
  | some y =>
    obtain ⟨x, hx, -⟩ := (evaluated_of_fold h').same (Expr.same_refl e) label
    cases h.symm.trans (fold_of_evaluated hx)

/-! ## Whole expressions -/

/-- Rebuilding expressions that are the same over sub-expressions that are gives expressions that
are. -/
theorem same_of_rebuilt {a₁ b₁ : Expr} {as bs : List Expr} (h : a.same b = true)
    (ha : a.Rebuilt as a₁) (hb : b.Rebuilt bs b₁)
    (hchildren : List.Forall₂ (fun x y => x.same y = true) as bs) : a₁.same b₁ = true := by
  obtain ⟨hty, hshape, -⟩ := Expr.same_iff_shape.mp h
  refine Expr.same_iff_shape.mpr ⟨?_, ?_, fun _ => ?_⟩
  · rw [ha.ty, hb.ty, hty]
  · rw [ha.shape, hb.shape, hshape]
  · rw [ha.children, hb.children]
    exact hchildren

namespace Folds

/-- The result of evaluating is well typed. -/
theorem wellTyped (h : Folds e e') : e'.WellTyped := by
  refine h.induction (P := fun _ e' => e'.WellTyped) fun {e e₁ cs} label _ ih hbuilt => ?_
  have hcs : ∀ c ∈ cs, c.WellTyped := fun c hc => by
    obtain ⟨_, -, h⟩ := forall₂_exists_left ih hc
    exact h
  have he₁ : e₁.WellTyped := Expr.wellTyped_iff.mpr ⟨hbuilt.typed, hbuilt.children ▸ hcs⟩
  exact getD_fold he₁ fun e' h => h.all he₁ fun _ ht => ht

/-- **Evaluating depends on the expression only up to `same`.** -/
theorem same {a' b' : Expr} (ha : Folds a a') (hb : Folds b b') (hab : a.same b = true)
    (hta : a.WellTyped) (htb : b.WellTyped) : a'.same b' = true := by
  refine ha.induction (P := fun a a' => ∀ b b', Folds b b' → a.same b = true → a.WellTyped →
    b.WellTyped → a'.same b' = true) ?_ b b' hb hab hta htb
  intro a a₁ as label _ ih hbuilt b b' hb hab hta htb
  cases hb with
  | @node _ b₁ bs label' hlen hbs hbuilt' =>
    refine same_getD_fold (same_of_rebuilt hab hbuilt hbuilt' ?_) label label'
    obtain ⟨-, -, hchildren⟩ := (Expr.same_iff hta htb).mp hab
    have hbs : List.Forall₂ Folds b.children bs :=
      List.forall₂_iff_zip.mpr ⟨hlen, fun h => hbs _ _ h⟩
    have hboth : List.Forall₂ (fun x y => x ∈ a.children ∧ y ∈ b.children ∧ x.same y = true)
        a.children b.children := forall₂_imp_of_mem hchildren fun x hx y hy h => ⟨hx, hy, h⟩
    have hsteps : List.Forall₂ (fun x y' => ∃ y ∈ b.children, x ∈ a.children ∧ x.same y = true ∧
        Folds y y') a.children bs :=
      forall₂_trans_of_mem hboth hbs fun x hx y y' h hy => ⟨y, h.2.1, hx, h.2.2, hy⟩
    refine forall₂_trans_of_mem ih.flip hsteps fun x' _ x y' hP h => ?_
    obtain ⟨y, hy, hx, hxy, hfolds⟩ := h
    exact hP y y' hfolds hxy (hta.child hx) (htb.child hy)

end Folds

/-! ## Nothing is left to be evaluated -/

/-- No node of the expression can be evaluated. -/
def Normal (e : Expr) : Prop := e.All fun d => ∀ label, fold label d = none

/-- What a node stands for has nothing left to be evaluated, if that is so of what is below the
node. -/
theorem Evaluated.normal (h : Evaluated label e e') (he : ∀ c ∈ e.children, Normal c) :
    Normal e' := by
  cases h with
  | binary =>
    refine Expr.all_iff.mpr ⟨fun _ => rfl, fun c hc => by cases hc⟩
  | @field base _ index fields hform hbase hfield =>
    have hmem : e' ∈ fields := List.mem_of_getElem? hfield
    have hnormal : Normal base := he base (by simp [Expr.children, hform, Form.children])
    refine hnormal.within ?_
    rcases hbase with htuple | ⟨t, hborrow, htuple⟩
    · exact Expr.within_of_mem_children (by simpa [Expr.children, htuple, Form.children] using hmem)
    · refine .child (c := t) (by simp [Expr.children, hborrow, Form.children]) ?_
      exact Expr.within_of_mem_children (by simpa [Expr.children, htuple, Form.children] using hmem)

namespace Folds

/-- **Nothing is left to be evaluated.** -/
theorem normal (h : Folds e e') : Normal e' := by
  refine h.induction (P := fun _ e' => Normal e') fun {e e₁ cs} label _ ih hbuilt => ?_
  have hcs : ∀ c ∈ e₁.children, Normal c := fun c hc => by
    rw [hbuilt.children] at hc
    obtain ⟨_, -, h⟩ := forall₂_exists_left ih hc
    exact h
  cases hfold : fold label e₁ with
  | none => exact Expr.all_iff.mpr ⟨fold_eq_none hfold, hcs⟩
  | some e' => exact (evaluated_of_fold hfold).normal hcs

/-- An expression in which nothing can be evaluated becomes itself. -/
theorem of_normal (h : Normal e) (ht : e.WellTyped) : Folds e e := by
  induction e using Expr.induction_children with
  | node e ih =>
    obtain ⟨hnone, hchildren⟩ := Expr.all_iff.mp h
    have hsame : List.Forall₂ Folds e.children e.children :=
      List.forall₂_same.mpr fun c hc => ih c hc (hchildren c hc) (ht.child hc)
    have hfolds := Folds.of_forall₂ e.label hsame ⟨rfl, rfl, rfl, ht.typed, fun _ => rfl⟩
    rwa [hnone, Option.getD_none] at hfolds

/-- An expression in which nothing can be evaluated becomes nothing else. -/
theorem eq_of_normal (h : Folds e e') (hnormal : Normal e) : e' = e := by
  refine h.induction (P := fun e e' => Normal e → e' = e)
    (fun {e e₁ cs} label _ ih hbuilt hnormal => ?_) hnormal
  obtain ⟨hnone, hchildren⟩ := Expr.all_iff.mp hnormal
  have hcs : List.Forall₂ (fun c c' => c' = c) e.children cs :=
    forall₂_imp_of_mem ih fun c hc _ _ h => h (hchildren c hc)
  rw [hbuilt.kept (List.forall₂_eq_eq_eq ▸ hcs.flip), hnone, Option.getD_none]

/-- Evaluating twice is evaluating once. -/
theorem again (h : Folds e e') : Folds e' e' := .of_normal h.normal h.wellTyped

end Folds

end ConstantFold
end FlowCircuit
