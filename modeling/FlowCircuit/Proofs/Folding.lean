import FlowCircuit.Pass.ConstantFold
import FlowCircuit.Proofs.Same
import FlowCircuit.Proofs.Transform

/-!
# What evaluating constants makes of an expression

`ConstantFold.Folds e e'` says what `e` is replaced by, without labels to be drawn or results to be
remembered: the sub-expressions are replaced first, the node is rebuilt over them, and the rebuilt
node is evaluated if it can be.  The run of the edit follows this relation on every expression it is
given, fails on none, and leaves a heap behind (`ConstantFold.edit_keeps`); everything else that is
said about the pass is an induction on the relation.

Types are kept (`Folds.ty`), and constants are left alone (`Folds.eq_of_key`).  The second is why
Z-sets, whose elements are constants, are never rebuilt.
-/

set_option autoImplicit false

namespace FlowCircuit.ConstantFold

/-! ## One node -/

/-- What a node that can be evaluated stands for. -/
inductive Evaluated (label : Label) (e : Expr) : Expr → Prop
  | binary {op : BinOp} {left right : Expr} {a b value : Literal}
      (hform : e.form = .binary op left right) (hleft : left.form = .literal a)
      (hright : right.form = .literal b) (hvalue : evaluate op a b = some value)
      (hfits : value.fits e.ty = true) : Evaluated label e ⟨label, e.ty, .literal value⟩
  | field {base field : Expr} {index : Nat} {fields : List Expr}
      (hform : e.form = .field base index)
      (hbase : base.form = .tuple fields ∨ ∃ t, base.form = .borrow t ∧ t.form = .tuple fields)
      (hfield : fields[index]? = some field) (hty : field.ty = e.ty) : Evaluated label e field

theorem form_of_spelledFields {base : Expr} {fields : List Expr}
    (h : spelledFields base = some fields) :
    base.form = .tuple fields ∨ ∃ t : Expr, base.form = .borrow t ∧ t.form = .tuple fields := by
  rw [spelledFields] at h
  split at h
  · rename_i fields' hform
    exact Or.inl (hform.trans (congrArg Form.tuple (Option.some.inj h)))
  · rename_i l t fields' hform
    exact Or.inr ⟨_, hform, congrArg Form.tuple (Option.some.inj h)⟩
  · cases h

theorem form_of_literal? {e : Expr} {value : Literal} (h : e.literal? = some value) :
    e.form = .literal value := by
  rw [Expr.literal?] at h
  split at h
  · rename_i value' hform
    exact hform.trans (congrArg Form.literal (Option.some.inj h))
  · cases h

/-- Everything that evaluating a node can give. -/
theorem evaluated_of_fold {label : Label} {e e' : Expr} (h : fold label e = some e') :
    Evaluated label e e' := by
  rw [fold] at h
  split at h
  · rename_i op left right hform
    simp only [foldBinary, Option.bind_eq_bind, Option.bind_eq_some_iff] at h
    obtain ⟨a, ha, b, hb, value, hvalue, hmade⟩ := h
    rw [Expr.literal] at hmade
    split at hmade
    · rename_i hfits
      obtain rfl := Option.some.inj hmade
      exact .binary hform (form_of_literal? ha) (form_of_literal? hb) hvalue hfits
    · split at hmade <;> cases hmade
  · rename_i base index hform
    simp only [foldField, Option.bind_eq_bind, Option.bind_eq_some_iff] at h
    obtain ⟨fields, hfields, field, hfield, hsome⟩ := h
    split at hsome
    · rename_i hty
      obtain rfl := Option.some.inj hsome
      exact .field hform (form_of_spelledFields hfields) hfield (by simpa using hty)
    · cases hsome
  · cases h

namespace Evaluated

variable {label : Label} {e e' : Expr}

theorem ty (h : Evaluated label e e') : e'.ty = e.ty := by
  cases h with
  | binary => rfl
  | field _ _ _ hty => exact hty

/-- The result is a new literal, or a node that was there. -/
theorem new_or_within (h : Evaluated label e e') :
    (∃ value : Literal, value.fits e.ty = true ∧ e' = ⟨label, e.ty, .literal value⟩) ∨
      e'.Within e := by
  cases h with
  | binary hform hleft hright hvalue hfits => exact Or.inl ⟨_, hfits, rfl⟩
  | @field base _ index fields hform hbase hfield =>
    have hb : base ∈ e.children := by simp [Expr.children, hform, Form.children]
    have hmem : e' ∈ fields := List.mem_of_getElem? hfield
    refine Or.inr (.child hb ?_)
    rcases hbase with htuple | ⟨t, hborrow, htuple⟩
    · exact Expr.within_of_mem_children (by simpa [Expr.children, htuple, Form.children] using hmem)
    · have ht : t ∈ base.children := by simp [Expr.children, hborrow, Form.children]
      refine .child ht ?_
      exact Expr.within_of_mem_children (by simpa [Expr.children, htuple, Form.children] using hmem)

/-- A property of the nodes of `e` that literals have holds of the nodes of the result. -/
theorem all {P : Expr → Prop} (h : Evaluated label e e') (he : e.All P)
    (hliteral : e'.children = [] → e'.Typed → P e') : e'.All P := by
  rcases h.new_or_within with ⟨value, hfits, rfl⟩ | hwithin
  · exact Expr.all_iff.mpr ⟨hliteral rfl hfits, List.forall_mem_nil _⟩
  · exact he.within hwithin

end Evaluated

/-- Evaluating a node of a heap leaves a heap that has the result. -/
theorem heap_of_fold {T : Set Expr} {next : Label} {e e' : Expr} (hT : Heap T next) (he : e ∈ T)
    (h : fold next e = some e') : ∃ T', T ⊆ T' ∧ Heap T' (next + 1) ∧ e' ∈ T' := by
  rcases (evaluated_of_fold h).new_or_within with ⟨value, hfits, rfl⟩ | hwithin
  · have htyped : Expr.Typed ⟨next, e.ty, .literal value⟩ := hfits
    exact ⟨insert _ T, Set.subset_insert _ T, hT.insert rfl (List.forall_mem_nil _) htyped,
      Set.mem_insert _ T⟩
  · exact ⟨T, Set.Subset.rfl, hT.mono (Nat.le_succ next), hT.mem_of_within hwithin he⟩

/-- A constant is not evaluated further. -/
theorem fold_eq_none_of_key {label : Label} {e : Expr} {k : Key}
    (hk : e.key = .ok k) :
    fold label e = none := by
  rcases e with ⟨l, ty, form⟩
  cases form with
  | field => simp [Expr.key] at hk
  | binary => simp [Expr.key] at hk
  | _ => rfl

/-! ## Whole expressions -/

/-- `e` is replaced by `e'`: `e₁` is `e` over the replacements of its sub-expressions, and `e'` is
what `e₁` stands for. -/
inductive Folds : Expr → Expr → Prop
  | node {e e₁ : Expr} {cs : List Expr} (label : Label) (hlen : e.children.length = cs.length)
      (hcs : ∀ a b, (a, b) ∈ e.children.zip cs → Folds a b) (hbuilt : e.Rebuilt cs e₁) :
      Folds e ((fold label e₁).getD e₁)

/-- Replacements are made from the leaves up, so a relation that passes from the sub-expressions to
the node is one that they keep. -/
theorem Folds.induction {P : Expr → Expr → Prop}
    (node : ∀ {e e₁ : Expr} {cs : List Expr} (label : Label), List.Forall₂ Folds e.children cs →
      List.Forall₂ P e.children cs → e.Rebuilt cs e₁ → P e ((fold label e₁).getD e₁))
    {e e' : Expr} (h : Folds e e') : P e e' := by
  induction h with
  | node label hlen hcs hbuilt ih =>
    exact node label (List.forall₂_iff_zip.mpr ⟨hlen, fun h => hcs _ _ h⟩)
      (List.forall₂_iff_zip.mpr ⟨hlen, fun h => ih _ _ h⟩) hbuilt

theorem Folds.of_forall₂ {e e₁ : Expr} {cs : List Expr} (label : Label)
    (hcs : List.Forall₂ Folds e.children cs) (hbuilt : e.Rebuilt cs e₁) :
    Folds e ((fold label e₁).getD e₁) :=
  .node label hcs.length_eq (fun _ _ h => (List.forall₂_iff_zip.mp hcs).2 h) hbuilt

/-- A node that is rebuilt and evaluated keeps what both steps keep. -/
theorem getD_fold {P : Expr → Prop} {label : Label} {e : Expr} (he : P e)
    (h : ∀ e', Evaluated label e e' → P e') : P ((fold label e).getD e) := by
  cases hfold : fold label e with
  | none => exact he
  | some e' => exact h e' (evaluated_of_fold hfold)

namespace Folds

variable {e e' : Expr}

theorem ty (h : Folds e e') : e'.ty = e.ty := by
  cases h with
  | node label _ _ hbuilt => exact getD_fold hbuilt.ty fun e' h' => h'.ty.trans hbuilt.ty

/-- Where constants are left alone, so are the sub-expressions of a constant. -/
theorem eq_children_of_key {R : Expr → Expr → Prop} {cs : List Expr} {k : Key}
    (hcs : List.Forall₂ R e.children cs)
    (hR : ∀ c c' k, R c c' → c.WellTyped → c.key = .ok k → c' = c) (ht : e.WellTyped)
    (hk : e.key = .ok k) : cs = e.children := by
  have heq : List.Forall₂ (fun c c' => c' = c) e.children cs :=
    forall₂_imp_of_mem hcs fun c hc c' _ h => by
      obtain ⟨k', hk'⟩ := Expr.exists_key_of_mem_children ht.typed hk hc
      exact hR c c' k' h (ht.child hc) hk'
  exact List.forall₂_eq_eq_eq ▸ heq.flip

/-- **Constants are left alone.** -/
theorem eq_of_key (h : Folds e e') {k : Key} (ht : e.WellTyped) (hk : e.key = .ok k) : e' = e := by
  refine h.induction (P := fun e e' => ∀ k, e.WellTyped → e.key = .ok k → e' = e)
    (fun {e e₁ cs} label _ ih hbuilt k ht hk => ?_) k ht hk
  have hcs : cs = e.children := eq_children_of_key ih (fun _ _ k' h' => h' k') ht hk
  rw [hbuilt.kept hcs, fold_eq_none_of_key hk, Option.getD_none]

/-- A Z-set stays a Z-set. -/
theorem isSome_zset? (h : Folds e e') (ht : e.WellTyped) (hsome : e.zset?.isSome) :
    e'.zset?.isSome := by
  obtain ⟨z, hz⟩ := Option.isSome_iff_exists.mp hsome
  rwa [h.eq_of_key ht (Expr.key_of_zset? hz)]

end Folds

/-! ## The run -/

/-- Replacements of sub-expressions are always accepted. -/
theorem accepts_of_folds {e : Expr} {cs : List Expr} (he : e.WellTyped)
    (hcs : List.Forall₂ Folds e.children cs) (hne : e.children ≠ []) (label : Label) :
    e.Accepts label cs := by
  cases hz : e.zset? with
  | none =>
    refine Expr.accepts_of_types he.typed hz ?_ hne label
    exact (forall₂_map_eq_iff.mp (hcs.imp fun _ _ h => h.ty.symm)).symm
  | some z =>
    -- the elements of a Z-set are constants
    have hkept : cs = e.children :=
      Folds.eq_children_of_key hcs (fun _ _ _ h => h.eq_of_key) he (Expr.key_of_zset? hz)
    rw [hkept]
    exact Expr.accepts_of_same he.typed (List.forall₂_same.mpr fun c _ => c.same_refl) hne label

/-- A node of a heap is evaluated if it can be. -/
theorem wp_after {T : Set Expr} {s : Session Nat} {fail : Error → Prop} {e : Expr}
    (hT : Heap T s.next) (he : e ∈ T) :
    Job.wp (edit.after e) (fun e' s' => ∃ T', T ⊆ T' ∧ s.next ≤ s'.next ∧ Heap T' s'.next ∧
      e' ∈ T' ∧ e' = (fold s.next e).getD e) fail s := by
  change Job.wp (Job.fresh >>= _) _ _ _
  rw [Job.wp_bind, Job.wp_fresh]
  cases hfold : fold s.next e with
  | none => exact ⟨T, Set.Subset.rfl, Nat.le_succ _, hT.mono (Nat.le_succ _), he, rfl⟩
  | some e' =>
    obtain ⟨T', hTT', hT', he'⟩ := heap_of_fold hT he hfold
    exact ⟨T', hTT', Nat.le_succ _, hT', he', rfl⟩

/-- A node of a heap is rebuilt over the replacements of its sub-expressions, and evaluated if it
can be. -/
theorem wp_rebuild_after {T : Set Expr} {s : Session Nat} {fail : Error → Prop} {e : Expr}
    {cs : List Expr} (hT : Heap T s.next) (he : e ∈ T)
    (hcs : List.Forall₂ (fun e e' => e' ∈ T ∧ Folds e e') e.children cs) :
    Job.wp (ExprEdit.rebuild e cs >>= edit.after) (fun e' s' => ∃ T', T ⊆ T' ∧ s.next ≤ s'.next ∧
      Heap T' s'.next ∧ e' ∈ T' ∧ ∃ e₁ label, e.Rebuilt cs e₁ ∧
        e' = (fold label e₁).getD e₁) fail s := by
  have hfolds : List.Forall₂ Folds e.children cs := hcs.imp fun _ _ h => h.2
  have hmem : ∀ c ∈ cs, c ∈ T := fun c hc => by
    obtain ⟨_, _, h, _⟩ := forall₂_exists_left hcs hc
    exact h
  rw [Job.wp_bind]
  refine (wp_rebuild hT he hmem hfolds.length_eq.symm fun hne =>
    accepts_of_folds (hT.wellTyped he) hfolds hne s.next).imp fun e₁ s₁ h => ?_
  obtain ⟨T₁, hTT₁, hT₁, he₁, hbuilt, hnext₁, -⟩ := h
  refine (wp_after hT₁ he₁).imp fun e' s₂ h => ?_
  obtain ⟨T₂, hT₁T₂, hnext₂, hT₂, he', heq⟩ := h
  exact ⟨T₂, hTT₁.trans hT₁T₂, hnext₁.trans hnext₂, hT₂, he', e₁, s₁.next, hbuilt, heq⟩

/-- **The edit follows the relation.**  It never fails, and its results are nodes of a heap that
grows. -/
theorem edit_keeps (S : Set Expr) (fail : Error → Prop) :
    edit.Keeps S (fun (T : Set Expr) s => S ⊆ T ∧ Heap T s.next)
      (fun T e e' => e' ∈ T ∧ Folds e e') fail where
  mono hT h := ⟨hT h.1, h.2⟩
  before hinv _ := ⟨_, le_refl _, le_refl _, hinv, by simp⟩
  after := by
    intro T s e cs ⟨hST, hT⟩ he hcs
    refine (wp_rebuild_after hT (hST he) hcs).imp fun e' s' h => ?_
    obtain ⟨T', hTT', hnext, hT', he', e₁, label, hbuilt, rfl⟩ := h
    exact ⟨T', hTT', hnext, ⟨hST.trans hTT', hT'⟩, he',
      .of_forall₂ label (hcs.imp fun _ _ h => h.2) hbuilt⟩

theorem edit_transforms {S : Set Expr} {next : Label} (hS : Heap S next) (fail : Error → Prop) :
    Transforms edit.apply S
      (Memo.Inv S (fun (T : Set Expr) s => S ⊆ T ∧ Heap T s.next) fun T e e' => e' ∈ T ∧ Folds e e')
      (fun T e e' => e' ∈ T ∧ Folds e e') fail := by
  refine (edit_keeps S fail).transforms hS.closed hS.one ?_ ?_ ?_ ?_
  · exact fun hs hle => ⟨hs.1, hs.2.mono hle⟩
  · exact fun hs => ⟨_, hs.1, hs.2, fun _ _ _ h => h.1⟩
  · exact fun h => h.2.ty
  · exact fun he h => h.2.isSome_zset? (hS.wellTyped he)

/-- **The pass evaluates constants in every function** and leaves the rest of the circuit as it
is. -/
theorem wp_run {c : Circuit} {s : Session Unit} {fail : Error → Prop} (hc : c.Made s.next)
    (hfail : (∀ e, fail e) ∨ c.validate = .ok ()) :
    Job.wp (run c) (fun c' s' => c.Transformed Folds c' ∧ c'.Made s'.next) fail s := by
  rw [run, Job.wp_bind, Job.wp_withState]
  refine ((edit_transforms hc.expressions fail).wp_editFunctions (fun f => Expr.mem_nodes) hc
    (Memo.inv_start (Memo.inv_start ⟨Set.Subset.rfl, hc.expressions⟩)) hfail).imp fun c' s' h => ?_
  obtain ⟨T, -, -, hc', hmade⟩ := h
  exact ⟨hc'.mono fun _ _ h => h.2, hmade⟩

/-- On a valid circuit the pass succeeds. -/
theorem exists_run {c : Circuit} {s : Session Unit} (hc : c.Made s.next)
    (hv : c.validate = .ok ()) :
    ∃ c' s', (run c).exec s = (.ok c', s') ∧ c.Transformed Folds c' ∧ c'.Made s'.next :=
  Job.wp.exists_ok (wp_run hc (Or.inr hv))

end FlowCircuit.ConstantFold
