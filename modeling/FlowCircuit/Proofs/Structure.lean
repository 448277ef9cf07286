import FlowCircuit.Proofs.Copies

/-!
# Circuits up to labels

Labels say which nodes are one; everything else about a node is its structure.  As for expressions,
the structure of an operator, a declaration, a circuit or an item of a file is what is left when
every label in it is set to 0, so two of them have the same structure if they are equal without
labels.

The rules that operators keep are about structure only (`Operator.check_unlabelled`), so replacing
the inputs of operators of one structure by inputs of one structure gives one structure, or fails
both times (`Operator.withInputs_agree`).
-/

set_option autoImplicit false

namespace FlowCircuit

/-- The accumulator over expressions without labels. -/
def Accumulator.unlabelled (a : Accumulator) : Accumulator :=
  ⟨a.zero.unlabelled, a.increment.unlabelled, a.post.map Expr.unlabelled, a.emptyResult.unlabelled,
    a.rowTy⟩

/-- The aggregate without labels. -/
def Aggregate.unlabelled (a : Aggregate) : Aggregate :=
  ⟨0, a.first.unlabelled, a.rest.map Accumulator.unlabelled⟩

namespace Operator

mutual

/-- The operator with the label 0 at every node: the operators it reads, at any depth, and the
expressions and aggregates of all of them. -/
def unlabelled : Operator → Operator
  | ⟨_, id, kind, outputTy, function, aggregate, inputs⟩ =>
    ⟨0, id, kind, outputTy, function.map Expr.unlabelled, aggregate.map Aggregate.unlabelled,
      unlabelledAll inputs⟩

/-- Several operators without labels. -/
def unlabelledAll : List Operator → List Operator
  | [] => []
  | op :: ops => unlabelled op :: unlabelledAll ops

end

theorem unlabelledAll_eq_map (ops : List Operator) : unlabelledAll ops = ops.map unlabelled := by
  induction ops with
  | nil => rfl
  | cons op ops ih => rw [unlabelledAll, ih, List.map_cons]

theorem unlabelled_eq (op : Operator) :
    op.unlabelled = ⟨0, op.id, op.kind, op.outputTy, op.function.map Expr.unlabelled,
      op.aggregate.map Aggregate.unlabelled, op.inputs.map unlabelled⟩ := by
  rcases op with ⟨label, id, kind, outputTy, function, aggregate, inputs⟩
  rw [unlabelled, unlabelledAll_eq_map]

@[simp]
theorem id_unlabelled (op : Operator) : op.unlabelled.id = op.id := by rw [unlabelled_eq]

@[simp]
theorem kind_unlabelled (op : Operator) : op.unlabelled.kind = op.kind := by rw [unlabelled_eq]

@[simp]
theorem outputTy_unlabelled (op : Operator) : op.unlabelled.outputTy = op.outputTy := by
  rw [unlabelled_eq]

/-- Whether a function serves an operator is told by its structure. -/
theorem checkFunction_unlabelled (id : OpId) (kind : OpKind) (outputTy : Ty) (f : Expr) :
    checkFunction id kind outputTy f.unlabelled = checkFunction id kind outputTy f := by
  have hzset : f.unlabelled.zset?.isNone = f.zset?.isNone := by
    rw [Expr.unlabelled_eq]
    rcases f with ⟨label, ty, form⟩
    cases form <;> rfl
  have hkind : f.unlabelled.kindName = f.kindName := by
    rw [Expr.unlabelled_eq]
    exact Form.kindName_map _ f.form
  have hty : f.unlabelled.ty = f.ty := by rw [Expr.unlabelled_eq]
  cases kind <;> simp only [checkFunction, hzset, hkind, hty]

/-- **The rules of operators are about structure.** -/
theorem check_unlabelled (op : Operator) : op.unlabelled.check = op.check := by
  have hfind : (op.inputs.map unlabelled).find? (fun input => !input.outputTy.same op.outputTy) =
      (op.inputs.find? fun input => !input.outputTy.same op.outputTy).map unlabelled := by
    rw [List.find?_map]
    congr 2
    funext input
    simp
  rw [unlabelled_eq]
  simp only [check, List.length_map, Option.isNone_map, Option.isSome_map, hfind]
  cases op.function <;> cases op.inputs.find? (fun input => !input.outputTy.same op.outputTy) <;>
    simp [checkFunction_unlabelled]

variable {op op' : Operator} {inputs inputs' : List Operator}

/-- **Replacing inputs is about structure.** -/
theorem withInputs_agree (hop : op.unlabelled = op'.unlabelled)
    (hinputs : inputs.map unlabelled = inputs'.map unlabelled) (label label' : Label) :
    Agree (fun new new' => new.unlabelled = new'.unlabelled) (op.withInputs label inputs)
      (op'.withInputs label' inputs') := by
  let new : Operator := ⟨label, op.id, op.kind, op.outputTy, op.function, op.aggregate, inputs⟩
  let new' : Operator :=
    ⟨label', op'.id, op'.kind, op'.outputTy, op'.function, op'.aggregate, inputs'⟩
  have hnew : new.unlabelled = new'.unlabelled := by
    rw [unlabelled_eq, unlabelled_eq, mk.injEq] at hop
    obtain ⟨-, hid, hkind, hty, hfunction, haggregate, -⟩ := hop
    rw [unlabelled_eq, unlabelled_eq, mk.injEq]
    exact ⟨rfl, hid, hkind, hty, hfunction, haggregate, hinputs⟩
  have hcheck : new.check = new'.check := by rw [← check_unlabelled, hnew, check_unlabelled]
  change Agree _ (new.check >>= fun _ => .ok new) (new'.check >>= fun _ => .ok new')
  rw [hcheck]
  cases new'.check with
  | error e => exact .error e e
  | ok => exact .ok hnew

/-- An operator that reads its inputs already is the replacement that it would have, up to
labels. -/
theorem rebuildWithInputs_agree (hchecked : op.check = .ok ())
    (hinputs : op.inputs.map Operator.label = inputs.map Operator.label → op.inputs = inputs)
    (label label' : Label) :
    Agree (fun new new' => new.unlabelled = new'.unlabelled) (op.rebuildWithInputs label inputs)
      (op.withInputs label' inputs) := by
  rw [rebuildWithInputs]
  split
  · rename_i hsame
    obtain rfl := hinputs (by simpa [hasInputs] using hsame)
    let new : Operator :=
      ⟨label', op.id, op.kind, op.outputTy, op.function, op.aggregate, op.inputs⟩
    have hnew : op.unlabelled = new.unlabelled := by rw [unlabelled_eq, unlabelled_eq]
    rw [withInputs, withParts,
      build_eq_ok (by rw [← check_unlabelled new, ← hnew, check_unlabelled, hchecked])]
    exact .ok hnew
  · exact withInputs_agree rfl rfl label label'

end Operator

/-- The declaration without labels. -/
def Declaration.unlabelled (d : Declaration) : Declaration := ⟨0, d.name, d.value.unlabelled⟩

/-- The node without labels. -/
def Node.unlabelled : Node → Node
  | .declaration d => .declaration d.unlabelled
  | .operator op => .operator op.unlabelled

/-- The circuit without labels. -/
def Circuit.unlabelled (c : Circuit) : Circuit := ⟨c.name, c.nodes.map Node.unlabelled⟩

/-- The item without labels. -/
def FileItem.unlabelled : FileItem → FileItem
  | .declaration d => .declaration d.unlabelled
  | .circuit c => .circuit c.unlabelled

end FlowCircuit
