import FlowCircuit.RowLayout
import FlowCircuit.Pass.Pipeline
import FlowCircuit.Proofs.Building
import FlowCircuit.Proofs.Failures
import FlowCircuit.Proofs.TypeTexts

/-!
# Types that disagree can be told apart in the message

Types are compared structurally, and an error about two types shows their texts.  Since no two types
have one text, a reader of the message sees two different types whenever the comparison has found a
difference (`Ty.compared_as_shown`).

It remains that a comparison has found one whenever such an error comes up.  `Error.Raised` lists
where errors come from: every function that can refuse what it is given, and the edits, walks,
passes and pipelines that hand on the errors of these functions and of their hooks.  A hook may also
make up an error, as long as it is not about two types.  In each of them the two types of a mismatch
differ (`Error.Raised.differ`).  In most places the very types are compared that the error names.
Elsewhere the error names types around the ones that were compared (`Expr.differ_tupleTyped`,
`Accumulator.differ_resultOf`) or the comparison is a coarser one (`Expr.differ_binaryTy`).
-/

set_option autoImplicit false

namespace FlowCircuit

/-- The two types of a mismatch are not one type. -/
def Error.Differ : Error → Prop
  | .mismatch _ expected actual => expected ≠ actual
  | .violation _ | .traversal .. => True

theorem Ty.ne_of_not_same {a b : Ty} (h : (!a.same b) = true) : a ≠ b := by
  rintro rfl
  simp [same_refl] at h

open Error (Differ)

/-! ## Expressions -/

theorem Ty.differ_withNullable (t : Ty) (nullable : Bool) :
    ErrorsAre Differ (t.withNullable nullable) := by
  rw [withNullable]
  split
  · exact .ok t
  · split
    · exact .error trivial
    · exact .ok _

namespace Expr

variable (label : Label)

theorem differ_literal (value : Literal) (ty : Ty) : ErrorsAre Differ (literal label value ty) := by
  rw [literal]
  split
  · exact .ok _
  · split <;> exact .error trivial

theorem differ_numeral (ty : Ty) (n : Nat) (float : UInt64) :
    ErrorsAre Differ (numeral label ty n float) := by
  rw [numeral]
  split
  · exact differ_literal label _ ty
  · exact differ_literal label _ ty
  · exact differ_literal label _ ty
  · exact .error trivial

theorem differ_fieldMismatch? {start : Nat} {tys : List Ty} {fields : List Expr} {e : Error}
    (h : fieldMismatch? start tys fields = some e) : e.Differ := by
  fun_induction fieldMismatch? start tys fields with
  | case1 start declared tys field fields hsame ih => exact ih h
  | case2 start declared tys field fields hsame =>
    cases h
    exact fun hty => hsame (Ty.same_iff.mpr hty)
  | case3 => cases h

/-- When the number of fields is wrong the error names the whole tuples, whose numbers of fields
differ. -/
theorem differ_tupleTyped (ty : Ty) (fields : List Expr) :
    ErrorsAre Differ (tupleTyped label ty fields) := by
  rw [tupleTyped]
  split
  case h_1 => exact .error trivial
  case h_2 declared hdeclared =>
    split
    case isTrue hlength =>
      refine .error fun hty => hlength ?_
      rw [hty] at hdeclared
      cases hdeclared
      exact List.length_map _
    case isFalse =>
      split
      case h_1 e he => exact .error (differ_fieldMismatch? he)
      case h_2 => exact .ok _

theorem differ_field (base : Expr) (index : Nat) : ErrorsAre Differ (field label base index) := by
  refine ErrorsAre.bind ?_ fun ty => .ok _
  rw [fieldTy]
  split
  · exact .error trivial
  · split
    · exact .error trivial
    · split
      · exact Ty.differ_withNullable _ true
      · exact .ok _

/-- Types that are not even the same up to the flag differ, and so does a boolean from what is not
one. -/
theorem differ_binaryTy (op : BinOp) (left right : Ty) :
    ErrorsAre Differ (binaryTy op left right) := by
  rw [binaryTy]
  split
  case isTrue hright =>
    refine .error ?_
    rintro rfl
    simp [Ty.sameUpToNull, Ty.same_refl] at hright
  case isFalse =>
    dsimp only
    split
    · split
      · exact Ty.differ_withNullable left _
      · exact .error trivial
    · split
      case isTrue hleft =>
        refine .error fun hbool => ?_
        have hisBool : left.isBool = true := by rw [← hbool]; rfl
        simp [hisBool] at hleft
      case isFalse => exact .ok _

theorem differ_binary (op : BinOp) (left right : Expr) :
    ErrorsAre Differ (binary label op left right) :=
  (differ_binaryTy op left.ty right.ty).bind fun _ => .ok _

end Expr

/-! ## Z-sets -/

namespace ZSet

theorem differ_ofTy (ty : Ty) : ErrorsAre Differ (ofTy ty) := by
  rw [ofTy]
  split
  · exact .ok _
  · exact .error trivial

theorem differ_add {z : ZSet Expr} {element : Expr} {weight : Int64} {e : Error}
    (h : (z.add element weight).2 = some e) : e.Differ := by
  rw [add] at h
  split at h
  case isTrue hty =>
    cases h
    exact (Ty.ne_of_not_same hty).symm
  case isFalse =>
    split at h
    · cases h
      trivial
    · split at h
      · cases h
        trivial
      · cases h

theorem differ_addAll {z : ZSet Expr} {entries : List (Expr × Int64)} {e : Error}
    (h : (z.addAll entries).2 = some e) : e.Differ := by
  fun_induction addAll z entries with
  | case1 => cases h
  | case2 z element weight rest z' e' hadd =>
    cases h
    exact differ_add (congrArg Prod.snd hadd)
  | case3 z element weight rest z' hadd ih => exact ih h

theorem differ_merge {z other : ZSet Expr} {e : Error} (h : (z.merge other).2 = some e) :
    e.Differ := by
  rw [merge] at h
  split at h
  case isTrue hty =>
    cases h
    exact Ty.ne_of_not_same hty
  case isFalse => exact differ_addAll h

theorem differ_complete {outcome : ZSet Expr × Option Error}
    (h : ∀ e, outcome.2 = some e → e.Differ) : ErrorsAre Differ (complete outcome) := by
  rcases outcome with ⟨z, _ | e⟩
  · exact .ok z
  · exact .error (h e rfl)

theorem differ_negate (z : ZSet Expr) : ErrorsAre Differ z.negate := by
  refine ErrorsAre.bind ?_ fun rows => .ok _
  induction z.rows with
  | nil => exact .ok []
  | cons row rows ih =>
    rw [negateRows]
    split
    · exact .error trivial
    · exact ih.bind fun rest => .ok _

theorem differ_ofElements (elements : List Expr) : ErrorsAre Differ (ofElements elements) := by
  cases elements with
  | nil => exact .error trivial
  | cons first rest => exact differ_complete fun e he => differ_addAll he

end ZSet

theorem Expr.differ_withChildren (label : Label) (e : Expr) (children : List Expr) :
    ErrorsAre Differ (e.withChildren label children) := by
  unfold withChildren
  split
  · exact .error trivial
  · split
    · refine (ZSet.differ_ofTy _).bind fun start => ErrorsAre.bind ?_ fun rebuilt => .ok _
      exact ZSet.differ_complete fun e he => ZSet.differ_addAll he
    · exact differ_tupleTyped label e.ty _
    · exact .ok _
    · exact differ_field label _ _
    · exact .ok _
    · exact differ_binary label _ _ _
    · exact .ok _

/-! ## Aggregates and operators -/

namespace Accumulator

theorem differ_incrementRow (accTy incrementTy : Ty) :
    ErrorsAre Differ (incrementRow accTy incrementTy) := by
  rw [incrementRow]
  split
  case h_1 => exact .error trivial
  case h_2 =>
    split
    case isTrue hfirst => exact .error (Ty.ne_of_not_same hfirst).symm
    case isFalse =>
      split
      case isTrue hresult => exact .error (Ty.ne_of_not_same hresult).symm
      case isFalse => exact .ok _
  case h_3 => exact .error trivial

/-- The error names the signatures, whose parameters differ. -/
theorem differ_resultOf (accTy : Ty) (post : Option Expr) :
    ErrorsAre Differ (resultOf accTy post) := by
  cases post with
  | none => exact .ok accTy
  | some post =>
    rw [resultOf]
    split
    case h_1 => exact .error trivial
    case h_2 params result hsignature =>
      split
      case isTrue => exact .ok result
      case isFalse hparams =>
        refine .error fun hty => hparams ?_
        rw [← hty] at hsignature
        cases hsignature
        exact Ty.sameAll_refl [accTy]

theorem differ_build (zero increment : Expr) (post : Option Expr) (emptyResult : Expr) :
    ErrorsAre Differ (build zero increment post emptyResult) := by
  refine (differ_incrementRow zero.ty increment.ty).bind fun rowTy => ?_
  refine (differ_resultOf zero.ty post).bind fun resultTy => ?_
  split
  case isTrue => exact .ok _
  case isFalse hempty => exact .error fun hty => hempty (Ty.same_iff.mpr hty.symm)

end Accumulator

theorem Aggregate.differ_build (label : Label) (components : List Accumulator) :
    ErrorsAre Differ (build label components) := by
  cases components with
  | nil => exact .error trivial
  | cons first rest =>
    rw [build]
    split
    case h_1 odd hodd =>
      have hty := List.find?_some hodd
      exact .error (Ty.ne_of_not_same hty).symm
    case h_2 => exact .ok _

namespace Operator

theorem differ_checkFunction (id : OpId) (kind : OpKind) (outputTy : Ty) (function : Expr) :
    ErrorsAre Differ (checkFunction id kind outputTy function) := by
  unfold checkFunction
  split
  · split
    case isTrue => exact .error trivial
    case isFalse =>
      split
      case isTrue hty => exact .error (Ty.ne_of_not_same hty).symm
      case isFalse => exact .ok ()
  · split
    · exact .ok ()
    · exact .error trivial
  · exact .ok ()

theorem differ_check (op : Operator) : ErrorsAre Differ op.check := by
  rw [check]
  refine .guard trivial (.guard trivial (.guard trivial (.guard trivial ?_)))
  cases op.function
  case' some function =>
    refine (differ_checkFunction op.id op.kind op.outputTy function).bind fun _ => ?_
  -- with or without a function, the inputs are what is checked last
  all_goals
    dsimp only
    split
    · split
      case h_1 input hinput =>
        have hty := List.find?_some hinput
        exact .error (Ty.ne_of_not_same hty).symm
      case h_2 => exact .ok ()
    · exact .ok ()

theorem differ_build (label : Label) (id : OpId) (kind : OpKind) (outputTy : Ty)
    (function : Option Expr) (aggregate : Option Aggregate) (inputs : List Operator) :
    ErrorsAre Differ (build label id kind outputTy function aggregate inputs) :=
  (differ_check _).bind fun _ => .ok _

theorem differ_rebuildWithInputs (label : Label) (op : Operator) (inputs : List Operator) :
    ErrorsAre Differ (op.rebuildWithInputs label inputs) := by
  rw [rebuildWithInputs]
  split
  · exact .ok op
  · exact differ_build _ _ _ _ _ _ _

end Operator

/-! ## Circuits -/

theorem Builder.Call.differ_run (call : Builder.Call) : call.run.Fails Differ := by
  have hadd (kind : OpKind) (outputTy : Ty) (function : Option Expr) (aggregate : Option Aggregate)
      (inputs : List Operator) :
      (Builder.addOperator kind outputTy function aggregate inputs).Fails Differ := by
    refine Job.Fails.state.bind fun b => Job.Fails.bind (.make fun label => ?_) fun op =>
      Job.Fails.update.bind fun _ => .pure op
    exact Operator.differ_build _ _ _ _ _ _ _
  cases call with
  | addOperator kind outputTy function aggregate inputs => exact (hadd _ _ _ _ _).map _
  | addDeclaration name value =>
    exact (Job.Fails.fresh.bind fun label => Job.Fails.update.bind fun _ => .pure _).map _
  | source name rowTy => exact (hadd _ _ _ _ _).map _
  | constant data => exact (Job.Fails.fresh.bind fun label => hadd _ _ _ _ _).map _
  | map input function =>
    refine Job.Fails.map _ ?_
    rw [Builder.map]
    split
    · exact .throw trivial
    · exact hadd _ _ _ _ _
  | filter input predicate => exact (hadd _ _ _ _ _).map _
  | sink name input => exact (hadd _ _ _ _ _).map _

theorem Circuit.differ_validate (c : Circuit) : ErrorsAre Differ c.validate := by
  have hinput (before : List Operator) (op input : Operator) :
      ErrorsAre Differ (checkInput c.name before op input) := by
    rw [checkInput]
    split
    · exact .error trivial
    · split
      · exact .ok ()
      · exact .error trivial
  have hoperators (before ops : List Operator) :
      ErrorsAre Differ (checkOperators c.name before ops) := by
    induction ops generalizing before with
    | nil => exact .ok ()
    | cons op rest ih =>
      exact (ErrorsAre.forM (hinput before op) op.inputs).bind fun _ =>
        .guard trivial (ih (op :: before))
  exact hoperators [] c.operators

namespace Graph

theorem differ_ofCircuit (c : Circuit) : ErrorsAre Differ (ofCircuit c) := by
  rw [ofCircuit]
  split
  · exact .error trivial
  · refine (ErrorsAre.mapM (fun op => ?_) c.operators).bind fun edges => .ok _
    refine ErrorsAre.mapM (fun input => ?_) op.inputs
    split
    · exact .ok _
    · exact .error trivial

theorem differ_topologicalOrder (g : Graph) (toposort : Graph → Except OpId (List OpId)) :
    ErrorsAre Differ (g.topologicalOrder toposort) := by
  rw [topologicalOrder]
  split
  · exact .ok _
  · exact .error trivial

end Graph

theorem RowLayout.differ_ofTy (id : Nat) (ty : Ty) : ErrorsAre Differ (ofTy id ty) := by
  have hcolumns (start : Nat) (tys : List Ty) : ErrorsAre Differ (columnsOf start tys) := by
    induction tys generalizing start with
    | nil => exact .ok []
    | cons ty tys ih =>
      rw [columnsOf]
      split
      · exact .error trivial
      · exact (ih (start + 1)).bind fun rest => .ok _
  rw [ofTy]
  split
  · exact .error trivial
  · exact .ok _
  · exact (hcolumns 0 _).bind fun columns => .ok _

/-! ## Passes -/

theorem Circuit.differ_editFunctions {σ : Type} {transform : Expr → Run σ Expr}
    (h : ∀ e, (transform e).Fails Differ) (c : Circuit) :
    (c.editFunctions transform).Fails Differ := by
  refine (CircuitEdit.failsWith_ofTransform h fun label op function inputs => ?_).apply
    (fun _ => trivial) c
  exact Operator.differ_build _ _ _ _ _ _ _

theorem ConstantFold.failsWith_edit : edit.FailsWith Differ where
  before _ := .pure none
  after e := by
    refine Job.Fails.fresh.bind fun label => ?_
    split
    · exact Job.Fails.report.bind fun _ => Job.Fails.update.bind fun _ => .pure _
    · exact .pure e

theorem Dedup.failsWith_edit : edit.FailsWith Differ where
  before _ := .pure none
  after e := by
    refine Job.Fails.state.bind fun table => ?_
    split
    · dsimp only
      split
      · exact Job.Fails.report.bind fun _ => Job.Fails.update.bind fun _ => .pure _
      · exact .pure _
    · exact Job.Fails.update.bind fun _ => .pure e

theorem DeadCode.failsWith_keepOnly (live : List OpId) : (keepOnly live).FailsWith Differ where
  keep _ := .pure _
  operator op inputs :=
    (Job.Fails.make fun label => op.differ_rebuildWithInputs label inputs).bind fun new =>
      .pure (some new)
  declaration d := .pure (some d)

theorem Pass.differ_run (pass : Pass) (c : Circuit) : (pass.run c).Fails Differ := by
  cases pass with
  | deadCode =>
    refine (Job.Fails.ofExcept (Graph.differ_ofCircuit c)).bind fun graph => ?_
    refine .when .report (Job.Fails.report.bind fun _ => ?_)
    exact (DeadCode.failsWith_keepOnly _).apply (fun _ => trivial) c
  | constantFold =>
    refine Job.Fails.bind (.withState (c.differ_editFunctions fun e => ?_)) fun result =>
      Job.Fails.report.bind fun _ => .pure _
    exact ConstantFold.failsWith_edit.apply Expr.differ_withChildren e
  | dedup =>
    refine Job.Fails.bind (.withState (c.differ_editFunctions fun e => ?_)) fun result =>
      Job.Fails.report.bind fun _ => .pure _
    exact Dedup.failsWith_edit.apply Expr.differ_withChildren e

/-- The error about a circuit that a compilation ended with. -/
def CompileError.cause? : CompileError → Option Error
  | .passFailed _ cause | .malformedResult _ cause | .circuit cause => some cause
  | .optionsNotFound _ | .optionsUnreadable _ | .optionsMalformed | .unknownPass .. => none

namespace Pipeline

variable (p : Pipeline)

theorem differ_verified (c : Circuit) : ErrorsAre Differ (p.verified c) := by
  rw [verified]
  split
  · exact c.differ_validate
  · exact .ok ()

theorem differ_run (c : Circuit) : (p.run c).Fails fun err => ∀ e ∈ err.cause?, e.Differ := by
  have hcause {wrap : Error → CompileError} (hwrap : ∀ e, (wrap e).cause? = some e) (e : Error)
      (he : e.Differ) : ∀ e' ∈ (wrap e).cause?, e'.Differ := by
    rintro e' he'
    rw [hwrap] at he'
    cases he'
    exact he
  refine (Job.Fails.ofExcept ((p.differ_verified c).imp (hcause fun _ => rfl)).mapError).bind
    fun _ => ?_
  induction p.passes generalizing c with
  | nil => exact .pure c
  | cons pass rest ih =>
    refine Job.Fails.bind ?_ fun result => ih result
    refine Job.Fails.report.bind fun _ =>
      (Job.Fails.mapError ((pass.differ_run c).imp (hcause fun _ => rfl))).bind fun result => ?_
    exact (Job.Fails.ofExcept
      ((p.differ_verified result).imp (hcause fun _ => rfl)).mapError).bind fun _ =>
        Job.Fails.report.bind fun _ => .pure result

end Pipeline

/-! ## All errors -/

namespace Error

/-- The errors that can come up.  Hooks raise errors of a set `P` that can come up themselves. -/
inductive Raised : Error → Prop
  -- what is not about two types, and may be made up by a hook
  | violation (cause : Violation) : Raised (.violation cause)
  | traversal (visitor reason : String) : Raised (.traversal visitor reason)
  -- types and expressions
  | withNullable {t : Ty} {nullable : Bool} {e : Error} (h : t.withNullable nullable = .error e) :
    Raised e
  | literal {label : Label} {value : Literal} {t : Ty} {e : Error}
    (h : Expr.literal label value t = .error e) : Raised e
  | null {label : Label} {t : Ty} {e : Error} (h : Expr.null label t = .error e) : Raised e
  | zero {label : Label} {t : Ty} {e : Error} (h : Expr.zero label t = .error e) : Raised e
  | one {label : Label} {t : Ty} {e : Error} (h : Expr.one label t = .error e) : Raised e
  | tupleTyped {label : Label} {t : Ty} {fields : List Expr} {e : Error}
    (h : Expr.tupleTyped label t fields = .error e) : Raised e
  | field {label : Label} {base : Expr} {index : Nat} {e : Error}
    (h : Expr.field label base index = .error e) : Raised e
  | binary {label : Label} {op : BinOp} {left right : Expr} {e : Error}
    (h : Expr.binary label op left right = .error e) : Raised e
  | withChildren {label : Label} {x : Expr} {cs : List Expr} {e : Error}
    (h : x.withChildren label cs = .error e) : Raised e
  -- Z-sets
  | zsetOfTy {t : Ty} {e : Error} (h : ZSet.ofTy t = .error e) : Raised e
  | ofElements {elements : List Expr} {e : Error} (h : ZSet.ofElements elements = .error e) :
    Raised e
  | add {z : ZSet Expr} {element : Expr} {weight : Int64} {e : Error}
    (h : (z.add element weight).2 = some e) : Raised e
  | insert {z : ZSet Expr} {element : Expr} {e : Error} (h : (z.insert element).2 = some e) :
    Raised e
  | merge {z other : ZSet Expr} {e : Error} (h : (z.merge other).2 = some e) : Raised e
  | negate {z : ZSet Expr} {e : Error} (h : z.negate = .error e) : Raised e
  -- aggregates and operators
  | accumulator {zero increment emptyResult : Expr} {post : Option Expr} {e : Error}
    (h : Accumulator.build zero increment post emptyResult = .error e) : Raised e
  | aggregate {label : Label} {components : List Accumulator} {e : Error}
    (h : Aggregate.build label components = .error e) : Raised e
  | operator {label : Label} {id : OpId} {kind : OpKind} {outputTy : Ty} {function : Option Expr}
    {aggregate : Option Aggregate} {inputs : List Operator} {e : Error}
    (h : Operator.build label id kind outputTy function aggregate inputs = .error e) : Raised e
  | withParts {label : Label} {op : Operator} {function : Option Expr}
    {aggregate : Option Aggregate} {inputs : List Operator} {e : Error}
    (h : op.withParts label function aggregate inputs = .error e) : Raised e
  | withFunction {label : Label} {op : Operator} {function : Expr} {e : Error}
    (h : op.withFunction label function = .error e) : Raised e
  | withInputs {label : Label} {op : Operator} {inputs : List Operator} {e : Error}
    (h : op.withInputs label inputs = .error e) : Raised e
  | rebuildWithInputs {label : Label} {op : Operator} {inputs : List Operator} {e : Error}
    (h : op.rebuildWithInputs label inputs = .error e) : Raised e
  -- circuits
  | built {call : Builder.Call} {s : Session Builder} {e : Error}
    (h : (call.run.exec s).1 = .error e) : Raised e
  | validate {c : Circuit} {e : Error} (h : c.validate = .error e) : Raised e
  | graph {c : Circuit} {e : Error} (h : Graph.ofCircuit c = .error e) : Raised e
  | topologicalOrder {g : Graph} {toposort : Graph → Except OpId (List OpId)} {e : Error}
    (h : g.topologicalOrder toposort = .error e) : Raised e
  | rowLayout {id : Nat} {t : Ty} {e : Error} (h : RowLayout.ofTy id t = .error e) : Raised e
  -- edits
  | editExpr {σ : Type} {P : Error → Prop} {r : ExprEdit σ} {x : Expr} {s : Session (Memo σ)}
    {e : Error} (hP : ∀ e, P e → Raised e) (hr : r.FailsWith P)
    (h : ((r.apply x).exec s).1 = .error e) : Raised e
  | editCircuit {σ : Type} {P : Error → Prop} {r : CircuitEdit σ} {c : Circuit} {s : Session σ}
    {e : Error} (hP : ∀ e, P e → Raised e) (hr : r.FailsWith P)
    (h : ((r.apply c).exec s).1 = .error e) : Raised e
  | editFile {σ : Type} {P : Error → Prop} {r : CircuitEdit σ} {f : File} {s : Session σ}
    {e : Error} (hP : ∀ e, P e → Raised e) (hr : r.FailsWith P)
    (h : ((r.applyFile f).exec s).1 = .error e) : Raised e
  | editFunctions {σ : Type} {P : Error → Prop} {transform : Expr → Run σ Expr} {c : Circuit}
    {s : Session (Memo σ)} {e : Error} (hP : ∀ e, P e → Raised e)
    (htransform : ∀ x, (transform x).Fails P)
    (h : ((c.editFunctions transform).exec s).1 = .error e) : Raised e
  -- walks
  | walkTy {σ : Type} {P : Error → Prop} {v : Visitor σ} {t : Ty} {s : Session σ} {e : Error}
    (hP : ∀ e, P e → Raised e) (hv : v.FailsWith P) (h : ((v.walkTy t).exec s).1 = .error e) :
    Raised e
  | walkExpr {σ : Type} {P : Error → Prop} {v : Visitor σ} {x : Expr} {s : Session σ} {e : Error}
    (hP : ∀ e, P e → Raised e) (hv : v.FailsWith P) (h : ((v.walkExpr x).exec s).1 = .error e) :
    Raised e
  | walkAggregate {σ : Type} {P : Error → Prop} {v : Visitor σ} {a : Aggregate} {s : Session σ}
    {e : Error} (hP : ∀ e, P e → Raised e) (hv : v.FailsWith P)
    (h : ((v.walkAggregate a).exec s).1 = .error e) : Raised e
  | walkExprs {σ : Type} {P : Error → Prop} {v : Visitor σ} {c : Circuit} {s : Session σ}
    {e : Error} (hP : ∀ e, P e → Raised e) (hv : v.FailsWith P)
    (h : ((v.walkCircuit c).exec s).1 = .error e) : Raised e
  | walkCircuit {σ : Type} {P : Error → Prop} {v : CircuitVisitor σ} {c : Circuit} {s : Session σ}
    {e : Error} (hP : ∀ e, P e → Raised e) (hv : v.FailsWith P)
    (h : ((v.walkCircuit c).exec s).1 = .error e) : Raised e
  | walkFile {σ : Type} {P : Error → Prop} {v : CircuitVisitor σ} {f : File} {s : Session σ}
    {e : Error} (hP : ∀ e, P e → Raised e) (hv : v.FailsWith P)
    (h : ((v.walkFile f).exec s).1 = .error e) : Raised e
  -- compilation
  | pass {pass : Pass} {c : Circuit} {s : Session Unit} {e : Error}
    (h : ((pass.run c).exec s).1 = .error e) : Raised e
  | pipeline {p : Pipeline} {c : Circuit} {s : Session Unit} {err : CompileError} {e : Error}
    (h : ((p.run c).exec s).1 = .error err) (he : e ∈ err.cause?) : Raised e

theorem Raised.differ {e : Error} (h : e.Raised) : e.Differ := by
  induction h with
  | violation => trivial
  | traversal => trivial
  | withNullable h => exact Ty.differ_withNullable _ _ _ h
  | literal h => exact Expr.differ_literal _ _ _ _ h
  | null h => exact Expr.differ_literal _ _ _ _ h
  | zero h => exact Expr.differ_numeral _ _ _ _ _ h
  | one h => exact Expr.differ_numeral _ _ _ _ _ h
  | tupleTyped h => exact Expr.differ_tupleTyped _ _ _ _ h
  | field h => exact Expr.differ_field _ _ _ _ h
  | binary h => exact Expr.differ_binary _ _ _ _ _ h
  | withChildren h => exact Expr.differ_withChildren _ _ _ _ h
  | zsetOfTy h => exact ZSet.differ_ofTy _ _ h
  | ofElements h => exact ZSet.differ_ofElements _ _ h
  | add h => exact ZSet.differ_add h
  | insert h => exact ZSet.differ_add h
  | merge h => exact ZSet.differ_merge h
  | negate h => exact ZSet.differ_negate _ _ h
  | accumulator h => exact Accumulator.differ_build _ _ _ _ _ h
  | aggregate h => exact Aggregate.differ_build _ _ _ h
  | operator h => exact Operator.differ_build _ _ _ _ _ _ _ _ h
  | withParts h => exact Operator.differ_build _ _ _ _ _ _ _ _ h
  | withFunction h => exact Operator.differ_build _ _ _ _ _ _ _ _ h
  | withInputs h => exact Operator.differ_build _ _ _ _ _ _ _ _ h
  | rebuildWithInputs h => exact Operator.differ_rebuildWithInputs _ _ _ _ h
  | built h => exact Builder.Call.differ_run _ _ _ h
  | validate h => exact Circuit.differ_validate _ _ h
  | graph h => exact Graph.differ_ofCircuit _ _ h
  | topologicalOrder h => exact Graph.differ_topologicalOrder _ _ _ h
  | rowLayout h => exact RowLayout.differ_ofTy _ _ _ h
  | editExpr _ hr h ih => exact (hr.imp ih).apply Expr.differ_withChildren _ _ _ h
  | editCircuit _ hr h ih => exact (hr.imp ih).apply (fun _ => trivial) _ _ _ h
  | editFile _ hr h ih => exact (hr.imp ih).applyFile (fun _ => trivial) _ _ _ h
  | editFunctions _ htransform h ih =>
    exact Circuit.differ_editFunctions (fun x => (htransform x).imp ih) _ _ _ h
  | walkTy _ hv h ih => exact (hv.imp ih).walkTy _ _ _ h
  | walkExpr _ hv h ih => exact (hv.imp ih).walkExpr _ _ _ h
  | walkAggregate _ hv h ih => exact (hv.imp ih).walkAggregate _ _ _ h
  | walkExprs _ hv h ih => exact (hv.imp ih).onCircuit.walkCircuit _ _ _ h
  | walkCircuit _ hv h ih => exact (hv.imp ih).walkCircuit _ _ _ h
  | walkFile _ hv h ih => exact (hv.imp ih).walkFile _ _ _ h
  | pass h => exact Pass.differ_run _ _ _ _ h
  | pipeline h he => exact Pipeline.differ_run _ _ _ _ h _ he

end Error

namespace Ty

/-- **Types are compared as they are shown.**  They are the same when they are equal, and when they
have one text.  So the comparison is an equivalence relation, and an error about two types shows two
different texts. -/
theorem compared_as_shown :
    (∀ a b : Ty, (a.same b = true ↔ a = b) ∧ (a = b ↔ a.text = b.text)) ∧
      Equivalence (fun a b : Ty => a.same b = true) ∧
      ∀ (context : Context) (expected actual : Ty),
        (Error.mismatch context expected actual).Raised →
        (Error.mismatch context expected actual).message =
          "[IR001] Type mismatch in " ++ context.text ++ ": expected " ++ expected.text ++
            ", found " ++ actual.text ∧
        expected.text ≠ actual.text := by
  refine ⟨fun a b => ⟨same_iff, congrArg text, text_injective⟩, ?_,
    fun context expected actual h => ?_⟩
  · exact ⟨same_refl, fun h => same_iff.mpr (same_iff.mp h).symm,
      fun h h' => same_iff.mpr ((same_iff.mp h).trans (same_iff.mp h'))⟩
  · exact ⟨rfl, fun htext => h.differ (text_injective htext)⟩

end Ty

namespace Sample

/-- Gives every variable another type. -/
def retype (ty : Ty) : ExprEdit Unit where
  before e :=
    match e.form with
    | .var name => do
      let label ← Job.fresh
      return some (Expr.var label name ty)
    | _ => pure none

/-- A row of one number, which may be NULL or not. -/
def numberRow (nullable : Bool) : Ty := Ty.tupleOf [Ty.int32 nullable]

/-- Whether a row is the tuple of one. -/
def isOne : Expr :=
  ⟨3, Ty.bool false, .binary .eq (Expr.var 0 "row" (numberRow false))
    (Expr.tuple 2 [Expr.int32 1 1])⟩

theorem failsWith_retype (ty : Ty) : (retype ty).FailsWith fun _ => False where
  before e := by
    unfold retype
    dsimp only
    split
    · exact Job.Fails.fresh.bind fun label => .pure _
    · exact .pure none
  after e := .pure e

theorem raised_retype :
    (Error.mismatch (.rightOperand .eq) (numberRow true) (numberRow false)).Raised :=
  .editExpr (r := retype (numberRow true)) (x := isOne) (s := ⟨4, [], Memo.start ()⟩)
    (fun _ h => h.elim) (failsWith_retype _) rfl

end Sample

/-- A comparison that no longer fits after an edit: the variable has a nullable field now, and the
tuple has not. -/
theorem Ty.compared_as_shown_retyped :
    (Error.mismatch (.rightOperand .eq) (Sample.numberRow true) (Sample.numberRow false)).Raised ∧
      (Error.mismatch (.rightOperand .eq) (Sample.numberRow true)
        (Sample.numberRow false)).message =
        "[IR001] Type mismatch in right operand of '==': expected (Option<i32>,), found (i32,)" ∧
      (Sample.numberRow true).text ≠ (Sample.numberRow false).text :=
  ⟨Sample.raised_retype, by decide, (compared_as_shown.2.2 _ _ _ Sample.raised_retype).2⟩

end FlowCircuit
