import FlowCircuit.Visit.Circuit
import FlowCircuit.Proofs.Transform

/-!
# What a run can fail with

`ErrorsAre P outcome` says that the outcome, if it is an error, is one that `P` accepts, and
`Job.Fails P job` says so of every run of a job.  There is one rule for each way of building a job,
as in `Job.wp`, but nothing has to be known about the session: the errors of a job are those of its
steps, whatever the steps before have done.

Edits and visitors add no errors of their own, two apart: a node that cannot be rebuilt over its new
sub-expressions, and an operator that reads what the edit has dropped.  So `P` has to accept these
two and the errors of the hooks (`ExprEdit.FailsWith`, `CircuitEdit.FailsWith`, `Visitor.FailsWith`,
`CircuitVisitor.FailsWith`), and then it accepts the errors of the whole run.
-/

set_option autoImplicit false

namespace FlowCircuit

/-- If the outcome is an error, `P` accepts it. -/
def ErrorsAre {ε α : Type} (P : ε → Prop) (outcome : Except ε α) : Prop :=
  ∀ e, outcome = .error e → P e

namespace ErrorsAre

variable {ε ε' α β : Type} {P : ε → Prop}

theorem ok (a : α) : ErrorsAre P (.ok a) := fun _ h => by cases h

theorem error {e : ε} (h : P e) : ErrorsAre P (.error e : Except ε α) := fun _ he => by
  cases he
  exact h

theorem imp {Q : ε → Prop} {outcome : Except ε α} (h : ErrorsAre P outcome) (hPQ : ∀ e, P e → Q e) :
    ErrorsAre Q outcome := fun e he => hPQ e (h e he)

theorem bind {outcome : Except ε α} {next : α → Except ε β} (h : ErrorsAre P outcome)
    (hnext : ∀ a, ErrorsAre P (next a)) : ErrorsAre P (outcome >>= next) := by
  cases outcome with
  | ok a => exact hnext a
  | error e => exact .error (h e rfl)

/-- A check before the rest. -/
theorem guard {c : Prop} [Decidable c] {e : ε} {next : PUnit → Except ε β} (he : P e)
    (hnext : ErrorsAre P (next ())) : ErrorsAre P (if c then throw e >>= next else next ()) := by
  split
  · exact .error he
  · exact hnext

theorem mapError {Q : ε' → Prop} {f : ε → ε'} {outcome : Except ε α}
    (h : ErrorsAre (fun e => Q (f e)) outcome) : ErrorsAre Q (outcome.mapError f) := by
  cases outcome with
  | ok a => exact .ok a
  | error e => exact .error (h e rfl)

theorem mapM {f : α → Except ε β} (h : ∀ a, ErrorsAre P (f a)) (as : List α) :
    ErrorsAre P (as.mapM f) := by
  induction as with
  | nil => exact .ok []
  | cons a as ih =>
    rw [List.mapM_cons]
    exact (h a).bind fun b => ih.bind fun bs => .ok (b :: bs)

theorem forM {f : α → Except ε Unit} (h : ∀ a, ErrorsAre P (f a)) (as : List α) :
    ErrorsAre P (as.forM f) := by
  induction as with
  | nil => exact .ok ()
  | cons a as ih =>
    rw [List.forM]
    exact (h a).bind fun _ => ih

end ErrorsAre

/-! ## Jobs -/

namespace Job

variable {ε ε' σ τ α β : Type} {P : ε → Prop}

/-- `P` accepts every error that the job can end in. -/
def Fails (P : ε → Prop) (job : Job ε σ α) : Prop := ∀ s, ErrorsAre P (job.exec s).1

namespace Fails

theorem pure (a : α) : Fails P (Pure.pure a : Job ε σ α) := fun _ => .ok a

theorem throw {e : ε} (h : P e) : Fails P (throw e : Job ε σ α) := fun _ => .error h

theorem bind {job : Job ε σ β} {next : β → Job ε σ α} (hjob : Fails P job)
    (hnext : ∀ b, Fails P (next b)) : Fails P (job >>= next) := by
  intro s
  have herrors := hjob s
  rw [exec_bind]
  rcases hrun : job.exec s with ⟨outcome, s'⟩
  rw [hrun] at herrors
  cases outcome with
  | ok b => exact hnext b s'
  | error e => exact .error (herrors e rfl)

/-- A job that is done under a condition only, before the rest. -/
theorem when {c : Prop} [Decidable c] {job : Job ε σ PUnit} {next : PUnit → Job ε σ α}
    (hjob : Fails P job) (hnext : Fails P (next ())) :
    Fails P (if c then job >>= next else next ()) := by
  split
  · exact hjob.bind fun _ => hnext
  · exact hnext

theorem map {job : Job ε σ β} (f : β → α) (hjob : Fails P job) : Fails P (f <$> job) := by
  rw [map_eq_pure_bind]
  exact hjob.bind fun b => .pure (f b)

theorem imp {Q : ε → Prop} {job : Job ε σ α} (h : Fails P job) (hPQ : ∀ e, P e → Q e) :
    Fails Q job :=
  fun s => (h s).imp hPQ

theorem state : Fails P (Job.state : Job ε σ σ) := fun s => .ok s.state

theorem update {f : σ → σ} : Fails P (Job.update f : Job ε σ Unit) := fun _ => .ok ()

theorem report {notice : Notice} : Fails P (Job.report notice : Job ε σ Unit) := fun _ => .ok ()

theorem fresh : Fails P (Job.fresh : Job ε σ Label) := fun s => .ok s.next

theorem ofExcept {outcome : Except ε α} (h : ErrorsAre P outcome) :
    Fails P (Job.ofExcept outcome : Job ε σ α) := fun _ => h

theorem make {build : Label → Except ε α} (h : ∀ label, ErrorsAre P (build label)) :
    Fails P (Job.make build : Job ε σ α) :=
  fresh.bind fun label => ofExcept (h label)

theorem onPart {get : σ → τ} {set : σ → τ → σ} {job : Job ε τ α} (h : Fails P job) :
    Fails P (Job.onPart get set job) := fun s => h ⟨s.next, s.notices, get s.state⟩

theorem withState {init : τ} {job : Job ε τ α} (h : Fails P job) :
    Fails P (Job.withState init job : Job ε σ (α × τ)) := by
  intro s
  have herrors := h ⟨s.next, s.notices, init⟩
  rw [Job.withState, exec_of]
  rcases hrun : job.exec ⟨s.next, s.notices, init⟩ with ⟨outcome, s'⟩
  rw [hrun] at herrors
  cases outcome with
  | ok a => exact .ok (a, s'.state)
  | error e => exact .error (herrors e rfl)

theorem mapError {Q : ε' → Prop} {f : ε → ε'} {job : Job ε σ α} (h : Fails (fun e => Q (f e)) job) :
    Fails Q (Job.mapError f job) := fun s => (h s).mapError

theorem mapM {f : β → Job ε σ α} (h : ∀ b, Fails P (f b)) (bs : List β) : Fails P (bs.mapM f) := by
  induction bs with
  | nil => exact .pure []
  | cons b bs ih =>
    rw [List.mapM_cons]
    exact (h b).bind fun a => ih.bind fun as => .pure (a :: as)

end Fails

end Job

variable {σ : Type} {P : Error → Prop}

/-! ## Edits of expressions -/

namespace Memo

theorem fails_ask {α : Type} {hook : Run σ α} (h : hook.Fails P) : (Memo.ask hook).Fails P :=
  h.onPart

theorem fails_remember {e : Expr} {compute : Run (Memo σ) Expr} (h : compute.Fails P) :
    (Memo.remember e compute).Fails P := by
  refine Job.Fails.state.bind fun m => ?_
  split
  · exact .pure _
  · exact h.bind fun result => Job.Fails.update.bind fun _ => .pure result

end Memo

namespace ExprEdit

/-- `P` accepts the errors of the hooks. -/
structure FailsWith (P : Error → Prop) (r : ExprEdit σ) : Prop where
  before : ∀ e, (r.before e).Fails P
  after : ∀ e, (r.after e).Fails P

variable {r : ExprEdit σ}

theorem FailsWith.imp {Q : Error → Prop} (hr : r.FailsWith P) (hPQ : ∀ e, P e → Q e) :
    r.FailsWith Q :=
  ⟨fun e => (hr.before e).imp hPQ, fun e => (hr.after e).imp hPQ⟩

theorem fails_rebuild (hbuild : ∀ label (e : Expr) cs, ErrorsAre P (e.withChildren label cs))
    (e : Expr) (cs : List Expr) : (rebuild e cs : Run σ Expr).Fails P := by
  rw [rebuild]
  split
  · exact .pure e
  · exact .make fun label => hbuild label e cs

theorem fails_applyAll {es : List Expr} (h : ∀ e ∈ es, (r.apply e).Fails P) :
    (r.applyAll es).Fails P := by
  induction es with
  | nil => exact .pure []
  | cons e es ih =>
    obtain ⟨he, hes⟩ := List.forall_mem_cons.mp h
    exact he.bind fun new => (ih hes).bind fun rest => .pure (new :: rest)

/-- The errors of an edit of expressions are those of the hooks and of rebuilding. -/
theorem FailsWith.apply (hr : r.FailsWith P)
    (hbuild : ∀ label (e : Expr) cs, ErrorsAre P (e.withChildren label cs)) (e : Expr) :
    (r.apply e).Fails P := by
  induction e using Expr.induction_children with
  | _ e ih =>
    rw [apply_eq, applyNode]
    refine Memo.fails_remember ((Memo.fails_ask (hr.before e)).bind fun found => ?_)
    cases found with
    | some replacement => exact .pure replacement
    | none =>
      refine (fails_applyAll ih).bind fun children => ?_
      exact (fails_rebuild hbuild e children).bind fun rebuilt => Memo.fails_ask (hr.after rebuilt)

end ExprEdit

/-! ## Edits of circuits -/

namespace CircuitEdit

/-- `P` accepts the errors of the hooks. -/
structure FailsWith (P : Error → Prop) (r : CircuitEdit σ) : Prop where
  keep : ∀ op, (r.keep op).Fails P
  operator : ∀ op inputs, (r.operator op inputs).Fails P
  declaration : ∀ d, (r.declaration d).Fails P

variable {r : CircuitEdit σ}

theorem FailsWith.imp {Q : Error → Prop} (hr : r.FailsWith P) (hPQ : ∀ e, P e → Q e) :
    r.FailsWith Q :=
  ⟨fun op => (hr.keep op).imp hPQ, fun op inputs => (hr.operator op inputs).imp hPQ,
    fun d => (hr.declaration d).imp hPQ⟩

theorem fails_drop (op : Operator) : (r.drop op).Fails P :=
  Job.Fails.report.bind fun _ => Job.Fails.update.bind fun _ => .pure none

section

variable (hr : r.FailsWith P) (hstray : ∀ reason, P (.traversal r.name reason))

include hstray in
theorem fails_replacedInput (op input : Operator) : (r.replacedInput op input).Fails P := by
  refine Job.Fails.state.bind fun p => ?_
  split
  · exact .pure _
  · exact .throw (hstray _)

include hr hstray

namespace FailsWith

theorem newOperator (op : Operator) : (r.newOperator op).Fails P := by
  refine (hr.keep op).onPart.bind fun kept => ?_
  split
  · refine (Job.Fails.mapM (fails_replacedInput hstray op) op.inputs).bind fun inputs => ?_
    refine (hr.operator op inputs).onPart.bind fun found => ?_
    cases found with
    | none => exact fails_drop op
    | some new => exact .when .report (Job.Fails.update.bind fun _ => .pure (some new))
  · exact fails_drop op

theorem editOperator (op : Operator) : (r.editOperator op).Fails P := by
  refine Job.Fails.state.bind fun p => ?_
  split
  · exact .pure _
  · split
    · exact .pure none
    · exact hr.newOperator hstray op

omit hstray in
theorem editDeclaration (d : Declaration) : (r.editDeclaration d).Fails P := by
  refine Job.Fails.state.bind fun p => ?_
  split
  · exact .pure _
  · refine (hr.declaration d).onPart.bind fun found => ?_
    cases found with
    | none => exact Job.Fails.report.bind fun _ => .pure none
    | some new => exact Job.Fails.update.bind fun _ => .pure (some new)

theorem editNodes (nodes : List Node) : (r.editNodes nodes).Fails P := by
  induction nodes with
  | nil => exact .pure []
  | cons node nodes ih =>
    have hnode : (r.editNode node).Fails P := by
      cases node with
      | declaration d => exact (hr.editDeclaration d).bind fun new => .pure _
      | operator op => exact (hr.editOperator hstray op).bind fun new => .pure _
    exact hnode.bind fun new => ih.bind fun rest => .pure _

theorem editCircuit (c : Circuit) : (r.editCircuit c).Fails P :=
  (hr.editNodes hstray c.nodes).bind fun nodes => .pure (Circuit.mk c.name nodes)

theorem editItems (items : List FileItem) : (r.editItems items).Fails P := by
  induction items with
  | nil => exact .pure []
  | cons item items ih =>
    have hitem : (r.editItem item).Fails P := by
      cases item with
      | declaration d => exact (hr.editDeclaration d).bind fun new => .pure _
      | circuit c => exact (hr.editCircuit hstray c).bind fun new => .pure _
    exact hitem.bind fun new => ih.bind fun rest => .pure _

/-- The errors of an edit of a circuit are those of the hooks and of operators that read what was
dropped. -/
theorem apply (c : Circuit) : (r.apply c).Fails P := fun s =>
  hr.editCircuit hstray c ⟨s.next, s.notices, .start s.state⟩

theorem applyFile (f : File) : (r.applyFile f).Fails P := by
  intro s
  have herrors := hr.editItems hstray f.items ⟨s.next, s.notices, .start s.state⟩
  rw [CircuitEdit.applyFile, Job.exec_of, runFromStart]
  rcases hrun : (r.editItems f.items).exec ⟨s.next, s.notices, .start s.state⟩ with ⟨outcome, s'⟩
  rw [hrun] at herrors
  cases outcome with
  | ok items => exact .ok (File.mk items)
  | error e => exact .error (herrors e rfl)

end FailsWith

end

/-- The errors of an edit of functions are those of the transform and of rebuilding operators. -/
theorem failsWith_ofTransform {transform : Expr → Run σ Expr} (h : ∀ e, (transform e).Fails P)
    (hbuild : ∀ label (op : Operator) function inputs,
      ErrorsAre P (op.withParts label function op.aggregate inputs)) :
    (ofTransform transform).FailsWith P where
  keep _ := .pure true
  operator op inputs := by
    have hassemble (function : Option Expr) :
        (assemble op inputs function : Run (Memo σ) _).Fails P := by
      rw [assemble]
      split
      · exact .pure (some op)
      · exact (Job.Fails.make fun label => hbuild label op function inputs).bind fun new =>
          .pure (some new)
    rw [operator_ofTransform]
    refine Job.Fails.bind ?_ hassemble
    cases op.function with
    | none => exact .pure none
    | some f => exact (Memo.fails_remember (Memo.fails_ask (h f))).map some
  declaration d := by
    refine (Memo.fails_remember (Memo.fails_ask (h d.value))).bind fun value => ?_
    split
    · exact .pure (some d)
    · exact Job.Fails.fresh.bind fun label => .pure (some (d.withValue label value))

end CircuitEdit

/-! ## Visitors -/

theorem Flow.fails_around {enter : Run σ Flow} {below leave : Run σ Unit} (henter : enter.Fails P)
    (hbelow : below.Fails P) (hleave : leave.Fails P) :
    (Flow.around enter below leave).Fails P := by
  refine henter.bind fun flow => ?_
  cases flow with
  | skip => exact .pure ()
  | descend => exact hbelow.bind fun _ => hleave

namespace Visitor

/-- `P` accepts the errors of the hooks. -/
structure FailsWith (P : Error → Prop) (v : Visitor σ) : Prop where
  enterTy : ∀ t, (v.enterTy t).Fails P
  leaveTy : ∀ t, (v.leaveTy t).Fails P
  enterExpr : ∀ e, (v.enterExpr e).Fails P
  leaveExpr : ∀ e, (v.leaveExpr e).Fails P
  enterAggregate : ∀ a, (v.enterAggregate a).Fails P
  leaveAggregate : ∀ a, (v.leaveAggregate a).Fails P

namespace FailsWith

variable {v : Visitor σ}

theorem imp {Q : Error → Prop} (hv : v.FailsWith P) (hPQ : ∀ e, P e → Q e) : v.FailsWith Q :=
  ⟨fun t => (hv.enterTy t).imp hPQ, fun t => (hv.leaveTy t).imp hPQ,
    fun e => (hv.enterExpr e).imp hPQ,
    fun e => (hv.leaveExpr e).imp hPQ, fun a => (hv.enterAggregate a).imp hPQ,
    fun a => (hv.leaveAggregate a).imp hPQ⟩

mutual

theorem walkTy (hv : v.FailsWith P) : ∀ t : Ty, (v.walkTy t).Fails P
  | .scalar _ _ => Flow.fails_around (hv.enterTy _) (.pure ()) (hv.leaveTy _)
  | .tuple fields _ => Flow.fails_around (hv.enterTy _) (walkTys hv fields) (hv.leaveTy _)
  | .ref target _ _ => Flow.fails_around (hv.enterTy _) (walkTy hv target) (hv.leaveTy _)
  | .zset element weight _ =>
    Flow.fails_around (hv.enterTy _) ((walkTy hv element).bind fun _ => walkTy hv weight)
      (hv.leaveTy _)
  | .function params result _ =>
    Flow.fails_around (hv.enterTy _) ((walkTys hv params).bind fun _ => walkTy hv result)
      (hv.leaveTy _)

theorem walkTys (hv : v.FailsWith P) : ∀ ts : List Ty, (v.walkTys ts).Fails P
  | [] => .pure ()
  | t :: ts => (walkTy hv t).bind fun _ => walkTys hv ts

end

theorem walkExprs_of {es : List Expr} (h : ∀ e ∈ es, (v.walkExpr e).Fails P) :
    (v.walkExprs es).Fails P := by
  induction es with
  | nil => exact .pure ()
  | cons e es ih =>
    obtain ⟨he, hes⟩ := List.forall_mem_cons.mp h
    exact he.bind fun _ => ih hes

theorem walkExpr (hv : v.FailsWith P) (e : Expr) : (v.walkExpr e).Fails P := by
  induction e using Expr.induction_children with
  | _ e ih =>
    rw [walkExpr_eq, walkNode]
    exact Flow.fails_around (hv.enterExpr e) ((hv.walkTy e.ty).bind fun _ => walkExprs_of ih)
      (hv.leaveExpr e)

theorem walkAggregate (hv : v.FailsWith P) (a : Aggregate) : (v.walkAggregate a).Fails P :=
  Flow.fails_around (hv.enterAggregate a) (walkExprs_of fun e _ => hv.walkExpr e)
    (hv.leaveAggregate a)

end FailsWith

end Visitor

namespace CircuitVisitor

/-- `P` accepts the errors of the hooks. -/
structure FailsWith (P : Error → Prop) (v : CircuitVisitor σ) : Prop where
  enterFile : ∀ f, (v.enterFile f).Fails P
  leaveFile : ∀ f, (v.leaveFile f).Fails P
  enterCircuit : ∀ c, (v.enterCircuit c).Fails P
  leaveCircuit : ∀ c, (v.leaveCircuit c).Fails P
  enterOperator : ∀ op, (v.enterOperator op).Fails P
  leaveOperator : ∀ op, (v.leaveOperator op).Fails P
  enterDeclaration : ∀ d, (v.enterDeclaration d).Fails P
  leaveDeclaration : ∀ d, (v.leaveDeclaration d).Fails P

namespace FailsWith

variable {v : CircuitVisitor σ}

theorem imp {Q : Error → Prop} (hv : v.FailsWith P) (hPQ : ∀ e, P e → Q e) : v.FailsWith Q :=
  ⟨fun f => (hv.enterFile f).imp hPQ, fun f => (hv.leaveFile f).imp hPQ,
    fun c => (hv.enterCircuit c).imp hPQ,
    fun c => (hv.leaveCircuit c).imp hPQ, fun op => (hv.enterOperator op).imp hPQ,
    fun op => (hv.leaveOperator op).imp hPQ, fun d => (hv.enterDeclaration d).imp hPQ,
    fun d => (hv.leaveDeclaration d).imp hPQ⟩

theorem walkDeclaration (hv : v.FailsWith P) (d : Declaration) : (v.walkDeclaration d).Fails P :=
  Flow.fails_around (hv.enterDeclaration d) (.pure ()) (hv.leaveDeclaration d)

theorem walkNodes (hv : v.FailsWith P) (nodes : List Node) : (v.walkNodes nodes).Fails P := by
  induction nodes with
  | nil => exact .pure ()
  | cons node nodes ih =>
    have hnode : (v.walkNode node).Fails P := by
      cases node with
      | declaration d => exact hv.walkDeclaration d
      | operator op =>
        exact Flow.fails_around (hv.enterOperator op) (.pure ()) (hv.leaveOperator op)
    exact hnode.bind fun _ => ih

theorem walkCircuit (hv : v.FailsWith P) (c : Circuit) : (v.walkCircuit c).Fails P :=
  Flow.fails_around (hv.enterCircuit c) (hv.walkNodes c.nodes) (hv.leaveCircuit c)

theorem walkFile (hv : v.FailsWith P) (f : File) : (v.walkFile f).Fails P := by
  refine Flow.fails_around (hv.enterFile f) ?_ (hv.leaveFile f)
  induction f.items with
  | nil => exact .pure ()
  | cons item items ih =>
    have hitem : (v.walkItem item).Fails P := by
      cases item with
      | declaration d => exact hv.walkDeclaration d
      | circuit c => exact hv.walkCircuit c
    exact hitem.bind fun _ => ih

end FailsWith

end CircuitVisitor

/-- A visitor of expressions over a circuit. -/
theorem Visitor.FailsWith.onCircuit {v : Visitor σ} (hv : v.FailsWith P) :
    v.onCircuit.FailsWith P where
  enterFile _ := .pure Flow.descend
  leaveFile _ := .pure ()
  enterCircuit _ := .pure Flow.descend
  leaveCircuit _ := .pure ()
  enterOperator _ := .pure Flow.descend
  leaveOperator op := by
    show (v.walkAttached op).Fails P
    rw [walkAttached]
    cases op.aggregate
    case' some a => refine (hv.walkAggregate a).bind fun _ => ?_
    all_goals
      cases op.function with
      | none => exact .pure ()
      | some f => exact hv.walkExpr f
  enterDeclaration _ := .pure Flow.descend
  leaveDeclaration d := hv.walkExpr d.value

end FlowCircuit
