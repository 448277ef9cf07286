import FlowCircuit.Pass.Pipeline
import FlowCircuit.Proofs.Folding

/-!
# Expressions that edits lead to

Many properties of expressions hold of whatever an edit makes of expressions that have them, however
labels fell and whatever was remembered from earlier runs.  It is enough that the property passes to
sub-expressions and to nodes that are rebuilt (`Expr.Stable`), and that the hooks answer expressions
that have it with expressions that have it (`ExprEdit.Stays`).

The same is said for circuits, of properties of operators and of declarations (`CircuitEdit.Stays`).
A property of operators may speak of the operators they read, since hooks are given what became of
those.  The passes keep every property that passes from an operator to one over other parts
(`Pass.nodes_run`), and so every property of expressions that is stable (`Pass.functions_run`).
-/

set_option autoImplicit false

namespace FlowCircuit

variable {σ : Type} {P : Expr → Prop} {I : σ → Prop}

/-- The property passes to sub-expressions, and to nodes rebuilt over expressions that have it. -/
structure Expr.Stable (P : Expr → Prop) : Prop where
  child : ∀ {e c : Expr}, P e → c ∈ e.children → P c
  withChildren : ∀ {e e' : Expr} {label : Label} {cs : List Expr}, P e → (∀ c ∈ cs, P c) →
    e.withChildren label cs = .ok e' → P e'

theorem Expr.Stable.within (hP : Expr.Stable P) {d e : Expr} (he : P e) (hd : d.Within e) :
    P d := by
  induction hd with
  | refl => exact he
  | child hc _ ih => exact ih (hP.child he hc)

/-! ## Edits of expressions -/

namespace Memo

/-- The hooks are as `I` says, and everything remembered has the property. -/
def Holds (P : Expr → Prop) (I : σ → Prop) (m : Memo σ) : Prop :=
  I m.hooks ∧ ∀ pair ∈ m.done.pairs, P pair.2

theorem holds_start {hooks : σ} (h : I hooks) : (Memo.start hooks).Holds P I :=
  ⟨h, fun _ hpair => absurd hpair List.not_mem_nil⟩

theorem keeps_ask {α : Type} {hook : Run σ α} {Q : α → Prop} (h : hook.Keeps I Q) :
    (Memo.ask hook).Keeps (Holds P I) Q :=
  h.onPart (fun _ hm => hm.1) fun _ _ hm hhooks => ⟨hhooks, hm.2⟩

theorem keeps_remember {e : Expr} {compute : Run (Memo σ) Expr}
    (h : compute.Keeps (Holds P I) P) : (Memo.remember e compute).Keeps (Holds P I) P := by
  refine Job.Keeps.state.bind fun m hm => ?_
  split
  case h_1 result hget =>
    obtain ⟨pair, hpair, -, rfl⟩ := Replacements.mem_of_get? hget
    exact .pure (hm.2 pair hpair)
  case h_2 =>
    refine h.bind fun result hresult => ?_
    refine Job.Keeps.bind (.update fun m hm => ⟨hm.1, fun pair hpair => ?_⟩) fun _ _ =>
      .pure hresult
    rcases Replacements.mem_insert hpair with rfl | hold
    · exact hresult
    · exact hm.2 pair hold

end Memo

namespace ExprEdit

/-- Asked about expressions that have the property, the hooks answer with such expressions, in any
state that is as `I` says. -/
structure Stays (r : ExprEdit σ) (P : Expr → Prop) (I : σ → Prop) : Prop where
  before : ∀ {e : Expr}, P e → (r.before e).Keeps I fun found => ∀ e' ∈ found, P e'
  after : ∀ {e : Expr}, P e → (r.after e).Keeps I P

theorem keeps_rebuild {τ : Type} {J : τ → Prop} (hP : Expr.Stable P) {e : Expr} (he : P e)
    {cs : List Expr} (hcs : ∀ c ∈ cs, P c) : (rebuild e cs : Run τ Expr).Keeps J P := by
  rw [rebuild]
  split
  · exact .pure he
  · exact .make fun label e' h => hP.withChildren he hcs h

namespace Stays

variable {r : ExprEdit σ}

/-- The step from the sub-expressions of a node to the node. -/
theorem applyNode (hr : r.Stays P I) (hP : Expr.Stable P) {e : Expr} (he : P e)
    {below : Run (Memo σ) (List Expr)}
    (hbelow : below.Keeps (Memo.Holds P I) fun cs => ∀ c ∈ cs, P c) :
    (r.applyNode e below).Keeps (Memo.Holds P I) P := by
  refine Memo.keeps_remember ((Memo.keeps_ask (hr.before he)).bind fun found hfound => ?_)
  cases found with
  | some replacement => exact .pure (hfound replacement rfl)
  | none =>
    refine hbelow.bind fun cs hcs => (keeps_rebuild hP he hcs).bind fun rebuilt hrebuilt => ?_
    exact Memo.keeps_ask (hr.after hrebuilt)

theorem applyAll_of {es : List Expr} (h : ∀ e ∈ es, (r.apply e).Keeps (Memo.Holds P I) P) :
    (r.applyAll es).Keeps (Memo.Holds P I) fun cs => ∀ c ∈ cs, P c := by
  induction es with
  | nil => exact .pure (List.forall_mem_nil _)
  | cons e es ih =>
    obtain ⟨he, hes⟩ := List.forall_mem_cons.mp h
    refine he.bind fun new hnew => (ih hes).bind fun rest hrest => .pure ?_
    exact List.forall_mem_cons.mpr ⟨hnew, hrest⟩

/-- **What an edit makes of an expression that has the property has it**, and so has all that it
remembers. -/
theorem apply (hr : r.Stays P I) (hP : Expr.Stable P) {e : Expr} (he : P e) :
    (r.apply e).Keeps (Memo.Holds P I) P := by
  induction e using Expr.induction_children with
  | node e ih =>
    rw [apply_eq]
    exact hr.applyNode hP he (applyAll_of fun c hc => ih c hc (hP.child he hc))

end Stays

end ExprEdit

/-! ## Edits of circuits -/

/-- `O` holds of the node if it is an operator, and `D` if it is a declaration. -/
def Node.Is (O : Operator → Prop) (D : Declaration → Prop) : Node → Prop
  | .operator op => O op
  | .declaration d => D d

namespace CircuitEdit

variable {O : Operator → Prop} {D : Declaration → Prop}

/-- Asked about nodes that have the property, over inputs that have it, the hooks answer with such
nodes. -/
structure Stays (r : CircuitEdit σ) (O : Operator → Prop) (D : Declaration → Prop) (I : σ → Prop) :
    Prop where
  keep : ∀ {op : Operator}, O op → (r.keep op).Keeps I fun _ => True
  operator : ∀ {op : Operator} {inputs : List Operator}, O op → (∀ input ∈ inputs, O input) →
    (r.operator op inputs).Keeps I fun new => ∀ op' ∈ new, O op'
  declaration : ∀ {d : Declaration}, D d → (r.declaration d).Keeps I fun new => ∀ d' ∈ new, D d'

/-- The hooks are as `I` says, and every replacement on record has the property. -/
def Progress.Holds (O : Operator → Prop) (D : Declaration → Prop) (I : σ → Prop)
    (p : Progress σ) : Prop :=
  I p.hooks ∧ (∀ pair ∈ p.operators.pairs, O pair.2) ∧ ∀ pair ∈ p.declarations.pairs, D pair.2

theorem Progress.keeps_ask {α : Type} {hook : Run σ α} {Q : α → Prop} (h : hook.Keeps I Q) :
    (Progress.ask hook).Keeps (Holds O D I) Q :=
  h.onPart (fun _ hp => hp.1) fun _ _ hp hhooks => ⟨hhooks, hp.2⟩

namespace Stays

variable {r : CircuitEdit σ}

theorem replacedInput (op input : Operator) :
    (r.replacedInput op input).Keeps (Progress.Holds O D I) O := by
  refine Job.Keeps.state.bind fun p hp => ?_
  split
  case h_1 new hget =>
    obtain ⟨pair, hpair, -, rfl⟩ := Replacements.mem_of_get? hget
    exact .pure (hp.2.1 pair hpair)
  case h_2 => exact .throw

theorem drop (op : Operator) :
    (r.drop op).Keeps (Progress.Holds O D I) fun new => ∀ op' ∈ new, O op' := by
  refine Job.Keeps.report.bind fun _ _ => Job.Keeps.bind (.update fun p hp => hp) fun _ _ =>
    .pure ?_
  rintro _ ⟨⟩

theorem newOperator (hr : r.Stays O D I) {op : Operator} (hop : O op) :
    (r.newOperator op).Keeps (Progress.Holds O D I) fun new => ∀ op' ∈ new, O op' := by
  refine (Progress.keeps_ask (hr.keep hop)).bind fun answer _ => ?_
  split
  · refine (Job.Keeps.mapM fun input _ => replacedInput op input).bind fun inputs hinputs => ?_
    refine (Progress.keeps_ask (hr.operator hop hinputs)).bind fun new hnew => ?_
    split
    case h_1 new =>
      have hrecord : (Job.update fun p => { p with operators := p.operators.insert op new } :
          Run (Progress σ) Unit).Keeps (Progress.Holds O D I) fun _ => True := by
        refine .update fun p hp => ⟨hp.1, fun pair hpair => ?_, hp.2.2⟩
        rcases Replacements.mem_insert hpair with rfl | hold
        · exact hnew new rfl
        · exact hp.2.1 pair hold
      split
      · exact Job.Keeps.report.bind fun _ _ => hrecord.bind fun _ _ => .pure hnew
      · exact hrecord.bind fun _ _ => .pure hnew
    case h_2 => exact drop op
  · exact drop op

theorem editOperator (hr : r.Stays O D I) {op : Operator} (hop : O op) :
    (r.editOperator op).Keeps (Progress.Holds O D I) fun new => ∀ op' ∈ new, O op' := by
  refine Job.Keeps.state.bind fun p hp => ?_
  split
  case h_1 new hget =>
    obtain ⟨pair, hpair, -, rfl⟩ := Replacements.mem_of_get? hget
    refine .pure ?_
    rintro _ ⟨rfl⟩
    exact hp.2.1 pair hpair
  case h_2 =>
    split
    · refine .pure ?_
      rintro _ ⟨⟩
    · exact hr.newOperator hop

theorem editDeclaration (hr : r.Stays O D I) {d : Declaration} (hd : D d) :
    (r.editDeclaration d).Keeps (Progress.Holds O D I) fun new => ∀ d' ∈ new, D d' := by
  refine Job.Keeps.state.bind fun p hp => ?_
  split
  case h_1 new hget =>
    obtain ⟨pair, hpair, -, rfl⟩ := Replacements.mem_of_get? hget
    refine .pure ?_
    rintro _ ⟨rfl⟩
    exact hp.2.2 pair hpair
  case h_2 =>
    refine (Progress.keeps_ask (hr.declaration hd)).bind fun new hnew => ?_
    split
    case h_1 new =>
      refine Job.Keeps.bind (.update fun p hp => ⟨hp.1, hp.2.1, fun pair hpair => ?_⟩) fun _ _ =>
        .pure hnew
      rcases Replacements.mem_insert hpair with rfl | hold
      · exact hnew new rfl
      · exact hp.2.2 pair hold
    case h_2 => exact Job.Keeps.report.bind fun _ _ => .pure hnew

theorem editNode (hr : r.Stays O D I) {node : Node} (hnode : node.Is O D) :
    (r.editNode node).Keeps (Progress.Holds O D I) fun new => ∀ node' ∈ new, node'.Is O D := by
  cases node with
  | operator op =>
    refine (hr.editOperator hnode).bind fun new hnew => .pure fun node' hnode' => ?_
    obtain ⟨op', hop', rfl⟩ := Option.mem_map.mp hnode'
    exact hnew op' hop'
  | declaration d =>
    refine (hr.editDeclaration hnode).bind fun new hnew => .pure fun node' hnode' => ?_
    obtain ⟨d', hd', rfl⟩ := Option.mem_map.mp hnode'
    exact hnew d' hd'

theorem editNodes (hr : r.Stays O D I) {nodes : List Node} (hnodes : ∀ node ∈ nodes, node.Is O D) :
    (r.editNodes nodes).Keeps (Progress.Holds O D I) fun new => ∀ node ∈ new, node.Is O D := by
  induction nodes with
  | nil => exact .pure (List.forall_mem_nil _)
  | cons node nodes ih =>
    obtain ⟨hnode, hrest⟩ := List.forall_mem_cons.mp hnodes
    refine (hr.editNode hnode).bind fun new hnew => (ih hrest).bind fun rest hrest => .pure ?_
    exact List.forall_mem_append.mpr ⟨fun node' h => hnew node' (Option.mem_toList.mp h), hrest⟩

/-- **What an edit makes of a circuit whose nodes have the property has it.** -/
theorem apply (hr : r.Stays O D I) {c : Circuit} (hc : ∀ node ∈ c.nodes, node.Is O D) :
    (r.apply c).Keeps I fun c' => ∀ node ∈ c'.nodes, node.Is O D := by
  intro s hs
  have hstart : (Progress.start s.state).Holds O D I :=
    ⟨hs, fun _ h => absurd h List.not_mem_nil, fun _ h => absurd h List.not_mem_nil⟩
  have hedit : (r.editCircuit c).Keeps (Progress.Holds O D I)
      fun c' => ∀ node ∈ c'.nodes, node.Is O D :=
    (hr.editNodes hc).bind fun nodes hnodes => .pure hnodes
  obtain ⟨hholds, hresult⟩ := hedit ⟨s.next, s.notices, .start s.state⟩ hstart
  exact ⟨hholds.1, hresult⟩

end Stays

/-- The property passes to an operator over another function and other inputs, and `P` holds of the
function of an operator that has it. -/
structure Carries (O : Operator → Prop) (P : Expr → Prop) : Prop where
  function : ∀ {op : Operator} {f : Expr}, O op → op.function = some f → P f
  withParts : ∀ {op op' : Operator} {label : Label} {function : Option Expr}
    {inputs : List Operator}, O op → (∀ f ∈ function, P f) → (∀ input ∈ inputs, O input) →
    op.withParts label function op.aggregate inputs = .ok op' → O op'

variable {transform : Expr → Run σ Expr} (hO : Carries O P)

include hO

theorem keeps_assemble {op : Operator} (hop : O op) {function : Option Expr}
    (hfunction : ∀ f ∈ function, P f) {inputs : List Operator}
    (hinputs : ∀ input ∈ inputs, O input) :
    (assemble op inputs function).Keeps (Memo.Holds (σ := σ) P I)
      fun new => ∀ op' ∈ new, O op' := by
  rw [assemble]
  split
  · refine .pure ?_
    rintro _ ⟨rfl⟩
    exact hop
  · refine Job.Keeps.bind (.make fun label op' h => hO.withParts hop hfunction hinputs h)
      fun op' hop' => .pure ?_
    rintro _ ⟨rfl⟩
    exact hop'

/-- Changing functions by a transform that keeps a property of expressions. -/
theorem stays_ofTransform (htransform : ∀ e, P e → (transform e).Keeps I P) :
    (ofTransform transform).Stays O (fun d => P d.value) (Memo.Holds P I) where
  keep _ := .pure trivial
  operator {op inputs} hop hinputs := by
    rw [operator_ofTransform]
    cases hfunction : op.function with
    | none => exact keeps_assemble hO hop (fun f hf => by cases hf) hinputs
    | some f =>
      rw [Option.mapM_some, map_eq_pure_bind, bind_assoc]
      refine (Memo.keeps_remember (Memo.keeps_ask (htransform f (hO.function hop hfunction)))).bind
        fun new hnew => ?_
      exact keeps_assemble hO hop (fun f hf => Option.some.inj hf ▸ hnew) hinputs
  declaration {d} hd := by
    refine (Memo.keeps_remember (Memo.keeps_ask (htransform _ hd))).bind fun value hvalue => ?_
    split
    · refine .pure ?_
      rintro _ ⟨rfl⟩
      exact hd
    · refine Job.Keeps.fresh.bind fun label _ => .pure ?_
      rintro _ ⟨rfl⟩
      exact hvalue

/-- Dropping operators. -/
theorem stays_keepOnly (live : List OpId) :
    (DeadCode.keepOnly live).Stays O (fun d => P d.value) fun _ => True where
  keep _ := .pure trivial
  operator {op inputs} hop hinputs := by
    refine Job.Keeps.bind (.make fun label new h => ?_) fun new (hnew : O new) => .pure ?_
    · rw [Operator.rebuildWithInputs] at h
      split at h
      · exact Except.ok.inj h ▸ hop
      · exact hO.withParts hop (fun f hf => hO.function hop hf) hinputs h
    · rintro _ ⟨rfl⟩
      exact hnew
  declaration hd := by
    refine .pure ?_
    rintro _ ⟨rfl⟩
    exact hd

end CircuitEdit

/-! ## Passes -/

/-- Evaluating makes literals of types that are there, and takes expressions apart. -/
theorem ConstantFold.stays_edit_of_fits (hP : Expr.Stable P)
    (hliteral : ∀ {e : Expr} {label : Label} {value : Literal}, P e → value.fits e.ty = true →
      P ⟨label, e.ty, .literal value⟩) : edit.Stays P fun _ => True where
  before _ := .pure fun _ h => by cases h
  after {e} he := by
    refine Job.Keeps.fresh.bind fun label _ => ?_
    split
    case h_1 result hfold =>
      refine Job.Keeps.report.bind fun _ _ =>
        Job.Keeps.bind (.update fun _ _ => trivial) fun _ _ => ?_
      rcases (evaluated_of_fold hfold).new_or_within with ⟨value, hfits, rfl⟩ | hwithin
      · exact .pure (hliteral he hfits)
      · exact .pure (hP.within he hwithin)
    case h_2 => exact .pure he

theorem ConstantFold.stays_edit (hP : Expr.Stable P)
    (hliteral : ∀ {label : Label} {value : Literal} {ty : Ty} {e : Expr},
      Expr.literal label value ty = .ok e → P e) : edit.Stays P fun _ => True :=
  stays_edit_of_fits hP fun _ hfits => hliteral (if_pos hfits)

/-- Sharing makes nothing. -/
theorem Dedup.stays_edit : edit.Stays P fun table => ∀ e ∈ table.canonical, P e where
  before _ := .pure fun _ h => by cases h
  after {e} he := by
    refine Job.Keeps.state.bind fun table htable => ?_
    split
    case h_1 known hfind =>
      have hknown : P known :=
        htable known (Table.mem_canonical_of_mem_bucket (List.mem_of_find?_eq_some hfind))
      split
      · exact Job.Keeps.report.bind fun _ _ => Job.Keeps.bind (.update fun _ ht => ht) fun _ _ =>
          .pure hknown
      · exact .pure hknown
    case h_2 =>
      refine Job.Keeps.bind (.update fun t ht known hknown => ?_) fun _ _ => .pure he
      rcases Table.mem_canonical_file.mp hknown with rfl | hknown
      · exact he
      · exact ht known hknown

/-- **Passes keep a property of nodes** that their parts carry. -/
theorem Pass.nodes_run {O : Operator → Prop} (pass : Pass) (hP : Expr.Stable P)
    (hliteral : ∀ {e : Expr} {label : Label} {value : Literal}, P e → value.fits e.ty = true →
      P ⟨label, e.ty, .literal value⟩)
    (hO : CircuitEdit.Carries O P) {c c' : Circuit} {s s' : Session Unit}
    (hc : ∀ node ∈ c.nodes, node.Is O fun d => P d.value)
    (hrun : (pass.run c).exec s = (.ok c', s')) :
    ∀ node ∈ c'.nodes, node.Is O fun d => P d.value := by
  have hwp : Job.wp (pass.run c) (fun c' _ => ∀ node ∈ c'.nodes, node.Is O fun d => P d.value)
      (fun _ => True) s := by
    cases pass with
    | deadCode =>
      rw [run, DeadCode.run, Job.wp_bind, Job.wp_ofExcept]
      split
      case h_1 g _ =>
        have hkeeps := (CircuitEdit.stays_keepOnly hO (DeadCode.live c g)).apply hc
        dsimp only
        split <;> exact hkeeps.wp trivial
      case h_2 => trivial
    | constantFold =>
      have hedit := fun e he => (ConstantFold.stays_edit_of_fits hP hliteral).apply hP (e := e) he
      rw [run, ConstantFold.run, Job.wp_bind, Job.wp_withState]
      exact ((CircuitEdit.stays_ofTransform hO hedit).apply hc).wp
        (Memo.holds_start (Memo.holds_start trivial))
    | dedup =>
      have hedit := fun e he => (Dedup.stays_edit (P := P)).apply hP (e := e) he
      rw [run, Dedup.run, Job.wp_bind, Job.wp_withState]
      exact ((CircuitEdit.stays_ofTransform hO hedit).apply hc).wp
        (Memo.holds_start (Memo.holds_start (List.forall_mem_nil _)))
  exact hwp.of_exec_ok hrun

theorem Circuit.forall_functions_iff {c : Circuit} :
    (∀ f ∈ c.functions, P f) ↔
      ∀ node ∈ c.nodes, node.Is (fun op => ∀ f ∈ op.function, P f) fun d => P d.value := by
  simp only [functions, List.forall_mem_flatMap]
  refine forall₂_congr fun node _ => ?_
  cases node <;> simp [Node.functions, Node.Is]

/-- **Passes keep the property** of functions and declaration values. -/
theorem Pass.functions_run (pass : Pass) (hP : Expr.Stable P)
    (hliteral : ∀ {label : Label} {value : Literal} {ty : Ty} {e : Expr},
      Expr.literal label value ty = .ok e → P e)
    {c c' : Circuit} {s s' : Session Unit} (hc : ∀ f ∈ c.functions, P f)
    (hrun : (pass.run c).exec s = (.ok c', s')) : ∀ f ∈ c'.functions, P f := by
  refine Circuit.forall_functions_iff.mpr
    (pass.nodes_run hP (fun _ hfits => hliteral (if_pos hfits)) ?_
      (Circuit.forall_functions_iff.mp hc) hrun)
  exact ⟨fun hop hf => hop _ hf, fun _ hfunction _ h => by
    rw [Operator.eq_of_withParts h]
    exact hfunction⟩

end FlowCircuit
