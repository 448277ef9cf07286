import FlowCircuit.Proofs.Building
import FlowCircuit.Proofs.Rebuilding
import FlowCircuit.Proofs.Weights

/-!
# No reference is nullable

A reference always refers to something, so a reference type must not carry the flag for NULL.  Flags
are set in several ways: on request, for the fields of a tuple that may be NULL, and for the results
of operations.  This file shows that none of them ever reaches a reference, however deep in a type.

All that a program can hold is an `Entity`, and `Entity.parts` are the entities that can be read off
it: the types that go into it as well as expressions, aggregates and operators.  `Entity.Obtained`
lists the ways in which entities come to be: the constructors of types, expressions, Z-sets,
accumulators, aggregates, operators and circuits, the calls on a builder, reading off a part, and
the passes.  Each of them keeps `Entity.Sound`: nothing within the entity is a nullable reference.
-/

set_option autoImplicit false

namespace FlowCircuit

/-- The types of the parameters of a closure. -/
def Form.paramTys {α : Type} : Form α → List Ty
  | .closure params _ => params.map Parameter.ty
  | _ => []

/-- What a program can hold. -/
inductive Entity where
  | ty (t : Ty)
  | expr (e : Expr)
  | zset (z : ZSet Expr)
  | accumulator (a : Accumulator)
  | aggregate (a : Aggregate)
  | operator (op : Operator)
  | declaration (d : Declaration)
  | circuit (c : Circuit)

/-- A node of a circuit as an entity. -/
def Node.entity : Node → Entity
  | .operator op => .operator op
  | .declaration d => .declaration d

/-- What is handed to a builder. -/
def Builder.Call.arguments : Builder.Call → List Entity
  | .addOperator _ outputTy function aggregate inputs =>
    .ty outputTy :: function.toList.map .expr ++ aggregate.toList.map .aggregate ++
      inputs.map .operator
  | .addDeclaration _ value => [.expr value]
  | .source _ rowTy => [.ty rowTy]
  | .constant data => [.zset data]
  | .map input function => [.operator input, .expr function]
  | .filter input predicate => [.operator input, .expr predicate]
  | .sink _ input => [.operator input]

namespace Entity

/-- What can be read off an entity. -/
def parts : Entity → List Entity
  | .ty t => t.children.map .ty
  | .expr e =>
    .ty e.ty :: e.form.paramTys.map .ty ++ e.zset?.toList.map .zset ++ e.children.map .expr
  | .zset z => .ty z.ty :: z.elements.map .expr
  | .accumulator a => .ty a.rowTy :: .ty a.resultTy :: a.children.map .expr
  | .aggregate a => .ty a.rowTy :: .ty a.resultTy :: a.components.map .accumulator
  | .operator op =>
    .ty op.outputTy :: op.function.toList.map .expr ++ op.aggregate.toList.map .aggregate ++
        op.inputs.map .operator
  | .declaration d => [.ty d.ty, .expr d.value]
  | .circuit c => c.nodes.map Node.entity

/-- `q` is `p`, or can be read off it step by step. -/
inductive Within (q : Entity) : Entity → Prop
  | refl : Within q q
  | part {r p : Entity} (hr : r ∈ p.parts) (h : Within q r) : Within q p

/-- The entities that can be made. -/
inductive Obtained : Entity → Prop
  | part {q p : Entity} (hp : Obtained p) (hq : q ∈ p.parts) : Obtained q
  -- types
  | scalar (kind : Scalar) (nullable : Bool) : Obtained (.ty (.scalar kind nullable))
  | tupleOf {fields : List Ty} (h : ∀ t ∈ fields, Obtained (.ty t)) :
      Obtained (.ty (Ty.tupleOf fields))
  | refTo {target : Ty} (h : Obtained (.ty target)) (mutable : Bool) :
    Obtained (.ty (Ty.refTo target mutable))
  | zsetOf {element weight : Ty} (helement : Obtained (.ty element))
    (hweight : Obtained (.ty weight)) : Obtained (.ty (Ty.zsetOf element weight))
  | functionOf {params : List Ty} {result : Ty} (hparams : ∀ t ∈ params, Obtained (.ty t))
    (hresult : Obtained (.ty result)) : Obtained (.ty (Ty.functionOf params result))
  | withNullable {t t' : Ty} {nullable : Bool} (ht : Obtained (.ty t))
    (h : t.withNullable nullable = .ok t') : Obtained (.ty t')
  -- expressions
  | literal {label : Label} {value : Literal} {t : Ty} {e : Expr} (ht : Obtained (.ty t))
    (h : Expr.literal label value t = .ok e) : Obtained (.expr e)
  | null {label : Label} {t : Ty} {e : Expr} (ht : Obtained (.ty t))
    (h : Expr.null label t = .ok e) : Obtained (.expr e)
  | bool (label : Label) (value : Bool) : Obtained (.expr (Expr.bool label value))
  | int32 (label : Label) (value : Int32) : Obtained (.expr (Expr.int32 label value))
  | int64 (label : Label) (value : Int64) : Obtained (.expr (Expr.int64 label value))
  | double (label : Label) (bits : UInt64) : Obtained (.expr (Expr.double label bits))
  | string (label : Label) (value : String) : Obtained (.expr (Expr.string label value))
  | zset {z : ZSet Expr} (label : Label) (hz : Obtained (.zset z)) :
      Obtained (.expr (Expr.zset label z))
  | tuple {fields : List Expr} (label : Label) (hfields : ∀ e ∈ fields, Obtained (.expr e)) :
    Obtained (.expr (Expr.tuple label fields))
  | tupleTyped {label : Label} {t : Ty} {fields : List Expr} {e : Expr} (ht : Obtained (.ty t))
    (hfields : ∀ e ∈ fields, Obtained (.expr e)) (h : Expr.tupleTyped label t fields = .ok e) :
    Obtained (.expr e)
  | borrow {operand : Expr} (label : Label) (hoperand : Obtained (.expr operand)) :
    Obtained (.expr (Expr.borrow label operand))
  | var {t : Ty} (label : Label) (name : String) (ht : Obtained (.ty t)) :
    Obtained (.expr (Expr.var label name t))
  | field {label : Label} {base : Expr} {index : Nat} {e : Expr} (hbase : Obtained (.expr base))
    (h : Expr.field label base index = .ok e) : Obtained (.expr e)
  | closure {params : List Parameter} {body : Expr} (label : Label)
    (hparams : ∀ p ∈ params, Obtained (.ty p.ty)) (hbody : Obtained (.expr body)) :
    Obtained (.expr (Expr.closure label params body))
  | binary {label : Label} {op : BinOp} {left right e : Expr} (hleft : Obtained (.expr left))
    (hright : Obtained (.expr right)) (h : Expr.binary label op left right = .ok e) :
    Obtained (.expr e)
  | zero {label : Label} {t : Ty} {e : Expr} (ht : Obtained (.ty t))
    (h : Expr.zero label t = .ok e) : Obtained (.expr e)
  | one {label : Label} {t : Ty} {e : Expr} (ht : Obtained (.ty t)) (h : Expr.one label t = .ok e) :
    Obtained (.expr e)
  | withChildren {label : Label} {e e' : Expr} {cs : List Expr} (he : Obtained (.expr e))
    (hcs : ∀ c ∈ cs, Obtained (.expr c)) (h : e.withChildren label cs = .ok e') :
    Obtained (.expr e')
  -- Z-sets; a merge that is refused halfway leaves what was added until then
  | zsetOfTy {t : Ty} {z : ZSet Expr} (ht : Obtained (.ty t)) (h : ZSet.ofTy t = .ok z) :
      Obtained (.zset z)
  | empty {elementTy : Ty} (h : Obtained (.ty elementTy)) : Obtained (.zset (ZSet.empty elementTy))
  | ofElements {elements : List Expr} {z : ZSet Expr}
    (helements : ∀ e ∈ elements, Obtained (.expr e)) (h : ZSet.ofElements elements = .ok z) :
    Obtained (.zset z)
  | add {z z' : ZSet Expr} {element : Expr} {weight : Int64} {refusal : Option Error}
    (hz : Obtained (.zset z)) (helement : Obtained (.expr element))
    (h : z.add element weight = (z', refusal)) : Obtained (.zset z')
  | insert {z z' : ZSet Expr} {element : Expr} {refusal : Option Error} (hz : Obtained (.zset z))
    (helement : Obtained (.expr element)) (h : z.insert element = (z', refusal)) :
    Obtained (.zset z')
  | merge {z other : ZSet Expr} (hz : Obtained (.zset z)) (hother : Obtained (.zset other)) :
    Obtained (.zset (z.merge other).1)
  | negate {z z' : ZSet Expr} (hz : Obtained (.zset z)) (h : z.negate = .ok z') :
      Obtained (.zset z')
  -- aggregates
  | accumulator {zero increment emptyResult : Expr} {post : Option Expr} {a : Accumulator}
    (hzero : Obtained (.expr zero)) (hincrement : Obtained (.expr increment))
    (hpost : ∀ e ∈ post, Obtained (.expr e)) (hempty : Obtained (.expr emptyResult))
    (h : Accumulator.build zero increment post emptyResult = .ok a) : Obtained (.accumulator a)
  | aggregate {label : Label} {components : List Accumulator} {a : Aggregate}
    (hcomponents : ∀ c ∈ components, Obtained (.accumulator c))
    (h : Aggregate.build label components = .ok a) : Obtained (.aggregate a)
  -- operators; replacements of operators are built in the same way
  | operator {label : Label} {id : OpId} {kind : OpKind} {outputTy : Ty} {function : Option Expr}
    {aggregate : Option Aggregate} {inputs : List Operator} {op : Operator}
    (houtputTy : Obtained (.ty outputTy)) (hfunction : ∀ f ∈ function, Obtained (.expr f))
    (haggregate : ∀ a ∈ aggregate, Obtained (.aggregate a))
    (hinputs : ∀ input ∈ inputs, Obtained (.operator input))
    (h : Operator.build label id kind outputTy function aggregate inputs = .ok op) :
    Obtained (.operator op)
  | built {call : Builder.Call} {s s' : Session Builder} {node : Node}
    (hcall : ∀ part ∈ call.arguments, Obtained part) (h : call.run.exec s = (.ok node, s')) :
    Obtained node.entity
  -- circuits
  | declaration {value : Expr} (label : Label) (name : String) (hvalue : Obtained (.expr value)) :
    Obtained (.declaration ⟨label, name, value⟩)
  | circuit {nodes : List Node} (name : String) (hnodes : ∀ node ∈ nodes, Obtained node.entity) :
    Obtained (.circuit ⟨name, nodes⟩)
  | pass {c c' : Circuit} {s s' : Session Unit} (pass : Pass) (hc : Obtained (.circuit c))
    (hrun : (pass.run c).exec s = (.ok c', s')) : Obtained (.circuit c')

/-! ## Sound entities -/

/-- A type is not a nullable reference.  That Z-sets are well formed goes along, since it tells what
their elements are. -/
def Proper : Entity → Prop
  | .ty t => t.isReference = true → t.nullable = false
  | .zset z => z.WellFormed
  | _ => True

/-- All that is within is proper. -/
def Sound (p : Entity) : Prop := ∀ q : Entity, q.Within p → q.Proper

theorem sound_iff {p : Entity} : p.Sound ↔ p.Proper ∧ ∀ q ∈ p.parts, q.Sound := by
  refine ⟨fun h => ⟨h p .refl, fun q hq r hr => h r (.part hq hr)⟩, fun h q hq => ?_⟩
  cases hq with
  | refl => exact h.1
  | part hr hq => exact h.2 _ hr q hq

theorem sound_ty {t : Ty} :
    (ty t).Sound ↔ (t.isReference = true → t.nullable = false) ∧
      ∀ u ∈ t.children, (ty u).Sound := by
  rw [sound_iff, Proper, parts, List.forall_mem_map]

theorem sound_expr {e : Expr} :
    (expr e).Sound ↔ (ty e.ty).Sound ∧ (∀ t ∈ e.form.paramTys, (ty t).Sound) ∧
      (∀ z ∈ e.zset?, (Entity.zset z).Sound) ∧ ∀ c ∈ e.children, (expr c).Sound := by
  rw [sound_iff]
  simp only [Proper, parts, List.cons_append, List.forall_mem_cons, List.forall_mem_append,
    List.forall_mem_map, Option.mem_toList, Option.mem_def, true_and, and_assoc]

theorem sound_zset {z : ZSet Expr} :
    (Entity.zset z).Sound ↔ (ty z.ty).Sound ∧ z.WellFormedOver fun e => (expr e).Sound := by
  rw [sound_iff]
  simp only [Proper, parts, List.forall_mem_cons, List.forall_mem_map, ZSet.elements]
  exact ⟨fun h => ⟨h.2.1, h.1, h.2.2⟩, fun h => ⟨h.2.toWellFormed, h.1, h.2.elements⟩⟩

theorem sound_operator {op : Operator} :
    (Entity.operator op).Sound ↔ (ty op.outputTy).Sound ∧ (∀ f ∈ op.function, (expr f).Sound) ∧
      (∀ a ∈ op.aggregate, (Entity.aggregate a).Sound) ∧
        ∀ i ∈ op.inputs, (Entity.operator i).Sound := by
  rw [sound_iff]
  simp only [Proper, parts, List.cons_append, List.forall_mem_cons, List.forall_mem_append,
    List.forall_mem_map, Option.mem_toList, Option.mem_def, true_and, and_assoc]

theorem sound_circuit {c : Circuit} :
    (Entity.circuit c).Sound ↔ ∀ node ∈ c.nodes, node.entity.Sound := by
  rw [sound_iff]
  simp only [Proper, parts, List.forall_mem_map, true_and]

theorem Sound.part {p q : Entity} (h : p.Sound) (hq : q ∈ p.parts) : q.Sound :=
  (sound_iff.mp h).2 q hq

theorem Sound.ty {e : Expr} (h : (expr e).Sound) : (Entity.ty e.ty).Sound := (sound_expr.mp h).1

/-! ## Types -/

theorem sound_scalar (kind : Scalar) (nullable : Bool) : (ty (.scalar kind nullable)).Sound :=
  sound_ty.mpr ⟨fun h => (by cases h), List.forall_mem_nil _⟩

theorem sound_tuple {fields : List Ty} {nullable : Bool} :
    (ty (.tuple fields nullable)).Sound ↔ ∀ t ∈ fields, (ty t).Sound :=
  sound_ty.trans (and_iff_right fun h => by cases h)

theorem sound_zsetTy {element weight : Ty} {nullable : Bool} (helement : (ty element).Sound)
    (hweight : (ty weight).Sound) : (ty (.zset element weight nullable)).Sound :=
  sound_ty.mpr ⟨fun h => (by cases h),
    List.forall_mem_cons.mpr ⟨helement, List.forall_mem_singleton.mpr hweight⟩⟩

theorem sound_functionTy {params : List Ty} {result : Ty} (hparams : ∀ t ∈ params, (ty t).Sound)
    (hresult : (ty result).Sound) : (ty (Ty.functionOf params result)).Sound :=
  sound_ty.mpr ⟨fun h => (by cases h),
    List.forall_mem_append.mpr ⟨hparams, List.forall_mem_singleton.mpr hresult⟩⟩

theorem sound_setNullable {t : Ty} {nullable : Bool} (ht : (ty t).Sound)
    (href : t.isReference = true → nullable = true → t.nullable = true) :
    (ty (t.setNullable nullable)).Sound := by
  obtain ⟨hproper, hchildren⟩ := sound_ty.mp ht
  have hparts : (t.setNullable nullable).children = t.children := by cases t <;> rfl
  have hsort : (t.setNullable nullable).isReference = t.isReference := by cases t <;> rfl
  refine sound_ty.mpr ⟨fun h => ?_, hparts ▸ hchildren⟩
  rw [hsort] at h
  rw [Ty.nullable_setNullable, Bool.eq_false_iff]
  intro hnullable
  rw [hproper h] at href
  exact absurd (href h hnullable) Bool.false_ne_true

theorem sound_of_withNullable {t t' : Ty} {nullable : Bool} (ht : (ty t).Sound)
    (h : t.withNullable nullable = .ok t') : (ty t').Sound := by
  obtain ⟨rfl, href⟩ := Ty.withNullable_eq_ok h
  exact sound_setNullable ht href

/-- The flag of a tuple is passed on to its fields, but not to a reference. -/
theorem sound_of_fieldTy {base t : Ty} {index : Nat} (hbase : (ty base).Sound)
    (h : Expr.fieldTy base index = .ok t) : (ty t).Sound := by
  obtain ⟨tys, nullable, field, htuple, hfield, href, rfl⟩ := Expr.fieldTy_eq_ok h
  have hsound : (ty (.tuple tys nullable)).Sound := by
    rw [← htuple]
    cases base with
    | ref target => exact (sound_ty.mp hbase).2 target (List.mem_singleton.mpr rfl)
    | _ => exact hbase
  refine sound_setNullable (sound_tuple.mp hsound field (List.mem_of_getElem? hfield))
    fun h hn => ?_
  rcases Bool.or_eq_true_iff.mp hn with hn | hn
  · exact hn
  · exact href h hn

theorem sound_of_binaryTy {op : BinOp} {left right t : Ty} (hleft : (ty left).Sound)
    (h : Expr.binaryTy op left right = .ok t) : (ty t).Sound := by
  unfold Expr.binaryTy at h
  dsimp only at h
  split at h
  · cases h
  -- arithmetic has the type of its left operand, everything else is a boolean
  split at h
  · split at h
    · exact sound_of_withNullable hleft h
    · cases h
  · split at h
    · cases h
    · cases h
      exact sound_scalar _ _

/-! ## Expressions -/

section Expressions

variable {label : Label} {t : Ty} {e e' : Expr}

/-- A node that is neither a Z-set nor a closure holds its type and its sub-expressions. -/
theorem sound_node (hzset : e.zset? = none) (hparams : e.form.paramTys = []) (ht : (ty e.ty).Sound)
    (hchildren : ∀ c ∈ e.children, (expr c).Sound) : (expr e).Sound := by
  refine sound_expr.mpr ⟨ht, ?_, ?_, hchildren⟩
  · rw [hparams]
    exact List.forall_mem_nil _
  · rw [hzset]
    exact fun _ h => by cases h

theorem sound_literal {value : Literal} (ht : (ty t).Sound) :
    (expr ⟨label, t, .literal value⟩).Sound := sound_node rfl rfl ht (List.forall_mem_nil _)

theorem sound_of_literal {value : Literal} (ht : (ty t).Sound)
    (h : Expr.literal label value t = .ok e) : (expr e).Sound := by
  rw [Expr.literal] at h
  split at h
  · cases h
    exact sound_literal ht
  · split at h <;> cases h

theorem sound_of_numeral {n : Nat} {float : UInt64} (ht : (ty t).Sound)
    (h : Expr.numeral label t n float = .ok e) : (expr e).Sound := by
  rw [Expr.numeral] at h
  split at h
  · exact sound_of_literal ht h
  · exact sound_of_literal ht h
  · exact sound_of_literal ht h
  · cases h

theorem sound_exprZSet {z : ZSet Expr} (hz : (Entity.zset z).Sound) :
    (expr (Expr.zset label z)).Sound := by
  obtain ⟨ht, hwell⟩ := sound_zset.mp hz
  refine sound_expr.mpr
    ⟨ht, List.forall_mem_nil _, fun _ h => Option.some.inj h ▸ hz, fun c hc => ?_⟩
  obtain ⟨row, hrow, rfl⟩ := List.mem_map.mp hc
  exact hwell.elements row hrow

theorem sound_borrow (he : (expr e).Sound) : (expr (Expr.borrow label e)).Sound :=
  sound_node rfl rfl (sound_ty.mpr ⟨fun _ => rfl, List.forall_mem_singleton.mpr he.ty⟩)
    (List.forall_mem_singleton.mpr he)

theorem sound_of_field {index : Nat} (he : (expr e).Sound) (h : Expr.field label e index = .ok e') :
    (expr e').Sound := by
  obtain ⟨t, ht, rfl⟩ := Expr.field_eq_ok_iff.mp h
  exact sound_node rfl rfl (sound_of_fieldTy he.ty ht) (List.forall_mem_singleton.mpr he)

theorem sound_closure {params : List Parameter} (hparams : ∀ p ∈ params, (ty p.ty).Sound)
    (he : (expr e).Sound) : (expr (Expr.closure label params e)).Sound := by
  have htys : ∀ t ∈ params.map Parameter.ty, (ty t).Sound := List.forall_mem_map.mpr hparams
  exact sound_expr.mpr
    ⟨sound_functionTy htys he.ty, htys, fun _ h => (by cases h), List.forall_mem_singleton.mpr he⟩

theorem sound_of_binary {op : BinOp} {left right : Expr} (hleft : (expr left).Sound)
    (hright : (expr right).Sound) (h : Expr.binary label op left right = .ok e) :
    (expr e).Sound := by
  obtain ⟨t, ht, rfl⟩ := Expr.binary_eq_ok_iff.mp h
  exact sound_node rfl rfl (sound_of_binaryTy hleft.ty ht)
    (List.forall_mem_cons.mpr ⟨hleft, List.forall_mem_singleton.mpr hright⟩)

theorem sound_of_tupleTyped {fields : List Expr} (ht : (ty t).Sound)
    (hfields : ∀ f ∈ fields, (expr f).Sound) (h : Expr.tupleTyped label t fields = .ok e) :
    (expr e).Sound := by
  obtain ⟨-, rfl⟩ := Expr.tupleTyped_eq_ok_iff.mp h
  exact sound_node rfl rfl ht hfields

/-- A Z-set is rebuilt by filling an empty one of its type. -/
theorem sound_of_rebuiltZSet {l : Label} {z : ZSet Expr} {cs : List Expr}
    (hz : (Entity.zset z).Sound) (hcs : ∀ c ∈ cs, (expr c).Sound)
    (h : Expr.withChildren label ⟨l, t, .zset z⟩ cs = .ok e) : (expr e).Sound := by
  have hlength : cs.length = z.rows.length :=
    (Expr.length_of_withChildren h).trans (List.length_map _)
  obtain ⟨z', hz', rfl⟩ := (Expr.withChildren_zset_iff hlength).mp h
  have hty := ZSet.ty_addAll { z with rows := [] } (cs.zip (z.rows.map Row.weight))
  have hempty : ({ z with rows := [] } : ZSet Expr).WellFormedOver fun e => (expr e).Sound :=
    ZSet.wellFormedOver_of_rows rfl
  have hentries : ∀ entry ∈ cs.zip (z.rows.map Row.weight), (expr entry.1).Sound :=
    fun entry hentry => hcs entry.1 (List.of_mem_zip hentry).1
  have hwell := hempty.addAll hentries
  rw [hz'] at hty hwell
  exact sound_exprZSet (sound_zset.mpr ⟨hty ▸ (sound_zset.mp hz).1, hwell⟩)

/-- Sub-expressions are sound, and what is rebuilt over sound expressions is. -/
theorem stable_sound : Expr.Stable fun e => (expr e).Sound where
  child he hc := (sound_expr.mp he).2.2.2 _ hc
  withChildren {e e' label cs} he hcs h := by
    obtain ⟨ht, hparams, hzset, -⟩ := sound_expr.mp he
    have hrebuilt := h
    -- a Z-set is filled anew, and the other forms go through their constructors
    unfold Expr.withChildren at h
    split at h
    · cases h
    split at h
    case h_1 z hform _ =>
      rcases e with ⟨l, t, form⟩
      obtain rfl : form = .zset z := hform
      exact sound_of_rebuiltZSet (hzset z rfl) hcs hrebuilt
    case h_2 => exact sound_of_tupleTyped ht hcs h
    case h_3 =>
      cases h
      exact sound_borrow (hcs _ List.mem_cons_self)
    case h_4 => exact sound_of_field (hcs _ List.mem_cons_self) h
    case h_5 params _ body hform _ =>
      cases h
      rw [hform] at hparams
      exact sound_closure (fun p hp => hparams _ (List.mem_map_of_mem hp))
        (hcs body List.mem_cons_self)
    case h_6 =>
      exact sound_of_binary (hcs _ List.mem_cons_self)
        (hcs _ (List.mem_cons_of_mem _ List.mem_cons_self)) h
    case h_7 =>
      cases h
      exact he

end Expressions

/-! ## Z-sets -/

section ZSets

variable {z z' : ZSet Expr}

theorem sound_of_zsetOfTy {t : Ty} (ht : (ty t).Sound) (h : ZSet.ofTy t = .ok z) :
    (Entity.zset z).Sound :=
  sound_zset.mpr ⟨ZSet.ty_of_ofTy h ▸ ht, ZSet.wellFormedOver_of_rows (ZSet.rows_of_ofTy h)⟩

theorem sound_empty {elementTy : Ty} (h : (ty elementTy).Sound) :
    (Entity.zset (ZSet.empty elementTy)).Sound :=
  sound_zset.mpr ⟨sound_zsetTy h (sound_scalar _ _), ZSet.wellFormedOver_of_rows rfl⟩

theorem sound_of_ofElements {elements : List Expr} (helements : ∀ e ∈ elements, (expr e).Sound)
    (h : ZSet.ofElements elements = .ok z) : (Entity.zset z).Sound := by
  refine sound_zset.mpr ⟨?_, .ofElements helements h⟩
  cases elements with
  | nil => cases h
  | cons first rest =>
    rw [ZSet.ty_ofElements h]
    exact sound_zsetTy (helements first List.mem_cons_self).ty (sound_scalar _ _)

theorem sound_of_add {element : Expr} {weight : Int64} {refusal : Option Error}
    (hz : (Entity.zset z).Sound) (he : (expr element).Sound)
    (h : z.add element weight = (z', refusal)) : (Entity.zset z').Sound := by
  obtain ⟨ht, hwell⟩ := sound_zset.mp hz
  exact sound_zset.mpr ⟨ZSet.ty_add h ▸ ht, hwell.add he h⟩

theorem sound_merge {other : ZSet Expr} (hz : (Entity.zset z).Sound)
    (hother : (Entity.zset other).Sound) : (Entity.zset (z.merge other).1).Sound := by
  obtain ⟨ht, hwell⟩ := sound_zset.mp hz
  exact sound_zset.mpr ⟨ZSet.ty_merge z other ▸ ht, hwell.merge (sound_zset.mp hother).2⟩

theorem sound_of_negate (hz : (Entity.zset z).Sound) (h : z.negate = .ok z') :
    (Entity.zset z').Sound := by
  obtain ⟨ht, hwell⟩ := sound_zset.mp hz
  exact sound_zset.mpr ⟨ZSet.ty_negate h ▸ ht, hwell.negate h⟩

end ZSets

/-! ## Aggregates -/

theorem sound_accumulator {a : Accumulator} :
    (Entity.accumulator a).Sound ↔ (ty a.rowTy).Sound ∧ ∀ e ∈ a.children, (expr e).Sound := by
  rw [sound_iff]
  simp only [Proper, parts, List.forall_mem_cons, List.forall_mem_map, true_and]
  refine ⟨fun h => ⟨h.1, h.2.2⟩, fun h => ⟨h.1, ?_, h.2⟩⟩
  exact (h.2 a.emptyResult (by simp [Accumulator.children])).ty

theorem sound_aggregate {a : Aggregate} :
    (Entity.aggregate a).Sound ↔ ∀ c ∈ a.components, (Entity.accumulator c).Sound := by
  rw [sound_iff]
  simp only [Proper, parts, List.forall_mem_cons, List.forall_mem_map, true_and]
  refine ⟨fun h => h.2.2, fun h => ⟨?_, ?_, h⟩⟩
  · exact (sound_accumulator.mp (h a.first List.mem_cons_self)).1
  · refine sound_tuple.mpr (List.forall_mem_map.mpr fun c hc => ?_)
    exact (h c hc).part (List.mem_cons_of_mem _ List.mem_cons_self)

/-- The parameter and result types of a closure type. -/
theorem sound_signature {t : Ty} {params : List Ty} {result : Ty} (ht : (ty t).Sound)
    (h : t.signature? = some (params, result)) :
    (∀ u ∈ params, (ty u).Sound) ∧ (ty result).Sound := by
  cases t with
  | function =>
    cases h
    obtain ⟨hparams, hresult⟩ := List.forall_mem_append.mp (sound_ty.mp ht).2
    exact ⟨hparams, hresult _ (List.mem_singleton.mpr rfl)⟩
  | _ => cases h

theorem sound_of_incrementRow {accTy incrementTy rowTy : Ty} (ht : (ty incrementTy).Sound)
    (h : Accumulator.incrementRow accTy incrementTy = .ok rowTy) : (ty rowTy).Sound := by
  unfold Accumulator.incrementRow at h
  split at h
  · cases h
  case h_2 first row result hsignature =>
    split at h
    · cases h
    split at h
    · cases h
    · cases h
      refine (sound_signature ht hsignature).1 rowTy ?_
      exact List.mem_cons_of_mem _ List.mem_cons_self
  · cases h

theorem sound_of_buildAccumulator {zero increment emptyResult : Expr} {post : Option Expr}
    {a : Accumulator} (hzero : (expr zero).Sound) (hincrement : (expr increment).Sound)
    (hpost : ∀ e ∈ post, (expr e).Sound) (hempty : (expr emptyResult).Sound)
    (h : Accumulator.build zero increment post emptyResult = .ok a) :
    (Entity.accumulator a).Sound := by
  rw [Accumulator.build] at h
  cases hrow : Accumulator.incrementRow zero.ty increment.ty with
  | error e =>
    rw [hrow] at h
    cases h
  | ok rowTy =>
    rw [hrow] at h
    cases hresult : Accumulator.resultOf zero.ty post with
    | error e =>
      simp only [bind, Except.bind, hresult] at h
      cases h
    | ok resultTy =>
      simp only [bind, Except.bind, hresult] at h
      split at h
      · cases h
        refine sound_accumulator.mpr ⟨sound_of_incrementRow hincrement.ty hrow, ?_⟩
        simpa [Accumulator.children, or_imp, forall_and] using ⟨hzero, hincrement, hpost, hempty⟩
      · cases h

theorem sound_of_buildAggregate {label : Label} {components : List Accumulator} {a : Aggregate}
    (hcomponents : ∀ c ∈ components, (Entity.accumulator c).Sound)
    (h : Aggregate.build label components = .ok a) : (Entity.aggregate a).Sound := by
  refine sound_aggregate.mpr ?_
  cases components with
  | nil => cases h
  | cons first rest =>
    rw [Aggregate.build] at h
    split at h
    · cases h
    · cases h
      exact hcomponents

/-! ## Operators -/

section Operators

variable {kind : OpKind} {outputTy : Ty} {function : Option Expr} {aggregate : Option Aggregate}
  {inputs : List Operator} {op : Operator}

theorem sound_of_consistsOf (houtputTy : (ty outputTy).Sound)
    (hfunction : ∀ f ∈ function, (expr f).Sound)
    (haggregate : ∀ a ∈ aggregate, (Entity.aggregate a).Sound)
    (hinputs : ∀ i ∈ inputs, (Entity.operator i).Sound)
    (h : op.ConsistsOf kind outputTy function aggregate inputs) : (Entity.operator op).Sound := by
  obtain ⟨-, rfl, rfl, rfl, rfl⟩ := h
  exact sound_operator.mpr ⟨houtputTy, hfunction, haggregate, hinputs⟩

theorem sound_declaration {d : Declaration} :
    (Entity.declaration d).Sound ↔ (expr d.value).Sound := by
  rw [sound_iff]
  simp only [Proper, parts, List.forall_mem_cons, true_and]
  exact ⟨fun h => h.2.1, fun h => ⟨h.ty, h, List.forall_mem_nil _⟩⟩

/-- The type of weights of an operator, or the default one. -/
theorem sound_weight {t : Ty} (ht : (ty t).Sound) :
    (ty ((t.zset?.map Prod.snd).getD Ty.defaultWeight)).Sound := by
  cases t with
  | zset => exact (sound_ty.mp ht).2 _ (List.mem_cons_of_mem _ List.mem_cons_self)
  | _ => exact sound_scalar _ _

/-- What a builder is asked for is sound if all is that it is given. -/
theorem sound_of_asks {call : Builder.Call} {node : Node} (hcall : ∀ p ∈ call.arguments, p.Sound)
    (h : call.Asks node) : node.entity.Sound := by
  have hnone {α : Type} {P : α → Prop} : ∀ a ∈ (none : Option α), P a := fun _ h => by cases h
  have hsome {P : Expr → Prop} {f : Expr} (hf : P f) : ∀ a ∈ some f, P a := fun _ h =>
    Option.some.inj h ▸ hf
  cases node with
  | declaration d =>
    cases call with
    | addDeclaration name value =>
      obtain ⟨-, rfl⟩ := h
      exact sound_declaration.mpr (hcall _ (List.mem_singleton.mpr rfl))
    | _ => exact h.elim
  | operator op =>
    cases call with
    | addDeclaration => exact h.elim
    | addOperator kind outputTy function aggregate inputs =>
      simp only [Builder.Call.arguments, List.cons_append, List.forall_mem_cons,
        List.forall_mem_append, List.forall_mem_map, Option.mem_toList] at hcall
      obtain ⟨houtputTy, ⟨hfunction, haggregate⟩, hinputs⟩ := hcall
      exact sound_of_consistsOf houtputTy hfunction haggregate hinputs h
    | source name rowTy =>
      have hrow : (ty rowTy).Sound := hcall _ List.mem_cons_self
      exact sound_of_consistsOf (sound_zsetTy hrow (sound_scalar _ _)) hnone hnone
        (List.forall_mem_nil _) h
    | constant data =>
      have hdata : (Entity.zset data).Sound := hcall _ List.mem_cons_self
      obtain ⟨label, h⟩ := h
      exact sound_of_consistsOf (sound_zset.mp hdata).1 (hsome (sound_exprZSet hdata)) hnone
        (List.forall_mem_nil _) h
    | map input function =>
      have hinput : (Entity.operator input).Sound := hcall _ List.mem_cons_self
      have hfunction : (expr function).Sound := hcall _ (List.mem_cons_of_mem _ List.mem_cons_self)
      obtain ⟨params, rowTy, hsignature, h⟩ := h
      have hrow := (sound_signature hfunction.ty hsignature).2
      exact sound_of_consistsOf (sound_zsetTy hrow (sound_weight (sound_operator.mp hinput).1))
        (hsome hfunction) hnone (List.forall_mem_singleton.mpr hinput) h
    | filter input predicate =>
      have hinput : (Entity.operator input).Sound := hcall _ List.mem_cons_self
      have hpredicate : (expr predicate).Sound :=
        hcall _ (List.mem_cons_of_mem _ List.mem_cons_self)
      exact sound_of_consistsOf (sound_operator.mp hinput).1 (hsome hpredicate) hnone
        (List.forall_mem_singleton.mpr hinput) h
    | sink name input =>
      have hinput : (Entity.operator input).Sound := hcall _ List.mem_cons_self
      exact sound_of_consistsOf (sound_operator.mp hinput).1 hnone hnone
        (List.forall_mem_singleton.mpr hinput) h

end Operators

/-! ## Everything -/

theorem carries_sound :
    CircuitEdit.Carries (fun op => (Entity.operator op).Sound) fun e => (expr e).Sound where
  function hop hf := (sound_operator.mp hop).2.1 _ hf
  withParts {op op' label function inputs} hop hfunction hinputs h := by
    obtain ⟨houtputTy, -, haggregate, -⟩ := sound_operator.mp hop
    rw [Operator.eq_of_withParts h]
    exact sound_operator.mpr ⟨houtputTy, hfunction, haggregate, hinputs⟩

theorem sound_entity_iff {node : Node} : node.entity.Sound ↔
    node.Is (fun op => (Entity.operator op).Sound) fun d => (expr d.value).Sound := by
  cases node with
  | operator op => exact Iff.rfl
  | declaration d => exact sound_declaration

theorem sound_of_pass {pass : Pass} {c c' : Circuit} {s s' : Session Unit}
    (hc : (Entity.circuit c).Sound) (hrun : (pass.run c).exec s = (.ok c', s')) :
    (Entity.circuit c').Sound := by
  rw [sound_circuit] at hc ⊢
  simp only [sound_entity_iff] at hc ⊢
  exact pass.nodes_run stable_sound (fun he _ => sound_literal he.ty) carries_sound hc hrun

namespace Obtained

/-- **Everything that can be made is sound**, by the way in which it was made. -/
theorem sound {p : Entity} (h : p.Obtained) : p.Sound := by
  induction h with
  | part _ hq ih => exact ih.part hq
  | scalar kind nullable => exact sound_scalar kind nullable
  | tupleOf _ ih => exact sound_tuple.mpr ih
  | refTo _ mutable ih => exact sound_ty.mpr ⟨fun _ => rfl, List.forall_mem_singleton.mpr ih⟩
  | zsetOf _ _ ih ih' => exact sound_zsetTy ih ih'
  | functionOf _ _ ih ih' => exact sound_functionTy ih ih'
  | withNullable _ h ih => exact sound_of_withNullable ih h
  | literal _ h ih => exact sound_of_literal ih h
  | null _ h ih => exact sound_of_literal ih h
  | bool => exact sound_literal (sound_scalar _ _)
  | int32 => exact sound_literal (sound_scalar _ _)
  | int64 => exact sound_literal (sound_scalar _ _)
  | double => exact sound_literal (sound_scalar _ _)
  | string => exact sound_literal (sound_scalar _ _)
  | zset label _ ih => exact sound_exprZSet ih
  | tuple label _ ih =>
    exact sound_node rfl rfl (sound_tuple.mpr (List.forall_mem_map.mpr fun e he => (ih e he).ty)) ih
  | tupleTyped _ _ h ih ih' => exact sound_of_tupleTyped ih ih' h
  | borrow label _ ih => exact sound_borrow ih
  | var label name _ ih => exact sound_node rfl rfl ih (List.forall_mem_nil _)
  | field _ h ih => exact sound_of_field ih h
  | closure label _ _ ih ih' => exact sound_closure ih ih'
  | binary _ _ h ih ih' => exact sound_of_binary ih ih' h
  | zero _ h ih => exact sound_of_numeral ih h
  | one _ h ih => exact sound_of_numeral ih h
  | withChildren _ _ h ih ih' => exact stable_sound.withChildren ih ih' h
  | zsetOfTy _ h ih => exact sound_of_zsetOfTy ih h
  | empty _ ih => exact sound_empty ih
  | ofElements _ h ih => exact sound_of_ofElements ih h
  | add _ _ h ih ih' => exact sound_of_add ih ih' h
  | insert _ _ h ih ih' => exact sound_of_add ih ih' h
  | merge _ _ ih ih' => exact sound_merge ih ih'
  | negate _ h ih => exact sound_of_negate ih h
  | accumulator _ _ _ _ h hzero hincrement hpost hempty =>
    exact sound_of_buildAccumulator hzero hincrement hpost hempty h
  | aggregate _ h ih => exact sound_of_buildAggregate ih h
  | operator _ _ _ _ h houtputTy hfunction haggregate hinputs =>
    obtain ⟨rfl, -⟩ := Operator.of_build_eq_ok h
    exact sound_operator.mpr ⟨houtputTy, hfunction, haggregate, hinputs⟩
  | built _ h ih => exact sound_of_asks ih (Builder.Call.asks_of_exec h)
  | declaration label name _ ih => exact sound_declaration.mpr ih
  | circuit name _ ih => exact sound_circuit.mpr ih
  | pass pass _ hrun ih => exact sound_of_pass ih hrun

/-- **No reference is nullable**, wherever in a type it stands, and wherever the type does: a type
that was made, or the type of something that was made. -/
theorem reference_not_nullable {p : Entity} (h : p.Obtained) {t : Ty}
    (ht : (Entity.ty t).Within p) : ¬ (t.isReference = true ∧ t.nullable = true) := by
  rintro ⟨href, hnullable⟩
  have hproper : t.isReference = true → t.nullable = false := h.sound _ ht
  rw [hproper href] at hnullable
  cases hnullable

end Obtained

end Entity

namespace Projection

/-! A closure that takes a reference to a tuple which may be NULL, and gives a field of the
tuple. -/

/-- A row that may be NULL, with a reference in it. -/
def row : Ty := .tuple [Ty.int32 false, Ty.refTo (Ty.string true) false] true

/-- A reference to the row. -/
def record : Expr := .var 0 "r" (Ty.refTo row false)

/-- The column that is no reference. -/
def column : Expr := ⟨1, Ty.int32 true, .field record 0⟩

/-- The function that gives the column. -/
def projection : Expr := .closure 2 [⟨"r", Ty.refTo row false⟩] column

theorem obtained_row : (Entity.ty row).Obtained := by
  have hfields : ∀ t ∈ [Ty.int32 false, Ty.refTo (Ty.string true) false], (Entity.ty t).Obtained :=
    List.forall_mem_cons.mpr
      ⟨.scalar _ _, List.forall_mem_singleton.mpr (.refTo (.scalar _ _) false)⟩
  have hrow : (Ty.tupleOf [Ty.int32 false, Ty.refTo (Ty.string true) false]).withNullable true =
      .ok row := rfl
  exact .withNullable (.tupleOf hfields) hrow

theorem obtained_projection : (Entity.expr projection).Obtained := by
  have hrecord : (Entity.ty (Ty.refTo row false)).Obtained := .refTo obtained_row false
  have hcolumn : Expr.field 1 record 0 = .ok column := rfl
  exact .closure 2 (List.forall_mem_singleton.mpr hrecord) (.field (.var 0 "r" hrecord) hcolumn)

end Projection

theorem Entity.Obtained.reference_not_nullable_projection :
    (Entity.expr Projection.projection).Obtained ∧
      ∀ t : Ty, (Entity.ty t).Within (.expr Projection.projection) →
        ¬ (t.isReference = true ∧ t.nullable = true) :=
  ⟨Projection.obtained_projection,
    fun _ ht => reference_not_nullable Projection.obtained_projection ht⟩

end FlowCircuit
