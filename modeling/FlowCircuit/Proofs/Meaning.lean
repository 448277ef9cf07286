import FlowCircuit.Proofs.Folding

/-!
# Evaluating constants keeps the meaning

What an expression means is left open as far as it can be.  An `Evaluator` gives an expression a
value in an environment, or none; it is bound by laws only on well-typed expressions without
closures.  The value of a node depends on nothing but its type, its shape and what its
sub-expressions are, and there is none when a sub-expression has none.  Literals, tuples and
references mean themselves, fields project, and arithmetic, comparisons and connectives do on
integers and booleans what they do in mathematics, as far as the width allows.  Variables, Z-sets,
NULL operands and all other kinds of operands may mean anything.

Under every such evaluator an expression that has a value keeps it, and its type, when its constants
are evaluated (`ConstantFold.meaning_kept`).
-/

set_option autoImplicit false

namespace FlowCircuit

/-! ## Operations of mathematics -/

namespace BinOp

/-- Arithmetic in the integers; division goes toward zero, and there is none by zero. -/
def arithmetic? : BinOp → Int → Int → Option Int
  | .add, a, b => some (a + b)
  | .sub, a, b => some (a - b)
  | .mul, a, b => some (a * b)
  | .div, a, b => if b = 0 then none else some (a.tdiv b)
  | _, _, _ => none

/-- Comparison of integers. -/
def compares? : BinOp → Int → Int → Option Bool
  | .eq, a, b => some (decide (a = b))
  | .ne, a, b => some (decide (a ≠ b))
  | .lt, a, b => some (decide (a < b))
  | .le, a, b => some (decide (a ≤ b))
  | .gt, a, b => some (decide (b < a))
  | .ge, a, b => some (decide (b ≤ a))
  | _, _, _ => none

/-- Connectives, equality and inequality of booleans. -/
def connects? : BinOp → Bool → Bool → Option Bool
  | .and, a, b => some (a && b)
  | .or, a, b => some (a || b)
  | .eq, a, b => some (decide (a = b))
  | .ne, a, b => some (decide (a ≠ b))
  | _, _, _ => none

end BinOp

/-! ## Evaluators -/

/-- Closures have no value here. -/
def Form.isClosure {α : Type} : Form α → Bool
  | .closure .. => true
  | _ => false

theorem Form.isClosure_shape {α : Type} (form : Form α) :
    form.shape.isClosure = form.isClosure := by
  cases form <;> rfl

namespace Expr

/-- No node of the expression is a closure. -/
def ClosureFree (e : Expr) : Prop := e.All fun d => d.form.isClosure = false

/-- The expressions that evaluators speak about. -/
structure Plain (e : Expr) : Prop where
  wellTyped : e.WellTyped
  closureFree : e.ClosureFree

theorem Plain.within {d e : Expr} (h : e.Plain) (hd : d.Within e) : d.Plain :=
  ⟨All.within h.wellTyped hd, All.within h.closureFree hd⟩

theorem Plain.child {c e : Expr} (h : e.Plain) (hc : c ∈ e.children) : c.Plain :=
  h.within (within_of_mem_children hc)

end Expr

/-- A way of giving values `V` to expressions in environments `Env`. -/
structure Evaluator (Env V : Type) where
  eval : Env → Expr → Option V
  scalar : Literal → V
  tuple : List V → V
  ref : V → V
  /-- The value depends on type, shape and sub-expressions, and on these by their types and
  values. -/
  compositional : ∀ (env : Env) {a b : Expr}, a.Plain → b.Plain → a.ty = b.ty →
    (a.form.map fun c => (c.ty, eval env c)) = (b.form.map fun c => (c.ty, eval env c)) →
    eval env a = eval env b
  strict : ∀ (env : Env) {e c : Expr}, e.Plain → c ∈ e.children → eval env c = none →
    eval env e = none
  eval_literal : ∀ (env : Env) {e : Expr} {value : Literal}, e.Plain → e.form = .literal value →
    eval env e = some (scalar value)
  eval_tuple : ∀ (env : Env) {e : Expr} {fields : List Expr} {vs : List V}, e.Plain →
    e.form = .tuple fields → List.Forall₂ (fun f v => eval env f = some v) fields vs →
    eval env e = some (tuple vs)
  eval_borrow : ∀ (env : Env) {e operand : Expr} {v : V}, e.Plain → e.form = .borrow operand →
    eval env operand = some v → eval env e = some (ref v)
  eval_field : ∀ (env : Env) {e base : Expr} {index : Nat} {vs : List V}, e.Plain →
    e.form = .field base index →
    (eval env base = some (tuple vs) ∨ eval env base = some (ref (tuple vs))) →
    eval env e = vs[index]?
  /-- Arithmetic is exact where the result fits the width of the operands, and undefined
  elsewhere. -/
  eval_arithmetic : ∀ (env : Env) {e left right : Expr} {op : BinOp} {w : IntWidth} {a b : Int64},
    e.Plain → e.form = .binary op left right → op.isArithmetic = true →
    left.ty.scalar? = some (.integer w) → eval env left = some (scalar (.integer a)) →
    eval env right = some (scalar (.integer b)) →
    eval env e = ((op.arithmetic? a.toInt b.toInt).filter fun n => decide (w.Holds n)).map
      fun n => scalar (.integer (Int64.ofInt n))
  eval_comparison : ∀ (env : Env) {e left right : Expr} {op : BinOp} {w : IntWidth} {a b : Int64}
    {x : Bool}, e.Plain → e.form = .binary op left right → left.ty.scalar? = some (.integer w) →
    eval env left = some (scalar (.integer a)) → eval env right = some (scalar (.integer b)) →
    op.compares? a.toInt b.toInt = some x → eval env e = some (scalar (.bool x))
  eval_connective : ∀ (env : Env) {e left right : Expr} {op : BinOp} {a b x : Bool},
    e.Plain → e.form = .binary op left right → left.ty.scalar? = some .bool →
    eval env left = some (scalar (.bool a)) → eval env right = some (scalar (.bool b)) →
    op.connects? a b = some x → eval env e = some (scalar (.bool x))

/-! ## An evaluator

The laws can be kept, in the obvious way. -/

/-- Scalars, tuples and references. -/
inductive Value where
  | scalar (value : Literal)
  | tuple (fields : List Value)
  | ref (target : Value)

namespace Value

/-- The field of a tuple, or of a reference to one. -/
def project? (index : Nat) : Value → Option Value
  | .tuple vs => vs[index]?
  | .ref (.tuple vs) => vs[index]?
  | _ => none

/-- Operations on two integers of type `ty` or two booleans; on nothing else. -/
def operate? (op : BinOp) (ty : Ty) : Value → Value → Option Value
  | .scalar (.integer a), .scalar (.integer b) =>
    match ty.scalar?, op.isArithmetic with
    | some (.integer w), true =>
      ((op.arithmetic? a.toInt b.toInt).filter fun n => decide (w.Holds n)).map
        fun n => .scalar (.integer (Int64.ofInt n))
    | some (.integer _), false => (op.compares? a.toInt b.toInt).map fun x => .scalar (.bool x)
    | _, _ => none
  | .scalar (.bool a), .scalar (.bool b) => (op.connects? a b).map fun x => .scalar (.bool x)
  | _, _ => none

/-- The value of a node from the types and values of its sub-expressions.  Z-sets and closures have
none. -/
def step (env : String → Option Value) : Form (Ty × Option Value) → Option Value
  | .literal value => some (.scalar value)
  | .tuple fields => (fields.mapM Prod.snd).map .tuple
  | .borrow operand => operand.2.map .ref
  | .var name => env name
  | .field base index => base.2.bind (project? index)
  | .binary op left right => left.2.bind fun a => right.2.bind fun b => operate? op left.1 a b
  | .zset _ | .closure .. => none

mutual

/-- The value of an expression, given those of its variables. -/
def of (env : String → Option Value) : Expr → Option Value
  | ⟨_, _, .tuple fields⟩ => step env (.tuple (ofAll env fields))
  | ⟨_, _, .borrow operand⟩ => step env (.borrow (operand.ty, of env operand))
  | ⟨_, _, .field base index⟩ => step env (.field (base.ty, of env base) index)
  | ⟨_, _, .binary op left right⟩ =>
    step env (.binary op (left.ty, of env left) (right.ty, of env right))
  | ⟨_, _, .literal value⟩ => step env (.literal value)
  | ⟨_, _, .var name⟩ => step env (.var name)
  | ⟨_, _, .zset _⟩ | ⟨_, _, .closure _ _⟩ => none

/-- The types and values of several expressions. -/
def ofAll (env : String → Option Value) : List Expr → List (Ty × Option Value)
  | [] => []
  | e :: es => (e.ty, of env e) :: ofAll env es

end

variable {env : String → Option Value}

theorem ofAll_eq (es : List Expr) : ofAll env es = es.map fun e => (e.ty, of env e) := by
  induction es with
  | nil => rfl
  | cons e es ih => rw [ofAll, ih, List.map_cons]

theorem of_eq (e : Expr) : of env e = step env (e.form.map fun c => (c.ty, of env c)) := by
  rcases e with ⟨l, t, form⟩
  cases form <;> simp [of, step, Form.map, ofAll_eq]

/-- There is no value without values of all sub-expressions. -/
theorem of_eq_none {e c : Expr} (hc : c ∈ e.children) (h : of env c = none) : of env e = none := by
  rw [of_eq]
  rcases e with ⟨l, t, form⟩
  cases form with
  | literal => cases hc
  | var => cases hc
  | zset => rfl
  | closure => rfl
  | borrow a =>
    obtain rfl : c = a := by simpa [Expr.children, Form.children] using hc
    simp [step, Form.map, h]
  | field a i =>
    obtain rfl : c = a := by simpa [Expr.children, Form.children] using hc
    simp [step, Form.map, h]
  | binary op a b =>
    rcases (by simpa [Expr.children, Form.children] using hc : c = a ∨ c = b) with rfl | rfl <;>
      simp [step, Form.map, h]
  | tuple fs =>
    have hnone : fs.mapM (of env) = none := by
      rw [Option.eq_none_iff_forall_ne_some]
      intro vs hvs
      obtain ⟨v, -, hv⟩ := forall₂_exists_right (mapM_eq_some_iff.mp hvs) hc
      rw [h] at hv
      cases hv
    simp [step, Form.map, List.mapM_map, Function.comp_def, hnone]

end Value

/-- The evaluator in which variables mean what the environment says. -/
def Evaluator.standard : Evaluator (String → Option Value) Value where
  eval := Value.of
  scalar := .scalar
  tuple := .tuple
  ref := .ref
  compositional env a b _ _ _ h := by rw [Value.of_eq, h, ← Value.of_eq]
  strict env e c _ hc h := Value.of_eq_none hc h
  eval_literal env e value _ hform := by rw [Value.of_eq, hform]; rfl
  eval_tuple env e fields vs _ hform hvs := by
    rw [Value.of_eq, hform]
    simp [Value.step, Form.map, List.mapM_map, Function.comp_def, mapM_eq_some_iff.mpr hvs]
  eval_borrow env e operand v _ hform hv := by
    rw [Value.of_eq, hform]
    simp [Value.step, Form.map, hv]
  eval_field env e base index vs _ hform hbase := by
    rw [Value.of_eq, hform]
    rcases hbase with h | h <;> simp [Value.step, Form.map, h, Value.project?]
  eval_arithmetic env e left right op w a b _ hform hop hw ha hb := by
    rw [Value.of_eq, hform]
    simp [Value.step, Form.map, ha, hb, Value.operate?, hw, hop]
  eval_comparison env e left right op w a b x _ hform hw ha hb hx := by
    have hop : op.isArithmetic = false := by cases op <;> first | rfl | cases hx
    rw [Value.of_eq, hform]
    simp [Value.step, Form.map, ha, hb, Value.operate?, hw, hop, hx]
  eval_connective env e left right op a b x _ hform _ ha hb hx := by
    rw [Value.of_eq, hform]
    simp [Value.step, Form.map, ha, hb, Value.operate?, hx]

/-! ## One node -/

theorem Literal.scalar?_of_fits_integer {n : Int64} {ty : Ty} (h : (integer n).fits ty = true) :
    ∃ w, ty.scalar? = some (.integer w) := by
  unfold fits at h
  split at h <;> simp_all

theorem Literal.scalar?_of_fits_bool {x : Bool} {ty : Ty} (h : (bool x).fits ty = true) :
    ty.scalar? = some .bool := by
  unfold fits at h
  split at h <;> simp_all

namespace ConstantFold

/-- An integer operation that is evaluated gives its exact result, or its truth value. -/
theorem onIntegers_cases {op : BinOp} {a b : Int64} {value : Literal}
    (h : onIntegers op a b = some value) :
    (op.isArithmetic = true ∧ ∃ n : Int64, value = .integer n ∧
        op.arithmetic? a.toInt b.toInt = some n.toInt) ∨
      ∃ x, value = .bool x ∧ op.compares? a.toInt b.toInt = some x := by
  have arithmetic {n : Int} {value : Literal}
      (h : (Word.ofInt? n).map Literal.integer = some value) :
      ∃ m : Int64, value = .integer m ∧ m.toInt = n := by
    obtain ⟨m, hm, rfl⟩ := Option.map_eq_some_iff.mp h
    exact ⟨m, rfl, Word.toInt_of_ofInt? hm⟩
  cases op with
  | add | sub | mul =>
    obtain ⟨m, rfl, hm⟩ := arithmetic h
    exact Or.inl ⟨rfl, m, rfl, by rw [hm]; rfl⟩
  | div =>
    simp only [onIntegers, Word.div?] at h
    split at h
    · cases h
    · rename_i hb
      obtain ⟨m, rfl, hm⟩ := arithmetic h
      exact Or.inl ⟨rfl, m, rfl, by simp [BinOp.arithmetic?, hb, hm]⟩
  | eq | ne | lt | le | gt | ge =>
    obtain rfl := Option.some.inj h
    exact Or.inr ⟨_, rfl, rfl⟩
  | and | or => cases h

theorem onBooleans_cases {op : BinOp} {a b : Bool} {value : Literal}
    (h : onBooleans op a b = some value) : ∃ x, value = .bool x ∧ op.connects? a b = some x := by
  cases op with
  | and | or =>
    obtain rfl := Option.some.inj h
    exact ⟨_, rfl, rfl⟩
  | eq | ne =>
    obtain rfl := Option.some.inj h
    cases a <;> cases b <;> exact ⟨_, rfl, rfl⟩
  | _ => cases h

/-- The result of evaluating a node without closures has none. -/
theorem Evaluated.plain {label : Label} {e e' : Expr} (h : Evaluated label e e') (he : e.Plain) :
    e'.Plain := by
  refine ⟨h.all he.wellTyped fun _ ht => ht, h.all he.closureFree fun hchildren _ => ?_⟩
  rcases e' with ⟨l, ty, form⟩
  cases form with
  | closure => cases hchildren
  | _ => rfl

end ConstantFold

namespace Evaluator

open ConstantFold

variable {Env V : Type} (M : Evaluator Env V) {env : Env} {e e₁ e' : Expr} {v : V}

/-- What has a value has sub-expressions that have one. -/
theorem exists_eval_of_mem_children (he : e.Plain) (h : M.eval env e = some v) {c : Expr}
    (hc : c ∈ e.children) : ∃ u, M.eval env c = some u := by
  rw [← Option.ne_none_iff_exists']
  intro hnone
  rw [M.strict env he hc hnone] at h
  cases h

/-- A tuple that has a value is the tuple of the values of its fields. -/
theorem eval_fields {fields : List Expr} (he : e.Plain) (hform : e.form = .tuple fields)
    (h : M.eval env e = some v) :
    ∃ vs, List.Forall₂ (fun f u => M.eval env f = some u) fields vs ∧ v = M.tuple vs := by
  have hdefined : ∀ f ∈ fields, ∃ u, M.eval env f = some u := fun f hf =>
    M.exists_eval_of_mem_children he h (by simpa [Expr.children, hform, Form.children] using hf)
  obtain ⟨vs, hvs⟩ := forall₂_of_forall_exists hdefined
  rw [M.eval_tuple env he hform hvs] at h
  exact ⟨vs, hvs, (Option.some.inj h).symm⟩

/-- Rebuilding over sub-expressions that keep their types and values keeps the value. -/
theorem eval_of_rebuilt {cs : List Expr} (he : e.Plain) (he₁ : e₁.Plain) (hbuilt : e.Rebuilt cs e₁)
    (hcs : List.Forall₂ (fun c c' => c'.ty = c.ty ∧
      ∀ u, M.eval env c = some u → M.eval env c' = some u) e.children cs)
    (h : M.eval env e = some v) : M.eval env e₁ = some v := by
  rw [← h]
  refine M.compositional env he₁ he hbuilt.ty (Form.map_eq_map_iff.mpr ⟨hbuilt.shape, ?_⟩)
  rw [show e₁.form.children = cs from hbuilt.children, eq_comm]
  refine forall₂_map_eq_iff.mp (forall₂_imp_of_mem hcs fun c hc c' _ hc' => ?_)
  obtain ⟨u, hu⟩ := M.exists_eval_of_mem_children he h hc
  rw [hc'.1, hc'.2 u hu, hu]

/-- An operation on two literals that has a value has the one it is evaluated to. -/
theorem eval_of_evaluate {op : BinOp} {left right : Expr} {a b value : Literal} (he : e.Plain)
    (hform : e.form = .binary op left right) (hleft : left.form = .literal a)
    (hright : right.form = .literal b) (hvalue : evaluate op a b = some value)
    (h : M.eval env e = some v) : v = M.scalar value := by
  have hl : left.Plain := he.child (by simp [Expr.children, hform, Form.children])
  have hr : right.Plain := he.child (by simp [Expr.children, hform, Form.children])
  have hlv := M.eval_literal env hl hleft
  have hrv := M.eval_literal env hr hright
  have hfits : a.fits left.ty = true := by
    have ht := hl.wellTyped.typed
    rwa [Expr.Typed, hleft] at ht
  cases a with
  | integer m =>
    obtain ⟨w, hw⟩ := Literal.scalar?_of_fits_integer hfits
    cases b with
    | integer n =>
      rcases onIntegers_cases hvalue with ⟨hop, k, rfl, hk⟩ | ⟨x, rfl, hx⟩
      · rw [M.eval_arithmetic env he hform hop hw hlv hrv, hk, Option.filter_some] at h
        split at h
        · simpa using h.symm
        · cases h
      · rw [M.eval_comparison env he hform hw hlv hrv hx] at h
        exact (Option.some.inj h).symm
    | _ => cases hvalue
  | bool m =>
    have hw := Literal.scalar?_of_fits_bool hfits
    cases b with
    | bool n =>
      obtain ⟨x, rfl, hx⟩ := onBooleans_cases hvalue
      rw [M.eval_connective env he hform hw hlv hrv hx] at h
      exact (Option.some.inj h).symm
    | _ => cases hvalue
  | _ => cases hvalue

/-- **A node that has a value stands for it.** -/
theorem eval_of_evaluated {label : Label} (he : e.Plain) (h : Evaluated label e e')
    (hv : M.eval env e = some v) : M.eval env e' = some v := by
  have he' := h.plain he
  cases h with
  | binary hform hleft hright hvalue hfits =>
    rw [M.eval_of_evaluate he hform hleft hright hvalue hv]
    exact M.eval_literal env he' rfl
  | @field base _ index fields hform hbase hfield hty =>
    have hb : base.Plain := he.child (by simp [Expr.children, hform, Form.children])
    obtain ⟨u, hu⟩ := M.exists_eval_of_mem_children he hv
      (show base ∈ e.children by simp [Expr.children, hform, Form.children])
    obtain ⟨vs, hvs, hbv⟩ : ∃ vs, List.Forall₂ (fun f u => M.eval env f = some u) fields vs ∧
        (M.eval env base = some (M.tuple vs) ∨ M.eval env base = some (M.ref (M.tuple vs))) := by
      rcases hbase with htuple | ⟨t, hborrow, htuple⟩
      · obtain ⟨vs, hvs, rfl⟩ := M.eval_fields hb htuple hu
        exact ⟨vs, hvs, Or.inl hu⟩
      · have ht : t ∈ base.children := by simp [Expr.children, hborrow, Form.children]
        obtain ⟨u', hu'⟩ := M.exists_eval_of_mem_children hb hu ht
        obtain ⟨vs, hvs, rfl⟩ := M.eval_fields (hb.child ht) htuple hu'
        exact ⟨vs, hvs, Or.inr (M.eval_borrow env hb hborrow hu')⟩
    rw [M.eval_field env he hform hbv] at hv
    obtain ⟨hi, rfl⟩ := List.getElem?_eq_some_iff.mp hfield
    obtain ⟨hi', rfl⟩ := List.getElem?_eq_some_iff.mp hv
    exact hvs.get hi hi'

/-! ## Whole expressions -/

/-- A node without closures over replacements without closures. -/
theorem plain_of_rebuilt {cs : List Expr} (he : e.Plain) (hbuilt : e.Rebuilt cs e₁)
    (hcs : ∀ c ∈ cs, c.Plain) : e₁.Plain := by
  refine ⟨Expr.wellTyped_iff.mpr ⟨hbuilt.typed, ?_⟩, Expr.all_iff.mpr ⟨?_, ?_⟩⟩
  · rw [hbuilt.children]
    exact fun c hc => (hcs c hc).wellTyped
  · have hshape : e₁.form.shape = e.form.shape := hbuilt.shape
    rw [← Form.isClosure_shape, hshape, Form.isClosure_shape]
    exact he.closureFree e .refl
  · rw [hbuilt.children]
    exact fun c hc => (hcs c hc).closureFree

/-- An expression and what it is replaced by have the same value, if the expression has one. -/
theorem eval_of_folds (h : Folds e e') (he : e.Plain) :
    e'.Plain ∧ ∀ env v, M.eval env e = some v → M.eval env e' = some v := by
  refine h.induction (P := fun e e' => e.Plain →
    e'.Plain ∧ ∀ env v, M.eval env e = some v → M.eval env e' = some v) ?_ he
  intro e e₁ cs label hcs ih hbuilt he
  have hkept : List.Forall₂ (fun c c' => c'.Plain ∧ c'.ty = c.ty ∧
      ∀ env v, M.eval env c = some v → M.eval env c' = some v) e.children cs :=
    forall₂_imp_of_mem (List.Forall₂.mp (fun _ _ => And.intro) hcs ih) fun c hc c' _ h =>
      ⟨(h.2 (he.child hc)).1, h.1.ty, (h.2 (he.child hc)).2⟩
  have hplain : ∀ c ∈ cs, c.Plain := fun c hc => by
    obtain ⟨_, _, h, _⟩ := forall₂_exists_left hkept hc
    exact h
  have he₁ : e₁.Plain := plain_of_rebuilt he hbuilt hplain
  have hv₁ : ∀ env v, M.eval env e = some v → M.eval env e₁ = some v := fun env v =>
    M.eval_of_rebuilt he he₁ hbuilt (hkept.imp fun _ _ h => ⟨h.2.1, h.2.2 env⟩)
  refine getD_fold (P := fun e' => e'.Plain ∧
    ∀ env v, M.eval env e = some v → M.eval env e' = some v) ⟨he₁, hv₁⟩ fun e' h' => ?_
  exact ⟨h'.plain he₁, fun env v hv => M.eval_of_evaluated he₁ h' (hv₁ env v hv)⟩

end Evaluator

namespace ConstantFold

/-- **Evaluating constants keeps the meaning.**  Whatever expressions were taken through the edit
before, an expression without closures comes out with its type, and with its value in every
environment in which it has one.  Its nodes, and those of the expressions before it, are nodes made
by the checked constructors. -/
theorem meaning_kept {Env V : Type} (M : Evaluator Env V) {earlier : List Expr} {e : Expr}
    {next : Label} (notices : List Notice) (count : Nat)
    (hheap : Heap (Expr.nodes (e :: earlier)) next) (he : e.ClosureFree) :
    ∃ e' s', (do let _ ← edit.applyAll earlier; edit.apply e).exec
        ⟨next, notices, Memo.start count⟩ = (.ok e', s') ∧
      e'.ty = e.ty ∧ ∀ env v, M.eval env e = some v → M.eval env e' = some v := by
  have hkeeps := edit_keeps (Expr.nodes (e :: earlier)) fun _ => False
  have hmem : ∀ d ∈ e :: earlier, d ∈ Expr.nodes (e :: earlier) := fun d => Expr.mem_nodes
  have hplain : e.Plain := ⟨hheap.wellTyped (hmem e List.mem_cons_self), he⟩
  refine Job.wp.exists_ok ?_
  rw [Job.wp_bind]
  refine (hkeeps.wp_applyAll hheap.one hheap.closed
    (fun d hd => hmem d (List.mem_cons_of_mem e hd))
    (Memo.inv_start ⟨Set.Subset.rfl, hheap⟩)).imp fun _ s₁ h₁ => ?_
  obtain ⟨T, -, -, hs₁, -⟩ := h₁
  refine (hkeeps.wp_apply hheap.one hheap.closed (hmem e List.mem_cons_self) hs₁).imp
    fun e' s₂ h₂ => ?_
  obtain ⟨-, -, -, -, -, hfolds⟩ := h₂
  exact ⟨hfolds.ty, (M.eval_of_folds hfolds hplain).2⟩

namespace SharedByte

/-! The expression `(&(x + x, x)).0 < x` for a nullable byte `x`, all of whose places hold one
node. -/

/-- A small number that may be NULL. -/
def byte : Ty := .scalar (.integer .w8) true

/-- A number. -/
def x : Expr := ⟨0, byte, .literal (.integer 42)⟩

/-- Twice the number. -/
def sum : Expr := ⟨1, byte, .binary .add x x⟩

/-- The sum and the number. -/
def pair : Expr := ⟨2, Ty.tupleOf [byte, byte], .tuple [sum, x]⟩

/-- A reference to the pair. -/
def borrowed : Expr := ⟨3, Ty.refTo pair.ty false, .borrow pair⟩

/-- The sum, seen through the reference. -/
def first : Expr := ⟨4, byte, .field borrowed 0⟩

/-- Compares the sum with the number. -/
def test : Expr := ⟨5, Ty.bool true, .binary .lt first x⟩

/-- All of these, each after its parts. -/
def nodes : List Expr := [x, sum, pair, borrowed, first, test]

theorem nodes_closed : ∀ e ∈ nodes, ∀ c ∈ e.children, c ∈ nodes := by
  simp [nodes, Expr.children, x, sum, pair, borrowed, first, test, Form.children]

theorem heap : Heap (Expr.nodes [test, sum]) 6 := by
  refine Heap.of_list (l := nodes) ?_ nodes_closed ?_ ?_ ?_
  · simp [nodes]
  · decide
  · decide
  · simp only [nodes, List.forall_mem_cons]
    exact ⟨rfl, rfl, rfl, rfl, rfl, rfl, List.forall_mem_nil _⟩

theorem closureFree : test.ClosureFree := fun d hd => by
  have hmem : d ∈ nodes := hd.mem_of_closed (S := {d | d ∈ nodes}) nodes_closed (by simp [nodes])
  have hall : ∀ d ∈ nodes, d.form.isClosure = false := by decide
  exact hall d hmem

end SharedByte

theorem meaning_kept_sharedByte :
    Heap (Expr.nodes [SharedByte.test, SharedByte.sum]) 6 ∧ SharedByte.test.ClosureFree ∧
      ∃ e' s', (do let _ ← edit.applyAll [SharedByte.sum]; edit.apply SharedByte.test).exec
          ⟨6, [], Memo.start 0⟩ = (.ok e', s') ∧
        e'.ty = Ty.bool true ∧
        Evaluator.standard.eval (fun _ => none) e' = some (.scalar (.bool false)) := by
  obtain ⟨e', s', hrun, hty, hvalue⟩ :=
    meaning_kept Evaluator.standard [] 0 SharedByte.heap SharedByte.closureFree
  exact ⟨SharedByte.heap, SharedByte.closureFree, e', s', hrun, hty, hvalue _ _ rfl⟩

end ConstantFold

end FlowCircuit
