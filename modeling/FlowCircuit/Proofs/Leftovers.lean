import FlowCircuit.Proofs.Meaning
import FlowCircuit.Proofs.Refold
import FlowCircuit.Proofs.TypingRules

/-!
# What evaluating constants leaves in place

Two sorts of nodes stand for something that is known without running a circuit: an operation on two
integer or boolean literals, unless it is integer arithmetic without a result in the range of its
operands, and a field of a tuple that is spelled out, if the access has the type of the field.
`ConstantFold.Redex` says so without the functions that evaluate.

The pass finds all of them but one kind.  Booleans may be compared by order, and such a comparison
of two literals stays as it is (`ConstantFold.fold_booleanOrdering`).  Whatever else stood for
something known has been replaced, however deep it was and whatever had to be replaced below it
first (`ConstantFold.redex_iff_booleanOrdering`).
-/

set_option autoImplicit false

namespace FlowCircuit

/-! ## Results that fit -/

/-- Arithmetic on integers of the width without a result that fits: there is none, or it is out of
range. -/
def BinOp.Misses (op : BinOp) (w : IntWidth) (a b : Int) : Prop :=
  op.isArithmetic = true ∧ ∀ n, op.arithmetic? a b = some n → ¬ w.Holds n

/-- Integers and booleans. -/
def Literal.isDiscrete : Literal → Bool
  | .bool _ | .integer _ => true
  | _ => false

/-- The numbers of every width are words. -/
theorem IntWidth.Holds.exists_word {w : IntWidth} {n : Int} (h : w.Holds n) :
    ∃ k : Int64, Word.ofInt? n = some k ∧ k.toInt = n := by
  have hhalf : w.half ≤ 9223372036854775808 := by cases w <;> decide
  have hword : Word.least ≤ n ∧ n ≤ Word.greatest := by
    have hlower := h.1
    have hupper := h.2
    unfold Word.least Word.greatest
    omega
  have hk : Word.ofInt? n = some (Int64.ofInt n) := if_pos hword
  exact ⟨_, hk, Word.toInt_of_ofInt? hk⟩

namespace ConstantFold

/-- Arithmetic whose exact result is in range has it as a literal. -/
theorem onIntegers_of_arithmetic? {op : BinOp} {w : IntWidth} {a b : Int64} {n : Int}
    (hn : op.arithmetic? a.toInt b.toInt = some n) (hw : w.Holds n) :
    ∃ k : Int64, onIntegers op a b = some (.integer k) ∧ k.toInt = n := by
  obtain ⟨k, hk, hkn⟩ := hw.exists_word
  refine ⟨k, ?_, hkn⟩
  cases op with
  | add | sub | mul =>
    obtain rfl := Option.some.inj hn
    exact congrArg (Option.map Literal.integer) hk
  | div =>
    simp only [BinOp.arithmetic?] at hn
    split at hn
    · cases hn
    case isFalse hb =>
      obtain rfl := Option.some.inj hn
      simp only [onIntegers, Word.div?, if_neg hb, hk, Option.map_some]
  | _ => cases hn

theorem onIntegers_of_comparison {op : BinOp} (hop : op ∈ [BinOp.eq, .ne, .lt, .le, .gt, .ge])
    (a b : Int64) : ∃ x, onIntegers op a b = some (.bool x) := by
  cases op with
  | eq | ne | lt | le | gt | ge => exact ⟨_, rfl⟩
  | _ => simp at hop

/-! ## What stands for something known -/

/-- The node stands for something that is known without running a circuit. -/
inductive Redex (e : Expr) : Prop
  /-- An operation on two integer or boolean literals; integer arithmetic only if it has a result in
  the range of its operands. -/
  | operation {op : BinOp} {left right : Expr} {a b : Literal}
    (hform : e.form = .binary op left right) (hleft : left.form = .literal a)
    (hright : right.form = .literal b) (ha : a.isDiscrete = true) (hb : b.isDiscrete = true)
    (hfits : ∀ w m n, left.ty.scalar? = some (.integer w) → a = .integer m → b = .integer n →
      ¬ op.Misses w m.toInt n.toInt)
  /-- A field of a tuple that is spelled out, directly or behind a reference. -/
  | field {base field : Expr} {index : Nat} {fields : List Expr}
    (hform : e.form = .field base index)
    (hbase : base.form = .tuple fields ∨ ∃ t, base.form = .borrow t ∧ t.form = .tuple fields)
    (hfield : fields[index]? = some field) (hty : field.ty = e.ty)

/-- The node compares two boolean literals by their order. -/
def BooleanOrdering (e : Expr) : Prop :=
  ∃ (op : BinOp) (left right : Expr) (x y : Bool), op ∈ [BinOp.lt, .le, .gt, .ge] ∧
    e.form = .binary op left right ∧ left.form = .literal (.bool x) ∧
      right.form = .literal (.bool y)

theorem BooleanOrdering.redex {e : Expr} (h : BooleanOrdering e) : Redex e := by
  obtain ⟨op, left, right, x, y, -, hform, hleft, hright⟩ := h
  exact .operation hform hleft hright rfl rfl fun _ _ _ _ ha _ => by cases ha

/-- The order of booleans is not evaluated. -/
theorem fold_booleanOrdering {e : Expr} (h : BooleanOrdering e) (label : Label) :
    fold label e = none := by
  obtain ⟨op, left, right, x, y, hop, hform, hleft, hright⟩ := h
  have hnone : onBooleans op x y = none := by
    cases op with
    | lt | le | gt | ge => rfl
    | _ => simp at hop
  simp [fold, hform, foldBinary, Expr.literal?, hleft, hright, evaluate, hnone]

/-! ## Only the order of booleans is missed -/

/-- The operands of an operation are of one sort. -/
theorem scalar?_eq_of_hasTy {op : BinOp} {left right : Expr} {ty : Ty}
    (h : Form.HasTy (.binary op left right) ty) : left.ty.scalar? = right.ty.scalar? := by
  cases h with
  | arithmetic _ _ hleft hright => rw [hleft, hright]; rfl
  | comparison _ hright => rw [← hright]; cases left.ty <;> rfl
  | logical _ hleft hright => rw [hleft, hright]; rfl

/-- Two integer or boolean literals of one sort are two integers or two booleans. -/
theorem integers_or_booleans {left right : Expr} {a b : Literal} (ha : a.isDiscrete = true)
    (hb : b.isDiscrete = true) (hleft : a.fits left.ty = true) (hright : b.fits right.ty = true)
    (hsort : left.ty.scalar? = right.ty.scalar?) :
    (∃ w m n, left.ty.scalar? = some (.integer w) ∧ a = .integer m ∧ b = .integer n) ∨
      ∃ x y, left.ty.scalar? = some .bool ∧ a = .bool x ∧ b = .bool y := by
  cases a with
  | integer m =>
    obtain ⟨w, hw⟩ := Literal.scalar?_of_fits_integer hleft
    cases b with
    | integer n => exact .inl ⟨w, m, n, hw, rfl, rfl⟩
    | bool y => cases (hw.symm.trans hsort).trans (Literal.scalar?_of_fits_bool hright)
    | _ => cases hb
  | bool x =>
    have hx := Literal.scalar?_of_fits_bool hleft
    cases b with
    | integer n =>
      obtain ⟨w, hw⟩ := Literal.scalar?_of_fits_integer hright
      cases (hx.symm.trans hsort).trans hw
    | bool y => exact .inr ⟨x, y, hx, rfl, rfl⟩
    | _ => cases hb
  | _ => cases ha

/-- An operation on two integers that does not miss has a literal of its type. -/
theorem exists_value_integers {op : BinOp} {left right : Expr} {ty : Ty} {w : IntWidth}
    {m n : Int64} (hty : Form.HasTy (.binary op left right) ty)
    (hw : left.ty.scalar? = some (.integer w)) (hfits : ¬ op.Misses w m.toInt n.toInt) :
    ∃ value, onIntegers op m n = some value ∧ value.fits ty = true := by
  cases hty with
  | @arithmetic _ _ _ kind _ _ hop _ hleft =>
    rw [hleft] at hw
    obtain rfl : kind = .integer w := Option.some.inj hw
    have harithmetic : op.isArithmetic = true := by
      revert hop
      cases op <;> decide
    have hresult : ∃ k, op.arithmetic? m.toInt n.toInt = some k ∧ w.Holds k := by
      by_contra hnone
      exact hfits ⟨harithmetic, fun k hk hw => hnone ⟨k, hk, hw⟩⟩
    obtain ⟨k, hk, hholds⟩ := hresult
    obtain ⟨value, hvalue, rfl⟩ := onIntegers_of_arithmetic? hk hholds
    exact ⟨_, hvalue, decide_eq_true hholds⟩
  | comparison hop =>
    obtain ⟨x, hx⟩ := onIntegers_of_comparison hop m n
    exact ⟨_, hx, rfl⟩
  | logical _ hleft =>
    rw [hleft] at hw
    cases hw

/-- An operation on two booleans has a literal of its type, or compares them by their order. -/
theorem exists_value_booleans {op : BinOp} {left right : Expr} {ty : Ty} {x y : Bool}
    (hty : Form.HasTy (.binary op left right) ty) (hbool : left.ty.scalar? = some .bool) :
    (∃ value, onBooleans op x y = some value ∧ value.fits ty = true) ∨
      op ∈ [BinOp.lt, .le, .gt, .ge] := by
  cases hty with
  | arithmetic _ hnumeric hleft =>
    rw [hleft] at hbool
    obtain rfl := Option.some.inj hbool
    cases hnumeric
  | comparison hop =>
    cases op with
    | eq | ne => exact .inl ⟨_, rfl, rfl⟩
    | lt | le | gt | ge => exact .inr (by decide)
    | _ => simp at hop
  | logical hop =>
    cases op with
    | and | or => exact .inl ⟨_, rfl, rfl⟩
    | _ => simp at hop

/-- **What stands for something known is evaluated**, the order of booleans apart. -/
theorem Redex.evaluated {e : Expr} (h : Redex e) (he : e.WellTyped) (label : Label) :
    (∃ e', Evaluated label e e') ∨ BooleanOrdering e := by
  cases h with
  | field hform hbase hfield hty => exact .inl ⟨_, .field hform hbase hfield hty⟩
  | @operation op left right a b hform hleft hright ha hb hfits =>
    have hty : Form.HasTy (.binary op left right) e.ty := hform ▸ he.typed.hasTy
    have hliteral {c : Expr} {value : Literal} (hc : c ∈ e.children)
        (hvalue : c.form = .literal value) : value.fits c.ty = true := by
      have htyped := (he.child hc).typed
      rwa [Expr.Typed, hvalue] at htyped
    have hmem : left ∈ e.children ∧ right ∈ e.children := by
      simp [Expr.children, hform, Form.children]
    rcases integers_or_booleans ha hb (hliteral hmem.1 hleft) (hliteral hmem.2 hright)
      (scalar?_eq_of_hasTy hty) with ⟨w, m, n, hw, rfl, rfl⟩ | ⟨x, y, hbool, rfl, rfl⟩
    · obtain ⟨value, hvalue, hvalueTy⟩ := exists_value_integers hty hw (hfits w m n hw rfl rfl)
      exact .inl ⟨_, .binary hform hleft hright hvalue hvalueTy⟩
    · rcases exists_value_booleans hty hbool with ⟨value, hvalue, hvalueTy⟩ | hop
      · exact .inl ⟨_, .binary hform hleft hright hvalue hvalueTy⟩
      · exact .inr ⟨op, left, right, x, y, hop, hform, hleft, hright⟩

/-- Where nothing can be evaluated, only the order of booleans stands for something known. -/
theorem Normal.redex_iff {e d : Expr} (h : Normal e) (he : e.WellTyped) (hd : d.Within e) :
    Redex d ↔ BooleanOrdering d := by
  refine ⟨fun hredex => ?_, BooleanOrdering.redex⟩
  refine (hredex.evaluated (he.within hd) d.label).resolve_left ?_
  rintro ⟨d', hd'⟩
  cases (h d hd d.label).symm.trans (fold_of_evaluated hd')

/-- **Everything known is evaluated, but for the order of booleans.**  Whenever the pass succeeds,
the nodes in the functions and declaration values of the result that still stand for something known
are the comparisons of two boolean literals by their order. -/
theorem redex_iff_booleanOrdering {c c' : Circuit} {s s' : Session Unit} (hc : c.Made s.next)
    (hrun : (run c).exec s = (.ok c', s')) {f d : Expr} (hf : f ∈ c'.functions) (hd : d.Within f) :
    Redex d ↔ BooleanOrdering d := by
  have hwp : Job.wp (run c) _ (fun _ => True) s := wp_run hc (.inl fun _ => trivial)
  obtain ⟨htransformed, -⟩ := hwp.of_exec_ok hrun
  obtain ⟨f₀, -, hfolds⟩ := forall₂_exists_left (Circuit.forall₂_functions htransformed.nodes) hf
  exact hfolds.normal.redex_iff hfolds.wellTyped hd

namespace Ordered

/-! Two declarations: a comparison of two booleans by their order, and the test of `SharedByte`. -/

/-- The greater truth value. -/
def yes : Expr := .bool 6 true

/-- The lesser truth value. -/
def no : Expr := .bool 7 false

/-- A comparison that is not folded, although both sides are literals. -/
def less : Expr := ⟨8, Ty.bool false, .binary .lt yes no⟩

/-- Two declarations with comparisons that are left. -/
def circuit : Circuit :=
  ⟨"ordered", [.declaration ⟨9, "FLAG", less⟩, .declaration ⟨10, "TEST", SharedByte.test⟩]⟩

theorem booleanOrdering_less : BooleanOrdering less :=
  ⟨.lt, yes, no, true, false, by decide, rfl, rfl, rfl⟩

theorem normal_less : Normal less := by
  refine Expr.all_iff.mpr ⟨fold_booleanOrdering booleanOrdering_less, ?_⟩
  simp only [Expr.children, less, Form.children, List.forall_mem_cons]
  exact ⟨Expr.all_iff.mpr ⟨fun _ => rfl, List.forall_mem_nil _⟩,
    Expr.all_iff.mpr ⟨fun _ => rfl, List.forall_mem_nil _⟩, List.forall_mem_nil _⟩

theorem made_circuit : circuit.Made 11 := by
  refine Circuit.made_of_drawn
    (Heap.of_list (l := [yes, no, less] ++ SharedByte.nodes) ?_ ?_ ?_ ?_ ?_)
    (.of_list (l := circuit.nodes) (fun _ h => h) ?_ ?_)
    (List.forall_mem_nil _) (List.forall_mem_nil _)
  · simp [Circuit.functions, circuit, Node.functions, SharedByte.nodes]
  · simp [SharedByte.nodes, Expr.children, Form.children, yes, no, less, Expr.bool, SharedByte.x,
      SharedByte.sum, SharedByte.pair, SharedByte.borrowed, SharedByte.first, SharedByte.test]
  · decide
  · decide
  · simp only [SharedByte.nodes, List.cons_append, List.nil_append, List.forall_mem_cons]
    exact ⟨rfl, rfl, rfl, rfl, rfl, rfl, rfl, rfl, rfl, List.forall_mem_nil _⟩
  · decide
  · decide

theorem validate_circuit : circuit.validate = .ok () :=
  rfl

/-- The comparison comes out as it went in. -/
theorem less_left :
    ∃ c' s', (run circuit).exec ⟨11, [], ()⟩ = (.ok c', s') ∧ less ∈ c'.functions := by
  obtain ⟨c', s', hrun, htransformed, -⟩ :=
    exists_run (s := ⟨11, [], ()⟩) made_circuit validate_circuit
  have hless : less ∈ circuit.functions := by simp [Circuit.functions, circuit, Node.functions]
  obtain ⟨f, hf, hfolds⟩ :=
    forall₂_exists_right (Circuit.forall₂_functions htransformed.nodes) hless
  exact ⟨c', s', hrun, hfolds.eq_of_normal normal_less ▸ hf⟩

end Ordered

theorem redex_iff_booleanOrdering_ordered :
    Ordered.circuit.Made 11 ∧ ∃ c' s', (run Ordered.circuit).exec ⟨11, [], ()⟩ = (.ok c', s') ∧
      ∀ f ∈ c'.functions, ∀ d : Expr, d.Within f → (Redex d ↔ BooleanOrdering d) := by
  obtain ⟨c', s', hrun, -⟩ := Ordered.less_left
  exact ⟨Ordered.made_circuit, c', s', hrun, fun f hf d hd =>
    redex_iff_booleanOrdering (s := ⟨11, [], ()⟩) Ordered.made_circuit hrun hf hd⟩

/-- Something known is left: a comparison of two literals by the order of booleans. -/
theorem redex_left_ordered :
    ∃ c' s', (run Ordered.circuit).exec ⟨11, [], ()⟩ = (.ok c', s') ∧
      ∃ f ∈ c'.functions, Redex f := by
  obtain ⟨c', s', hrun, hless⟩ := Ordered.less_left
  exact ⟨c', s', hrun, Ordered.less, hless, Ordered.booleanOrdering_less.redex⟩

end ConstantFold

end FlowCircuit
