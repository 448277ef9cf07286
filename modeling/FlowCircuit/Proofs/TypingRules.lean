import FlowCircuit.Proofs.Same

/-!
# The typing rules

Which types a node may have, said rule by rule and without the functions that compute types:
`Form.HasTy` has one rule for each sort of node, and for binary operations one for each family of
operators.  A rule looks at the payload of the node and the types of its sub-expressions.

The checks of the constructors decide these rules.  `Expr.Typed`, which speaks of the checks, gives
the rule that applies (`Expr.Typed.hasTy`).
-/

set_option autoImplicit false

namespace FlowCircuit

/-- The node may have the type. -/
inductive Form.HasTy : Form Expr → Ty → Prop
  /-- NULL is a value of the nullable types. -/
  | null {ty : Ty} (hnullable : ty.nullable = true) : HasTy (.literal .null) ty
  | bool (value nullable : Bool) : HasTy (.literal (.bool value)) (.scalar .bool nullable)
  /-- Integers lie in the two's-complement range of their width. -/
  | integer {value : Int64} {w : IntWidth} (nullable : Bool)
    (hlower : -Int.pow 2 (w.bits - 1) ≤ value.toInt)
    (hupper : value.toInt < Int.pow 2 (w.bits - 1)) :
    HasTy (.literal (.integer value)) (.scalar (.integer w) nullable)
  | float (bits : UInt64) (w : FloatWidth) (nullable : Bool) :
    HasTy (.literal (.float bits)) (.scalar (.float w) nullable)
  | decimal (digits : String) (nullable : Bool) :
    HasTy (.literal (.decimal digits)) (.scalar .decimal nullable)
  | string (value : String) (nullable : Bool) :
    HasTy (.literal (.string value)) (.scalar .string nullable)
  | date (days : Int32) (nullable : Bool) : HasTy (.literal (.date days)) (.scalar .date nullable)
  | timestamp (millis : Int64) (nullable : Bool) :
    HasTy (.literal (.timestamp millis)) (.scalar .timestamp nullable)
  /-- The entries of a Z-set are constants of its element type. -/
  | zset {z : ZSet Expr}
    (hentries : ∀ row ∈ z.rows, row.element.isConstant = true ∧ row.element.ty = z.elementTy) :
    HasTy (.zset z) (.zset z.elementTy z.weightTy z.nullable)
  /-- The fields of a tuple have exactly the declared types. -/
  | tuple (fields : List Expr) (nullable : Bool) :
    HasTy (.tuple fields) (.tuple (fields.map Expr.ty) nullable)
  | borrow (operand : Expr) : HasTy (.borrow operand) (.ref operand.ty false false)
  | var (name : String) (ty : Ty) : HasTy (.var name) ty
  /-- A field is nullable when it is declared so or the tuple is nullable.  References cannot be
  made nullable. -/
  | field {base : Expr} {tys : List Ty} {ty : Ty} {index : Nat} {nullable : Bool}
    (hbase : base.ty = .tuple tys nullable) (hindex : tys[index]? = some ty)
    (href : ty.isReference = true → nullable = true → ty.nullable = true) :
    HasTy (.field base index) (ty.setNullable (ty.nullable || nullable))
  /-- The same for a tuple behind a reference. -/
  | fieldBehind {base : Expr} {tys : List Ty} {ty : Ty} {index : Nat}
    {nullable mutable refNullable : Bool}
    (hbase : base.ty = .ref (.tuple tys nullable) mutable refNullable)
    (hindex : tys[index]? = some ty)
    (href : ty.isReference = true → nullable = true → ty.nullable = true) :
    HasTy (.field base index) (ty.setNullable (ty.nullable || nullable))
  | closure (params : List Parameter) (body : Expr) :
    HasTy (.closure params body) (.function (params.map Parameter.ty) body.ty false)
  /-- Arithmetic is on two operands of one numeric type, and nullable when one of them is. -/
  | arithmetic {op : BinOp} {left right : Expr} {kind : Scalar} {m n : Bool}
    (hop : op ∈ [BinOp.add, .sub, .mul, .div]) (hkind : kind.isNumeric = true)
    (hleft : left.ty = .scalar kind m) (hright : right.ty = .scalar kind n) :
    HasTy (.binary op left right) (.scalar kind (m || n))
  /-- Comparisons are of two operands of any one type. -/
  | comparison {op : BinOp} {left right : Expr}
    (hop : op ∈ [BinOp.eq, .ne, .lt, .le, .gt, .ge])
    (hright : left.ty.setNullable right.ty.nullable = right.ty) :
    HasTy (.binary op left right) (.scalar .bool (left.ty.nullable || right.ty.nullable))
  /-- Conjunction and disjunction are of two booleans. -/
  | logical {op : BinOp} {left right : Expr} {m n : Bool} (hop : op ∈ [BinOp.and, .or])
    (hleft : left.ty = .scalar .bool m) (hright : right.ty = .scalar .bool n) :
    HasTy (.binary op left right) (.scalar .bool (m || n))

/-! ## The checks decide the rules -/

theorem IntWidth.Holds.bounds {w : IntWidth} {n : Int} (h : w.Holds n) :
    -Int.pow 2 (w.bits - 1) ≤ n ∧ n < Int.pow 2 (w.bits - 1) := by
  rw [Holds, half_eq] at h
  exact h

theorem Ty.eq_of_scalar? {ty : Ty} {kind : Scalar} (h : ty.scalar? = some kind) :
    ty = .scalar kind ty.nullable := by
  cases ty with
  | scalar => cases h; rfl
  | _ => cases h

theorem Ty.eq_of_fields? {ty : Ty} {tys : List Ty} (h : ty.fields? = some tys) :
    ty = .tuple tys ty.nullable := by
  cases ty with
  | tuple => cases h; rfl
  | _ => cases h

theorem BinOp.mem_of_isArithmetic {op : BinOp} (h : op.isArithmetic = true) :
    op ∈ [BinOp.add, .sub, .mul, .div] := by
  revert h
  cases op <;> decide

theorem BinOp.mem_of_isLogical {op : BinOp} (h : op.isLogical = true) : op ∈ [BinOp.and, .or] := by
  revert h
  cases op <;> decide

theorem BinOp.mem_of_neither {op : BinOp} (h : ¬op.isArithmetic = true)
    (h' : ¬op.isLogical = true) : op ∈ [BinOp.eq, .ne, .lt, .le, .gt, .ge] := by
  revert h h'
  cases op <;> decide

theorem Ty.exists_eq_of_target? {ty target : Ty} (h : ty.target? = some target) :
    ∃ mutable nullable, ty = .ref target mutable nullable := by
  cases ty with
  | ref => cases h; exact ⟨_, _, rfl⟩
  | _ => cases h

theorem Literal.hasTy_of_fits {value : Literal} {ty : Ty} (h : value.fits ty = true) :
    Form.HasTy (.literal value) ty := by
  unfold fits at h
  split at h
  case h_1 => exact .null h
  case h_3 hscalar =>
    obtain ⟨hlower, hupper⟩ := (of_decide_eq_true h).bounds
    exact Ty.eq_of_scalar? hscalar ▸ .integer _ hlower hupper
  case h_9 => cases h
  all_goals
    rename_i hscalar
    rw [Ty.eq_of_scalar? hscalar]
    constructor

theorem Ty.withNullable_eq_ok {ty ty' : Ty} {nullable : Bool}
    (h : ty.withNullable nullable = .ok ty') :
    ty' = ty.setNullable nullable ∧
      (ty.isReference = true → nullable = true → ty.nullable = true) := by
  rw [withNullable] at h
  split at h
  case isTrue hsame =>
    cases h
    exact ⟨by rw [← hsame, setNullable_nullable], fun _ hn => hsame.trans hn⟩
  case isFalse =>
    split at h
    · cases h
    case isFalse href =>
      cases h
      exact ⟨rfl, fun hr hn => absurd (by simp [hr, hn]) href⟩

namespace Expr

/-- What a field access of type `ty` finds: a tuple, possibly behind a reference, with such a
field. -/
theorem fieldTy_eq_ok {base ty : Ty} {index : Nat} (h : fieldTy base index = .ok ty) :
    ∃ tys nullable field, base.target?.getD base = .tuple tys nullable ∧ tys[index]? = some field ∧
      (field.isReference = true → nullable = true → field.nullable = true) ∧
      ty = field.setNullable (field.nullable || nullable) := by
  unfold fieldTy at h
  dsimp only at h
  split at h
  · cases h
  case h_2 tys hfields =>
    split at h
    · cases h
    case h_2 field hfield =>
      have htuple := Ty.eq_of_fields? hfields
      refine ⟨tys, _, field, htuple, hfield, ?_⟩
      split at h
      case isTrue hnullable =>
        obtain ⟨rfl, href⟩ := Ty.withNullable_eq_ok h
        rw [hnullable, Bool.or_true]
        exact ⟨href, rfl⟩
      case isFalse hnullable =>
        cases h
        rw [Bool.not_eq_true] at hnullable
        rw [hnullable, Bool.or_false, Ty.setNullable_nullable]
        exact ⟨fun _ h => (by cases h), rfl⟩

theorem hasTy_of_fieldTy {base : Expr} {index : Nat} {ty : Ty}
    (h : fieldTy base.ty index = .ok ty) : Form.HasTy (.field base index) ty := by
  obtain ⟨tys, nullable, field, htuple, hfield, href, rfl⟩ := fieldTy_eq_ok h
  cases htarget : base.ty.target? with
  | some target =>
    rw [htarget] at htuple
    obtain ⟨mutable, refNullable, hbase⟩ := Ty.exists_eq_of_target? htarget
    obtain rfl : target = .tuple tys nullable := htuple
    exact .fieldBehind hbase hfield href
  | none =>
    rw [htarget] at htuple
    exact .field htuple hfield href

theorem hasTy_of_binaryTy {op : BinOp} {left right : Expr} {ty : Ty}
    (h : binaryTy op left.ty right.ty = .ok ty) : Form.HasTy (.binary op left right) ty := by
  unfold binaryTy at h
  split at h
  · cases h
  case isFalse hsame =>
    have hsame : left.ty.setNullable right.ty.nullable = right.ty := by
      simpa [Ty.sameUpToNull_iff] using hsame
    -- operands of one scalar type, up to the flag
    have hoperands {kind : Scalar} (hkind : left.ty.scalar? = some kind) :
        ∃ m n, left.ty = .scalar kind m ∧ right.ty = .scalar kind n := by
      have hleft := Ty.eq_of_scalar? hkind
      rw [hleft] at hsame
      exact ⟨_, _, hleft, hsame.symm⟩
    dsimp only at h
    split at h
    case isTrue hop =>
      split at h
      case isTrue hnumeric =>
        obtain ⟨kind, hkind, hnumeric⟩ := (Option.any_eq_true _ _).mp hnumeric
        obtain ⟨m, n, hleft, hright⟩ := hoperands hkind
        rw [hleft, hright] at h
        obtain ⟨rfl, -⟩ := Ty.withNullable_eq_ok h
        exact .arithmetic (BinOp.mem_of_isArithmetic hop) hnumeric hleft hright
      · cases h
    case isFalse harithmetic =>
      split at h
      · cases h
      case isFalse hbool =>
        cases h
        by_cases hop : op.isLogical = true
        · have hkind : left.ty.scalar? = some .bool := by simpa [hop, Ty.isBool] using hbool
          obtain ⟨m, n, hleft, hright⟩ := hoperands hkind
          rw [hleft, hright]
          exact .logical (BinOp.mem_of_isLogical hop) hleft hright
        · exact .comparison (BinOp.mem_of_neither harithmetic hop) hsame

theorem areConstant_iff {es : List Expr} :
    areConstant es = true ↔ ∀ e ∈ es, e.isConstant = true := by
  induction es with
  | nil => simp [areConstant]
  | cons e es ih => rw [areConstant, Bool.and_eq_true, List.forall_mem_cons, ih]

/-- What has a key is a constant. -/
theorem isConstant_of_key {e : Expr} {k : Key} (h : e.key = .ok k) : e.isConstant = true := by
  induction e using induction_children generalizing k with
  | node e ih =>
    rcases e with ⟨label, ty, form⟩
    cases form with
    | literal => rfl
    | zset => rfl
    | tuple fields =>
      obtain ⟨ks, hks, -⟩ := key_tuple_eq_ok_iff.mp h
      refine areConstant_iff.mpr fun field hfield => ?_
      obtain ⟨k', -, hk'⟩ := forall₂_exists_right hks hfield
      exact ih field hfield hk'
    | _ => cases h

/-- **The checks decide the rules**: a node that its constructor accepted has its type by a rule. -/
theorem Typed.hasTy {e : Expr} (h : e.Typed) : e.form.HasTy e.ty := by
  rcases e with ⟨label, ty, form⟩
  cases form with
  | literal value => exact Literal.hasTy_of_fits h
  | zset z =>
    obtain ⟨rfl, hz⟩ : ty = z.ty ∧ z.WellFormed := h
    exact .zset fun row hrow => ⟨isConstant_of_key (hz.keyed row hrow), hz.typed row hrow⟩
  | tuple fields =>
    have hty : ty = .tuple (fields.map Expr.ty) ty.nullable := Ty.eq_of_fields? h
    rw [hty]
    exact .tuple fields ty.nullable
  | borrow operand =>
    obtain rfl : ty = Ty.refTo operand.ty false := h
    exact .borrow operand
  | var name => exact .var name ty
  | field base index => exact hasTy_of_fieldTy h
  | closure params body =>
    obtain rfl : ty = Ty.functionOf (params.map Parameter.ty) body.ty := h
    exact .closure params body
  | binary op left right => exact hasTy_of_binaryTy h

end Expr

end FlowCircuit
