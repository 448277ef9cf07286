import FlowCircuit.Proofs.StableEdits
import FlowCircuit.Proofs.TypingRules
import FlowCircuit.Proofs.ZSets

/-!
# Every expression that exists is well typed

`Expr.Obtained` lists the ways in which an expression can come to be: the constructors, taking an
expression apart and rebuilding it, Z-sets that were put together step by step, edits, and passes.
Each of them, given well-typed expressions, gives well-typed ones; so every node of every expression
there is has its type by one of the typing rules (`Expr.Obtained.every_node_hasTy`).

An edit asks hooks, and all that can be said about hooks is that they, too, make expressions in
these ways.  That is said with a set of expressions that have been obtained, closed under taking
apart and rebuilding, which the hooks do not leave.  `Expr.Obtained` itself is such a set.
-/

set_option autoImplicit false

namespace FlowCircuit

/-! ## The ways in which expressions come to be -/

/-- The Z-sets that can be put together from elements in `P`.  A merge that is refused halfway
leaves the Z-set with what was added until then. -/
inductive ZSet.Reached (P : Expr → Prop) : ZSet Expr → Prop
  | ofTy {ty : Ty} {z : ZSet Expr} (h : ZSet.ofTy ty = .ok z) : Reached P z
  | empty (elementTy : Ty) : Reached P (ZSet.empty elementTy)
  | ofElements {elements : List Expr} {z : ZSet Expr} (helements : ∀ e ∈ elements, P e)
    (h : ZSet.ofElements elements = .ok z) : Reached P z
  /-- A copy of the Z-set of an expression. -/
  | ofExpr {e : Expr} {z : ZSet Expr} (he : P e) (h : e.zset? = some z) : Reached P z
  | add {z z' : ZSet Expr} {element : Expr} {weight : Int64} {refusal : Option Error}
    (hz : Reached P z) (he : P element) (h : z.add element weight = (z', refusal)) : Reached P z'
  | insert {z z' : ZSet Expr} {element : Expr} {refusal : Option Error} (hz : Reached P z)
    (he : P element) (h : z.insert element = (z', refusal)) : Reached P z'
  | merge {z other : ZSet Expr} (hz : Reached P z) (hother : Reached P other) :
    Reached P (z.merge other).1
  | negate {z z' : ZSet Expr} (hz : Reached P z) (h : z.negate = .ok z') : Reached P z'

namespace Expr

/-- The expressions that can be made. -/
inductive Obtained : Expr → Prop
  | literal {label : Label} {value : Literal} {ty : Ty} {e : Expr}
    (h : Expr.literal label value ty = .ok e) : Obtained e
  | null {label : Label} {ty : Ty} {e : Expr} (h : Expr.null label ty = .ok e) : Obtained e
  | bool (label : Label) (value : Bool) : Obtained (Expr.bool label value)
  | int32 (label : Label) (value : Int32) : Obtained (Expr.int32 label value)
  | int64 (label : Label) (value : Int64) : Obtained (Expr.int64 label value)
  | double (label : Label) (bits : UInt64) : Obtained (Expr.double label bits)
  | string (label : Label) (value : String) : Obtained (Expr.string label value)
  | zset {P : Expr → Prop} {z : ZSet Expr} (label : Label) (hP : ∀ e, P e → Obtained e)
    (hz : ZSet.Reached P z) : Obtained (Expr.zset label z)
  | tuple {fields : List Expr} (label : Label) (hfields : ∀ e ∈ fields, Obtained e) :
    Obtained (Expr.tuple label fields)
  | tupleTyped {label : Label} {ty : Ty} {fields : List Expr} {e : Expr}
    (hfields : ∀ e ∈ fields, Obtained e) (h : Expr.tupleTyped label ty fields = .ok e) : Obtained e
  | borrow {operand : Expr} (label : Label) (hoperand : Obtained operand) :
    Obtained (Expr.borrow label operand)
  | var (label : Label) (name : String) (ty : Ty) : Obtained (Expr.var label name ty)
  | field {label : Label} {base : Expr} {index : Nat} {e : Expr} (hbase : Obtained base)
    (h : Expr.field label base index = .ok e) : Obtained e
  | closure {body : Expr} (label : Label) (params : List Parameter) (hbody : Obtained body) :
    Obtained (Expr.closure label params body)
  | binary {label : Label} {op : BinOp} {left right e : Expr} (hleft : Obtained left)
    (hright : Obtained right) (h : Expr.binary label op left right = .ok e) : Obtained e
  | zero {label : Label} {ty : Ty} {e : Expr} (h : Expr.zero label ty = .ok e) : Obtained e
  | one {label : Label} {ty : Ty} {e : Expr} (h : Expr.one label ty = .ok e) : Obtained e
  | child {e c : Expr} (he : Obtained e) (hc : c ∈ e.children) : Obtained c
  | withChildren {label : Label} {e e' : Expr} {cs : List Expr} (he : Obtained e)
    (hcs : ∀ c ∈ cs, Obtained c) (h : e.withChildren label cs = .ok e') : Obtained e'
  /-- What an edit gives, and what it remembers, also when it fails.  Its hooks do not leave a set
  of expressions that have been obtained. -/
  | edit {σ : Type} {r : ExprEdit σ} {P : Expr → Prop} {I : σ → Prop} {e e' : Expr}
    {s : Session (Memo σ)} (hP : ∀ e, P e → Obtained e) (hstable : Stable P) (hr : r.Stays P I)
    (he : P e) (hs : s.state.Holds P I)
    (h : ((r.apply e).exec s).1 = .ok e' ∨
      ∃ old, (old, e') ∈ ((r.apply e).exec s).2.state.done.pairs) : Obtained e'
  /-- A function or declaration value of what a pass gives. -/
  | pass {c c' : Circuit} {s s' : Session Unit} {e : Expr} (pass : Pass)
    (hc : ∀ f ∈ c.functions, Obtained f) (hrun : (pass.run c).exec s = (.ok c', s'))
    (he : e ∈ c'.functions) : Obtained e

/-! ## What the constructors accept is well typed -/

section Constructors

variable {label : Label} {ty : Ty} {e e' : Expr}

theorem wellTyped_of_fits {value : Literal} (h : value.fits ty = true) :
    WellTyped ⟨label, ty, .literal value⟩ :=
  wellTyped_iff.mpr ⟨h, List.forall_mem_nil _⟩

theorem wellTyped_of_literal {value : Literal} (h : literal label value ty = .ok e) :
    e.WellTyped := by
  rw [literal] at h
  split at h
  case isTrue hfits =>
    cases h
    exact wellTyped_of_fits hfits
  case isFalse => split at h <;> cases h

theorem wellTyped_of_numeral {n : Nat} {float : UInt64} (h : numeral label ty n float = .ok e) :
    e.WellTyped := by
  rw [numeral] at h
  split at h
  · exact wellTyped_of_literal h
  · exact wellTyped_of_literal h
  · exact wellTyped_of_literal h
  · cases h

/-- An integer of 32 bits is in the range of its type. -/
theorem fits_int32 (value : Int32) :
    (Literal.integer value.toInt64).fits (Ty.int32 false) = true := by
  have hlower := Int32.le_toInt value
  have hupper := Int32.toInt_lt value
  refine decide_eq_true (?_ : IntWidth.Holds .w32 _)
  rw [Int32.toInt_toInt64]
  exact ⟨hlower, hupper⟩

theorem fits_int64 (value : Int64) : (Literal.integer value).fits (Ty.int64 false) = true :=
  decide_eq_true (show IntWidth.Holds .w64 _ from ⟨Int64.le_toInt value, Int64.toInt_lt value⟩)

theorem types_of_fieldMismatch? {start : Nat} {tys : List Ty} {fields : List Expr}
    (hlength : tys.length = fields.length) (h : fieldMismatch? start tys fields = none) :
    tys = fields.map Expr.ty := by
  induction fields generalizing start tys with
  | nil => exact List.length_eq_zero_iff.mp hlength
  | cons field fields ih =>
    cases tys with
    | nil => cases hlength
    | cons ty tys =>
      rw [fieldMismatch?] at h
      split at h
      case isTrue hty =>
        rw [List.map_cons, ← ih (Nat.succ.inj hlength) h, Ty.same_iff.mp hty]
      · cases h

theorem tupleTyped_eq_ok_iff {fields : List Expr} :
    tupleTyped label ty fields = .ok e ↔
      ty.fields? = some (fields.map Expr.ty) ∧ e = ⟨label, ty, .tuple fields⟩ := by
  constructor
  · intro h
    rw [tupleTyped] at h
    split at h
    · cases h
    case h_2 declared hdeclared =>
      split at h
      · cases h
      case isFalse hlength =>
        split at h
        · cases h
        case h_2 hmatch =>
          cases h
          have htys := types_of_fieldMismatch? (not_not.mp hlength) hmatch
          exact ⟨hdeclared.trans (congrArg some htys), rfl⟩
  · rintro ⟨hty, rfl⟩
    exact tupleTyped_of_types hty label

theorem field_eq_ok_iff {base : Expr} {index : Nat} :
    field label base index = .ok e ↔
      ∃ ty, fieldTy base.ty index = .ok ty ∧ e = ⟨label, ty, .field base index⟩ := by
  rw [field]
  cases fieldTy base.ty index <;> simp [bind, Except.bind, pure, Except.pure, eq_comm]

theorem binary_eq_ok_iff {op : BinOp} {left right : Expr} :
    binary label op left right = .ok e ↔
      ∃ ty, binaryTy op left.ty right.ty = .ok ty ∧ e = ⟨label, ty, .binary op left right⟩ := by
  rw [binary]
  cases binaryTy op left.ty right.ty <;> simp [bind, Except.bind, pure, Except.pure, eq_comm]

theorem wellTyped_of_tupleTyped {fields : List Expr} (hfields : ∀ f ∈ fields, f.WellTyped)
    (h : tupleTyped label ty fields = .ok e) : e.WellTyped := by
  obtain ⟨hty, rfl⟩ := tupleTyped_eq_ok_iff.mp h
  exact wellTyped_iff.mpr ⟨hty, hfields⟩

theorem wellTyped_of_field {base : Expr} {index : Nat} (hbase : base.WellTyped)
    (h : field label base index = .ok e) : e.WellTyped := by
  obtain ⟨ty, hty, rfl⟩ := field_eq_ok_iff.mp h
  exact wellTyped_iff.mpr ⟨hty, List.forall_mem_singleton.mpr hbase⟩

theorem wellTyped_of_binary {op : BinOp} {left right : Expr} (hleft : left.WellTyped)
    (hright : right.WellTyped) (h : binary label op left right = .ok e) : e.WellTyped := by
  obtain ⟨ty, hty, rfl⟩ := binary_eq_ok_iff.mp h
  exact wellTyped_iff.mpr ⟨hty, List.forall_mem_cons.mpr
    ⟨hleft, List.forall_mem_singleton.mpr hright⟩⟩

theorem wellTyped_borrow (h : e.WellTyped) : (borrow label e).WellTyped :=
  wellTyped_iff.mpr ⟨rfl, List.forall_mem_singleton.mpr h⟩

theorem wellTyped_closure {params : List Parameter} (h : e.WellTyped) :
    (closure label params e).WellTyped :=
  wellTyped_iff.mpr ⟨rfl, List.forall_mem_singleton.mpr h⟩

theorem wellTyped_tuple {fields : List Expr} (h : ∀ f ∈ fields, f.WellTyped) :
    (tuple label fields).WellTyped :=
  wellTyped_iff.mpr ⟨rfl, h⟩

theorem wellTyped_zset {z : ZSet Expr} (h : z.WellFormedOver WellTyped) :
    (zset label z).WellTyped := by
  refine wellTyped_iff.mpr ⟨⟨rfl, h.toWellFormed⟩, fun c hc => ?_⟩
  obtain ⟨row, hrow, rfl⟩ := List.mem_map.mp hc
  exact h.elements row hrow

theorem wellFormedOver_of_zset? {z : ZSet Expr} (he : e.WellTyped) (h : e.zset? = some z) :
    z.WellFormedOver WellTyped := by
  rcases e with ⟨label, ty, form⟩
  cases form with
  | zset z' =>
    cases h
    exact ⟨he.typed.2, fun row hrow => he.child (List.mem_map.mpr ⟨row, hrow, rfl⟩)⟩
  | _ => cases h

/-- A Z-set rebuilt over other elements. -/
theorem wellTyped_of_rebuiltZSet {zty : Ty} {elements : List Expr} {weights : List Int64}
    (helements : ∀ x ∈ elements, x.WellTyped)
    (h : (do
      let start ← ZSet.ofTy zty
      let rebuilt ← ZSet.complete (start.addAll (elements.zip weights))
      return zset label rebuilt) = Except.ok e) : e.WellTyped := by
  cases hstart : ZSet.ofTy zty with
  | error => rw [hstart] at h; cases h
  | ok start =>
    rw [hstart] at h
    cases hcomplete : ZSet.complete (start.addAll (elements.zip weights)) with
    | error =>
      simp only [bind, Except.bind, hcomplete] at h
      cases h
    | ok rebuilt =>
      simp only [bind, Except.bind, hcomplete] at h
      cases h
      refine wellTyped_zset ?_
      rw [← ZSet.addAll_of_complete hcomplete]
      exact (ZSet.wellFormedOver_of_rows (ZSet.rows_of_ofTy hstart)).addAll fun entry hentry =>
        helements _ (List.of_mem_zip hentry).1

/-- Sub-expressions are well typed, and what is rebuilt over well-typed expressions is. -/
theorem stable_wellTyped : Stable WellTyped where
  child he hc := he.child hc
  withChildren {e e' label cs} he hcs h := by
    unfold withChildren at h
    split at h
    · cases h
    split at h
    case h_1 => exact wellTyped_of_rebuiltZSet hcs h
    case h_2 => exact wellTyped_of_tupleTyped hcs h
    case h_3 =>
      cases h
      exact wellTyped_borrow (hcs _ List.mem_cons_self)
    case h_4 => exact wellTyped_of_field (hcs _ List.mem_cons_self) h
    case h_5 =>
      cases h
      exact wellTyped_closure (hcs _ List.mem_cons_self)
    case h_6 =>
      exact wellTyped_of_binary (hcs _ List.mem_cons_self)
        (hcs _ (List.mem_cons_of_mem _ List.mem_cons_self)) h
    case h_7 =>
      cases h
      exact he

end Constructors

end Expr

/-! ## However an expression was made, it is well typed -/

theorem ZSet.Reached.wellFormedOver {P : Expr → Prop} {z : ZSet Expr} (h : z.Reached P)
    (hP : ∀ e, P e → e.WellTyped) : z.WellFormedOver Expr.WellTyped := by
  induction h with
  | ofTy h => exact wellFormedOver_of_rows (rows_of_ofTy h)
  | empty => exact wellFormedOver_of_rows rfl
  | ofElements helements h => exact .ofElements (fun e he => hP e (helements e he)) h
  | ofExpr he h => exact Expr.wellFormedOver_of_zset? (hP _ he) h
  | add _ he h ih => exact ih.add (hP _ he) h
  | insert _ he h ih => exact ih.add (hP _ he) h
  | merge _ _ ih ih' => exact ih.merge ih'
  | negate _ h ih => exact ih.negate h

namespace Expr.Obtained

theorem wellTyped {e : Expr} (h : e.Obtained) : e.WellTyped := by
  induction h with
  | literal h => exact wellTyped_of_literal h
  | null h => exact wellTyped_of_literal h
  | bool => exact wellTyped_of_fits rfl
  | int32 label value => exact wellTyped_of_fits (fits_int32 value)
  | int64 label value => exact wellTyped_of_fits (fits_int64 value)
  | double => exact wellTyped_of_fits rfl
  | string => exact wellTyped_of_fits rfl
  | zset label _ hz ih => exact wellTyped_zset (hz.wellFormedOver ih)
  | tuple label _ ih => exact wellTyped_tuple ih
  | tupleTyped _ h ih => exact wellTyped_of_tupleTyped ih h
  | borrow label _ ih => exact wellTyped_borrow ih
  | var => exact wellTyped_iff.mpr ⟨trivial, List.forall_mem_nil _⟩
  | field _ h ih => exact wellTyped_of_field ih h
  | closure label params _ ih => exact wellTyped_closure ih
  | binary _ _ h ih ih' => exact wellTyped_of_binary ih ih' h
  | zero h => exact wellTyped_of_numeral h
  | one h => exact wellTyped_of_numeral h
  | child _ hc ih => exact ih.child hc
  | withChildren _ _ h ih ih' => exact stable_wellTyped.withChildren ih ih' h
  | edit _ hstable hr he hs h ih =>
    obtain ⟨hs', hresult⟩ := hr.apply hstable he _ hs
    rcases h with h | ⟨old, h⟩
    · exact ih _ (hresult _ h)
    · exact ih _ (hs'.2 _ h)
  | pass pass _ hrun he ih =>
    exact pass.functions_run stable_wellTyped wellTyped_of_literal ih hrun _ he

/-- **Every expression that exists is well typed**: all of its nodes have their types by the typing
rules. -/
theorem every_node_hasTy {e : Expr} (h : e.Obtained) {d : Expr} (hd : d.Within e) :
    d.form.HasTy d.ty :=
  (h.wellTyped d hd).hasTy

end Expr.Obtained

namespace Sample

/-- A tuple that may be NULL. -/
def row : Expr := .var 0 "t" (.tuple [Ty.int32 false, Ty.string false] true)

/-- A column of the row, which may be NULL because the row may. -/
def column : Expr := ⟨1, Ty.int32 true, .field row 0⟩

/-- The sum of two literals. -/
def three : Expr := ⟨4, Ty.int32 false, .binary .add (.int32 2 1) (.int32 3 2)⟩

/-- `t.0 + (1 + 2)`. -/
def shifted : Expr := ⟨5, Ty.int32 true, .binary .add column three⟩

theorem obtained_shifted : shifted.Obtained := by
  have hcolumn : Expr.field 1 row 0 = .ok column := rfl
  have hthree : Expr.binary 4 .add (.int32 2 1) (.int32 3 2) = .ok three := rfl
  have hshifted : Expr.binary 5 .add column three = .ok shifted := rfl
  exact .binary (.field (.var _ _ _) hcolumn) (.binary (.int32 _ _) (.int32 _ _) hthree) hshifted

end Sample

/-- The constants of `t.0 + (1 + 2)` are evaluated, with hooks that might make any expression there
is. -/
theorem Expr.Obtained.every_node_hasTy_shifted :
    ∃ e, ((ConstantFold.edit.apply Sample.shifted).exec ⟨6, [], .start 0⟩).1 = .ok e ∧ e.Obtained ∧
      ∀ d : Expr, d.Within e → d.form.HasTy d.ty := by
  have hok : ((ConstantFold.edit.apply Sample.shifted).exec ⟨6, [], .start 0⟩).1.isOk = true := by
    decide +kernel
  have hstable : Expr.Stable Expr.Obtained := ⟨.child, .withChildren⟩
  cases hrun : ((ConstantFold.edit.apply Sample.shifted).exec ⟨6, [], .start 0⟩).1 with
  | error e =>
    rw [hrun] at hok
    cases hok
  | ok e =>
    have hobtained : e.Obtained := .edit (fun _ h => h) hstable
      (ConstantFold.stays_edit hstable .literal) Sample.obtained_shifted (Memo.holds_start trivial)
      (.inl hrun)
    exact ⟨e, rfl, hobtained, fun d hd => every_node_hasTy hobtained hd⟩

end FlowCircuit
