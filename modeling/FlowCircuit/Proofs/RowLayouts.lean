import FlowCircuit.RowLayout
import FlowCircuit.Proofs.Lists

/-!
# A row layout and its tuple type tell each other

A layout is made from the fields of a tuple type one by one, and `RowLayout.Lays` says what is made,
without the function that makes it.  Each column tells its field: no two kinds of scalars have one
column type (`ColumnTy.ofScalar_injective`), and the flag for NULL is in the column too.  The
placeholder stands for a row without fields and for nothing else, since no kind of scalar has its
column type.  So `Lays` leaves no choice in either direction (`RowLayout.lays_biUnique`), and two
tuple types have the same columns exactly when they have the same fields, which is when they differ
at most in their own flag.

The machine-readable form loses nothing on the way: a column type can be told from its name.
-/

set_option autoImplicit false

namespace FlowCircuit

/-! ## Columns -/

namespace ColumnTy

/-- The kind of scalar that a column type is for. -/
def scalar? : ColumnTy → Option Scalar
  | .unit => none
  | .bool => some .bool
  | .i8 => some (.integer .w8)
  | .i16 => some (.integer .w16)
  | .i32 => some (.integer .w32)
  | .i64 => some (.integer .w64)
  | .f32 => some (.float .w32)
  | .f64 => some (.float .w64)
  | .string => some .string
  | .decimal => some .decimal
  | .date => some .date
  | .timestamp => some .timestamp

/-- The column type of a kind of scalar is for that kind. -/
theorem scalar?_ofScalar (kind : Scalar) : (ofScalar kind).scalar? = some kind := by
  cases kind with
  | integer width => cases width <;> rfl
  | float width => cases width <;> rfl
  | _ => rfl

theorem ofScalar_injective : Function.Injective ofScalar := by
  intro kind kind' h
  have hscalar := congrArg scalar? h
  rw [scalar?_ofScalar, scalar?_ofScalar] at hscalar
  exact Option.some.inj hscalar

/-- The placeholder is the column type of no scalar. -/
theorem ofScalar_ne_unit (kind : Scalar) : ofScalar kind ≠ .unit := by
  intro h
  have hscalar := scalar?_ofScalar kind
  rw [h] at hscalar
  cases hscalar

theorem text_injective : Function.Injective text := by
  intro t u h
  cases t <;> cases u <;> first | rfl | exact absurd h (by decide)

end ColumnTy

theorem Column.toJson_injective : Function.Injective Column.toJson := by
  rintro ⟨m, t⟩ ⟨n, u⟩ h
  simp only [toJson, Json.object.injEq, List.cons.injEq, Prod.mk.injEq, Json.bool.injEq,
    Json.string.injEq, true_and, and_true] at h
  rw [h.1, ColumnTy.text_injective h.2]

/-- The column that describes a field. -/
def Column.Holds (c : Column) (t : Ty) : Prop :=
  ∃ kind, t = .scalar kind c.nullable ∧ c.ty = .ofScalar kind

theorem Column.holds_biUnique : Relator.BiUnique Column.Holds := by
  constructor
  · rintro ⟨m, u⟩ ⟨n, v⟩ t ⟨kind, rfl, hu⟩ ⟨kind', ht, hv⟩
    obtain ⟨rfl, rfl⟩ := Ty.scalar.inj ht
    exact (Column.mk.injEq ..).mpr ⟨rfl, hu.trans hv.symm⟩
  · rintro c t u ⟨kind, rfl, hkind⟩ ⟨kind', rfl, hkind'⟩
    rw [ColumnTy.ofScalar_injective (hkind.symm.trans hkind')]

theorem Column.exists_holds_iff {t : Ty} :
    (∃ c : Column, c.Holds t) ↔ ∃ kind nullable, t = .scalar kind nullable := by
  constructor
  · rintro ⟨c, kind, rfl, -⟩
    exact ⟨kind, c.nullable, rfl⟩
  · rintro ⟨kind, nullable, rfl⟩
    exact ⟨⟨nullable, .ofScalar kind⟩, kind, rfl, rfl⟩

/-! ## Layouts -/

namespace RowLayout

/-- The columns that describe a row with the given fields. -/
inductive Lays : List Column → List Ty → Prop
  | placeholder : Lays [⟨false, .unit⟩] []
  | columns {columns : List Column} {field : Ty} {fields : List Ty}
      (h : List.Forall₂ Column.Holds columns (field :: fields)) : Lays columns (field :: fields)

/-- The placeholder is no column of a field. -/
theorem not_forall₂_placeholder (fields : List Ty) :
    ¬List.Forall₂ Column.Holds [⟨false, .unit⟩] fields := by
  rintro (_ | ⟨⟨kind, -, hunit⟩, _⟩)
  exact ColumnTy.ofScalar_ne_unit kind hunit.symm

/-- **Columns and fields tell each other.** -/
theorem lays_biUnique : Relator.BiUnique Lays := by
  constructor
  · intro cs fields ds hcs hds
    cases hcs with
    | placeholder =>
      cases hds
      rfl
    | columns hcs =>
      cases hds with
      | columns hds => exact Column.holds_biUnique.1.forall₂ hcs hds
  -- only here could the placeholder be taken for the column of a single field
  · intro cs fields fields' h h'
    cases h with
    | placeholder =>
      cases h' with
      | placeholder => rfl
      | columns h' => exact absurd h' (not_forall₂_placeholder _)
    | columns h =>
      cases h' with
      | placeholder => exact absurd h (not_forall₂_placeholder _)
      | columns h' => exact Column.holds_biUnique.2.forall₂ h h'

/-- Rows of scalars are those that have columns. -/
theorem exists_lays_iff {fields : List Ty} :
    (∃ cs, Lays cs fields) ↔ ∀ t ∈ fields, ∃ kind nullable, t = .scalar kind nullable := by
  simp only [← Column.exists_holds_iff]
  constructor
  · rintro ⟨cs, hcs⟩ t ht
    cases hcs with
    | placeholder => cases ht
    | columns hcs =>
      obtain ⟨c, -, hc⟩ := forall₂_exists_left hcs ht
      exact ⟨c, hc⟩
  · intro h
    obtain ⟨cs, hcs⟩ := forall₂_of_forall_exists h
    cases fields with
    | nil => exact ⟨_, .placeholder⟩
    | cons t fields => exact ⟨cs, .columns hcs.flip⟩

theorem columnsOf_cons_scalar (start : Nat) (kind : Scalar) (nullable : Bool) (fields : List Ty) :
    columnsOf start (.scalar kind nullable :: fields) =
      (columnsOf (start + 1) fields).map (⟨nullable, .ofScalar kind⟩ :: ·) := by
  rw [columnsOf]
  cases columnsOf (start + 1) fields <;> rfl

/-- Columns are made for scalar fields, one by one, whatever number is counted from. -/
theorem columnsOf_eq_ok_iff {start : Nat} {fields : List Ty} {cs : List Column} :
    columnsOf start fields = .ok cs ↔ List.Forall₂ Column.Holds cs fields := by
  induction fields generalizing start cs with
  | nil => rw [columnsOf, Except.ok.injEq, List.forall₂_nil_right_iff, eq_comm]
  | cons t fields ih =>
    rw [List.forall₂_cons_right_iff]
    constructor
    · intro h
      cases t with
      | scalar kind nullable =>
        rw [columnsOf_cons_scalar] at h
        obtain ⟨rest, hrest, rfl⟩ := map_eq_ok_iff.mp h
        exact ⟨_, rest, ⟨kind, rfl, rfl⟩, ih.mp hrest, rfl⟩
      | _ => cases h
    · rintro ⟨⟨nullable, columnTy⟩, rest, ⟨kind, rfl, rfl⟩, hrest, rfl⟩
      rw [columnsOf_cons_scalar, ih.mpr hrest]
      rfl

theorem ofTy_tuple_cons (id : Nat) (t : Ty) (fields : List Ty) (nullable : Bool) :
    ofTy id (.tuple (t :: fields) nullable) = (columnsOf 0 (t :: fields)).map (⟨id, ·⟩) := by
  unfold ofTy
  dsimp only [Ty.fields?]
  cases columnsOf 0 (t :: fields) <;> rfl

/-- **The layout of a tuple type** is laid out from its fields, under the number that was given. -/
theorem ofTy_tuple_eq_ok_iff {id : Nat} {fields : List Ty} {nullable : Bool} {r : RowLayout} :
    ofTy id (.tuple fields nullable) = .ok r ↔ r.id = id ∧ Lays r.columns fields := by
  rcases r with ⟨id', cs⟩
  cases fields with
  | nil =>
    constructor
    · rintro ⟨⟩
      exact ⟨rfl, .placeholder⟩
    · rintro ⟨rfl, ⟨⟩⟩
      rfl
  | cons t fields =>
    rw [ofTy_tuple_cons, map_eq_ok_iff]
    constructor
    · rintro ⟨columns, hcolumns, ⟨⟩⟩
      exact ⟨rfl, .columns (columnsOf_eq_ok_iff.mp hcolumns)⟩
    · rintro ⟨rfl, ⟨⟩ | ⟨hcs⟩⟩
      exact ⟨cs, columnsOf_eq_ok_iff.mpr hcs, rfl⟩

/-- Only a tuple type has a layout. -/
theorem exists_tuple_of_ofTy {id : Nat} {t : Ty} {r : RowLayout} (h : ofTy id t = .ok r) :
    ∃ fields nullable, t = .tuple fields nullable := by
  cases t with
  | tuple fields nullable => exact ⟨fields, nullable, rfl⟩
  | _ => cases h

theorem toJson_eq_iff {r s : RowLayout} : r.toJson = s.toJson ↔ r.columns = s.columns := by
  simp only [toJson, Json.object.injEq, List.cons.injEq, Prod.mk.injEq, Json.array.injEq, true_and,
    and_true]
  exact (List.map_injective_iff.mpr Column.toJson_injective).eq_iff

/-- **The layout determines the tuple type and is determined by it.**  A type has a layout, under
any number, exactly when it is a tuple of scalars.  Layouts of two types have the same columns
exactly when the types differ at most in their outermost flag, and the same holds of what the
backend is given. -/
theorem columns_tell_fields (a b : Ty) (i j : Nat) :
    ((∃ r, ofTy i a = .ok r) ↔
      ∃ fields nullable, a = .tuple fields nullable ∧ ∀ t ∈ fields, ∃ kind n, t = .scalar kind n) ∧
    ∀ r s, ofTy i a = .ok r → ofTy j b = .ok s →
      (r.columns = s.columns ↔ a.sameUpToNull b = true) ∧
      (r.toJson = s.toJson ↔ a.sameUpToNull b = true) := by
  constructor
  · constructor
    · rintro ⟨r, hr⟩
      obtain ⟨fields, nullable, rfl⟩ := exists_tuple_of_ofTy hr
      exact ⟨fields, nullable, rfl, exists_lays_iff.mp ⟨_, (ofTy_tuple_eq_ok_iff.mp hr).2⟩⟩
    · rintro ⟨fields, nullable, rfl, hscalars⟩
      obtain ⟨cs, hcs⟩ := exists_lays_iff.mpr hscalars
      exact ⟨⟨i, cs⟩, ofTy_tuple_eq_ok_iff.mpr ⟨rfl, hcs⟩⟩
  · intro r s hr hs
    rw [toJson_eq_iff, and_self]
    obtain ⟨fields, m, rfl⟩ := exists_tuple_of_ofTy hr
    obtain ⟨fields', n, rfl⟩ := exists_tuple_of_ofTy hs
    have hlays := (ofTy_tuple_eq_ok_iff.mp hr).2
    have hlays' := (ofTy_tuple_eq_ok_iff.mp hs).2
    have hfields : r.columns = s.columns ↔ fields = fields' :=
      ⟨fun h => lays_biUnique.2 (h ▸ hlays) hlays', fun h => lays_biUnique.1 (h ▸ hlays) hlays'⟩
    rw [hfields, Ty.sameUpToNull_iff]
    simp [Ty.setNullable, Ty.nullable]

/-- A row that may be NULL as a whole has the layout of one that may not, and a row without fields
has not the layout of a row of one boolean. -/
theorem columns_tell_fields_samples :
    (∃ r s, ofTy 7 (.tuple [.int32 false, .double true] true) = .ok r ∧
      ofTy 8 (.tuple [.int32 false, .double true] false) = .ok s ∧
      r.columns = s.columns ∧ r.toJson = s.toJson) ∧
    ∃ r s, ofTy 0 (.tuple [] true) = .ok r ∧ ofTy 0 (.tuple [.bool false] false) = .ok s ∧
      r.columns ≠ s.columns ∧ r.toJson ≠ s.toJson := by
  constructor
  · obtain ⟨hcolumns, hjson⟩ := (columns_tell_fields (.tuple [.int32 false, .double true] true)
      (.tuple [.int32 false, .double true] false) 7 8).2 _ _ rfl rfl
    exact ⟨_, _, rfl, rfl, hcolumns.mpr rfl, hjson.mpr rfl⟩
  · obtain ⟨hcolumns, hjson⟩ :=
      (columns_tell_fields (.tuple [] true) (.tuple [.bool false] false) 0 0).2 _ _ rfl rfl
    exact ⟨_, _, rfl, rfl, mt hcolumns.mp (by decide), mt hjson.mp (by decide)⟩

end RowLayout

end FlowCircuit
