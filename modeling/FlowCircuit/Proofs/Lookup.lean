import FlowCircuit.Proofs.ZSetGroup

/-!
# Finding constants by their keys

The key of a constant is its value without any types.  Exactly the constants have keys
(`Expr.exists_key_iff`), and beside the type of the whole constant nothing is lost: two constants of
one type and one key are the same, however deep tuples and Z-sets are nested in them
(`Expr.constants_told_by_ty_and_key`).

A Z-set finds its rows by keys.  `ZSet.row?` is the row at a key, the view of a Z-set in which an
operation can be described key by key.  Looking up an element goes straight to its key and never
asks for its type, so what is found for an element of the element type is the row of that very
element, and what is found for an element of another type is the row of one that has the same key
(`ZSet.weight_of_element_unless_mistyped`).
-/

set_option autoImplicit false

namespace FlowCircuit

/-! ## Exactly the constants have keys -/

namespace Expr

theorem exists_key_iff {e : Expr} : (∃ key, e.key = .ok key) ↔ e.isConstant = true := by
  constructor
  · rintro ⟨key, hkey⟩
    exact isConstant_of_key hkey
  · intro h
    induction e using induction_children with
    | node e ih =>
      rcases e with ⟨label, ty, form⟩
      cases form with
      | literal value => exact ⟨value.key, by rw [key]⟩
      | zset z => exact ⟨.zset z.weights, by rw [key]⟩
      | tuple fields =>
        have hfields : ∀ field ∈ fields, ∃ key, field.key = .ok key := fun field hfield =>
          ih field hfield (areConstant_iff.mp h field hfield)
        obtain ⟨keys, hkeys⟩ := forall₂_of_forall_exists hfields
        exact ⟨.tuple keys, key_tuple_eq_ok_iff.mpr ⟨keys, hkeys, rfl⟩⟩
      | _ => cases h

theorem same_iff_ty_key {a b : Expr} {key : Key} (ha : a.WellTyped) (hb : b.WellTyped)
    (hkey : a.key = .ok key) : a.same b = true ↔ a.ty = b.ty ∧ b.key = .ok key := by
  constructor
  · intro h
    exact ⟨(same_iff_shape.mp h).1, key_eq_of_same h hkey⟩
  · rintro ⟨hty, hkey'⟩
    exact same_of_key ha hb hty hkey hkey'

/-- **Types and keys tell constants apart exactly as comparison does**, and exactly the constants
have keys. -/
theorem constants_told_by_ty_and_key :
    (∀ e : Expr, (∃ key, e.key = .ok key) ↔ e.isConstant = true) ∧
    ∀ a b : Expr, a.Obtained → b.Obtained → a.isConstant = true → b.isConstant = true →
      (a.same b = true ↔ a.ty.same b.ty = true ∧ ∃ key, a.key = .ok key ∧ b.key = .ok key) := by
  refine ⟨fun e => exists_key_iff, fun a b ha hb hconstant _ => ?_⟩
  obtain ⟨key, hkey⟩ := exists_key_iff.mpr hconstant
  rw [same_iff_ty_key ha.wellTyped hb.wellTyped hkey, Ty.same_iff]
  refine and_congr_right fun _ => ⟨fun h => ⟨key, hkey, h⟩, ?_⟩
  rintro ⟨key', hkey', h⟩
  rw [h, ← hkey', hkey]

end Expr

namespace Sample

/-- A pair of a floating-point number and a Z-set. -/
def pair (label : Label) (bits : UInt64) : Expr :=
  .tuple label [.double (label + 1) bits, .zset (label + 2) (numbers [(1, -1), (2, 7)])]

/-- A Z-set that holds such a pair three times. -/
def pairs (label : Label) (bits : UInt64) : ZSet Expr :=
  ((ZSet.empty (pair label bits).ty).addAll [(pair label bits, 3)]).1

theorem obtained_pair (label : Label) (bits : UInt64) : (pair label bits).Obtained := by
  refine .tuple label fun e he => ?_
  rcases List.mem_pair.mp he with rfl | rfl
  · exact .double _ _
  · exact .zset _ (fun _ h => h) (reached_numbers _)

theorem obtained_pairs (label : Label) (bits : UInt64) :
    (Expr.zset label (pairs label bits)).Obtained := by
  refine .zset label (fun _ h => h) ((ZSet.Reached.empty _).addAll fun entry hentry => ?_)
  rw [List.mem_singleton.mp hentry]
  exact obtained_pair label bits

end Sample

open Sample in
/-- Two Z-sets around a NaN that were built apart are the same; with zeros of different signs they
are not. -/
theorem Expr.constants_told_by_ty_and_key_pairs :
    (Expr.zset 10 (pairs 10 0x7ff8000000000000)).same
      (.zset 20 (pairs 20 0x7ff8000000000000)) = true ∧
      (Expr.zset 10 (pairs 10 0)).same (.zset 20 (pairs 20 0x8000000000000000)) = false := by
  have hpairs (bits bits' : UInt64) := constants_told_by_ty_and_key.2 _ _ (obtained_pairs 10 bits)
    (obtained_pairs 20 bits') rfl rfl
  constructor
  · refine (hpairs _ _).mpr ⟨by decide +kernel, .zset (pairs 10 0x7ff8000000000000).weights,
      rfl, ?_⟩
    exact congrArg (fun rows => Except.ok (Key.zset rows)) (by decide +kernel)
  · rw [Bool.eq_false_iff, ne_eq, hpairs]
    rintro ⟨-, key, hkey, hkey'⟩
    have hrows : (pairs 10 0).weights = (pairs 20 0x8000000000000000).weights :=
      Key.zset.inj (Except.ok.inj (hkey.trans hkey'.symm))
    exact absurd hrows (by decide +kernel)

/-! ## Rows by their keys -/

namespace Row

variable {α : Type} {key : Key} {row : Row α} {rows rows' : List (Row α)}

/-- The first row at a key. -/
def at? (key : Key) (rows : List (Row α)) : Option (Row α) := rows.find? fun row => row.key = key

@[simp]
theorem at?_nil : at? key ([] : List (Row α)) = none := rfl

theorem at?_cons : at? key (row :: rows) = if row.key = key then some row else at? key rows := by
  by_cases h : row.key = key <;> simp [at?, h]

theorem at?_append : at? key (rows ++ rows') = (at? key rows).or (at? key rows') :=
  List.find?_append

theorem at?_eq_none_iff : at? key rows = none ↔ ∀ row ∈ rows, row.key ≠ key := by
  simp [at?]

theorem at?_eq_some_iff (h : rows.Pairwise fun a b => a.key.compare b.key = .lt) :
    at? key rows = some row ↔ row ∈ rows ∧ row.key = key := by
  induction rows with
  | nil => simp
  | cons first rows ih =>
    have hne := key_ne_of_ascending h
    rw [at?_cons]
    by_cases hfirst : first.key = key
    · subst hfirst
      simp only [if_true, Option.some.injEq, List.mem_cons]
      constructor
      · rintro rfl
        exact ⟨.inl rfl, rfl⟩
      · rintro ⟨rfl | hrow, hkey⟩
        · rfl
        · exact absurd hkey (hne row hrow)
    · rw [if_neg hfirst, ih h.of_cons, List.mem_cons]
      constructor
      · rintro ⟨hrow, hkey⟩
        exact ⟨.inr hrow, hkey⟩
      · rintro ⟨rfl | hrow, hkey⟩
        · exact absurd hkey hfirst
        · exact ⟨hrow, hkey⟩

end Row

namespace ZSet

variable {z : ZSet Expr} {e : Expr} {key : Key} {row : Row Expr} {weight : Int64}

/-- The row at a key. -/
def row? (z : ZSet Expr) (key : Key) : Option (Row Expr) := Row.at? key z.rows

theorem WellFormed.row?_eq_some_iff (hz : z.WellFormed) :
    z.row? key = some row ↔ row ∈ z.rows ∧ row.key = key :=
  Row.at?_eq_some_iff hz.ascending

/-- What is found for an element is the weight of the row at its key. -/
theorem weight?_eq_some_iff (hz : z.WellFormed) :
    z.weight? e = some weight ↔ ∃ row ∈ z.rows, e.key = .ok row.key ∧ row.weight = weight := by
  rw [weight?]
  cases hkey : e.key with
  | error part => simp
  | ok key =>
    have hfind : z.weightAt? key = (z.row? key).map Row.weight := rfl
    simp only [hfind, Option.map_eq_some_iff, hz.row?_eq_some_iff, Except.ok.injEq]
    constructor
    · rintro ⟨row, ⟨hrow, rfl⟩, hweight⟩
      exact ⟨row, hrow, rfl, hweight⟩
    · rintro ⟨row, hrow, rfl, hweight⟩
      exact ⟨row, ⟨hrow, rfl⟩, hweight⟩

/-- The element of a row is the same as what has the element type and the key of the row. -/
theorem WellFormedOver.same_element_iff (hz : z.WellFormedOver Expr.WellTyped) (he : e.WellTyped)
    (hrow : row ∈ z.rows) :
    row.element.same e = true ↔ e.ty = z.elementTy ∧ e.key = .ok row.key := by
  rw [Expr.same_iff_ty_key (hz.elements row hrow) he (hz.keyed row hrow), hz.typed row hrow,
    eq_comm]

/-- **The weight of an element is the weight of the row that holds it, unless the types differ.**
An element is looked up by its key alone.  This finds the row of an element that is the same, and
nothing if there is none, exactly when the element has the element type or no row has its key. -/
theorem weight_of_element_unless_mistyped (hz : z.Reached Expr.Obtained) (he : e.Obtained) :
    (∀ weight, z.weight? e = some weight ↔
      ∃ row ∈ z.rows, e.key = .ok row.key ∧ row.weight = weight) ∧
    ((∀ weight, z.weight? e = some weight ↔
        ∃ row ∈ z.rows, row.element.same e = true ∧ row.weight = weight) ↔
      e.ty = z.elementTy ∨ ∀ row ∈ z.rows, e.key ≠ .ok row.key) := by
  have hwell := hz.wellFormedOver fun _ h => h.wellTyped
  have hfind (weight : Int64) : z.weight? e = some weight ↔
      ∃ row ∈ z.rows, e.key = .ok row.key ∧ row.weight = weight :=
    weight?_eq_some_iff hwell.toWellFormed
  have hsame {row : Row Expr} (hrow : row ∈ z.rows) := hwell.same_element_iff he.wellTyped hrow
  refine ⟨hfind, fun h => ?_, fun h weight => ?_⟩
  · by_contra hneither
    obtain ⟨hty, row, hrow, hkey⟩ : e.ty ≠ z.elementTy ∧ ∃ row ∈ z.rows, e.key = .ok row.key := by
      simpa using hneither
    obtain ⟨row', hrow', hsame', -⟩ := (h row.weight).mp ((hfind _).mpr ⟨row, hrow, hkey, rfl⟩)
    exact hty ((hsame hrow').mp hsame').1
  · rw [hfind]
    refine exists_congr fun row => and_congr_right fun hrow => ?_
    rw [hsame hrow]
    rcases h with hty | hnone
    · simp [hty]
    · simp [hnone row hrow]

end ZSet

open Sample in
/-- The number one of 32 bits is found, with its weight, when it is looked up as one of 32 bits. -/
theorem ZSet.weight_of_element_unless_mistyped_number :
    (Expr.int32 9 1).ty = (numbers [(1, 5), (2, 7)]).elementTy ∧
      (∃ row ∈ (numbers [(1, 5), (2, 7)]).rows, row.element.same (.int32 9 1) = true ∧
        row.weight = 5) := by
  have hty : (Expr.int32 9 1).ty = (numbers [(1, 5), (2, 7)]).elementTy := by decide +kernel
  have hlookup := weight_of_element_unless_mistyped (reached_numbers [(1, 5), (2, 7)])
    (.int32 9 1)
  exact ⟨hty, (hlookup.2.mpr (.inl hty) 5).mp (by decide +kernel)⟩

open Sample in
/-- The number one of 64 bits is no element of a Z-set of numbers of 32 bits, and yet it has a
weight there. -/
theorem ZSet.weight_of_absent_number :
    (numbers [(1, 1)]).Reached Expr.Obtained ∧ (Expr.int64 9 1).Obtained ∧
      (numbers [(1, 1)]).weight? (.int64 9 1) = some 1 ∧
      ¬∃ row ∈ (numbers [(1, 1)]).rows, row.element.same (.int64 9 1) = true ∧ row.weight = 1 :=
  ⟨reached_numbers _, .int64 _ _, by decide +kernel, by decide +kernel⟩

end FlowCircuit
