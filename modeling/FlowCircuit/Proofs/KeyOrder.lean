import FlowCircuit.Proofs.Rows
import Mathlib.Tactic.MkIffOfInductiveProp

/-!
# The order of keys is a total order

Rows of a Z-set are found by comparing keys, so everything that is known of Z-sets rests on the
comparison being that of a total order.  `Key.Before` says what the order is, without the function
that compares: constants of different sorts go by their sorts, numbers by value, texts by code
points, binary64 patterns by sign and magnitude, tuples and the rows of Z-sets lexicographically,
through any nesting.  `Key.compare` answers `.lt` exactly for keys that stand in this order
(`Key.compare_eq_lt_iff`).

That the order is total and transitive is known from `Rows`; here it is put in the form in which the
library knows comparisons.
-/

set_option autoImplicit false

namespace FlowCircuit

/-! ## The order of binary64 patterns -/

namespace Binary64

/-- The highest bit of a binary64 pattern is set. -/
def Negative (bits : UInt64) : Prop := bits.toBitVec.msb = true

/-- What the other bits of a binary64 pattern say. -/
def magnitude (bits : UInt64) : Nat := bits.toNat % 9223372036854775808

/-- The total order of binary64 patterns: first the negative ones from the largest magnitude to
zero, then the others from zero to the largest magnitude.  NaNs are at both ends. -/
inductive Before (x y : UInt64) : Prop
  | signs (hx : Negative x) (hy : ¬Negative y)
  | negative (hx : Negative x) (hy : Negative y) (h : magnitude y < magnitude x)
  | positive (hx : ¬Negative x) (hy : ¬Negative y) (h : magnitude x < magnitude y)

theorem negative_iff {bits : UInt64} : Negative bits ↔ 9223372036854775808 ≤ bits.toNat := by
  rw [Negative, BitVec.msb_eq_decide, decide_eq_true_iff]
  rfl

theorem floatRank_of_negative {bits : UInt64} (h : Negative bits) :
    floatRank bits = -1 - magnitude bits := by
  rw [negative_iff] at h
  have hlt := bits.toNat_lt
  rw [floatRank, if_neg (by omega), magnitude, Int.ofNat_eq_natCast]
  omega

theorem floatRank_of_not_negative {bits : UInt64} (h : ¬Negative bits) :
    floatRank bits = magnitude bits := by
  rw [negative_iff] at h
  rw [floatRank, if_pos (by omega), magnitude, Nat.mod_eq_of_lt (by omega)]
  rfl

/-- Ranks are in the order of the patterns. -/
theorem floatRank_lt_iff {x y : UInt64} : floatRank x < floatRank y ↔ Before x y := by
  by_cases hx : Negative x <;> by_cases hy : Negative y
  · rw [floatRank_of_negative hx, floatRank_of_negative hy]
    constructor
    · exact fun h => .negative hx hy (by omega)
    · rintro (⟨-, hpos⟩ | ⟨-, -, h⟩ | ⟨hpos, -, -⟩)
      · exact absurd hy hpos
      · omega
      · exact absurd hx hpos
  · rw [floatRank_of_negative hx, floatRank_of_not_negative hy]
    exact ⟨fun _ => .signs hx hy, fun _ => by omega⟩
  · rw [floatRank_of_not_negative hx, floatRank_of_negative hy]
    constructor
    · intro h
      omega
    · rintro (⟨hneg, -⟩ | ⟨hneg, -, -⟩ | ⟨-, hpos, -⟩)
      · exact absurd hneg hx
      · exact absurd hneg hx
      · exact absurd hy hpos
  · rw [floatRank_of_not_negative hx, floatRank_of_not_negative hy]
    constructor
    · exact fun h => .positive hx hy (by omega)
    · rintro (⟨hneg, -⟩ | ⟨hneg, -, -⟩ | ⟨-, -, h⟩)
      · exact absurd hneg hx
      · exact absurd hneg hx
      · omega

end Binary64

/-! ## The order of booleans and texts -/

theorem compare_bool_eq_lt_iff {p q : Bool} : Ord.compare p q = .lt ↔ p = false ∧ q = true := by
  cases p <;> cases q <;> decide

/-- The order of texts by code points. -/
def Text.Before (s t : String) : Prop := List.Lex (fun c d => c.toNat < d.toNat) s.toList t.toList

theorem compare_text_eq_lt_iff {s t : String} : Ord.compare s t = .lt ↔ Text.Before s t :=
  compareOfLessAndEq_eq_lt.trans String.lt_iff

/-! ## The order of keys -/

namespace Key

/-- One key comes before another. -/
@[mk_iff before_iff]
inductive Before : Key → Key → Prop
  | sort {a b : Key} (h : a.sort < b.sort) : Before a b
  | bool : Before (.bool false) (.bool true)
  | integer {m n : Int64} (h : m < n) : Before (.integer m) (.integer n)
  | float {x y : UInt64} (h : Binary64.Before x y) : Before (.float x) (.float y)
  | decimal {s t : String} (h : Text.Before s t) : Before (.decimal s) (.decimal t)
  | string {s t : String} (h : Text.Before s t) : Before (.string s) (.string t)
  | date {m n : Int32} (h : m < n) : Before (.date m) (.date n)
  | timestamp {m n : Int64} (h : m < n) : Before (.timestamp m) (.timestamp n)
  | tuple {as bs : List Key} (h : List.Lex Before as bs) : Before (.tuple as) (.tuple bs)
  | zset {as bs : List (Key × Int64)} (h : List.Lex (Prod.Lex Before (· < ·)) as bs) :
    Before (.zset as) (.zset bs)

theorem Before.sort_le {a b : Key} (h : Before a b) : a.sort ≤ b.sort := by
  cases h with
  | sort h => exact Nat.le_of_lt h
  | _ => exact Nat.le_refl _

/-- Among keys of different sorts only the sorts count. -/
theorem compare_eq_lt_iff_of_sort_ne {a b : Key} (h : a.sort ≠ b.sort) :
    compare a b = .lt ↔ Before a b := by
  rw [compare_of_sort_ne h, Nat.compare_eq_lt]
  exact ⟨.sort, fun hbefore => Nat.lt_of_le_of_ne hbefore.sort_le h⟩

mutual

/-- **The comparison decides the order.** -/
theorem compare_eq_lt_iff : ∀ a b : Key, compare a b = .lt ↔ Before a b
  | a, b => by
    by_cases hsort : a.sort = b.sort
    · cases a with
      | tuple as => cases b with
        | tuple bs => simpa [compare, before_iff, sort] using compareAll_eq_lt_iff as bs
        | _ => cases hsort
      | zset as => cases b with
        | zset bs => simpa [compare, before_iff, sort] using compareRows_eq_lt_iff as bs
        | _ => cases hsort
      | _ =>
        -- sorts without keys inside, where the order is that of the values
        cases b <;> cases hsort
        simp [compare, before_iff, sort, compare_bool_eq_lt_iff, Int.compare_eq_lt,
          compare_text_eq_lt_iff, Binary64.floatRank_lt_iff, Int64.lt_iff_toInt_lt,
          Int32.lt_iff_toInt_lt]
    · exact compare_eq_lt_iff_of_sort_ne hsort

theorem compareAll_eq_lt_iff : ∀ as bs : List Key, compareAll as bs = .lt ↔ List.Lex Before as bs
  | [], [] => by simp [compareAll]
  | [], _ :: _ => by simp [compareAll]
  | _ :: _, [] => by simp [compareAll]
  | a :: as, b :: bs => by
    rw [compareAll, Ordering.then_eq_lt, compare_eq_iff, List.cons_lex_cons_iff,
      compare_eq_lt_iff a b, compareAll_eq_lt_iff as bs]

theorem compareRows_eq_lt_iff : ∀ as bs : List (Key × Int64),
    compareRows as bs = .lt ↔ List.Lex (Prod.Lex Before (· < ·)) as bs
  | [], [] => by simp [compareRows]
  | [], _ :: _ => by simp [compareRows]
  | _ :: _, [] => by simp [compareRows]
  | (a, m) :: as, (b, n) :: bs => by
    rw [compareRows, Ordering.then_eq_lt, Ordering.then_eq_lt, Ordering.then_eq_eq, compare_eq_iff,
      Std.compare_eq_iff_eq, Int64.toInt_inj, List.cons_lex_cons_iff, Prod.lex_def, Prod.mk.injEq,
      compare_eq_lt_iff a b, compareRows_eq_lt_iff as bs, Int.compare_eq_lt, Int64.lt_iff_toInt_lt]

end

/-! ## The laws of the order -/

instance : Std.OrientedCmp compare where
  eq_swap := (compare_swap _ _).symm

instance : Std.LawfulEqCmp compare where
  compare_self := compare_self _
  eq_of_compare := eq_of_compare _ _

instance : Std.TransCmp compare where
  isLE_trans {a b c} hab hbc := by
    rw [Ordering.isLE_iff_eq_lt_or_eq_eq, compare_eq_iff] at hab hbc
    rcases hab with hab | rfl
    · rcases hbc with hbc | rfl
      · exact Ordering.isLE_of_eq_lt (compare_trans a b c hab hbc)
      · exact Ordering.isLE_of_eq_lt hab
    · rw [Ordering.isLE_iff_eq_lt_or_eq_eq, compare_eq_iff]
      exact hbc

/-- A key is not behind another one. -/
instance : LE Key := ⟨fun a b => (compare a b).isLE = true⟩

instance (a b : Key) : Decidable (a ≤ b) := inferInstanceAs (Decidable (_ = true))

theorem compare_eq_gt_iff {a b : Key} : compare a b = .gt ↔ Before b a := by
  rw [← compare_eq_lt_iff, Std.OrientedCmp.gt_iff_lt]

/-- **The order of keys is a total order**: reflexive, antisymmetric, transitive and total, for keys
of any nesting.  Two keys compare equal exactly when they are equal, and otherwise as they stand in
the order that `Before` describes. -/
theorem compare_totally_orders (a b c : Key) :
    a ≤ a ∧ (a ≤ b → b ≤ a → a = b) ∧ (a ≤ b → b ≤ c → a ≤ c) ∧ (a ≤ b ∨ b ≤ a) ∧
    (compare a b = .eq ↔ a = b) ∧ (compare a b = .lt ↔ Before a b) ∧
      (compare a b = .gt ↔ Before b a) := by
  refine ⟨Std.ReflCmp.isLE_rfl, fun hab hba => ?_, Std.TransCmp.isLE_trans, ?_, compare_eq_iff,
    compare_eq_lt_iff a b, compare_eq_gt_iff⟩
  · exact compare_eq_iff.mp (Std.OrientedCmp.isLE_antisymm hab hba)
  · cases h : compare a b with
    | lt => exact .inl (Ordering.isLE_of_eq_lt h)
    | eq => exact .inl (Ordering.isLE_of_eq_eq h)
    | gt => exact .inr (Ordering.isLE_of_eq_lt (Std.OrientedCmp.lt_of_gt h))

/-- A row with a NaN of negative sign. -/
def nanRow : Key := .tuple [.float 0xfff8000000000000, .string "z"]

/-- A row with the negative zero and a Z-set in which one element has the given weight. -/
def weightRow (weight : Int64) : Key :=
  .tuple [.float 0x8000000000000000, .zset [(.string "é", weight)]]

/-- A NaN of negative sign comes before the negative zero, and Z-sets of one element go by its
weight. -/
theorem compare_totally_orders_rows :
    (nanRow ≤ weightRow (-1) ∧ weightRow (-1) ≤ weightRow 2 ∧ nanRow ≤ weightRow 2) ∧
    (nanRow.Before (weightRow (-1)) ∧ (weightRow (-1)).Before (weightRow 2)) ∧
    weightRow 2 ≤ weightRow (3 - 1) ∧ weightRow (3 - 1) ≤ weightRow 2 ∧
      weightRow 2 = weightRow (3 - 1) := by
  have hnan : nanRow ≤ weightRow (-1) := by decide +kernel
  have hweight : weightRow (-1) ≤ weightRow 2 := by decide +kernel
  have hle : weightRow 2 ≤ weightRow (3 - 1) := by decide +kernel
  have hge : weightRow (3 - 1) ≤ weightRow 2 := by decide +kernel
  obtain ⟨-, -, htrans, -, -, hlt, -⟩ :=
    compare_totally_orders nanRow (weightRow (-1)) (weightRow 2)
  obtain ⟨-, -, -, -, -, hlt', -⟩ := compare_totally_orders (weightRow (-1)) (weightRow 2) nanRow
  obtain ⟨-, hantisymm, -⟩ := compare_totally_orders (weightRow 2) (weightRow (3 - 1)) nanRow
  exact ⟨⟨hnan, hweight, htrans hnan hweight⟩,
    ⟨hlt.mp (by decide +kernel), hlt'.mp (by decide +kernel)⟩, hle, hge, hantisymm hle hge⟩

end Key

end FlowCircuit
