import FlowCircuit.Literal

/-!
# Keys of constants

A Z-set addresses its rows by the *value* of the element, so that two constants built apart from
each other reach the same row.  `Key` is that value with the types and the identity of the nodes
left out, and `Key.compare` is the order in which rows are kept: first by the sort of constant, then
by value, tuples and Z-sets lexicographically.  Floating-point patterns are ordered by `floatRank`,
which is the total order of binary64: all negative patterns, larger magnitudes first, before all
positive ones.
-/

set_option autoImplicit false

namespace FlowCircuit

/-- The value of a constant. -/
inductive Key where
  | null
  | bool (value : Bool)
  | integer (value : Int64)
  | float (bits : UInt64)
  | decimal (digits : String)
  | string (value : String)
  | date (days : Int32)
  | timestamp (millis : Int64)
  | tuple (fields : List Key)
  | zset (rows : List (Key × Int64))
deriving Inhabited

/-- Position of a bit pattern in the total order of binary64 numbers. -/
def floatRank (bits : UInt64) : Int :=
  if bits.toNat < 9223372036854775808 then Int.ofNat bits.toNat
  else 9223372036854775807 - Int.ofNat bits.toNat

theorem floatRank_injective {a b : UInt64} (h : floatRank a = floatRank b) : a = b := by
  have ha := a.toNat_lt
  have hb := b.toNat_lt
  rw [← UInt64.toNat_inj]
  simp only [floatRank] at h
  split at h <;> split at h <;> simp only [Int.ofNat_eq_natCast] at h <;> omega

namespace Key

/-- Place of the sort of constant in the order. -/
def sort : Key → Nat
  | .null => 0
  | .bool _ => 1
  | .integer _ => 2
  | .float _ => 3
  | .decimal _ => 4
  | .string _ => 5
  | .date _ => 6
  | .timestamp _ => 7
  | .tuple _ => 8
  | .zset _ => 9

mutual

/-- The order of keys. -/
def compare : Key → Key → Ordering
  | .null, .null => .eq
  | .bool a, .bool b => Ord.compare a b
  | .integer a, .integer b => Ord.compare a.toInt b.toInt
  | .float a, .float b => Ord.compare (floatRank a) (floatRank b)
  | .decimal a, .decimal b => Ord.compare a b
  | .string a, .string b => Ord.compare a b
  | .date a, .date b => Ord.compare a.toInt b.toInt
  | .timestamp a, .timestamp b => Ord.compare a.toInt b.toInt
  | .tuple as, .tuple bs => compareAll as bs
  | .zset as, .zset bs => compareRows as bs
  | a, b => Ord.compare a.sort b.sort

/-- Lexicographic order of lists of keys. -/
def compareAll : List Key → List Key → Ordering
  | [], [] => .eq
  | [], _ :: _ => .lt
  | _ :: _, [] => .gt
  | a :: as, b :: bs => (compare a b).then (compareAll as bs)

/-- Lexicographic order of lists of weighted keys. -/
def compareRows : List (Key × Int64) → List (Key × Int64) → Ordering
  | [], [] => .eq
  | [], _ :: _ => .lt
  | _ :: _, [] => .gt
  | (a, m) :: as, (b, n) :: bs =>
    ((compare a b).then (Ord.compare m.toInt n.toInt)).then (compareRows as bs)

end

/-! ## Keys that compare equal are equal -/

mutual

theorem eq_of_compare : ∀ a b : Key, compare a b = .eq → a = b
  | .null, b, h => by
    cases b <;> first | rfl | exact absurd h (by simp [compare, sort])
  | .bool x, b, h => by
    cases b with
    | bool y => simpa [compare, Std.compare_eq_iff_eq] using h
    | _ => exact absurd h (by simp [compare, sort])
  | .integer x, b, h => by
    cases b with
    | integer y =>
      simp only [compare, Std.compare_eq_iff_eq, Int64.toInt_inj] at h
      rw [h]
    | _ => exact absurd h (by simp [compare, sort])
  | .float x, b, h => by
    cases b with
    | float y =>
      simp only [compare, Std.compare_eq_iff_eq] at h
      rw [floatRank_injective h]
    | _ => exact absurd h (by simp [compare, sort])
  | .decimal x, b, h => by
    cases b with
    | decimal y => simpa [compare, Std.compare_eq_iff_eq] using h
    | _ => exact absurd h (by simp [compare, sort])
  | .string x, b, h => by
    cases b with
    | string y => simpa [compare, Std.compare_eq_iff_eq] using h
    | _ => exact absurd h (by simp [compare, sort])
  | .date x, b, h => by
    cases b with
    | date y =>
      simp only [compare, Std.compare_eq_iff_eq, Int32.toInt_inj] at h
      rw [h]
    | _ => exact absurd h (by simp [compare, sort])
  | .timestamp x, b, h => by
    cases b with
    | timestamp y =>
      simp only [compare, Std.compare_eq_iff_eq, Int64.toInt_inj] at h
      rw [h]
    | _ => exact absurd h (by simp [compare, sort])
  | .tuple xs, b, h => by
    cases b with
    | tuple ys => rw [eq_of_compareAll xs ys (by simpa [compare] using h)]
    | _ => exact absurd h (by simp [compare, sort])
  | .zset xs, b, h => by
    cases b with
    | zset ys => rw [eq_of_compareRows xs ys (by simpa [compare] using h)]
    | _ => exact absurd h (by simp [compare, sort])

theorem eq_of_compareAll : ∀ as bs : List Key, compareAll as bs = .eq → as = bs
  | [], [], _ => rfl
  | [], _ :: _, h => by simp [compareAll] at h
  | _ :: _, [], h => by simp [compareAll] at h
  | a :: as, b :: bs, h => by
    simp only [compareAll, Ordering.then_eq_eq] at h
    rw [eq_of_compare a b h.1, eq_of_compareAll as bs h.2]

theorem eq_of_compareRows :
    ∀ as bs : List (Key × Int64), compareRows as bs = .eq → as = bs
  | [], [], _ => rfl
  | [], _ :: _, h => by simp [compareRows] at h
  | _ :: _, [], h => by simp [compareRows] at h
  | (a, m) :: as, (b, n) :: bs, h => by
    simp only [compareRows, Ordering.then_eq_eq, Std.compare_eq_iff_eq, Int64.toInt_inj] at h
    rw [eq_of_compare a b h.1.1, h.1.2, eq_of_compareRows as bs h.2]

end

mutual

theorem compare_self : ∀ a : Key, compare a a = .eq
  | .null => rfl
  | .bool x => by simp [compare]
  | .integer x => by simp [compare]
  | .float x => by simp [compare]
  | .decimal x => by simp [compare]
  | .string x => by simp [compare]
  | .date x => by simp [compare]
  | .timestamp x => by simp [compare]
  | .tuple xs => by simp [compare, compareAll_self xs]
  | .zset xs => by simp [compare, compareRows_self xs]

theorem compareAll_self : ∀ as : List Key, compareAll as as = .eq
  | [] => rfl
  | a :: as => by simp [compareAll, compare_self a, compareAll_self as]

theorem compareRows_self : ∀ as : List (Key × Int64), compareRows as as = .eq
  | [] => rfl
  | (a, m) :: as => by simp [compareRows, compare_self a, compareRows_self as]

end

/-- Two keys compare equal exactly when they are equal. -/
theorem compare_eq_iff {a b : Key} : compare a b = .eq ↔ a = b :=
  ⟨eq_of_compare a b, fun h => h ▸ compare_self a⟩

instance : DecidableEq Key := fun a b =>
  if h : compare a b = .eq then .isTrue (compare_eq_iff.1 h)
  else .isFalse fun e => h (compare_eq_iff.2 e)

end Key

/-- The key of a literal value. -/
def Literal.key : Literal → Key
  | .null => .null
  | .bool b => .bool b
  | .integer n => .integer n
  | .float bits => .float bits
  | .decimal d => .decimal d
  | .string s => .string s
  | .date d => .date d
  | .timestamp t => .timestamp t

end FlowCircuit
