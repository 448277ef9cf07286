import FlowCircuit.Proofs.Same
import FlowCircuit.Proofs.ZSets
import Mathlib.Algebra.Ring.Int.Defs

/-!
# The weights of a Z-set

A constant Z-set stands for a function from values to integers that is zero almost everywhere.
`ZSet.weightAt` is that function, on the keys of values, and this file says what each operation does
to it:

* adding an element adds its weight at its key and changes nothing elsewhere (`ZSet.weightAt_add`),
  so a run of additions adds up (`ZSet.weightAt_addAll`), and merging adds the two functions
  (`ZSet.weightAt_merge`);
* an addition is refused exactly when the sum is no word, and a merge exactly when some sum is none
  (`ZSet.merge_iff`);
* negating gives the negative function (`ZSet.weightAt_negate`), and is refused exactly for the one
  word whose negative is none (`ZSet.negate_iff`).

Nothing else is left to know about a well-formed Z-set: two of them with one declared type and one
function are the same (`ZSet.same_iff_weightAt`).  The sums are sums of integers.  Words come in
only where a sum is stored, which is why the order of additions can decide whether all of them
succeed and never what they add up to.
-/

set_option autoImplicit false

namespace FlowCircuit

namespace Word

/-- The integer is a word. -/
def InRange (n : Int) : Prop := least ≤ n ∧ n ≤ greatest

theorem inRange_toInt (a : Int64) : InRange a.toInt := ⟨least_le_toInt a, toInt_le_greatest a⟩

theorem inRange_zero : InRange 0 := by
  refine ⟨?_, ?_⟩ <;> decide

/-- The least word is the one whose opposite is none. -/
theorem inRange_neg_iff (a : Int64) : InRange (-a.toInt) ↔ a ≠ Int64.minValue := by
  have hlower := least_le_toInt a
  have hupper := toInt_le_greatest a
  rw [ne_eq, ← Int64.toInt_inj, show Int64.minValue.toInt = least from rfl]
  simp only [InRange, least, greatest] at hlower hupper ⊢
  omega

theorem exists_ofInt?_iff {n : Int} : (∃ a, ofInt? n = some a) ↔ InRange n := by
  rw [ofInt?, InRange]
  split <;> simp_all

end Word

/-! ## Rows -/

namespace Row

variable {α β : Type} {key k : Key} {element : α} {weight : Int64} {rows rows' : List (Row α)}

/-- The weight that rows give to a key, zero where they have none. -/
def weightAt (key : Key) (rows : List (Row α)) : Int :=
  (rows.map fun row => if row.key = key then row.weight.toInt else 0).sum

@[simp]
theorem weightAt_nil : weightAt key ([] : List (Row α)) = 0 := rfl

@[simp]
theorem weightAt_cons (row : Row α) :
    weightAt key (row :: rows) =
      (if row.key = key then row.weight.toInt else 0) + weightAt key rows := rfl

@[simp]
theorem weightAt_append :
    weightAt key (rows ++ rows') = weightAt key rows + weightAt key rows' := by
  rw [weightAt, List.map_append, List.sum_append]
  rfl

theorem weightAt_eq_zero (h : ∀ row ∈ rows, row.key ≠ key) : weightAt key rows = 0 := by
  induction rows with
  | nil => rfl
  | cons row rows ih =>
    obtain ⟨hrow, hrows⟩ := List.forall_mem_cons.mp h
    rw [weightAt_cons, if_neg hrow, ih hrows, Int.add_zero]

/-- The rows behind one in ascending order have other keys. -/
theorem key_ne_of_ascending {row : Row α}
    (h : (row :: rows).Pairwise fun a b => a.key.compare b.key = .lt) :
    ∀ other ∈ rows, other.key ≠ row.key := by
  intro other hother heq
  have hlt := List.rel_of_pairwise_cons h hother
  rw [heq, Key.compare_self] at hlt
  cases hlt

/-- In ascending order a key has at most one row. -/
theorem weightAt_of_mem (h : rows.Pairwise fun a b => a.key.compare b.key = .lt) {row : Row α}
    (hrow : row ∈ rows) : weightAt row.key rows = row.weight.toInt := by
  induction rows with
  | nil => cases hrow
  | cons first rows ih =>
    have hne := key_ne_of_ascending h
    rcases List.mem_cons.mp hrow with rfl | hmem
    · rw [weightAt_cons, if_pos rfl, weightAt_eq_zero hne, Int.add_zero]
    · rw [weightAt_cons, if_neg (hne row hmem).symm, ih h.of_cons hmem, Int.zero_add]

theorem weightAt_written (row : Row α) :
    weightAt key (written row rows) = weightAt key (row :: rows) := by
  rw [written]
  split
  case isTrue hzero => simp [hzero]
  case isFalse => rfl

/-- Adding a weight at a key. -/
theorem Change.weightAt (h : Change key element weight rows rows') (k : Key) :
    Row.weightAt k rows' = Row.weightAt k rows + if key = k then weight.toInt else 0 := by
  cases h with
  | new before after =>
    rw [weightAt_append, weightAt_written, weightAt_cons, weightAt_append]
    dsimp only
    omega
  | @old before after row sum _ hkey hsum =>
    have hsum := Word.toInt_of_ofInt? hsum
    subst hkey
    rw [weightAt_append, weightAt_written, weightAt_cons, weightAt_append, weightAt_cons]
    dsimp only
    split <;> omega

/-- Adding is refused exactly when the sum is no word. -/
theorem exists_addWeight_iff (element : α) (weight : Int64)
    (h : rows.Pairwise fun a b => a.key.compare b.key = .lt) :
    (∃ rows', addWeight key element weight rows = some rows') ↔
      Word.InRange (weightAt key rows + weight.toInt) := by
  induction rows with
  | nil => simp [addWeight, Word.inRange_toInt]
  | cons row rows ih =>
    rw [addWeight]
    split
    case h_1 hlt =>
      -- The key is before the first row, and so before all of them.
      have hbefore : ∀ other ∈ row :: rows, key.compare other.key = .lt := by
        refine List.forall_mem_cons.mpr ⟨hlt, fun other hother => ?_⟩
        exact Key.compare_trans _ _ _ hlt (List.rel_of_pairwise_cons h hother)
      have hfront : ((⟨key, element, weight⟩ : Row α) :: row :: rows).Pairwise
          fun a b => a.key.compare b.key = .lt := h.cons hbefore
      rw [weightAt_eq_zero (key_ne_of_ascending hfront)]
      simp [Word.inRange_toInt]
    case h_2 heq =>
      obtain rfl := Key.compare_eq_iff.mp heq
      rw [weightAt_of_mem h List.mem_cons_self, ← Word.exists_ofInt?_iff]
      simp [Word.add?]
    case h_3 hgt =>
      have hne : row.key ≠ key := by
        rintro rfl
        rw [Key.compare_self] at hgt
        cases hgt
      rw [weightAt_cons, if_neg hne, Int.zero_add, ← ih h.of_cons]
      simp

/-- A row with a weight has a counterpart among any rows that give its key the same weight. -/
theorem exists_mem_of_weightAt {others : List (Row β)}
    (hrows : rows.Pairwise fun a b => a.key.compare b.key = .lt) {row : Row α} (hrow : row ∈ rows)
    (hnonzero : row.weight ≠ 0) (h : weightAt row.key rows = weightAt row.key others) :
    ∃ other ∈ others, other.key = row.key := by
  by_contra hnone
  refine hnonzero (Int64.toInt_inj.mp ?_)
  rw [← weightAt_of_mem hrows hrow, h]
  exact weightAt_eq_zero fun other hother heq => hnone ⟨other, hother, heq⟩

/-- **Rows in ascending order without weights of zero are determined by the weights they give.** -/
theorem map_eq_of_weightAt {others : List (Row β)}
    (hrows : rows.Pairwise fun a b => a.key.compare b.key = .lt)
    (hothers : others.Pairwise fun a b => a.key.compare b.key = .lt)
    (hnonzero : ∀ row ∈ rows, row.weight ≠ 0) (hnonzero' : ∀ row ∈ others, row.weight ≠ 0)
    (h : ∀ key, weightAt key rows = weightAt key others) :
    rows.map (fun row => (row.key, row.weight)) = others.map fun row => (row.key, row.weight) := by
  induction rows generalizing others with
  | nil =>
    cases others with
    | nil => rfl
    | cons other others =>
      obtain ⟨_, hmem, -⟩ := exists_mem_of_weightAt hothers List.mem_cons_self
        (hnonzero' other List.mem_cons_self) (h other.key).symm
      cases hmem
  | cons row rows ih =>
    cases others with
    | nil =>
      obtain ⟨_, hmem, -⟩ := exists_mem_of_weightAt hrows List.mem_cons_self
        (hnonzero row List.mem_cons_self) (h row.key)
      cases hmem
    | cons other others =>
      obtain ⟨hrow, hnonzero⟩ := List.forall_mem_cons.mp hnonzero
      obtain ⟨hother, hnonzero'⟩ := List.forall_mem_cons.mp hnonzero'
      -- Each first row is met among the others, and not behind the first one, since both lists
      -- ascend.
      have hkey : row.key = other.key := by
        obtain ⟨met, hmet, hmetkey⟩ :=
          exists_mem_of_weightAt hrows List.mem_cons_self hrow (h row.key)
        obtain ⟨met', hmet', hmetkey'⟩ :=
          exists_mem_of_weightAt hothers List.mem_cons_self hother (h other.key).symm
        rcases List.mem_cons.mp hmet with rfl | hmet
        · exact hmetkey.symm
        rcases List.mem_cons.mp hmet' with rfl | hmet'
        · exact hmetkey'
        have hlt := List.rel_of_pairwise_cons hothers hmet
        have hlt' := List.rel_of_pairwise_cons hrows hmet'
        rw [hmetkey] at hlt
        rw [hmetkey'] at hlt'
        have hself := Key.compare_trans _ _ _ hlt hlt'
        rw [Key.compare_self] at hself
        cases hself
      have hweight : row.weight = other.weight := by
        rw [← Int64.toInt_inj, ← weightAt_of_mem hrows List.mem_cons_self,
          ← weightAt_of_mem hothers List.mem_cons_self, hkey, h]
      have hrest (key : Key) : weightAt key rows = weightAt key others := by
        have hboth := h key
        rw [weightAt_cons, weightAt_cons, hkey, hweight] at hboth
        omega
      rw [List.map_cons, List.map_cons, hkey, hweight,
        ih hrows.of_cons hothers.of_cons hnonzero hnonzero' hrest]

end Row

/-! ## Z-sets -/

namespace ZSet

variable {z z' other : ZSet Expr} {element : Expr} {weight : Int64} {entries : List (Expr × Int64)}

/-- The weight that a Z-set gives to the value with the key, zero if it has none. -/
def weightAt (z : ZSet Expr) (key : Key) : Int := Row.weightAt key z.rows

theorem WellFormed.weightAt_of_mem (hz : z.WellFormed) {row : Row Expr} (hrow : row ∈ z.rows) :
    z.weightAt row.key = row.weight.toInt :=
  Row.weightAt_of_mem hz.ascending hrow

theorem weightAt_eq_zero {key : Key} (h : ∀ row ∈ z.rows, row.key ≠ key) : z.weightAt key = 0 :=
  Row.weightAt_eq_zero h

theorem WellFormed.inRange_weightAt (hz : z.WellFormed) (key : Key) :
    Word.InRange (z.weightAt key) := by
  by_cases h : ∃ row ∈ z.rows, row.key = key
  · obtain ⟨row, hrow, rfl⟩ := h
    rw [hz.weightAt_of_mem hrow]
    exact Word.inRange_toInt _
  · rw [weightAt_eq_zero fun row hrow heq => h ⟨row, hrow, heq⟩]
    exact Word.inRange_zero

/-- What is found at a key: the weight, unless that is zero. -/
theorem WellFormed.toInt_weightAt? (hz : z.WellFormed) (key : Key) :
    (z.weightAt? key).map Int64.toInt =
      if z.weightAt key = 0 then none else some (z.weightAt key) := by
  rw [weightAt?]
  cases hfind : z.rows.find? fun row => row.key = key with
  | none =>
    have hnone : ∀ row ∈ z.rows, row.key ≠ key := by simpa using hfind
    rw [if_pos (weightAt_eq_zero hnone)]
    rfl
  | some row =>
    have hrow : row ∈ z.rows := List.mem_of_find?_eq_some hfind
    obtain rfl : row.key = key := by simpa using List.find?_some hfind
    have hne : row.weight.toInt ≠ 0 := fun h => hz.nonzero row hrow (Int64.toInt_inj.mp h)
    rw [hz.weightAt_of_mem hrow, if_neg hne]
    rfl

/-- **A Z-set is its declared type and its weights.** -/
theorem same_iff_weightAt (hz : z.WellFormed) (hother : other.WellFormed) :
    z.same other = true ↔ z.ty = other.ty ∧ ∀ key, z.weightAt key = other.weightAt key := by
  rw [same, Bool.and_eq_true, Ty.same_iff, beq_iff_eq]
  refine and_congr_right fun _ => ⟨fun h key => ?_, fun h => ?_⟩
  · have hof (z : ZSet Expr) : z.weightAt key =
        (z.weights.map fun entry => if entry.1 = key then entry.2.toInt else 0).sum := by
      rw [weights, List.map_map]
      rfl
    rw [hof, hof, h]
  · exact Row.map_eq_of_weightAt hz.ascending hother.ascending hz.nonzero hother.nonzero h

/-! ### Adding -/

/-- The weight that an entry adds at a key. -/
def addedAt (key : Key) (entry : Expr × Int64) : Int :=
  if entry.1.key.toOption = some key then entry.2.toInt else 0

/-- Adding an element changes the weight at its key, by the given weight. -/
theorem weightAt_add (h : z.add element weight = (z', none)) (key : Key) :
    z'.weightAt key = z.weightAt key + addedAt key (element, weight) := by
  obtain ⟨-, k, rows, hkey, hrows, rfl⟩ := add_accepted_iff.mp h
  rw [addedAt, hkey]
  simpa [weightAt, Except.toOption] using (Row.change_of_addWeight hrows).weightAt key

theorem ty_add {refusal : Option Error} (h : z.add element weight = (z', refusal)) :
    z'.ty = z.ty := by
  cases refusal with
  | some error => rw [add_refused h]
  | none =>
    obtain ⟨-, _, _, -, -, rfl⟩ := add_accepted_iff.mp h
    rfl

/-- A constant of the element type is refused exactly when the sum of the weights is no word. -/
theorem WellFormed.exists_add_iff (hz : z.WellFormed) (weight : Int64) {key : Key}
    (hty : element.ty = z.elementTy) (hkey : element.key = .ok key) :
    (∃ z', z.add element weight = (z', none)) ↔ Word.InRange (z.weightAt key + weight.toInt) := by
  rw [weightAt, ← Row.exists_addWeight_iff element weight hz.ascending]
  constructor
  · rintro ⟨z', h⟩
    obtain ⟨-, k, rows, hk, hrows, -⟩ := add_accepted_iff.mp h
    obtain rfl : key = k := Except.ok.inj (hkey.symm.trans hk)
    exact ⟨rows, hrows⟩
  · rintro ⟨rows, hrows⟩
    exact ⟨_, add_accepted_iff.mpr ⟨hty, key, rows, hkey, hrows, rfl⟩⟩

theorem WellFormed.add (hz : z.WellFormed) {refusal : Option Error}
    (h : z.add element weight = (z', refusal)) : z'.WellFormed :=
  (WellFormedOver.add (P := fun _ => True) ⟨hz, fun _ _ => trivial⟩ trivial h).toWellFormed

theorem ty_addAll (z : ZSet Expr) (entries : List (Expr × Int64)) :
    (z.addAll entries).1.ty = z.ty := by
  induction entries generalizing z with
  | nil => rfl
  | cons entry entries ih =>
    rw [addAll]
    split
    case h_1 z' e hadd => exact ty_add hadd
    case h_2 z' hadd => rw [ih, ty_add hadd]

theorem ty_ofElements {first : Expr} {rest : List Expr} (h : ofElements (first :: rest) = .ok z) :
    z.ty = .zset first.ty Ty.defaultWeight false := by
  rw [← addAll_of_complete h, ty_addAll]
  rfl

/-- **A run of additions adds up.** -/
theorem weightAt_addAll (h : z.addAll entries = (z', none)) (key : Key) :
    z'.weightAt key = z.weightAt key + (entries.map (addedAt key)).sum := by
  induction entries generalizing z with
  | nil =>
    cases h
    simp
  | cons entry entries ih =>
    obtain ⟨element, weight⟩ := entry
    rw [addAll] at h
    split at h
    · cases h
    case h_2 z₁ hadd =>
      rw [ih h, weightAt_add hadd, List.map_cons, List.sum_cons]
      omega

/-- Rows with different keys are all added exactly when each of the sums is a word. -/
theorem WellFormed.addAll_rows_iff {rows : List (Row Expr)} (hz : z.WellFormed)
    (hrows : rows.Pairwise fun a b => a.key.compare b.key = .lt)
    (hkeyed : ∀ row ∈ rows, row.element.key = .ok row.key)
    (htyped : ∀ row ∈ rows, row.element.ty = z.elementTy) :
    (z.addAll (rows.map fun row => (row.element, row.weight))).2 = none ↔
      ∀ row ∈ rows, Word.InRange (z.weightAt row.key + row.weight.toInt) := by
  induction rows generalizing z with
  | nil => simp [addAll]
  | cons row rows ih =>
    have hne := Row.key_ne_of_ascending hrows
    obtain ⟨hkey, hkeyed⟩ := List.forall_mem_cons.mp hkeyed
    obtain ⟨hty, htyped⟩ := List.forall_mem_cons.mp htyped
    rw [List.forall_mem_cons, ← hz.exists_add_iff row.weight hty hkey, List.map_cons, addAll]
    split
    case h_1 z₁ e hadd => simp [hadd]
    case h_2 z₁ hadd =>
      have htyped₁ : ∀ r ∈ rows, r.element.ty = z₁.elementTy := fun r hr =>
        (htyped r hr).trans (Ty.zset.inj (ty_add hadd)).1.symm
      -- What was added so far is at another key.
      have hold : ∀ r ∈ rows, z₁.weightAt r.key = z.weightAt r.key := by
        intro r hr
        have hother : (Except.ok row.key : Except Expr Key).toOption ≠ some r.key := fun heq =>
          hne r hr (Option.some.inj heq).symm
        rw [weightAt_add hadd, addedAt, hkey, if_neg hother, Int.add_zero]
      rw [ih (hz.add hadd) hrows.of_cons hkeyed htyped₁]
      constructor
      · intro h
        exact ⟨⟨z₁, hadd⟩, fun r hr => hold r hr ▸ h r hr⟩
      · rintro ⟨-, h⟩ r hr
        rw [hold r hr]
        exact h r hr

/-! ### Merging -/

theorem merge_of_ty (h : z.ty = other.ty) : z.merge other = z.addAll other.entries := by
  rw [merge, h]
  simp [Ty.same_refl]

theorem ty_merge (z other : ZSet Expr) : (z.merge other).1.ty = z.ty := by
  rw [merge]
  split
  · rfl
  · exact ty_addAll z _

theorem WellFormed.merge (hz : z.WellFormed) (hother : other.WellFormed) :
    (z.merge other).1.WellFormed :=
  (WellFormedOver.merge (P := fun _ => True) ⟨hz, fun _ _ => trivial⟩
    ⟨hother, fun _ _ => trivial⟩).toWellFormed

/-- The rows of a Z-set add its weights. -/
theorem WellFormed.sum_addedAt (hz : z.WellFormed) (key : Key) :
    (z.entries.map (addedAt key)).sum = z.weightAt key := by
  rw [entries, List.map_map, weightAt, Row.weightAt]
  refine congrArg List.sum (List.map_congr_left fun row hrow => ?_)
  simp [addedAt, hz.keyed row hrow, Except.toOption]

/-- **Merging adds the weights.** -/
theorem weightAt_merge (hother : other.WellFormed) (hty : z.ty = other.ty)
    (h : z.merge other = (z', none)) (key : Key) :
    z'.weightAt key = z.weightAt key + other.weightAt key := by
  rw [merge_of_ty hty] at h
  rw [weightAt_addAll h, hother.sum_addedAt]

/-- **A merge succeeds exactly when all the sums are words.** -/
theorem merge_iff (hz : z.WellFormed) (hother : other.WellFormed) (hty : z.ty = other.ty) :
    (z.merge other).2 = none ↔ ∀ key, Word.InRange (z.weightAt key + other.weightAt key) := by
  have htyped : ∀ row ∈ other.rows, row.element.ty = z.elementTy := fun row hrow =>
    (hother.typed row hrow).trans (Ty.zset.inj hty).1.symm
  rw [merge_of_ty hty, entries, hz.addAll_rows_iff hother.ascending hother.keyed htyped]
  constructor
  · intro h key
    by_cases hrow : ∃ row ∈ other.rows, row.key = key
    · obtain ⟨row, hrow, rfl⟩ := hrow
      rw [hother.weightAt_of_mem hrow]
      exact h row hrow
    · rw [weightAt_eq_zero fun row hmem heq => hrow ⟨row, hmem, heq⟩, Int.add_zero]
      exact hz.inRange_weightAt key
  · intro h row hrow
    rw [← hother.weightAt_of_mem hrow]
    exact h row.key

/-! ### Negating -/

theorem ty_negate (h : z.negate = .ok z') : z'.ty = z.ty := by
  obtain ⟨_, -, rfl⟩ := negate_eq_ok_iff.mp h
  rfl

theorem WellFormed.negate (hz : z.WellFormed) (h : z.negate = .ok z') : z'.WellFormed :=
  (WellFormedOver.negate (P := fun _ => True) ⟨hz, fun _ _ => trivial⟩ h).toWellFormed

theorem weightAt_negateRows {rows rows' : List (Row Expr)} (h : negateRows rows = .ok rows')
    (key : Key) : Row.weightAt key rows' = -Row.weightAt key rows := by
  have hneg := negateRows_eq_ok h
  clear h
  induction hneg with
  | nil => rfl
  | cons hrow _ ih =>
    obtain ⟨hkey, -, hweight⟩ := hrow
    rw [Row.weightAt_cons, Row.weightAt_cons, ih, hkey, hweight]
    split <;> omega

/-- **Negating gives the opposite weights.** -/
theorem weightAt_negate (h : z.negate = .ok z') (key : Key) :
    z'.weightAt key = -z.weightAt key := by
  obtain ⟨rows, hrows, rfl⟩ := negate_eq_ok_iff.mp h
  exact weightAt_negateRows hrows key

theorem exists_negateRows_iff {rows : List (Row Expr)} :
    (∃ rows', negateRows rows = .ok rows') ↔ ∀ row ∈ rows, row.weight ≠ Int64.minValue := by
  induction rows with
  | nil => simp [negateRows]
  | cons row rows ih =>
    rw [List.forall_mem_cons, ← ih, ← Word.inRange_neg_iff, ← Word.exists_ofInt?_iff, negateRows]
    split
    case h_1 hnone =>
      rw [Word.neg?] at hnone
      simp [hnone]
    case h_2 weight hweight =>
      rw [Word.neg?] at hweight
      cases negateRows rows <;> simp [hweight, bind, Except.bind, pure, Except.pure]

/-- **A Z-set can be negated exactly when none of its weights is the least word.** -/
theorem negate_iff (z : ZSet Expr) :
    (∃ z', z.negate = .ok z') ↔ ∀ row ∈ z.rows, row.weight ≠ Int64.minValue := by
  rw [← exists_negateRows_iff]
  constructor
  · rintro ⟨z', h⟩
    obtain ⟨rows, hrows, -⟩ := negate_eq_ok_iff.mp h
    exact ⟨rows, hrows⟩
  · rintro ⟨rows, hrows⟩
    exact ⟨_, negate_eq_ok_iff.mpr ⟨rows, hrows, rfl⟩⟩

end ZSet

end FlowCircuit
