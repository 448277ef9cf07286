import FlowCircuit.Proofs.Lists
import FlowCircuit.Proofs.Rows
import FlowCircuit.Proofs.Typing

/-!
# Z-sets stay well formed

However a constant Z-set is put together, its rows are in strictly ascending order of their keys,
each under the key of its element, with elements of the declared type and no weight zero.
Everything that changes rows goes through `Row.addWeight`, so it is enough to know what that does:
it puts at most one new row among the others, at its place in the order, and takes away a row whose
weight has become zero.

`ZSet.WellFormedOver P` says in addition that `P` holds of all elements.  Nothing is said about `P`:
a Z-set never makes an element.
-/

set_option autoImplicit false

namespace FlowCircuit

/-! ## Rows -/

namespace Row

variable {α : Type} {key : Key} {element : α} {weight : Int64} {rows rows' : List (Row α)}

/-- Rows with another one in front, unless its weight is zero. -/
def written (row : Row α) (rows : List (Row α)) : List (Row α) :=
  if row.weight = 0 then rows else row :: rows

theorem written_sublist (row : Row α) (rows : List (Row α)) :
    (written row rows).Sublist (row :: rows) := by
  rw [written]
  split
  · exact List.sublist_cons_self _ _
  · exact .refl _

theorem mem_of_mem_written {row new : Row α} {before after : List (Row α)}
    (h : row ∈ before ++ written new after) : row = new ∨ row ∈ before ++ after := by
  have hmem := (List.Sublist.append_left (written_sublist new after) before).subset h
  rwa [List.mem_append, List.mem_cons, or_left_comm, ← List.mem_append] at hmem

/-- What adding a weight at a key does to rows: there was no row at the key, or there was one. -/
inductive Change (key : Key) (element : α) (weight : Int64) : List (Row α) → List (Row α) → Prop
  | new (before after : List (Row α)) (hbefore : ∀ row ∈ before, row.key.compare key = .lt)
    (hafter : ∀ row ∈ after.head?, key.compare row.key = .lt) :
    Change key element weight (before ++ after) (before ++ written ⟨key, element, weight⟩ after)
  | old (before after : List (Row α)) {row : Row α} {sum : Int64}
    (hbefore : ∀ row ∈ before, row.key.compare key = .lt) (hkey : key = row.key)
    (hsum : Word.add? row.weight weight = some sum) :
    Change key element weight (before ++ row :: after)
      (before ++ written ⟨row.key, row.element, sum⟩ after)

theorem Change.cons {first : Row α} (h : Change key element weight rows rows')
    (hfirst : first.key.compare key = .lt) :
    Change key element weight (first :: rows) (first :: rows') := by
  cases h with
  | new before after hbefore hafter =>
    exact .new (first :: before) after (List.forall_mem_cons.mpr ⟨hfirst, hbefore⟩) hafter
  | old before after hbefore hkey hsum =>
    exact .old (first :: before) after (List.forall_mem_cons.mpr ⟨hfirst, hbefore⟩) hkey hsum

theorem change_of_addWeight (h : addWeight key element weight rows = some rows') :
    Change key element weight rows rows' := by
  have hnone {p : Row α → Prop} : ∀ row ∈ [], p row := List.forall_mem_nil p
  induction rows generalizing rows' with
  | nil =>
    rw [addWeight] at h
    cases h
    exact .new [] [] hnone fun _ h => by cases h
  | cons first rows ih =>
    rw [addWeight] at h
    split at h
    case h_1 hlt =>
      cases h
      refine .new [] (first :: rows) hnone fun row hrow => ?_
      cases hrow
      exact hlt
    case h_2 heq =>
      obtain ⟨sum, hsum, rfl⟩ := Option.map_eq_some_iff.mp h
      exact .old [] rows hnone (Key.compare_eq_iff.mp heq) hsum
    case h_3 hgt =>
      obtain ⟨rest, hrest, rfl⟩ := Option.map_eq_some_iff.mp h
      refine (ih hrest).cons ?_
      rw [← Key.compare_swap, hgt]
      rfl

namespace Change

/-- A row that comes out is the one that was added, or an old one with the weight it had or another
one. -/
theorem mem (h : Change key element weight rows rows') {row : Row α} (hrow : row ∈ rows') :
    row.key = key ∧ row.element = element ∨
      ∃ old ∈ rows, row.key = old.key ∧ row.element = old.element := by
  cases h with
  | new before after =>
    rcases mem_of_mem_written hrow with rfl | hmem
    · exact .inl ⟨rfl, rfl⟩
    · exact .inr ⟨row, hmem, rfl, rfl⟩
  | @old before after met =>
    rcases mem_of_mem_written hrow with rfl | hmem
    · exact .inr ⟨met, List.mem_append_right _ List.mem_cons_self, rfl, rfl⟩
    · have hsub := List.Sublist.append_left (List.sublist_cons_self met after) before
      exact .inr ⟨row, hsub.subset hmem, rfl, rfl⟩

/-- The rows stay in order. -/
theorem ascending (h : Change key element weight rows rows')
    (hrows : rows.Pairwise fun a b => a.key.compare b.key = .lt) :
    rows'.Pairwise fun a b => a.key.compare b.key = .lt := by
  cases h with
  | new before after hbefore hafter =>
    obtain ⟨hb, ha, hcross⟩ := List.pairwise_append.mp hrows
    have hbehind : ∀ row ∈ after, key.compare row.key = .lt := by
      cases after with
      | nil => exact fun _ h => by cases h
      | cons first after =>
        refine List.forall_mem_cons.mpr ⟨hafter first rfl, fun row hrow => ?_⟩
        exact Key.compare_trans _ _ _ (hafter first rfl) (List.rel_of_pairwise_cons ha hrow)
    refine List.Pairwise.sublist (List.Sublist.append_left (written_sublist _ after) before) ?_
    refine List.pairwise_append.mpr ⟨hb, List.pairwise_cons.mpr ⟨hbehind, ha⟩, fun row hrow => ?_⟩
    exact List.forall_mem_cons.mpr ⟨hbefore row hrow, hcross row hrow⟩
  | @old before after row =>
    refine List.Pairwise.sublist (List.Sublist.append_left (written_sublist _ after) before) ?_
    rw [← List.pairwise_map (f := Row.key) (R := fun a b => a.compare b = .lt)] at hrows ⊢
    simpa using hrows

/-- No row of weight zero is left. -/
theorem nonzero (h : Change key element weight rows rows') (hrows : ∀ row ∈ rows, row.weight ≠ 0) :
    ∀ row ∈ rows', row.weight ≠ 0 := by
  have hwritten {new : Row α} {rest : List (Row α)} (hrest : ∀ row ∈ rest, row.weight ≠ 0) :
      ∀ row ∈ written new rest, row.weight ≠ 0 := by
    rw [written]
    split
    · exact hrest
    case isFalse hnew => exact List.forall_mem_cons.mpr ⟨hnew, hrest⟩
  cases h with
  | new before after =>
    obtain ⟨hb, ha⟩ := List.forall_mem_append.mp hrows
    exact List.forall_mem_append.mpr ⟨hb, hwritten ha⟩
  | old before after =>
    obtain ⟨hb, ha⟩ := List.forall_mem_append.mp hrows
    exact List.forall_mem_append.mpr ⟨hb, hwritten (List.forall_mem_cons.mp ha).2⟩

end Change

end Row

/-! ## Z-sets -/

namespace ZSet

variable {P : Expr → Prop} {z z' other : ZSet Expr} {element : Expr} {weight : Int64}

/-- A well-formed Z-set of elements with the property `P`. -/
structure WellFormedOver (P : Expr → Prop) (z : ZSet Expr) : Prop extends z.WellFormed where
  elements : ∀ row ∈ z.rows, P row.element

/-- A Z-set without rows. -/
theorem wellFormedOver_of_rows (h : z.rows = []) : z.WellFormedOver P := by
  have hnone {Q : Row Expr → Prop} : ∀ row ∈ z.rows, Q row := by
    intro row hrow
    rw [h] at hrow
    cases hrow
  refine ⟨⟨?_, hnone, hnone, hnone⟩, hnone⟩
  rw [h]
  exact .nil

theorem rows_of_ofTy {ty : Ty} (h : ofTy ty = .ok z) : z.rows = [] := by
  cases ty with
  | zset =>
    cases h
    rfl
  | _ => cases h

theorem ty_of_ofTy {ty : Ty} (h : ofTy ty = .ok z) : z.ty = ty := by
  cases ty with
  | zset =>
    cases h
    rfl
  | _ => cases h

/-- What an addition that succeeds has checked, and what it gives. -/
theorem add_accepted_iff : z.add element weight = (z', none) ↔ element.ty = z.elementTy ∧
    ∃ key rows, element.key = .ok key ∧ Row.addWeight key element weight z.rows = some rows ∧
      z' = { z with rows } := by
  rw [add]
  cases hty : element.ty.same z.elementTy with
  | false =>
    have hne : element.ty ≠ z.elementTy := by
      rw [← Bool.not_eq_true, Ty.same_iff] at hty
      exact hty
    simp [hne]
  | true =>
    rw [Ty.same_iff] at hty
    cases hkey : element.key with
    | error => simp
    | ok key =>
      cases hrows : Row.addWeight key element weight z.rows with
      | none => simp [hrows]
      | some rows => simp [hrows, hty, eq_comm]

/-- An addition that is refused changes nothing: each check comes before the rows are touched. -/
theorem add_refused {error : Error} (h : z.add element weight = (z', some error)) : z' = z := by
  rw [add] at h
  split at h
  · exact (Prod.mk.inj h).1.symm
  · split at h
    · exact (Prod.mk.inj h).1.symm
    · split at h
      · exact (Prod.mk.inj h).1.symm
      · cases h

namespace WellFormedOver

/-- An addition that succeeds. -/
theorem add_accepted (hz : z.WellFormedOver P) (he : P element)
    (h : z.add element weight = (z', none)) : z'.WellFormedOver P := by
  obtain ⟨hty, key, rows, hkey, hrows, rfl⟩ := add_accepted_iff.mp h
  have hchange := Row.change_of_addWeight hrows
  have hmem : ∀ row ∈ rows, row.element.key = .ok row.key ∧ row.element.ty = z.elementTy ∧
      P row.element := by
    intro row hrow
    rcases hchange.mem hrow with ⟨hrowkey, helement⟩ | ⟨old, hold, hrowkey, helement⟩
    · rw [helement, hrowkey]
      exact ⟨hkey, hty, he⟩
    · rw [helement, hrowkey]
      exact ⟨hz.keyed old hold, hz.typed old hold, hz.elements old hold⟩
  exact ⟨⟨hchange.ascending hz.ascending, fun row hrow => (hmem row hrow).1,
    fun row hrow => (hmem row hrow).2.1, hchange.nonzero hz.nonzero⟩,
    fun row hrow => (hmem row hrow).2.2⟩

/-- Any addition. -/
theorem add (hz : z.WellFormedOver P) (he : P element) {refusal : Option Error}
    (h : z.add element weight = (z', refusal)) : z'.WellFormedOver P := by
  cases refusal with
  | none => exact hz.add_accepted he h
  | some error => exact add_refused h ▸ hz

/-- Adding several, up to the first refusal. -/
theorem addAll (hz : z.WellFormedOver P) {entries : List (Expr × Int64)}
    (h : ∀ entry ∈ entries, P entry.1) : (z.addAll entries).1.WellFormedOver P := by
  induction entries generalizing z with
  | nil => exact hz
  | cons entry entries ih =>
    obtain ⟨hentry, hrest⟩ := List.forall_mem_cons.mp h
    rw [ZSet.addAll]
    split
    case h_1 z' e hadd => exact hz.add hentry hadd
    case h_2 z' hadd => exact ih (hz.add hentry hadd) hrest

/-- All elements of a Z-set that was empty have been added. -/
theorem of_addAll {entries : List (Expr × Int64)} (hrows : z.rows = [])
    (h : z.addAll entries = (z', none)) : z'.WellFormedOver fun e => e ∈ entries.map Prod.fst := by
  have hmem : ∀ entry ∈ entries, entry.1 ∈ entries.map Prod.fst := fun entry hentry =>
    List.mem_map_of_mem hentry
  have hwell := (wellFormedOver_of_rows hrows).addAll hmem
  rwa [h] at hwell

theorem merge (hz : z.WellFormedOver P) (hother : other.WellFormedOver P) :
    (z.merge other).1.WellFormedOver P := by
  rw [ZSet.merge]
  split
  · exact hz
  · refine hz.addAll fun entry hentry => ?_
    obtain ⟨row, hrow, rfl⟩ := List.mem_map.mp hentry
    exact hother.elements row hrow

end WellFormedOver

theorem complete_eq_ok_iff {reached : ZSet Expr × Option Error} :
    complete reached = .ok z ↔ reached = (z, none) := by
  obtain ⟨z', _ | e⟩ := reached <;> simp [complete]

theorem addAll_of_complete {entries : List (Expr × Int64)}
    (h : complete (z.addAll entries) = .ok z') : (z.addAll entries).1 = z' := by
  rw [complete_eq_ok_iff.mp h]

theorem WellFormedOver.ofElements {elements : List Expr} (helements : ∀ e ∈ elements, P e)
    (h : ofElements elements = .ok z) : z.WellFormedOver P := by
  cases elements with
  | nil => cases h
  | cons first rest =>
    rw [← addAll_of_complete h]
    refine (wellFormedOver_of_rows rfl).addAll fun entry hentry => ?_
    obtain ⟨e, he, rfl⟩ := List.mem_map.mp hentry
    exact helements e he

/-- Negating changes nothing but weights, and none of those to zero. -/
theorem negateRows_eq_ok {rows rows' : List (Row Expr)} (h : negateRows rows = .ok rows') :
    List.Forall₂ (fun row row' => row'.key = row.key ∧ row'.element = row.element ∧
      row'.weight.toInt = -row.weight.toInt) rows rows' := by
  induction rows generalizing rows' with
  | nil =>
    cases h
    exact .nil
  | cons row rows ih =>
    rw [negateRows] at h
    split at h
    · cases h
    case h_2 weight hweight =>
      cases hrest : negateRows rows with
      | error e =>
        rw [hrest] at h
        cases h
      | ok rest =>
        rw [hrest] at h
        cases h
        exact .cons ⟨rfl, rfl, Word.toInt_of_ofInt? hweight⟩ (ih hrest)

theorem negate_eq_ok_iff :
    z.negate = .ok z' ↔ ∃ rows, negateRows z.rows = .ok rows ∧ z' = { z with rows } := by
  rw [negate]
  cases hrows : negateRows z.rows with
  | error => simp [bind, Except.bind]
  | ok rows => simp [bind, Except.bind, pure, Except.pure, eq_comm]

theorem WellFormedOver.negate (hz : z.WellFormedOver P) (h : z.negate = .ok z') :
    z'.WellFormedOver P := by
  obtain ⟨rows, hrows, rfl⟩ := negate_eq_ok_iff.mp h
  have hneg := negateRows_eq_ok hrows
  have hkeys : z.rows.map Row.key = rows.map Row.key :=
    forall₂_map_eq_iff.mp (hneg.imp fun _ _ h => h.1.symm)
  refine ⟨⟨?_, ?_, ?_, ?_⟩, ?_⟩
  · have hascending := hz.ascending
    rw [← List.pairwise_map (f := Row.key) (R := fun a b => a.compare b = .lt)] at hascending ⊢
    exact hkeys ▸ hascending
  all_goals
    intro row hrow
    obtain ⟨old, hold, hkey, helement, hweight⟩ := forall₂_exists_left hneg hrow
  · rw [helement, hkey]
    exact hz.keyed old hold
  · rw [helement]
    exact hz.typed old hold
  · intro hzero
    refine hz.nonzero old hold (Int64.toInt_inj.mp ?_)
    rw [hzero] at hweight
    simpa using hweight.symm
  · rw [helement]
    exact hz.elements old hold

end ZSet

end FlowCircuit
