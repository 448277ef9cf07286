import FlowCircuit.ZSet.Arithmetic
import Mathlib.Order.Compare

/-!
# Rows in ascending order

Rows of a Z-set stand in strictly ascending order of their keys, so adding them again one by one, in
that order, puts each behind the ones before it and never meets a key twice.  No weights are summed
and nothing is cancelled: the rows come out as they went in (`ZSet.addAll_of_ascending`).

That "ascending" makes sense is the first half: the order of keys is strict and transitive
(`Key.compare_swap`, `Key.compare_trans`), over all sorts of constants and however deep they are
nested.
-/

set_option autoImplicit false

namespace FlowCircuit

namespace Key

mutual

/-- Comparing the other way round gives the opposite answer. -/
theorem compare_swap : ∀ a b : Key, (compare a b).swap = compare b a
  | .null, b => by cases b <;> rfl
  | .bool x, b => by
    cases b with
    | bool y => exact Std.OrientedOrd.eq_swap.symm
    | _ => rfl
  | .integer x, b => by
    cases b with
    | integer y => exact Std.OrientedOrd.eq_swap.symm
    | _ => rfl
  | .float x, b => by
    cases b with
    | float y => exact Std.OrientedOrd.eq_swap.symm
    | _ => rfl
  | .decimal x, b => by
    cases b with
    | decimal y => exact Std.OrientedOrd.eq_swap.symm
    | _ => rfl
  | .string x, b => by
    cases b with
    | string y => exact Std.OrientedOrd.eq_swap.symm
    | _ => rfl
  | .date x, b => by
    cases b with
    | date y => exact Std.OrientedOrd.eq_swap.symm
    | _ => rfl
  | .timestamp x, b => by
    cases b with
    | timestamp y => exact Std.OrientedOrd.eq_swap.symm
    | _ => rfl
  | .tuple xs, b => by
    cases b with
    | tuple ys => simpa [compare] using compareAll_swap xs ys
    | _ => rfl
  | .zset xs, b => by
    cases b with
    | zset ys => simpa [compare] using compareRows_swap xs ys
    | _ => rfl

theorem compareAll_swap : ∀ as bs : List Key, (compareAll as bs).swap = compareAll bs as
  | [], [] => rfl
  | [], _ :: _ => rfl
  | _ :: _, [] => rfl
  | a :: as, b :: bs => by
    rw [compareAll, compareAll, Ordering.swap_then, compare_swap a b, compareAll_swap as bs]

theorem compareRows_swap :
    ∀ as bs : List (Key × Int64), (compareRows as bs).swap = compareRows bs as
  | [], [] => rfl
  | [], _ :: _ => rfl
  | _ :: _, [] => rfl
  | (a, m) :: as, (b, n) :: bs => by
    rw [compareRows, compareRows, Ordering.swap_then, Ordering.swap_then, compare_swap a b,
      compareRows_swap as bs, ← Std.OrientedOrd.eq_swap]

end

theorem compare_eq_gt_of_lt {a b : Key} (h : compare a b = .lt) : compare b a = .gt := by
  rw [← compare_swap a b, h]
  rfl

/-- Constants of different sorts are ordered by their sorts. -/
theorem compare_of_sort_ne {a b : Key} (h : a.sort ≠ b.sort) :
    compare a b = Ord.compare a.sort b.sort := by
  rw [compare.eq_def]
  split
  case h_11 => rfl
  all_goals exact absurd rfl h

theorem compare_of_sort_lt {a b : Key} (h : a.sort < b.sort) : compare a b = .lt := by
  rw [compare_of_sort_ne (Nat.ne_of_lt h), Nat.compare_eq_lt]
  exact h

theorem sort_le_of_compare {a b : Key} (h : compare a b = .lt) : a.sort ≤ b.sort := by
  by_contra hlt
  rw [compare_of_sort_ne (by omega), Nat.compare_eq_lt] at h
  omega

/-- One key before another, and that before a third: either the sorts tell, or all are of one
sort. -/
theorem sorts_of_compare {a b c : Key} (hab : compare a b = .lt) (hbc : compare b c = .lt) :
    a.sort < c.sort ∨ b.sort = a.sort ∧ c.sort = a.sort := by
  have hab := sort_le_of_compare hab
  have hbc := sort_le_of_compare hbc
  omega

mutual

/-- The order of keys is transitive. -/
theorem compare_trans : ∀ a b c : Key, compare a b = .lt → compare b c = .lt → compare a c = .lt
  | a, b, c, hab, hbc => by
    rcases sorts_of_compare hab hbc with hsort | ⟨hb, hc⟩
    · exact compare_of_sort_lt hsort
    · cases a with
      | null => cases b with
        | null => cases hab
        | _ => cases hb
      | tuple as => cases b with
        | tuple bs => cases c with
          | tuple cs => exact compareAll_trans as bs cs hab hbc
          | _ => cases hc
        | _ => cases hb
      | zset as => cases b with
        | zset bs => cases c with
          | zset cs => exact compareRows_trans as bs cs hab hbc
          | _ => cases hc
        | _ => cases hb
      | _ =>
        cases b <;> cases hb
        cases c <;> cases hc
        simp only [compare] at hab hbc ⊢
        exact Std.TransCmp.lt_trans hab hbc

theorem compareAll_trans : ∀ as bs cs : List Key,
    compareAll as bs = .lt → compareAll bs cs = .lt → compareAll as cs = .lt
  | [], [], _, hab, _ => by cases hab
  | [], _ :: _, [], _, hbc => by cases hbc
  | [], _ :: _, _ :: _, _, _ => rfl
  | _ :: _, [], _, hab, _ => by cases hab
  | _ :: _, _ :: _, [], _, hbc => by cases hbc
  | a :: as, b :: bs, c :: cs, hab, hbc => by
    rw [compareAll, Ordering.then_eq_lt, compare_eq_iff] at hab hbc ⊢
    rcases hab with hab | ⟨rfl, hab⟩
    · rcases hbc with hbc | ⟨rfl, -⟩
      · exact .inl (compare_trans a b c hab hbc)
      · exact .inl hab
    · exact hbc.imp_right fun ⟨hac, hbc⟩ => ⟨hac, compareAll_trans as bs cs hab hbc⟩

theorem compareRows_trans : ∀ as bs cs : List (Key × Int64),
    compareRows as bs = .lt → compareRows bs cs = .lt → compareRows as cs = .lt
  | [], [], _, hab, _ => by cases hab
  | [], _ :: _, [], _, hbc => by cases hbc
  | [], _ :: _, _ :: _, _, _ => rfl
  | _ :: _, [], _, hab, _ => by cases hab
  | _ :: _, _ :: _, [], _, hbc => by cases hbc
  | (a, m) :: as, (b, n) :: bs, (c, o) :: cs, hab, hbc => by
    simp only [compareRows, Ordering.then_eq_lt, Ordering.then_eq_eq, compare_eq_iff,
      Std.compare_eq_iff_eq] at hab hbc ⊢
    rcases hab with (hab | ⟨rfl, hmn⟩) | ⟨⟨rfl, hmn⟩, hab⟩
    · rcases hbc with (hbc | ⟨rfl, -⟩) | ⟨⟨rfl, -⟩, -⟩
      · exact .inl (.inl (compare_trans a b c hab hbc))
      · exact .inl (.inl hab)
      · exact .inl (.inl hab)
    · rcases hbc with (hbc | ⟨rfl, hno⟩) | ⟨⟨rfl, hno⟩, -⟩
      · exact .inl (.inl hbc)
      · exact .inl (.inr ⟨rfl, Std.TransCmp.lt_trans hmn hno⟩)
      · exact .inl (.inr ⟨rfl, hno ▸ hmn⟩)
    · rw [hmn]
      exact hbc.imp_right fun ⟨hac, hbc⟩ => ⟨hac, compareRows_trans as bs cs hab hbc⟩

end

end Key

/-- A row of a greater key goes behind all others. -/
theorem Row.addWeight_of_ascending {α : Type} {key : Key} {element : α} {weight : Int64}
    {rows : List (Row α)} (hkey : ∀ row ∈ rows, row.key.compare key = .lt) (hw : weight ≠ 0) :
    addWeight key element weight rows = some (rows ++ [⟨key, element, weight⟩]) := by
  induction rows with
  | nil => simp [addWeight, hw]
  | cons row rows ih =>
    have hgt : key.compare row.key = .gt := Key.compare_eq_gt_of_lt (hkey row List.mem_cons_self)
    have hrest := ih fun r hr => hkey r (List.mem_cons_of_mem _ hr)
    rw [addWeight, hgt]
    simp [hrest]

/-- **Rows added in ascending order come out as they went in.** -/
theorem ZSet.addAll_of_ascending {z : ZSet Expr} {rows : List (Row Expr)}
    (hasc : (z.rows ++ rows).Pairwise fun a b => a.key.compare b.key = .lt)
    (hkeyed : ∀ row ∈ rows, row.element.key = .ok row.key)
    (htyped : ∀ row ∈ rows, row.element.ty = z.elementTy)
    (hnonzero : ∀ row ∈ rows, row.weight ≠ 0) :
    z.addAll (rows.map fun row => (row.element, row.weight)) =
      ({ z with rows := z.rows ++ rows }, none) := by
  induction rows generalizing z with
  | nil => simp [addAll]
  | cons row rows ih =>
    have hbehind : ∀ r ∈ z.rows, r.key.compare row.key = .lt := fun r hr =>
      (List.pairwise_append.mp hasc).2.2 r hr row List.mem_cons_self
    have hadd : z.add row.element row.weight = ({ z with rows := z.rows ++ [row] }, none) := by
      simp [add, htyped row List.mem_cons_self, hkeyed row List.mem_cons_self,
        Row.addWeight_of_ascending hbehind (hnonzero row List.mem_cons_self)]
    have hrest := ih (z := { z with rows := z.rows ++ [row] }) (by simpa using hasc)
      (fun r hr => hkeyed r (List.mem_cons_of_mem _ hr))
      (fun r hr => htyped r (List.mem_cons_of_mem _ hr))
      (fun r hr => hnonzero r (List.mem_cons_of_mem _ hr))
    rw [List.map_cons, addAll, hadd]
    simpa using hrest

end FlowCircuit
