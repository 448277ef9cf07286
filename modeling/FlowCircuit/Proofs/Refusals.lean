import FlowCircuit.Proofs.ZSetRuns
import FlowCircuit.Proofs.Lookup

/-!
# What a refused call leaves behind

An addition to a Z-set that is refused changes nothing.  A merge is a run of additions, one for each
row of the other Z-set in the order of the keys, and the run ends at the first one that is refused.
So a merge can leave a Z-set that is neither what it was nor what it should have become.

What it leaves is described key by key.  `Row.merged` is the row that merging two rows gives, and
`ZSet.WellFormed.row?_addAll` says that a run of additions in ascending order gives that row at
every key.  The first addition to be refused is at the least key where the sum of two weights is no
word (`ZSet.Overflows`).  Below that key everything has been merged, and from it on nothing has been
touched (`ZSet.left_by_refusals`).
-/

set_option autoImplicit false

namespace FlowCircuit

/-! ## Merging two rows -/

namespace Row

variable {α : Type} {key : Key} {element : α} {weight : Int64} {rows rows' : List (Row α)}

/-- The row at a key after merging: the element that was there stays, the weights add up, and a sum
of zero leaves no row. -/
def merged : Option (Row α) → Option (Row α) → Option (Row α)
  | none, other => other
  | some row, none => some row
  | some row, some other => (Word.add? row.weight other.weight).bind fun sum =>
    if sum = 0 then none else some ⟨row.key, row.element, sum⟩

@[simp]
theorem merged_none_left (other : Option (Row α)) : merged none other = other := rfl

@[simp]
theorem merged_none_right (row : Option (Row α)) : merged row none = row := by
  cases row <;> rfl

theorem at?_written {new : Row α} (hrows : ∀ row ∈ rows, row.key ≠ new.key) (k : Key) :
    at? k (written new rows) =
      if new.key = k then (if new.weight = 0 then none else some new) else at? k rows := by
  rw [written]
  by_cases hkey : new.key = k
  · subst hkey
    have hnone : at? new.key rows = none := at?_eq_none_iff.mpr hrows
    by_cases hzero : new.weight = 0 <;> simp [hzero, hnone, at?_cons]
  · by_cases hzero : new.weight = 0 <;> simp [hzero, hkey, at?_cons]

theorem key_ne_of_lt (h : ∀ row ∈ rows, row.key.compare key = .lt) :
    ∀ row ∈ rows, row.key ≠ key := by
  rintro row hrow rfl
  have hlt := h row hrow
  rw [Key.compare_self] at hlt
  cases hlt

/-- Adding a weight merges it into the row at the key, and touches no other row. -/
theorem Change.at? (h : Change key element weight rows rows')
    (hrows : rows.Pairwise fun a b => a.key.compare b.key = .lt) (hweight : weight ≠ 0) (k : Key) :
    at? k rows' = if key = k then merged (Row.at? k rows) (some ⟨key, element, weight⟩)
      else Row.at? k rows := by
  have hrows' := h.ascending hrows
  cases h with
  | new before after hbefore hafter =>
    have hnone : Row.at? key before = none := at?_eq_none_iff.mpr (key_ne_of_lt hbefore)
    have hne : ∀ row ∈ after, row.key ≠ key := by
      rw [written, if_neg hweight] at hrows'
      exact key_ne_of_ascending (List.pairwise_append.mp hrows').2.1
    rw [at?_append, at?_append, at?_written hne]
    by_cases hk : key = k
    · subst hk
      simp [hnone, hweight, at?_eq_none_iff.mpr hne]
    · simp [hk]
  | @old before after row sum hbefore hkey hsum =>
    subst hkey
    have hnone : Row.at? row.key before = none := at?_eq_none_iff.mpr (key_ne_of_lt hbefore)
    have hbehind := key_ne_of_ascending (List.pairwise_append.mp hrows).2.1
    have hne : ∀ other ∈ after, other.key ≠ (⟨row.key, row.element, sum⟩ : Row α).key := hbehind
    rw [at?_append, at?_append, at?_written hne, at?_cons]
    by_cases hk : row.key = k
    · subst hk
      simp [hnone, merged, hsum]
    · simp [hk]

end Row

namespace ZSet

/-! ## Additions in ascending order -/

section Additions

variable {z z' : ZSet Expr} {element : Expr} {weight : Int64} {key : Key} {error : Error}
  {rows : List (Row Expr)}

theorem WellFormed.weightAt_of_row? (hz : z.WellFormed) {row : Row Expr}
    (h : z.row? key = some row) : z.weightAt key = row.weight.toInt := by
  obtain ⟨hrow, rfl⟩ := hz.row?_eq_some_iff.mp h
  exact hz.weightAt_of_mem hrow

theorem weightAt_of_row?_eq_none (h : z.row? key = none) : z.weightAt key = 0 :=
  weightAt_eq_zero (Row.at?_eq_none_iff.mp h)

/-- What is at a key decides its weight. -/
theorem WellFormed.weightAt_congr (hz : z.WellFormed) (hz' : z'.WellFormed)
    (h : z'.row? key = z.row? key) : z'.weightAt key = z.weightAt key := by
  cases hrow : z.row? key with
  | none => rw [weightAt_of_row?_eq_none hrow, weightAt_of_row?_eq_none (h.trans hrow)]
  | some row => rw [hz.weightAt_of_row? hrow, hz'.weightAt_of_row? (h.trans hrow)]

theorem WellFormed.row?_add (hz : z.WellFormed) (h : z.add element weight = (z', none))
    (hkey : element.key = .ok key) (hweight : weight ≠ 0) (k : Key) :
    z'.row? k =
      if key = k then Row.merged (z.row? k) (some ⟨key, element, weight⟩) else z.row? k := by
  obtain ⟨-, key', rows, hkey', hrows, rfl⟩ := add_accepted_iff.mp h
  obtain rfl : key = key' := Except.ok.inj (hkey.symm.trans hkey')
  exact (Row.change_of_addWeight hrows).at? hz.ascending hweight k

theorem WellFormed.addAll (hz : z.WellFormed) (entries : List (Expr × Int64)) :
    (z.addAll entries).1.WellFormed := by
  have hover : z.WellFormedOver fun _ => True := ⟨hz, fun _ _ => trivial⟩
  exact (hover.addAll fun _ _ => trivial).toWellFormed

/-- **Rows added in ascending order are merged key by key.** -/
theorem WellFormed.row?_addAll (hz : z.WellFormed)
    (hrows : rows.Pairwise fun a b => a.key.compare b.key = .lt)
    (hkeyed : ∀ row ∈ rows, row.element.key = .ok row.key) (hnonzero : ∀ row ∈ rows, row.weight ≠ 0)
    (h : z.addAll (rows.map fun row => (row.element, row.weight)) = (z', none)) (k : Key) :
    z'.row? k = Row.merged (z.row? k) (Row.at? k rows) := by
  induction rows generalizing z with
  | nil =>
    cases h
    simp
  | cons row rows ih =>
    obtain ⟨hkey, hkeyed⟩ := List.forall_mem_cons.mp hkeyed
    obtain ⟨hweight, hnonzero⟩ := List.forall_mem_cons.mp hnonzero
    rw [List.map_cons, ZSet.addAll] at h
    split at h
    · cases h
    case h_2 z₁ hadd =>
      rw [ih (hz.add hadd) hrows.of_cons hkeyed hnonzero h, hz.row?_add hadd hkey hweight,
        Row.at?_cons]
      by_cases hk : row.key = k
      · -- The rows that follow have other keys.
        subst hk
        simp [Row.at?_eq_none_iff.mpr (Row.key_ne_of_ascending hrows)]
      · simp [hk]

/-- A constant of the element type is refused for one reason only. -/
theorem WellFormed.add_eq_error (hz : z.WellFormed) (hty : element.ty = z.elementTy)
    (hkey : element.key = .ok key) (h : z.add element weight = (z', some error)) :
    error = .violation (.overflowAdding weight element) ∧
      ¬Word.InRange (z.weightAt key + weight.toInt) := by
  constructor
  · rw [ZSet.add, hty, hkey] at h
    simp only [Ty.same_refl, Bool.not_true, Bool.false_eq_true, if_false] at h
    split at h
    · exact (Option.some.inj (Prod.mk.inj h).2).symm
    · cases h
  · rw [← hz.exists_add_iff weight hty hkey, h]
    rintro ⟨z', hadd⟩
    cases hadd

/-- A run of additions that is refused ends at the first addition that is. -/
theorem addAll_refused
    (h : z.addAll (rows.map fun row => (row.element, row.weight)) = (z', some error)) :
    ∃ before row after, rows = before ++ row :: after ∧
      z.addAll (before.map fun row => (row.element, row.weight)) = (z', none) ∧
      z'.add row.element row.weight = (z', some error) := by
  induction rows generalizing z with
  | nil => cases h
  | cons row rows ih =>
    rw [List.map_cons, addAll] at h
    split at h
    case h_1 z₁ e hadd =>
      cases h
      obtain rfl := add_refused hadd
      exact ⟨[], row, rows, rfl, rfl, hadd⟩
    case h_2 z₁ hadd =>
      obtain ⟨before, refused, after, rfl, hbefore, hrefused⟩ := ih h
      refine ⟨row :: before, refused, after, rfl, ?_, hrefused⟩
      rw [List.map_cons, addAll, hadd]
      exact hbefore

end Additions

/-! ## Merges -/

section Merges

variable {a b a' : ZSet Expr} {key : Key} {error : Error}

/-- Both Z-sets have a row at the key, and the sum of the two weights is no word. -/
def Overflows (a b : ZSet Expr) (key : Key) : Prop :=
  ∃ row other, a.row? key = some row ∧ b.row? key = some other ∧
    ¬Word.InRange (row.weight.toInt + other.weight.toInt)

theorem overflows_iff (ha : a.WellFormed) (hb : b.WellFormed) :
    a.Overflows b key ↔ ¬Word.InRange (a.weightAt key + b.weightAt key) := by
  constructor
  · rintro ⟨row, other, hrow, hother, hsum⟩
    rw [ha.weightAt_of_row? hrow, hb.weightAt_of_row? hother]
    exact hsum
  · intro h
    -- A weight alone is a word, so there are two of them.
    cases hrow : a.row? key with
    | none =>
      rw [weightAt_of_row?_eq_none hrow, Int.zero_add] at h
      exact absurd (hb.inRange_weightAt key) h
    | some row =>
      cases hother : b.row? key with
      | none =>
        rw [weightAt_of_row?_eq_none hother, Int.add_zero] at h
        exact absurd (ha.inRange_weightAt key) h
      | some other =>
        rw [ha.weightAt_of_row? hrow, hb.weightAt_of_row? hother] at h
        exact ⟨row, other, hrow, hother, h⟩

theorem merge_refused_iff (ha : a.WellFormed) (hb : b.WellFormed) (hty : a.ty = b.ty) :
    (a.merge b).2 ≠ none ↔ ∃ key, a.Overflows b key := by
  simp only [overflows_iff ha hb, ne_eq, merge_iff ha hb hty, not_forall]

theorem merge_of_ty_ne (h : a.ty ≠ b.ty) :
    a.merge b = (a, some (.mismatch .zsetMerge a.ty b.ty)) := by
  have hsame : a.ty.same b.ty = false := by
    rw [Bool.eq_false_iff, ne_eq, Ty.same_iff]
    exact h
  simp [merge, hsame]

/-- The rows before one in ascending order are those at lesser keys. -/
theorem WellFormed.at?_before (hb : b.WellFormed) {before after : List (Row Expr)} {row : Row Expr}
    (hrows : b.rows = before ++ row :: after) (k : Key) :
    Row.at? k before = if k.compare row.key = .lt then b.row? k else none := by
  have hascending := hb.ascending
  rw [hrows] at hascending
  obtain ⟨-, hbehind, hcross⟩ := List.pairwise_append.mp hascending
  split
  case isTrue hlt =>
    have hnone : Row.at? k (row :: after) = none := by
      refine Row.at?_eq_none_iff.mpr ?_
      rintro other hother rfl
      have hgt : row.key.compare other.key = .lt ∨ row.key = other.key := by
        rcases List.mem_cons.mp hother with rfl | hmem
        · exact .inr rfl
        · exact .inl (List.rel_of_pairwise_cons hbehind hmem)
      rcases hgt with hgt | heq
      · rw [Key.compare_eq_gt_of_lt hgt] at hlt
        cases hlt
      · rw [heq, Key.compare_self] at hlt
        cases hlt
    rw [row?, hrows, Row.at?_append, hnone, Option.or_none]
  case isFalse hlt =>
    refine Row.at?_eq_none_iff.mpr ?_
    rintro other hother rfl
    exact hlt (hcross other hother row List.mem_cons_self)

/-- **A refused merge stops at the least key where weights overflow.**  Below it everything has been
merged, and from it on nothing has been touched. -/
theorem WellFormed.merge_refused (ha : a.WellFormed) (hb : b.WellFormed) (hty : a.ty = b.ty)
    (h : a.merge b = (a', some error)) :
    ∃ key entry, a.Overflows b key ∧ (∀ other, a.Overflows b other → key.compare other ≠ .gt) ∧
      b.row? key = some entry ∧ error = .violation (.overflowAdding entry.weight entry.element) ∧
      ∀ k, a'.row? k =
        if k.compare key = .lt then Row.merged (a.row? k) (b.row? k) else a.row? k := by
  rw [merge_of_ty hty] at h
  obtain ⟨before, entry, after, hrows, hbefore, hentry⟩ := addAll_refused h
  have hmem : entry ∈ b.rows := by simp [hrows]
  have hsub : ∀ row ∈ before, row ∈ b.rows := fun row hrow => by simp [hrows, hrow]
  have hascending := hb.ascending
  rw [hrows] at hascending
  obtain ⟨hfront, hbehind, hcross⟩ := List.pairwise_append.mp hascending
  have htyped : ∀ row ∈ b.rows, row.element.ty = a.elementTy := fun row hrow =>
    (hb.typed row hrow).trans (Ty.zset.inj hty).1.symm
  have hview := ha.row?_addAll hfront (fun row hrow => hb.keyed row (hsub row hrow))
    (fun row hrow => hb.nonzero row (hsub row hrow)) hbefore
  simp only [hb.at?_before hrows] at hview
  -- What was added before is at other keys, so the sum that overflowed is one of the two weights.
  have hwell' := ha.addAll (before.map fun row => (row.element, row.weight))
  have hty' := ty_addAll a (before.map fun row => (row.element, row.weight))
  rw [hbefore] at hwell' hty'
  obtain ⟨herror, hsum⟩ := hwell'.add_eq_error
    ((htyped entry hmem).trans (Ty.zset.inj hty').1.symm) (hb.keyed entry hmem) hentry
  have hold : a'.row? entry.key = a.row? entry.key := by
    rw [hview]
    simp [Key.compare_self]
  refine ⟨entry.key, entry, ?_, ?_, hb.row?_eq_some_iff.mpr ⟨hmem, rfl⟩, herror, fun k => ?_⟩
  · rw [overflows_iff ha hb, hb.weightAt_of_mem hmem, ← ha.weightAt_congr hwell' hold]
    exact hsum
  · intro other hother hgt
    obtain ⟨row, entry', hrow, hentry', hsum'⟩ := hother
    -- A lesser key would be among the rows that were added.
    have hlt : other.compare entry.key = .lt := by
      rw [← Key.compare_swap, hgt]
      rfl
    have hfound := hb.at?_before hrows other
    rw [if_pos hlt, hentry'] at hfound
    obtain ⟨hadded, rfl⟩ := (Row.at?_eq_some_iff hfront).mp hfound
    have hsums := (ha.addAll_rows_iff hfront (fun row hrow => hb.keyed row (hsub row hrow))
      fun row hrow => htyped row (hsub row hrow)).mp (congrArg Prod.snd hbefore)
    refine hsum' ?_
    rw [← ha.weightAt_of_row? hrow]
    exact hsums entry' hadded
  · rw [hview k]
    split <;> simp

end Merges

/-! ## Calls -/

/-- **What a refused call leaves behind.**  Two Z-sets of a program are in the places `i` and `j`.
An addition to the first that is refused leaves everything as it was.  Merging the second into the
first is refused when the declared types differ, and then nothing changes.  Otherwise it is refused
exactly when at some key the sum of the two weights is no word.  The error then names the entry of
the second Z-set at the least such key; the first Z-set has been merged below that key and is as it
was from there on, and no other Z-set has changed. -/
theorem left_by_refusals {calls : List Call} {i j : Nat} {a b : ZSet Expr} (hij : i ≠ j)
    (hi : (run calls)[i]? = some a) (hj : (run calls)[j]? = some b) :
    (∀ element weight error, (a.add element weight).2 = some error →
      (a.add element weight).1 = a ∧ (Call.add i element weight).exec (run calls) = run calls) ∧
    (a.ty ≠ b.ty → (a.merge b).2 = some (.mismatch .zsetMerge a.ty b.ty) ∧
      (Call.merge i j).exec (run calls) = run calls) ∧
    (a.ty = b.ty → ((a.merge b).2 ≠ none ↔ ∃ key, a.Overflows b key) ∧
      ∀ error, (a.merge b).2 = some error → ∃ key entry a',
        a.Overflows b key ∧ (∀ other, a.Overflows b other → key.compare other ≠ .gt) ∧
        b.row? key = some entry ∧ error = .violation (.overflowAdding entry.weight entry.element) ∧
        (∀ k, a'.row? k =
          if k.compare key = .lt then Row.merged (a.row? k) (b.row? k) else a.row? k) ∧
        a'.ty = a.ty ∧ a'.WellFormed ∧ (Call.merge i j).exec (run calls) = (run calls).set i a' ∧
        ((Call.merge i j).exec (run calls))[j]? = some b) := by
  have ha := run_wellFormed calls a (List.mem_of_getElem? hi)
  have hb := run_wellFormed calls b (List.mem_of_getElem? hj)
  have hset {f : ZSet Expr → ZSet Expr} : (run calls).modify i f = (run calls).set i (f a) := by
    rw [List.modify_eq_set_getElem?, hi]
    rfl
  have hself : (run calls).set i a = run calls := by
    obtain ⟨hlt, rfl⟩ := List.getElem?_eq_some_iff.mp hi
    exact List.set_getElem_self hlt
  have hmerge : (Call.merge i j).exec (run calls) = (run calls).set i (a.merge b).1 := by
    rw [Call.exec, hj]
    exact hset
  refine ⟨fun element weight error h => ?_, fun hty => ?_,
    fun hty => ⟨merge_refused_iff ha hb hty, ?_⟩⟩
  · have hsame : (a.add element weight).1 = a := add_refused (Prod.ext rfl h)
    rw [Call.exec, hset, hsame]
    exact ⟨rfl, hself⟩
  · rw [hmerge, merge_of_ty_ne hty]
    exact ⟨rfl, hself⟩
  · intro error herror
    obtain ⟨key, entry, hoverflows, hleast, hentry, hname, hrows⟩ :=
      ha.merge_refused hb hty (Prod.ext rfl herror : a.merge b = ((a.merge b).1, some error))
    refine ⟨key, entry, _, hoverflows, hleast, hentry, hname, hrows, ty_merge a b, ha.merge hb,
      hmerge, ?_⟩
    rw [hmerge, List.getElem?_set_ne hij]
    exact hj

end ZSet

namespace Sample

/-- Two Z-sets of numbers: at one the weights cancel, at two they overflow, and at three they do
not. -/
def overflowing : List ZSet.Call :=
  [.empty (Ty.int32 false), .add 0 (.int32 0 1) 3, .add 0 (.int32 1 2) 9223372036854775807,
    .add 0 (.int32 2 3) 4, .empty (Ty.int32 false), .add 1 (.int32 3 1) (-3), .add 1 (.int32 4 2) 1,
    .add 1 (.int32 5 3) 1]

/-- The Z-set in a place after these calls. -/
def held (place : Nat) : ZSet Expr :=
  (ZSet.run overflowing)[place]?.getD (ZSet.empty (Ty.int32 false))

theorem getElem?_overflowing {place : Nat} (h : (ZSet.run overflowing)[place]?.isSome = true) :
    (ZSet.run overflowing)[place]? = some (held place) := by
  obtain ⟨z, hz⟩ := Option.isSome_iff_exists.mp h
  rw [held, hz]
  rfl

end Sample

open Sample in
/-- Merging takes away the number one and stops at the number two, before it comes to three. -/
theorem ZSet.left_by_refusals_overflowing :
    (held 0).ty = (held 1).ty ∧ (∃ key entry, (held 0).Overflows (held 1) key ∧
      (held 1).row? key = some entry ∧ ((held 0).merge (held 1)).2 =
        some (.violation (.overflowAdding entry.weight entry.element))) ∧
      ((Call.merge 0 1).exec (run overflowing))[1]? = some (held 1) ∧
      (((Call.merge 0 1).exec (run overflowing)).map weights)[0]? =
        some [(.integer 2, 9223372036854775807), (.integer 3, 4)] := by
  have hty : (held 0).ty = (held 1).ty := by decide +kernel
  have hmerge : ((held 0).merge (held 1)).2.isSome = true := by decide +kernel
  have hplaces : (0 : Nat) ≠ 1 := by decide
  have hi : (run overflowing)[0]? = some (held 0) := getElem?_overflowing (by decide +kernel)
  have hj : (run overflowing)[1]? = some (held 1) := getElem?_overflowing (by decide +kernel)
  obtain ⟨error, herror⟩ := Option.isSome_iff_exists.mp hmerge
  obtain ⟨key, entry, a', hoverflows, -, hentry, hname, -, -, -, -, hother⟩ :=
    ((left_by_refusals hplaces hi hj).2.2 hty).2 error herror
  exact ⟨hty, ⟨key, entry, hoverflows, hentry, herror.trans (congrArg some hname)⟩, hother,
    by decide +kernel⟩

end FlowCircuit
