import FlowCircuit.Proofs.Obtained
import FlowCircuit.Proofs.Weights

/-!
# Merging is the sum of a commutative group, as far as words reach

The Z-sets of one declared type add up like the functions they stand for.  Merging asks for a sum at
each key in turn, so its success does not depend on which of the two Z-sets goes into the other, and
its result is determined by the sums.  What words take away is totality: a sum may be no word, and
then neither order succeeds; of two groupings of three Z-sets one may succeed and the other not, but
where both do they agree.

The laws are those of integers, carried over by `ZSet.same_iff_weightAt`.
-/

set_option autoImplicit false

namespace FlowCircuit

namespace ZSet

variable {a b c ab ba bc n z left right : ZSet Expr}

/-- What a merge gives is well formed and of the declared type. -/
theorem WellFormed.merged (ha : a.WellFormed) (hb : b.WellFormed) (h : a.merge b = (ab, none)) :
    ab.WellFormed ∧ ab.ty = a.ty := by
  have hwell := ha.merge hb
  have hty := ty_merge a b
  rw [h] at hwell hty
  exact ⟨hwell, hty⟩

theorem merge_comm_iff (ha : a.WellFormed) (hb : b.WellFormed) (hty : a.ty = b.ty) :
    (a.merge b).2 = none ↔ (b.merge a).2 = none := by
  rw [merge_iff ha hb hty, merge_iff hb ha hty.symm]
  refine forall_congr' fun key => ?_
  rw [Int.add_comm]

theorem same_merge_comm (ha : a.WellFormed) (hb : b.WellFormed) (hty : a.ty = b.ty)
    (hab : a.merge b = (ab, none)) (hba : b.merge a = (ba, none)) : ab.same ba = true := by
  obtain ⟨hwell, htyab⟩ := ha.merged hb hab
  obtain ⟨hwell', htyba⟩ := hb.merged ha hba
  refine (same_iff_weightAt hwell hwell').mpr ⟨?_, fun key => ?_⟩
  · rw [htyab, htyba, hty]
  · rw [weightAt_merge hb hty hab, weightAt_merge ha hty.symm hba, Int.add_comm]

theorem same_merge_assoc (ha : a.WellFormed) (hb : b.WellFormed) (hc : c.WellFormed)
    (htyab : a.ty = b.ty) (htybc : b.ty = c.ty) (hab : a.merge b = (ab, none))
    (hleft : ab.merge c = (left, none)) (hbc : b.merge c = (bc, none))
    (hright : a.merge bc = (right, none)) : left.same right = true := by
  obtain ⟨hwellab, hab'⟩ := ha.merged hb hab
  obtain ⟨hwellbc, hbc'⟩ := hb.merged hc hbc
  obtain ⟨hwell, hleft'⟩ := hwellab.merged hc hleft
  obtain ⟨hwell', hright'⟩ := ha.merged hwellbc hright
  have htyc : ab.ty = c.ty := by rw [hab', htyab, htybc]
  have htya : a.ty = bc.ty := by rw [hbc', htyab]
  refine (same_iff_weightAt hwell hwell').mpr ⟨?_, fun key => ?_⟩
  · rw [hleft', hright', hab']
  · rw [weightAt_merge hc htyc hleft, weightAt_merge hb htyab hab,
      weightAt_merge hwellbc htya hright, weightAt_merge hc htybc hbc, Int.add_assoc]

/-! ## The neutral element -/

theorem merge_of_rows (hty : a.ty = z.ty) (hrows : z.rows = []) : a.merge z = (a, none) := by
  rw [merge_of_ty hty, entries, hrows]
  rfl

theorem eq_of_ty_of_rows (hty : a.ty = b.ty) (hrows : a.rows = b.rows) : a = b := by
  obtain ⟨hElement, hWeight, hnullable⟩ := Ty.zset.inj hty
  cases a
  cases b
  simp_all

/-- The rows of a Z-set, added in their order to none, come out as they are. -/
theorem merge_into_rows (ha : a.WellFormed) (hty : z.ty = a.ty) (hrows : z.rows = []) :
    z.merge a = (a, none) := by
  have hascending : (z.rows ++ a.rows).Pairwise fun x y => x.key.compare y.key = .lt := by
    rw [hrows]
    exact ha.ascending
  have htyped : ∀ row ∈ a.rows, row.element.ty = z.elementTy := fun row hrow =>
    (ha.typed row hrow).trans (Ty.zset.inj hty).1.symm
  rw [merge_of_ty hty, entries, addAll_of_ascending hascending ha.keyed htyped ha.nonzero]
  refine congrArg (·, none) (eq_of_ty_of_rows hty ?_)
  rw [hrows]
  rfl

/-! ## Opposites -/

theorem rows_eq_nil (hz : z.WellFormed) (h : ∀ key, z.weightAt key = 0) : z.rows = [] := by
  by_contra hne
  obtain ⟨row, hrow⟩ := List.exists_mem_of_ne_nil _ hne
  refine hz.nonzero row hrow (Int64.toInt_inj.mp ?_)
  rw [← hz.weightAt_of_mem hrow, h]
  rfl

/-- A Z-set and its opposite cancel. -/
theorem merge_negate (ha : a.WellFormed) (hn : a.negate = .ok n) :
    a.merge n = ({ a with rows := [] }, none) := by
  have hwell := ha.negate hn
  have hty := (ty_negate hn).symm
  have hsums (key : Key) : a.weightAt key + n.weightAt key = 0 := by
    rw [weightAt_negate hn, Int.add_right_neg]
  have hnone : (a.merge n).2 = none := by
    rw [merge_iff ha hwell hty]
    intro key
    rw [hsums]
    exact Word.inRange_zero
  obtain ⟨z, hmerge⟩ : ∃ z, a.merge n = (z, none) := ⟨_, Prod.ext rfl hnone⟩
  obtain ⟨hz, hzty⟩ := ha.merged hwell hmerge
  rw [hmerge, eq_of_ty_of_rows (b := { a with rows := [] }) hzty]
  refine rows_eq_nil hz fun key => ?_
  rw [weightAt_merge hwell hty hmerge, hsums]

/-- The opposite has an opposite, which is the Z-set itself. -/
theorem negate_negate (ha : a.WellFormed) (hn : a.negate = .ok n) :
    ∃ m, n.negate = .ok m ∧ m.same a = true := by
  have hwell := ha.negate hn
  have hopposite : ∀ row ∈ n.rows, row.weight ≠ Int64.minValue := by
    intro row hrow
    rw [← Word.inRange_neg_iff, ← hwell.weightAt_of_mem hrow, weightAt_negate hn, Int.neg_neg]
    exact ha.inRange_weightAt row.key
  obtain ⟨m, hm⟩ := (negate_iff n).mpr hopposite
  refine ⟨m, hm, (same_iff_weightAt (hwell.negate hm) ha).mpr ⟨?_, fun key => ?_⟩⟩
  · rw [ty_negate hm, ty_negate hn]
  · rw [weightAt_negate hm, weightAt_negate hn, Int.neg_neg]

/-! ## The laws -/

theorem Reached.wellFormed (h : z.Reached Expr.Obtained) : z.WellFormed :=
  (h.wellFormedOver fun _ he => he.wellTyped).toWellFormed

/-- **Merging is the sum of a commutative group**, as far as words reach: for Z-sets of one declared
type, the order does not matter, nor does the grouping, an empty Z-set changes nothing, and merging
the opposite takes everything away.  A Z-set has an opposite exactly when none of its weights is the
least word. -/
theorem merge_commutative_group (ha : a.Reached Expr.Obtained) (hb : b.Reached Expr.Obtained)
    (hc : c.Reached Expr.Obtained) (hab : a.ty = b.ty) (hbc : b.ty = c.ty) :
    (((a.merge b).2 = none ↔ (b.merge a).2 = none) ∧
      ∀ ab ba, a.merge b = (ab, none) → b.merge a = (ba, none) → ab.same ba = true) ∧
    (∀ ab bc left right, a.merge b = (ab, none) → ab.merge c = (left, none) →
      b.merge c = (bc, none) → a.merge bc = (right, none) → left.same right = true) ∧
    (∀ zero : ZSet Expr, zero.ty = a.ty → zero.rows = [] →
      a.merge zero = (a, none) ∧ zero.merge a = (a, none)) ∧
    ((∃ n, a.negate = .ok n) ↔ ∀ row ∈ a.rows, row.weight ≠ Int64.minValue) ∧
    ∀ n, a.negate = .ok n →
      a.merge n = ({ a with rows := [] }, none) ∧ ∃ m, n.negate = .ok m ∧ m.same a = true := by
  have ha := ha.wellFormed
  have hb := hb.wellFormed
  have hc := hc.wellFormed
  refine ⟨⟨merge_comm_iff ha hb hab, fun _ _ => same_merge_comm ha hb hab⟩, ?_, ?_,
    negate_iff a, ?_⟩
  · intro ab bc left right
    exact same_merge_assoc ha hb hc hab hbc
  · intro zero hty hrows
    exact ⟨merge_of_rows hty.symm hrows, merge_into_rows ha hty hrows⟩
  · intro n hn
    exact ⟨merge_negate ha hn, negate_negate ha hn⟩

theorem Reached.addAll {P : Expr → Prop} (hz : z.Reached P) {entries : List (Expr × Int64)}
    (h : ∀ entry ∈ entries, P entry.1) : (z.addAll entries).1.Reached P := by
  induction entries generalizing z with
  | nil => exact hz
  | cons entry entries ih =>
    obtain ⟨hentry, hrest⟩ := List.forall_mem_cons.mp h
    rw [ZSet.addAll]
    split
    case h_1 z' e hadd => exact hz.add hentry hadd
    case h_2 z' hadd => exact ih (hz.add hentry hadd) hrest

end ZSet

namespace Sample

/-- A Z-set of numbers. -/
def numbers (weights : List (Nat × Int64)) : ZSet Expr :=
  ((ZSet.empty (Ty.int32 false)).addAll
    (weights.map fun entry => (Expr.int32 entry.1 (Int32.ofNat entry.1), entry.2))).1

theorem ty_numbers (weights : List (Nat × Int64)) :
    (numbers weights).ty = Ty.zsetOf (Ty.int32 false) Ty.defaultWeight :=
  ZSet.ty_addAll _ _

theorem reached_numbers (weights : List (Nat × Int64)) :
    (numbers weights).Reached Expr.Obtained := by
  refine (ZSet.Reached.empty _).addAll fun entry hentry => ?_
  obtain ⟨_, -, rfl⟩ := List.mem_map.mp hentry
  exact .int32 _ _

/-- The greatest weight there is. -/
def most : ZSet Expr := numbers [(1, 9223372036854775807)]

/-- Numbers of which the first has a negative weight. -/
def less : ZSet Expr := numbers [(1, -1), (2, 7)]

/-- Numbers of which the first cancels that weight. -/
def more : ZSet Expr := numbers [(1, 1), (2, 3)]

end Sample

open Sample in
/-- The sums in the second grouping cancel the number one, which the first one leaves at the
greatest word. -/
theorem ZSet.merge_commutative_group_numbers :
    most.ty = less.ty ∧ less.ty = more.ty ∧ (less.merge more).1.size = 1 ∧
      ((most.merge less).1.merge more).1.same (most.merge (less.merge more).1).1 = true := by
  have htys : most.ty = less.ty ∧ less.ty = more.ty :=
    ⟨(ty_numbers _).trans (ty_numbers _).symm, (ty_numbers _).trans (ty_numbers _).symm⟩
  have hmost : most.merge less = ((most.merge less).1, none) := Prod.ext rfl (by decide +kernel)
  have hleft : (most.merge less).1.merge more = (((most.merge less).1.merge more).1, none) :=
    Prod.ext rfl (by decide +kernel)
  have hless : less.merge more = ((less.merge more).1, none) := Prod.ext rfl (by decide +kernel)
  have hright : most.merge (less.merge more).1 = ((most.merge (less.merge more).1).1, none) :=
    Prod.ext rfl (by decide +kernel)
  have hgroup := merge_commutative_group (reached_numbers _) (reached_numbers _) (reached_numbers _)
    htys.1 htys.2
  exact ⟨htys.1, htys.2, by decide +kernel, hgroup.2.1 _ _ _ _ hmost hleft hless hright⟩

end FlowCircuit
