import FlowCircuit.Proofs.Sharing
import FlowCircuit.Proofs.ZSetGroup

/-!
# Z-sets in the course of a program

A program makes Z-sets and changes them in place, and some of its calls are refused.  `ZSet.run` is
such a program as a list of calls on numbered places.  A call that makes a Z-set puts it behind the
others; one that changes a Z-set leaves in its place what was reached, refused or not.

Whatever the calls are, every Z-set is well formed after each of them (`ZSet.run_wellFormed`).  And
the weights are right: after additions to an empty Z-set, the weight of a value is the exact sum of
the weights that were given to elements which are the same as it, and the size of the Z-set is the
number of different values whose sum is not zero.
-/

set_option autoImplicit false

namespace FlowCircuit

namespace ZSet

/-! ## Calls -/

/-- A call that makes a Z-set, or changes the one in a place. -/
inductive Call where
  | ofTy (ty : Ty)
  | empty (elementTy : Ty)
  | ofElements (elements : List Expr)
  | copy (place : Nat)
  | negate (place : Nat)
  | insert (place : Nat) (element : Expr)
  | add (place : Nat) (element : Expr) (weight : Int64)
  | merge (place other : Nat)

/-- A Z-set that was made is put behind the others. -/
def put (zs : List (ZSet Expr)) : Except Error (ZSet Expr) → List (ZSet Expr)
  | .ok z => zs ++ [z]
  | .error _ => zs

/-- The Z-sets after a call. -/
def Call.exec (zs : List (ZSet Expr)) : Call → List (ZSet Expr)
  | .ofTy ty => put zs (ZSet.ofTy ty)
  | .empty elementTy => zs ++ [ZSet.empty elementTy]
  | .ofElements elements => put zs (ZSet.ofElements elements)
  | .copy place => zs ++ zs[place]?.toList
  | .negate place =>
    match zs[place]? with
    | some z => put zs z.negate
    | none => zs
  | .insert place element => zs.modify place fun z => (z.insert element).1
  | .add place element weight => zs.modify place fun z => (z.add element weight).1
  | .merge place other =>
    match zs[other]? with
    | some other => zs.modify place fun z => (z.merge other).1
    | none => zs

/-- The Z-sets that there are after some calls. -/
def run (calls : List Call) : List (ZSet Expr) := calls.foldl Call.exec []

section Calls

variable {P : ZSet Expr → Prop} {zs : List (ZSet Expr)}

theorem forall_mem_put (hzs : ∀ z ∈ zs, P z) {outcome : Except Error (ZSet Expr)}
    (h : ∀ z, outcome = .ok z → P z) : ∀ z ∈ put zs outcome, P z := by
  cases outcome with
  | error => exact hzs
  | ok z => exact List.forall_mem_append.mpr ⟨hzs, List.forall_mem_singleton.mpr (h z rfl)⟩

theorem forall_mem_modify (hzs : ∀ z ∈ zs, P z) {f : ZSet Expr → ZSet Expr} (h : ∀ z, P z → P (f z))
    (place : Nat) : ∀ z ∈ zs.modify place f, P z := by
  intro z hz
  obtain ⟨i, hi, rfl⟩ := List.getElem_of_mem hz
  rw [List.getElem_modify]
  split
  · exact h _ (hzs _ (List.getElem_mem _))
  · exact hzs _ (List.getElem_mem _)

/-- **Every call leaves well-formed Z-sets**, also one that fails. -/
theorem Call.wellFormed (call : Call) (hzs : ∀ z ∈ zs, z.WellFormed) :
    ∀ z ∈ call.exec zs, z.WellFormed := by
  have hempty {z : ZSet Expr} (hrows : z.rows = []) : z.WellFormed :=
    (wellFormedOver_of_rows (P := fun _ => True) hrows).toWellFormed
  have hplace {i : Nat} {z : ZSet Expr} (h : zs[i]? = some z) : z.WellFormed :=
    hzs z (List.mem_of_getElem? h)
  cases call with
  | ofTy ty => exact forall_mem_put hzs fun z hz => hempty (rows_of_ofTy hz)
  | empty elementTy =>
    exact List.forall_mem_append.mpr ⟨hzs, List.forall_mem_singleton.mpr (hempty rfl)⟩
  | ofElements elements =>
    exact forall_mem_put hzs fun z hz =>
      (WellFormedOver.ofElements (P := fun _ => True) (fun _ _ => trivial) hz).toWellFormed
  | copy place =>
    refine List.forall_mem_append.mpr ⟨hzs, fun z hz => ?_⟩
    exact hplace (Option.mem_toList.mp hz)
  | negate place =>
    rw [exec]
    split
    case h_1 z hz => exact forall_mem_put hzs fun z' hneg => (hplace hz).negate hneg
    · exact hzs
  | insert place element => exact forall_mem_modify hzs (fun z hz => hz.add rfl) place
  | add place element weight => exact forall_mem_modify hzs (fun z hz => hz.add rfl) place
  | merge place other =>
    rw [exec]
    split
    case h_1 other hother =>
      exact forall_mem_modify hzs (fun z hz => hz.merge (hplace hother)) place
    · exact hzs

/-- **Z-sets are well formed throughout a program.** -/
theorem run_wellFormed (calls : List Call) : ∀ z ∈ run calls, z.WellFormed := by
  have hfrom (zs : List (ZSet Expr)) (hzs : ∀ z ∈ zs, z.WellFormed) :
      ∀ z ∈ calls.foldl Call.exec zs, z.WellFormed := by
    induction calls generalizing zs with
    | nil => exact hzs
    | cons call calls ih => exact ih _ (call.wellFormed hzs)
  exact hfrom [] (List.forall_mem_nil _)

end Calls

/-! ## What additions add up to -/

section Sums

variable {start z : ZSet Expr} {entries : List (Expr × Int64)} {e : Expr}

/-- No two rows of a Z-set have one key. -/
theorem WellFormed.nodup_keys (hz : z.WellFormed) : (z.rows.map Row.key).Nodup := by
  refine List.pairwise_map.mpr (hz.ascending.imp fun {a b} hlt heq => ?_)
  rw [heq, Key.compare_self] at hlt
  cases hlt

theorem WellFormed.row_eq_of_key (hz : z.WellFormed) {row row' : Row Expr} (hrow : row ∈ z.rows)
    (hrow' : row' ∈ z.rows) (hkey : row.key = row'.key) : row = row' :=
  List.inj_on_of_nodup_map hz.nodup_keys hrow hrow' hkey

/-- The elements of a Z-set are different, so there are as many as rows. -/
theorem WellFormed.encard_elements (hz : z.WellFormed) : {e | e ∈ z.elements}.encard = z.size := by
  classical
  have hnodup : z.elements.Nodup := by
    refine List.Nodup.map_on (fun row hrow row' hrow' heq => ?_) hz.nodup_keys.of_map
    have hkey := hz.keyed row hrow
    rw [heq, hz.keyed row' hrow'] at hkey
    exact hz.row_eq_of_key hrow hrow' (Except.ok.inj hkey).symm
  have hset : {e | e ∈ z.elements} = (z.elements.toFinset : Set Expr) := by
    ext e
    simp
  rw [hset, Set.encard_coe_eq_coe_finsetCard, List.toFinset_card_of_nodup hnodup, elements,
    List.length_map]
  rfl

/-- The sum of the weights given to elements that are the same as `e`. -/
def total (entries : List (Expr × Int64)) (e : Expr) : Int :=
  ((entries.filter fun entry => entry.1.same e).map fun entry => entry.2.toInt).sum

theorem total_cons (entry : Expr × Int64) :
    total (entry :: entries) e =
      (if entry.1.same e = true then entry.2.toInt else 0) + total entries e := by
  rw [total, List.filter_cons]
  split <;> simp [total]

/-- What was added is constant, and of the element type. -/
theorem of_addAll (h : start.addAll entries = (z, none)) :
    ∀ entry ∈ entries, entry.1.ty = start.elementTy ∧ ∃ key, entry.1.key = .ok key := by
  induction entries generalizing start with
  | nil => exact List.forall_mem_nil _
  | cons entry entries ih =>
    rw [addAll] at h
    split at h
    · cases h
    case h_2 z₁ hadd =>
      obtain ⟨hty, key, _, hkey, -⟩ := add_accepted_iff.mp hadd
      have hrest := ih h
      rw [(Ty.zset.inj (ty_add hadd)).1] at hrest
      exact List.forall_mem_cons.mpr ⟨⟨hty, key, hkey⟩, hrest⟩

/-- Constants of one type with one key are the same. -/
theorem key_eq_iff_same {d e : Expr} {key : Key} (hd : d.WellTyped) (he : e.WellTyped)
    (hty : d.ty = e.ty) (hkey : e.key = .ok key) : d.key.toOption = some key ↔ d.same e = true := by
  constructor
  · intro h
    cases hdkey : d.key with
    | error =>
      rw [hdkey] at h
      cases h
    | ok k =>
      rw [hdkey] at h
      cases h
      exact Expr.same_of_key hd he hty hdkey hkey
  · intro h
    rw [Expr.key_eq_of_same (Expr.same_symm h) hkey]
    rfl

/-- The sum at a key is the sum over the class of an element with the key. -/
theorem sum_addedAt_eq_total {key : Key} (he : e.WellTyped) (hkey : e.key = .ok key)
    (hentries : ∀ entry ∈ entries, entry.1.WellTyped ∧ entry.1.ty = e.ty) :
    (entries.map (addedAt key)).sum = total entries e := by
  induction entries with
  | nil => rfl
  | cons entry entries ih =>
    obtain ⟨⟨hwell, hty⟩, hrest⟩ := List.forall_mem_cons.mp hentries
    rw [List.map_cons, List.sum_cons, ih hrest, total_cons, addedAt,
      if_congr (key_eq_iff_same hwell he hty hkey) rfl rfl]

/-- No element that was added is the same as one that is not constant. -/
theorem total_eq_zero (h : ∀ entry ∈ entries, ¬entry.1.same e = true) : total entries e = 0 := by
  induction entries with
  | nil => rfl
  | cons entry entries ih =>
    obtain ⟨hentry, hrest⟩ := List.forall_mem_cons.mp h
    rw [total_cons, if_neg hentry, ih hrest, Int.add_zero]

/-- An empty Z-set to which elements were added, all of them successfully. -/
structure Filled (start : ZSet Expr) (entries : List (Expr × Int64)) (z : ZSet Expr) : Prop where
  rows : start.rows = []
  wellTyped : ∀ entry ∈ entries, entry.1.WellTyped
  added : start.addAll entries = (z, none)

namespace Filled

variable (h : Filled start entries z)
include h

theorem wellFormedOver : z.WellFormedOver fun e => e ∈ entries.map Prod.fst :=
  .of_addAll h.rows h.added

theorem elementTy : z.elementTy = start.elementTy := by
  have hty := ty_addAll start entries
  rw [h.added] at hty
  exact (Ty.zset.inj hty).1

theorem weightAt_eq_total {key : Key} (he : e.WellTyped) (hty : e.ty = start.elementTy)
    (hkey : e.key = .ok key) : z.weightAt key = total entries e := by
  have hnone : start.weightAt key = 0 := by
    rw [weightAt, h.rows]
    rfl
  rw [weightAt_addAll h.added, hnone, Int.zero_add]
  refine sum_addedAt_eq_total he hkey fun entry hentry => ⟨h.wellTyped entry hentry, ?_⟩
  rw [hty, (of_addAll h.added entry hentry).1]

/-- **The weight of a value is the sum of the weights added for it.** -/
theorem toInt_weight? (he : e.WellTyped) (hty : e.ty = start.elementTy) :
    (z.weight? e).map Int64.toInt =
      if total entries e = 0 then none else some (total entries e) := by
  cases hkey : e.key with
  | ok key =>
    rw [weight?, hkey, ← h.weightAt_eq_total he hty hkey]
    exact h.wellFormedOver.toInt_weightAt? key
  | error part =>
    have hother : ∀ entry ∈ entries, ¬entry.1.same e = true := by
      intro entry hentry hsame
      obtain ⟨-, key, hentrykey⟩ := of_addAll h.added entry hentry
      rw [Expr.key_eq_of_same hsame hentrykey] at hkey
      cases hkey
    rw [weight?, hkey, total_eq_zero hother]
    rfl

/-- An element of the Z-set was added, and its weights did not cancel. -/
theorem of_mem_rows {row : Row Expr} (hrow : row ∈ z.rows) :
    row.element.WellTyped ∧ row.element.ty = start.elementTy ∧ row.element ∈ entries.map Prod.fst ∧
      total entries row.element ≠ 0 := by
  have hwell := h.wellFormedOver
  obtain ⟨entry, hentry, heq⟩ := List.mem_map.mp (hwell.elements row hrow)
  have htyped : row.element.WellTyped := heq ▸ h.wellTyped entry hentry
  have hty : row.element.ty = start.elementTy := (hwell.typed row hrow).trans h.elementTy
  refine ⟨htyped, hty, hwell.elements row hrow, fun hzero => hwell.nonzero row hrow ?_⟩
  rw [← h.weightAt_eq_total htyped hty (hwell.keyed row hrow), hwell.weightAt_of_mem hrow] at hzero
  exact Int64.toInt_inj.mp hzero

/-- An element whose weights do not cancel is the same as one that is stored. -/
theorem exists_row (hmem : e ∈ entries.map Prod.fst) (hne : total entries e ≠ 0) :
    ∃ row ∈ z.rows, e.same row.element = true := by
  obtain ⟨entry, hentry, rfl⟩ := List.mem_map.mp hmem
  obtain ⟨hty, key, hkey⟩ := of_addAll h.added entry hentry
  have he := h.wellTyped entry hentry
  rw [← h.weightAt_eq_total he hty hkey] at hne
  obtain ⟨row, hrow, rfl⟩ : ∃ row ∈ z.rows, row.key = key := by
    by_contra hnone
    exact hne (weightAt_eq_zero fun row hrow heq => hnone ⟨row, hrow, heq⟩)
  obtain ⟨htyped, hrowty, -⟩ := h.of_mem_rows hrow
  exact ⟨row, hrow, Expr.same_of_key he htyped (hty.trans hrowty.symm) hkey
    (h.wellFormedOver.keyed row hrow)⟩

/-- **The size is the number of different values whose weights do not cancel.** -/
theorem size_eq :
    (z.size : ℕ∞) =
      (Expr.classes {e | e ∈ entries.map Prod.fst ∧ total entries e ≠ 0}).encard := by
  have hwell := h.wellFormedOver.toWellFormed
  rw [← hwell.encard_elements]
  refine Expr.encard_eq_encard_classes ?_ ?_ ?_
  · rintro e ⟨hmem, hne⟩
    obtain ⟨row, hrow, hsame⟩ := h.exists_row hmem hne
    exact ⟨row.element, List.mem_map_of_mem hrow, hsame⟩
  · intro e' he'
    obtain ⟨row, hrow, rfl⟩ := List.mem_map.mp he'
    exact ⟨row.element, (h.of_mem_rows hrow).2.2, Expr.same_refl _⟩
  · intro a ha b hb hsame
    obtain ⟨row, hrow, rfl⟩ := List.mem_map.mp ha
    obtain ⟨row', hrow', rfl⟩ := List.mem_map.mp hb
    have hkey := Expr.key_eq_of_same hsame (hwell.keyed row hrow)
    rw [hwell.keyed row' hrow'] at hkey
    rw [hwell.row_eq_of_key hrow hrow' (Except.ok.inj hkey).symm]

end Filled

/-- **Z-sets keep their representation throughout a program, and their weights are exact.**  After
any calls, those that fail included, the rows of every Z-set are in strictly ascending order of
their keys, without weights of zero, each under the key of its element, which is a constant of the
element type, and the declared type is the Z-set type of the element type and the weight type.  It
is the one that was asked for when the Z-set was made, or that of the Z-set it was negated from, and
no change in place touches it.  After any additions to an empty Z-set, the weight of a value of the
element type is the exact sum of the weights added for elements that are the same, and the size is
the number of classes of elements whose sum is not zero. -/
theorem representation_and_weights :
    (∀ calls, ∀ z ∈ run calls,
      z.rows.Pairwise (fun a b => a.key.compare b.key = .lt) ∧
      (∀ row ∈ z.rows, row.weight ≠ 0 ∧ row.element.key = .ok row.key ∧
        row.element.isConstant = true ∧ row.element.ty.same z.elementTy = true) ∧
      z.ty.zset? = some (z.elementTy, z.weightTy)) ∧
    ((∀ ty z, ofTy ty = .ok z → z.ty = ty) ∧
      (∀ elementTy, (empty elementTy : ZSet Expr).ty = .zset elementTy Ty.defaultWeight false) ∧
      (∀ first rest z, ofElements (first :: rest) = .ok z →
        z.ty = .zset first.ty Ty.defaultWeight false) ∧
      (∀ z z' : ZSet Expr, z.negate = .ok z' → z'.ty = z.ty) ∧
      ∀ z : ZSet Expr, (∀ element weight, (z.add element weight).1.ty = z.ty) ∧
        ∀ other, (z.merge other).1.ty = z.ty) ∧
    ∀ start z : ZSet Expr, ∀ entries : List (Expr × Int64), start.rows = [] →
      (∀ entry ∈ entries, entry.1.Obtained) → start.addAll entries = (z, none) →
      (∀ e : Expr, e.Obtained → e.ty = start.elementTy →
        (z.weight? e).map Int64.toInt =
          if total entries e = 0 then none else some (total entries e)) ∧
      (z.size : ℕ∞) =
        (Expr.classes {e | e ∈ entries.map Prod.fst ∧ total entries e ≠ 0}).encard := by
  refine ⟨fun calls z hz => ?_,
    ⟨fun ty z => ty_of_ofTy, fun _ => rfl, fun first rest z => ty_ofElements,
    fun z z' => ty_negate, fun z => ⟨fun element weight => ty_add rfl, ty_merge z⟩⟩,
    fun start z entries hrows hentries hadded => ?_⟩
  · have hwell := run_wellFormed calls z hz
    refine ⟨hwell.ascending, fun row hrow => ?_, rfl⟩
    have hkey := hwell.keyed row hrow
    exact ⟨hwell.nonzero row hrow, hkey, Expr.isConstant_of_key hkey,
      Ty.same_iff.mpr (hwell.typed row hrow)⟩
  · have hfilled : Filled start entries z :=
      ⟨hrows, fun entry hentry => (hentries entry hentry).wellTyped, hadded⟩
    exact ⟨fun e he hty => hfilled.toInt_weight? he.wellTyped hty, hfilled.size_eq⟩

end Sums

end ZSet

namespace Sample

/-- Additions to a Z-set of numbers: the ones cancel, and the twos go near the greatest word and
back. -/
def additions : List (Expr × Int64) :=
  [(.int32 0 1, 3), (.int32 1 2, 9223372036854775807), (.int32 2 1, -3),
    (.int32 3 2, -9223372036854775802)]

theorem obtained_additions : ∀ entry ∈ additions, entry.1.Obtained := by
  intro entry hentry
  simp only [additions, List.mem_cons, List.not_mem_nil, or_false] at hentry
  rcases hentry with rfl | rfl | rfl | rfl <;> exact .int32 _ _

end Sample

theorem ZSet.representation_and_weights_additions :
    ∃ z, (ZSet.empty (Ty.int32 false)).addAll Sample.additions = (z, none) ∧
      (z.weight? (.int32 4 2)).map Int64.toInt = some 5 ∧ (z.weight? (.int32 5 1)) = none ∧
      (Expr.classes {e | e ∈ Sample.additions.map Prod.fst ∧
        total Sample.additions e ≠ 0}).encard = 1 := by
  have hadded : (ZSet.empty (Ty.int32 false)).addAll Sample.additions =
      (((ZSet.empty (Ty.int32 false)).addAll Sample.additions).1, none) :=
    Prod.ext rfl (by decide +kernel)
  obtain ⟨hweight, hsize⟩ :=
    representation_and_weights.2.2 _ _ _ rfl Sample.obtained_additions hadded
  refine ⟨_, hadded, ?_, ?_, ?_⟩
  · rw [hweight _ (.int32 _ _) rfl]
    decide +kernel
  · have hone := hweight (.int32 5 1) (.int32 _ _) rfl
    rw [if_pos (by decide +kernel)] at hone
    exact Option.map_eq_none_iff.mp hone
  · rw [← hsize]
    exact congrArg Nat.cast (show _ = 1 by decide +kernel)

end FlowCircuit
