import FlowCircuit.Circuit.DepthFirst
import FlowCircuit.Proofs.Reachability

/-!
# The order in which a depth-first search leaves the vertices

`Search.explore` follows no path longer than its depth.  The depth is enough as long as it is not
less than the number of vertices that are still to be met: every vertex on the way is one that was
not met before.  So what a search leaves behind contains the vertices it was started from and, with
each vertex it has met, those that the vertex leads to (`Search.Extends`).

In a graph without cycles everything a vertex leads to is left before the vertex is, because a
vertex that is met but not yet left is one from which the search has come
(`Search.explore_ordered`).
-/

set_option autoImplicit false

namespace FlowCircuit

theorem Leads.mem_of_closed {next : OpId → List OpId} {ids : List OpId} {x y : OpId}
    (h : Leads next x y) (hids : ∀ x ∈ ids, ∀ z ∈ next x, z ∈ ids) (hx : x ∈ ids) : y ∈ ids := by
  induction h with
  | refl => exact hx
  | tail _ hz ih => exact hids _ ih _ hz

namespace Search

variable {next : OpId → List OpId} {ids xs : List OpId} {s r t : Search} {x y : OpId}
  {depth : Nat} {visit : Search → OpId → Search}

/-! ## Vertices that are met -/

/-- If each visit meets only what its vertex leads to, so do several. -/
theorem seen_of_mem_foldl
    (hvisit : ∀ s x y, y ∈ (visit s x).seen → y ∈ s.seen ∨ Leads next x y)
    (h : y ∈ (xs.foldl visit s).seen) : y ∈ s.seen ∨ ∃ x ∈ xs, Leads next x y := by
  induction xs generalizing s with
  | nil => exact Or.inl h
  | cons x xs ih =>
    rw [List.foldl_cons] at h
    rcases ih h with hy | ⟨x', hx', hy⟩
    · exact (hvisit s x y hy).imp_right fun h => ⟨x, List.mem_cons_self, h⟩
    · exact Or.inr ⟨x', List.mem_cons_of_mem _ hx', hy⟩

theorem seen_of_mem_explore (h : y ∈ (explore next depth s x).seen) :
    y ∈ s.seen ∨ Leads next x y := by
  induction depth generalizing s x y with
  | zero => exact Or.inl h
  | succ depth ih =>
    rw [explore] at h
    split at h
    · exact Or.inl h
    · rcases seen_of_mem_foldl (fun s x y => ih) h with hy | ⟨z, hz, hy⟩
      · rcases List.mem_cons.mp hy with rfl | hy
        · exact Or.inr .refl
        · exact Or.inl hy
      · exact Or.inr (.head hz hy)

/-- `r` has met what `s` has, and with every vertex that it has met beyond that, what the vertex
leads to. -/
structure Extends (next : OpId → List OpId) (s r : Search) : Prop where
  mono : ∀ y ∈ s.seen, y ∈ r.seen
  closed : ∀ y ∈ r.seen, y ∉ s.seen → ∀ z ∈ next y, z ∈ r.seen

theorem Extends.refl (s : Search) : Extends next s s :=
  ⟨fun _ h => h, fun _ h hn => absurd h hn⟩

theorem Extends.trans (h : Extends next s r) (h' : Extends next r t) : Extends next s t := by
  refine ⟨fun y hy => h'.mono y (h.mono y hy), fun y hy hn z hz => ?_⟩
  by_cases hr : y ∈ r.seen
  · exact h'.mono z (h.closed y hr hn z hz)
  · exact h'.closed y hy hr z hz

/-- The vertices that are still to be met. -/
def unmet (ids : List OpId) (s : Search) : List OpId := ids.filter fun id => !s.seen.contains id

theorem Extends.length_unmet_le (h : Extends next s r) :
    (unmet ids r).length ≤ (unmet ids s).length := by
  rw [unmet, unmet, ← List.countP_eq_length_filter, ← List.countP_eq_length_filter]
  refine List.countP_mono_left fun id _ hid => ?_
  have hnot : id ∉ r.seen := by simpa using hid
  simpa using fun hs => hnot (h.mono id hs)

/-- Meeting a vertex leaves fewer to be met. -/
theorem length_unmet_cons_lt (hx : x ∈ ids) (hs : x ∉ s.seen) (left : List OpId) :
    (unmet ids ⟨x :: s.seen, left⟩).length < (unmet ids s).length := by
  have hfilter : unmet ids ⟨x :: s.seen, left⟩ = (unmet ids s).filter fun id => id ≠ x := by
    rw [unmet, unmet, List.filter_filter]
    refine List.filter_congr fun id _ => ?_
    rw [Bool.eq_iff_iff]
    simp
  rw [hfilter, List.length_filter_lt_length_iff_exists]
  exact ⟨x, List.mem_filter.mpr ⟨hx, by simpa using hs⟩, by simp⟩

/-- If each visit misses nothing, neither do several. -/
theorem foldl_extends
    (hvisit : ∀ s x, x ∈ ids → (unmet ids s).length ≤ depth →
      Extends next s (visit s x) ∧ x ∈ (visit s x).seen)
    (hxs : ∀ x ∈ xs, x ∈ ids) (hdepth : (unmet ids s).length ≤ depth) :
    Extends next s (xs.foldl visit s) ∧ ∀ x ∈ xs, x ∈ (xs.foldl visit s).seen := by
  induction xs generalizing s with
  | nil => exact ⟨.refl s, by simp⟩
  | cons x xs ih =>
    obtain ⟨hfirst, hx⟩ := hvisit s x (hxs x List.mem_cons_self) hdepth
    obtain ⟨hrest, hmem⟩ := ih (fun x' hx' => hxs x' (List.mem_cons_of_mem _ hx'))
      (Nat.le_trans hfirst.length_unmet_le hdepth)
    rw [List.foldl_cons]
    refine ⟨hfirst.trans hrest, fun x' hx' => ?_⟩
    rcases List.mem_cons.mp hx' with rfl | hx'
    · exact hrest.mono x' hx
    · exact hmem x' hx'

/-- **A search of enough depth misses nothing.** -/
theorem explore_extends (hids : ∀ x ∈ ids, ∀ z ∈ next x, z ∈ ids) (hx : x ∈ ids)
    (hdepth : (unmet ids s).length ≤ depth) :
    Extends next s (explore next depth s x) ∧ x ∈ (explore next depth s x).seen := by
  induction depth generalizing s x with
  | zero =>
    -- nothing is left to be met, so `x` was met before
    have hmet : x ∈ s.seen := Decidable.byContradiction fun hs =>
      absurd (length_unmet_cons_lt hx hs []) (by omega)
    exact ⟨.refl s, hmet⟩
  | succ depth ih =>
    rw [explore]
    split
    · rename_i hseen
      exact ⟨.refl s, by simpa using hseen⟩
    · rename_i hseen
      have hs : x ∉ s.seen := by simpa using hseen
      have hless := length_unmet_cons_lt hx hs s.left
      obtain ⟨hext, hmem⟩ := foldl_extends (fun s x => ih) (hids x hx)
        (s := ⟨x :: s.seen, s.left⟩) (by omega)
      refine ⟨⟨fun y hy => hext.mono y (List.mem_cons_of_mem _ hy), fun y hy hn z hz => ?_⟩,
        hext.mono x List.mem_cons_self⟩
      by_cases hyx : y = x
      · exact hmem z (hyx ▸ hz)
      · exact hext.closed y hy (by simp [hyx, hn]) z hz

/-! ## Vertices that are met and not yet left -/

/-- The vertex is met and not yet left. -/
def Open (s : Search) (y : OpId) : Prop := y ∈ s.seen ∧ y ∉ s.left

/-- What was left was met, and left once. -/
structure Tidy (s : Search) : Prop where
  seen : ∀ y ∈ s.left, y ∈ s.seen
  nodup : s.left.Nodup

/-- If each visit leaves what it meets, so do several. -/
theorem foldl_closes
    (hvisit : ∀ s x, Tidy s → Tidy (visit s x) ∧ ∀ y, Open (visit s x) y ↔ Open s y) (hs : Tidy s) :
    Tidy (xs.foldl visit s) ∧ ∀ y, Open (xs.foldl visit s) y ↔ Open s y := by
  induction xs generalizing s with
  | nil => exact ⟨hs, fun _ => Iff.rfl⟩
  | cons x xs ih =>
    obtain ⟨hfirst, hopen⟩ := hvisit s x hs
    obtain ⟨hrest, hopen'⟩ := ih hfirst
    exact ⟨hrest, fun y => (hopen' y).trans (hopen y)⟩

/-- **What a visit meets it also leaves**, and it leaves nothing else. -/
theorem explore_closes (hs : Tidy s) :
    Tidy (explore next depth s x) ∧ ∀ y, Open (explore next depth s x) y ↔ Open s y := by
  induction depth generalizing s x with
  | zero => exact ⟨hs, fun _ => Iff.rfl⟩
  | succ depth ih =>
    rw [explore]
    split
    · exact ⟨hs, fun _ => Iff.rfl⟩
    · rename_i hseen
      have hx : x ∉ s.seen := by simpa using hseen
      have hstart : Tidy ⟨x :: s.seen, s.left⟩ :=
        ⟨fun y hy => List.mem_cons_of_mem _ (hs.seen y hy), hs.nodup⟩
      have hbelow : Tidy ((next x).foldl (explore next depth) ⟨x :: s.seen, s.left⟩) ∧ _ :=
        foldl_closes (fun s x => ih) hstart
      obtain ⟨htidy, hopen⟩ := hbelow
      have hxopen := (hopen x).mpr ⟨List.mem_cons_self, fun h => hx (hs.seen x h)⟩
      refine ⟨⟨?_, List.nodup_cons.mpr ⟨hxopen.2, htidy.nodup⟩⟩, fun y => ?_⟩
      · exact List.forall_mem_cons.mpr ⟨hxopen.1, htidy.seen⟩
      · have hy := hopen y
        simp only [Open, List.mem_cons, not_or] at hy ⊢
        by_cases hyx : y = x
        · simp [hyx, hx]
        · simpa [hyx] using hy

theorem foldl_explore_closes (next : OpId → List OpId) (depth : Nat) (xs : List OpId)
    (hs : Tidy s) :
    Tidy (xs.foldl (explore next depth) s) ∧
      ∀ y, Open (xs.foldl (explore next depth) s) y ↔ Open s y :=
  foldl_closes (fun _ _ => explore_closes) hs

/-! ## The order in which vertices are left -/

/-- What a vertex leads to stands behind it. -/
def Ordered (next : OpId → List OpId) : List OpId → Prop
  | [] => True
  | x :: xs => (∀ z ∈ next x, z ∈ xs) ∧ Ordered next xs

theorem Ordered.of_append {ys : List OpId} (h : Ordered next (xs ++ ys)) : Ordered next ys := by
  induction xs with
  | nil => exact h
  | cons x xs ih => exact ih h.2

theorem Ordered.mem (h : Ordered next xs) (hx : x ∈ xs) (hy : y ∈ next x) : y ∈ xs := by
  induction xs with
  | nil => cases hx
  | cons z xs ih =>
    rcases List.mem_cons.mp hx with rfl | hx
    · exact List.mem_cons_of_mem _ (h.1 y hy)
    · exact List.mem_cons_of_mem _ (ih h.2 hx)

/-- If each visit keeps the order, given that the search has come from every open vertex, so do
several. -/
theorem foldl_ordered (hids : ∀ x ∈ ids, ∀ z ∈ next x, z ∈ ids)
    (hvisit : ∀ s x, x ∈ ids → (unmet ids s).length ≤ depth → Tidy s → Ordered next s.left →
      (∀ y, Open s y → Leads next y x) → Ordered next (explore next depth s x).left)
    (hxs : ∀ x ∈ xs, x ∈ ids) (hdepth : (unmet ids s).length ≤ depth) (hs : Tidy s)
    (hleft : Ordered next s.left) (hopen : ∀ y, Open s y → ∀ x ∈ xs, Leads next y x) :
    Ordered next (xs.foldl (explore next depth) s).left := by
  induction xs generalizing s with
  | nil => exact hleft
  | cons x xs ih =>
    have hx : x ∈ ids := hxs x List.mem_cons_self
    obtain ⟨hs', hopen'⟩ := foldl_explore_closes next depth [x] hs
    refine ih (fun x' hx' => hxs x' (List.mem_cons_of_mem _ hx')) ?_ hs' ?_ ?_
    · exact Nat.le_trans (explore_extends hids hx hdepth).1.length_unmet_le hdepth
    · exact hvisit s x hx hdepth hs hleft fun y hy => hopen y hy x List.mem_cons_self
    · exact fun y hy x' hx' => hopen y ((hopen' y).mp hy) x' (List.mem_cons_of_mem _ hx')

/-- **Without cycles, a vertex is left after all that it leads to.** -/
theorem explore_ordered (hacyclic : ∀ y, ¬ Relation.TransGen (fun a b => b ∈ next a) y y)
    (hids : ∀ x ∈ ids, ∀ z ∈ next x, z ∈ ids) (hx : x ∈ ids) (hdepth : (unmet ids s).length ≤ depth)
    (hs : Tidy s) (hleft : Ordered next s.left) (hopen : ∀ y, Open s y → Leads next y x) :
    Ordered next (explore next depth s x).left := by
  induction depth generalizing s x with
  | zero => exact hleft
  | succ depth ih =>
    rw [explore]
    split
    · exact hleft
    · rename_i hseen
      have hxs : x ∉ s.seen := by simpa using hseen
      have hless := length_unmet_cons_lt hx hxs s.left
      have hstart : Tidy ⟨x :: s.seen, s.left⟩ :=
        ⟨fun y hy => List.mem_cons_of_mem _ (hs.seen y hy), hs.nodup⟩
      have hleads : ∀ y, Open ⟨x :: s.seen, s.left⟩ y → Leads next y x := fun y hy => by
        rcases List.mem_cons.mp hy.1 with rfl | hseen'
        · exact .refl
        · exact hopen y ⟨hseen', hy.2⟩
      have hmet :
          ∀ z ∈ next x, z ∈ ((next x).foldl (explore next depth) ⟨x :: s.seen, s.left⟩).seen :=
        (foldl_extends (fun s x => explore_extends hids) (hids x hx) (by omega)).2
      obtain ⟨-, hopen'⟩ := foldl_explore_closes next depth (next x) hstart
      refine ⟨fun z hz => ?_, foldl_ordered hids (fun s x => ih) (hids x hx) (by omega) hstart hleft
        fun y hy z hz => (hleads y hy).tail hz⟩
      -- a vertex that is still open leads to `x`, and `x` to it
      refine Decidable.byContradiction fun hnot => ?_
      have hz' := hleads z ((hopen' z).mp ⟨hmet z hz, hnot⟩)
      exact hacyclic x (.head' hz hz')

end Search

end FlowCircuit
