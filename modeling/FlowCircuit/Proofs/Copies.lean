import FlowCircuit.Proofs.Sharing
import FlowCircuit.Proofs.Printing
import FlowCircuit.Proofs.Rebuilding
import FlowCircuit.Proofs.Lookup

/-!
# Copies of an expression

Building an expression twice gives two that differ in their labels and in nothing else.
`Expr.unlabelled` takes the labels away, so copies are expressions that are equal without them.
Deep comparison holds exactly between copies (`Expr.same_iff_unlabelled`).  It never looks at the
elements of a Z-set, but for expressions that exist the keys it does look at leave nothing open.

Three consequences are drawn here.  All that can be asked of an expression without looking at labels
has one answer for copies (`Expr.same_seen_by_all`).  A node can be rebuilt over copies of its
sub-expressions, and a node that is no Z-set over anything of the same types
(`Expr.Obtained.rebuilt_over_equivalents`).  And where copies are one node, it is enough to compare
the labels of sub-expressions (`Expr.Obtained.shallow_is_deep`).
-/

set_option autoImplicit false

namespace FlowCircuit

namespace Expr

/-! ## Expressions without labels -/

mutual

/-- The expression with the label 0 at every node. -/
def unlabelled : Expr → Expr
  | ⟨_, ty, .literal value⟩ => ⟨0, ty, .literal value⟩
  | ⟨_, ty, .zset ⟨elementTy, weightTy, nullable, rows⟩⟩ =>
    ⟨0, ty, .zset ⟨elementTy, weightTy, nullable, unlabelledRows rows⟩⟩
  | ⟨_, ty, .tuple fields⟩ => ⟨0, ty, .tuple (unlabelledAll fields)⟩
  | ⟨_, ty, .borrow operand⟩ => ⟨0, ty, .borrow (unlabelled operand)⟩
  | ⟨_, ty, .var name⟩ => ⟨0, ty, .var name⟩
  | ⟨_, ty, .field base index⟩ => ⟨0, ty, .field (unlabelled base) index⟩
  | ⟨_, ty, .closure params body⟩ => ⟨0, ty, .closure params (unlabelled body)⟩
  | ⟨_, ty, .binary op left right⟩ => ⟨0, ty, .binary op (unlabelled left) (unlabelled right)⟩

/-- Several expressions without labels. -/
def unlabelledAll : List Expr → List Expr
  | [] => []
  | e :: es => unlabelled e :: unlabelledAll es

/-- Rows over elements without labels. -/
def unlabelledRows : List (Row Expr) → List (Row Expr)
  | [] => []
  | ⟨key, element, weight⟩ :: rows => ⟨key, unlabelled element, weight⟩ :: unlabelledRows rows

end

variable {a b e : Expr}

theorem unlabelledAll_eq_map (es : List Expr) : unlabelledAll es = es.map unlabelled := by
  induction es with
  | nil => rfl
  | cons e es ih => rw [unlabelledAll, ih, List.map_cons]

theorem unlabelledRows_eq_map (rows : List (Row Expr)) :
    unlabelledRows rows = rows.map fun row => ⟨row.key, row.element.unlabelled, row.weight⟩ := by
  induction rows with
  | nil => rfl
  | cons row rows ih => rw [unlabelledRows, ih, List.map_cons]

theorem unlabelled_eq (e : Expr) : e.unlabelled = ⟨0, e.ty, e.form.map unlabelled⟩ := by
  rcases e with ⟨label, ty, form⟩
  cases form with
  | zset z => rw [unlabelled, unlabelledRows_eq_map]; rfl
  | tuple fields => rw [unlabelled, unlabelledAll_eq_map]; rfl
  | _ => rw [unlabelled]; rfl

/-- Copies, node by node. -/
theorem unlabelled_eq_iff :
    a.unlabelled = b.unlabelled ↔
      a.ty = b.ty ∧ a.shape = b.shape ∧ a.children.map unlabelled = b.children.map unlabelled := by
  rw [unlabelled_eq, unlabelled_eq, mk.injEq, Form.map_eq_map_iff]
  exact ⟨fun h => h.2, fun h => ⟨rfl, h⟩⟩

/-- Copies are the same. -/
theorem same_of_unlabelled (h : a.unlabelled = b.unlabelled) : a.same b = true := by
  induction a using induction_children generalizing b with
  | node a ih =>
    obtain ⟨hty, hshape, hchildren⟩ := unlabelled_eq_iff.mp h
    refine same_iff_shape.mpr ⟨hty, hshape, fun _ => ?_⟩
    exact forall₂_imp_of_mem (forall₂_map_eq_iff.mpr hchildren) fun x hx y _ hxy => ih x hx hxy

/-- **Deep comparison is equality up to labels.** -/
theorem same_iff_unlabelled (hta : a.WellTyped) (htb : b.WellTyped) :
    a.same b = true ↔ a.unlabelled = b.unlabelled := by
  refine ⟨fun h => ?_, same_of_unlabelled⟩
  induction a using induction_children generalizing b with
  | node a ih =>
    obtain ⟨hty, hshape, hchildren⟩ := (same_iff hta htb).mp h
    refine unlabelled_eq_iff.mpr ⟨hty, hshape, forall₂_map_eq_iff.mp ?_⟩
    exact forall₂_imp_of_mem hchildren fun x hx y hy hxy =>
      ih x hx (hta.child hx) (htb.child hy) hxy

/-! ## What copies have in common -/

/-- A constant is told by its key, and expressions that are the same have the same key. -/
theorem isConstant_eq_of_same (h : a.same b = true) : a.isConstant = b.isConstant := by
  rw [Bool.eq_iff_iff, ← exists_key_iff, ← exists_key_iff]
  constructor
  · rintro ⟨key, hkey⟩
    exact ⟨key, key_eq_of_same h hkey⟩
  · rintro ⟨key, hkey⟩
    exact ⟨key, key_eq_of_same (same_symm h) hkey⟩

/-- **Deep comparison is an equivalence that nothing but labels can tell apart.**  It holds between
copies, and expressions that are the same are copies: they have one type, one sort, one text, are
constant together, and have sub-expressions that are the same one by one. -/
theorem same_seen_by_all :
    Equivalence (fun a b : Expr => a.same b = true) ∧
      (∀ a b : Expr, a.unlabelled = b.unlabelled → a.same b = true) ∧
      ∀ a b : Expr, a.Obtained → b.Obtained → a.same b = true →
        a.unlabelled = b.unlabelled ∧ a.ty = b.ty ∧ a.kindName = b.kindName ∧ a.text = b.text ∧
        a.isConstant = b.isConstant ∧ a.children.length = b.children.length ∧
        List.Forall₂ (fun c d => c.same d = true) a.children b.children := by
  refine ⟨⟨same_refl, same_symm, same_trans⟩, fun a b => same_of_unlabelled, fun a b ha hb h => ?_⟩
  obtain ⟨hty, hshape, hchildren⟩ := (same_iff ha.wellTyped hb.wellTyped).mp h
  exact ⟨(same_iff_unlabelled ha.wellTyped hb.wellTyped).mp h, hty, kindName_eq_of_shape hshape,
    text_eq_of_same ha.wellTyped hb.wellTyped h, isConstant_eq_of_same h, hchildren.length_eq,
    hchildren⟩

open Sample in
/-- Two Z-sets that were built apart and hold a NaN and a Z-set each. -/
theorem same_seen_by_all_pairs :
    (zset 10 (pairs 10 0x7ff8000000000000)).same (zset 20 (pairs 20 0x7ff8000000000000)) = true ∧
      (zset 10 (pairs 10 0x7ff8000000000000)).text = (zset 20 (pairs 20 0x7ff8000000000000)).text ∧
      List.Forall₂ (fun c d => c.same d = true) (zset 10 (pairs 10 0x7ff8000000000000)).children
        (zset 20 (pairs 20 0x7ff8000000000000)).children := by
  have hsame := same_seen_by_all.2.1 (zset 10 (pairs 10 0x7ff8000000000000))
    (zset 20 (pairs 20 0x7ff8000000000000)) (by rfl)
  obtain ⟨-, -, -, htext, -, -, hchildren⟩ :=
    same_seen_by_all.2.2 _ _ (obtained_pairs 10 _) (obtained_pairs 20 _) hsame
  exact ⟨hsame, htext, hchildren⟩

/-! ## Rebuilding over equivalents -/

namespace Obtained

/-- **A node can be rebuilt over equivalent sub-expressions.**  Over ones that are the same, as its
own are, it comes out the same.  A node that is no Z-set takes all sub-expressions of the same
types, and keeps its type, its sort and its payload (operator, index, parameters); those it is given
are the ones it has. -/
theorem rebuilt_over_equivalents (he : e.Obtained) (label : Label) (cs : List Expr) :
    (List.Forall₂ (fun c d => c.same d = true) cs e.children →
      ∃ e', e.withChildren label cs = .ok e' ∧ e'.same e = true) ∧
    (∃ e', e.withChildren label e.children = .ok e' ∧ e'.same e = true) ∧
    (e.zset? = none → List.Forall₂ (fun c d => c.ty.same d.ty = true) cs e.children →
      ∃ e', e.withChildren label cs = .ok e' ∧ e'.ty = e.ty ∧ e'.kindName = e.kindName ∧
        e'.shape = e.shape ∧ (e.children ≠ [] → e'.children = cs)) := by
  obtain ⟨own, hown, hsame⟩ := withChildren_self he.wellTyped.typed label
  refine ⟨fun hcs => ?_, ⟨own, hown, hsame⟩, fun hz hcs => ?_⟩
  · have hchildren : List.Forall₂ (fun d c => d.same c = true) e.children cs :=
      (hcs.imp fun _ _ => same_symm).flip
    obtain ⟨e', he', hsame'⟩ := exists_withChildren_of_same (same_refl e) hchildren hown label
    exact ⟨e', he', same_trans (same_symm hsame') hsame⟩
  · have htys : cs.map Expr.ty = e.children.map Expr.ty :=
      forall₂_map_eq_iff.mp (hcs.imp fun _ _ => Ty.same_iff.mp)
    by_cases hne : e.children = []
    · -- there is only one list of no sub-expressions
      obtain rfl : cs = e.children := by
        rw [hne]; exact List.map_eq_nil_iff.mp (by rw [htys, hne]; rfl)
      obtain ⟨hty, hshape, -⟩ := same_iff_shape.mp hsame
      exact ⟨own, hown, hty, kindName_eq_of_shape hshape, hshape, fun h => absurd hne h⟩
    · obtain ⟨e', hmade, -, hty, hshape, hchildren, -⟩ :=
        accepts_of_types he.wellTyped.typed hz htys hne label
      exact ⟨e', hmade, hty, kindName_eq_of_shape hshape, hshape, fun _ => hchildren⟩

end Obtained

end Expr

namespace Sample

/-- The numbers one and two with their weights, as a node of their own. -/
def counts (label : Label) : Expr := .zset label (numbers [(1, 5), (2, 7)])

theorem obtained_counts (label : Label) : (counts label).Obtained :=
  .zset label (fun _ h => h) (reached_numbers _)

theorem children_counts (label : Label) : (counts label).children = [.int32 1 1, .int32 2 2] := rfl

end Sample

open Sample in
/-- A Z-set is rebuilt over numbers that were made apart from its own. -/
theorem Expr.Obtained.rebuilt_over_equivalents_counts :
    (counts 3).Obtained ∧
      ∃ e', (counts 3).withChildren 8 [.int32 6 1, .int32 7 2] = .ok e' ∧
        e'.same (counts 3) = true := by
  refine ⟨obtained_counts 3, (rebuilt_over_equivalents (obtained_counts 3) 8 _).1 ?_⟩
  rw [children_counts]
  exact .cons (by decide) (.cons (by decide) .nil)

namespace Expr

variable {a b : Expr}

/-! ## Comparing labels of sub-expressions -/

/-- Over sub-expressions that are one node when they are the same, deep comparison need not look
below them. -/
theorem shallowSame_of_same (hta : a.WellTyped) (htb : b.WellTyped) {S : Set Expr}
    (hS : ∀ x ∈ S, ∀ y ∈ S, x.same y = true → identical x y = true) (ha : ∀ c ∈ a.children, c ∈ S)
    (hb : ∀ c ∈ b.children, c ∈ S) (h : a.same b = true) : a.shallowSame b = true := by
  obtain ⟨hty, hshape, hchildren⟩ := (same_iff hta htb).mp h
  refine shallowSame_of_shape hty hshape (forall₂_map_eq_iff.mp ?_)
  exact forall₂_imp_of_mem hchildren fun x hx y hy hxy =>
    identical_iff.mp (hS x (ha x hx) y (hb y hy) hxy)

/-- **Over canonical sub-expressions, shallow comparison is the deep one.**  The nodes of the two
expressions were made in one session, so labels speak for them.  That shallow comparison is never
wrong when it says yes needs no more than that. -/
theorem Obtained.shallow_is_deep (ha : a.Obtained) (hb : b.Obtained) {next : Label}
    (hlabels : Drawn (nodes [a, b]) next) :
    (a.shallowSame b = true → a.same b = true) ∧
      ∀ S : Set Expr, (∀ x ∈ S, ∀ y ∈ S, x.same y = true → identical x y = true) →
        (∀ c ∈ a.children, c ∈ S) → (∀ c ∈ b.children, c ∈ S) →
        (a.shallowSame b = true ↔ a.same b = true) := by
  have hheap : Heap (nodes [a, b]) next := by
    refine ⟨hlabels, nodes_closed _, ?_⟩
    rintro d ⟨root, hroot, hd⟩
    rcases List.mem_pair.mp hroot with rfl | rfl
    · exact ha.wellTyped d hd
    · exact hb.wellTyped d hd
  have hdeep : a.shallowSame b = true → a.same b = true :=
    same_of_shallowSame hheap (mem_nodes (by simp)) (mem_nodes (by simp))
  exact ⟨hdeep, fun S hS hca hcb =>
    ⟨hdeep, shallowSame_of_same ha.wellTyped hb.wellTyped hS hca hcb⟩⟩

end Expr

namespace Sample

theorem drawn_counts : Drawn (Expr.nodes [counts 3, counts 4]) 5 := by
  have hnodes : Heap (Expr.nodes [counts 3, counts 4]) 5 := by
    refine Heap.of_list (l := [.int32 1 1, .int32 2 2, counts 3, counts 4]) ?_ ?_ ?_ ?_ ?_
    · simp
    · have hnumber (n : Int32) (label : Label) : (Expr.int32 label n).children = [] := rfl
      simp [children_counts, hnumber]
    · decide
    · decide
    · have hnumber (n : Int32) (label : Label) : (Expr.int32 label n).Typed :=
        (Expr.Obtained.int32 label n).wellTyped.typed
      have hcounts (label : Label) : (counts label).Typed := (obtained_counts label).wellTyped.typed
      simp [hnumber, hcounts]
  exact hnodes.toDrawn

end Sample

open Sample in
/-- Two Z-sets over the same two nodes, which are different numbers. -/
theorem Expr.Obtained.shallow_is_deep_counts :
    Drawn (nodes [counts 3, counts 4]) 5 ∧ (counts 3).shallowSame (counts 4) = true ∧
      (counts 3).same (counts 4) = true := by
  have hcanonical : ∀ x ∈ [Expr.int32 1 1, .int32 2 2], ∀ y ∈ [Expr.int32 1 1, .int32 2 2],
      x.same y = true → identical x y = true := by decide
  have hiff := (shallow_is_deep (obtained_counts 3) (obtained_counts 4) drawn_counts).2
    {x | x ∈ [Expr.int32 1 1, .int32 2 2]} hcanonical (by simp [children_counts])
    (by simp [children_counts])
  have hsame : (counts 3).same (counts 4) = true := by decide +kernel
  exact ⟨drawn_counts, hiff.mpr hsame, hsame⟩

end FlowCircuit
