import FlowCircuit.Proofs.Lists
import FlowCircuit.Proofs.Rows
import FlowCircuit.Proofs.Typing

/-!
# Deep comparison of expressions

`Expr.same` compares everything but labels.  Node by node it asks for the same type, the same shape,
and sub-expressions that are pairwise the same (`Expr.same_iff`); from that reading it is an
equivalence.

Z-sets are the one sort of node where the reading is a theorem and not the definition.  The
comparison looks at keys and weights and never at the elements themselves, and keys leave types out.
But all elements have the declared type, and two constants of one type and one key are the same
(`Expr.same_of_key`), so equal keys do mean equal elements.  The converse, that equal constants have
equal keys (`Expr.key_eq_of_same`), is why a Z-set can be rebuilt over equal elements and is the
same Z-set (`Expr.accepts_of_same`).
-/

set_option autoImplicit false

namespace FlowCircuit

/-! ## The comparison, node by node -/

namespace ZSet

theorem map_unit_eq_iff {α β : Type} {z : ZSet α} {w : ZSet β} :
    z.map (fun _ => ()) = w.map (fun _ => ()) ↔ z.ty = w.ty ∧ z.weights = w.weights := by
  rcases z with ⟨e, t, n, rows⟩
  rcases w with ⟨e', t', n', rows'⟩
  have rowwise : (rows.map fun row => (⟨row.key, (), row.weight⟩ : Row Unit)) =
        (rows'.map fun row => ⟨row.key, (), row.weight⟩) ↔
      (rows.map fun row => (row.key, row.weight)) =
        rows'.map fun row => (row.key, row.weight) := by
    induction rows generalizing rows' with
    | nil => cases rows' <;> simp
    | cons row rows ih => cases rows' <;> simp [ih]
  simp only [map, ty, weights, mk.injEq, Ty.zset.injEq]
  rw [rowwise]
  grind

/-- Two Z-sets are the same when their layers are. -/
theorem same_iff_map {z w : ZSet Expr} :
    z.same w = true ↔ z.map (fun _ => ()) = w.map (fun _ => ()) := by
  rw [map_unit_eq_iff]
  simp [same]

end ZSet

theorem Literal.key_injective {a b : Literal} (h : a.key = b.key) : a = b := by
  cases a <;> cases b <;> simp_all [key]

namespace Expr

-- comparisons and keys are opened all through this section
attribute [local simp] same sameAll key keys

theorem sameAll_iff {as bs : List Expr} :
    sameAll as bs = true ↔ List.Forall₂ (fun a b => a.same b = true) as bs := by
  induction as generalizing bs with
  | nil => cases bs <;> simp
  | cons a as ih => cases bs <;> simp [ih]

/-- The definition of `same`, without a case for each sort of node. -/
theorem same_iff_shape {a b : Expr} :
    a.same b = true ↔ a.ty = b.ty ∧ a.shape = b.shape ∧
      (a.zset? = none → List.Forall₂ (fun x y => x.same y = true) a.children b.children) := by
  rcases a with ⟨l, s, f⟩
  rcases b with ⟨m, t, g⟩
  cases f with
  | literal x =>
    cases g with
    | literal y =>
      simp only [same, Bool.and_eq_true, Ty.same_iff, beq_iff_eq, shape, Form.shape, Form.map,
        Form.literal.injEq, children, Form.children, List.Forall₂.nil, implies_true, and_true]
    | _ => exact iff_of_false Bool.false_ne_true fun h => by cases h.2.1
  | zset z =>
    cases g with
    | zset w =>
      simp only [same, Bool.and_eq_true, Ty.same_iff, ZSet.same_iff_map, shape, Form.shape,
        Form.map, Form.zset.injEq, zset?, reduceCtorEq, false_implies, and_true]
    | _ => exact iff_of_false Bool.false_ne_true fun h => by cases h.2.1
  | tuple fs =>
    cases g with
    | tuple gs =>
      simp only [same, Bool.and_eq_true, Ty.same_iff, sameAll_iff, shape, Form.shape, Form.map,
        zset?, children, Form.children, Form.tuple.injEq, forall_const]
      refine and_congr_right fun _ => ⟨fun h => ⟨?_, h⟩, fun h => h.2⟩
      simp [List.map_const', h.length_eq]
    | _ => exact iff_of_false Bool.false_ne_true fun h => by cases h.2.1
  | borrow x =>
    cases g with
    | borrow y =>
      simp only [same, Bool.and_eq_true, Ty.same_iff, shape, Form.shape, Form.map, zset?, children,
        Form.children, List.forall₂_cons, List.Forall₂.nil, and_true, forall_const, true_and]
    | _ => exact iff_of_false Bool.false_ne_true fun h => by cases h.2.1
  | var x =>
    cases g with
    | var y =>
      simp only [same, Bool.and_eq_true, Ty.same_iff, beq_iff_eq, shape, Form.shape, Form.map,
        Form.var.injEq, children, Form.children, List.Forall₂.nil, implies_true, and_true]
    | _ => exact iff_of_false Bool.false_ne_true fun h => by cases h.2.1
  | field x i =>
    cases g with
    | field y j =>
      simp only [same, Bool.and_eq_true, Ty.same_iff, beq_iff_eq, shape, Form.shape, Form.map,
        Form.field.injEq, zset?, children, Form.children, List.forall₂_cons, List.Forall₂.nil,
        and_true, true_and, forall_const, and_assoc]
    | _ => exact iff_of_false Bool.false_ne_true fun h => by cases h.2.1
  | closure ps x =>
    cases g with
    | closure qs y =>
      simp only [same, Bool.and_eq_true, Ty.same_iff, beq_iff_eq, shape, Form.shape, Form.map,
        Form.closure.injEq, zset?, children, Form.children, List.forall₂_cons, List.Forall₂.nil,
        and_true, forall_const, and_assoc]
    | _ => exact iff_of_false Bool.false_ne_true fun h => by cases h.2.1
  | binary o x x' =>
    cases g with
    | binary p y y' =>
      simp only [same, Bool.and_eq_true, Ty.same_iff, beq_iff_eq, shape, Form.shape, Form.map,
        Form.binary.injEq, zset?, children, Form.children, List.forall₂_cons, List.Forall₂.nil,
        and_true, forall_const, and_assoc]
    | _ => exact iff_of_false Bool.false_ne_true fun h => by cases h.2.1

/-- Whether a node is a Z-set is told by its shape. -/
theorem isSome_zset?_eq (e : Expr) :
    e.zset?.isSome = (match e.shape with | .zset _ => true | _ => false) := by
  rcases e with ⟨l, t, form⟩
  cases form <;> rfl

theorem isSome_zset?_of_same {a b : Expr} (h : a.same b = true) (ha : a.zset?.isSome) :
    b.zset?.isSome := by
  rwa [isSome_zset?_eq, ← (same_iff_shape.mp h).2.1, ← isSome_zset?_eq]

theorem zset?_eq_none_of_shape {a b : Expr} (h : a.shape = b.shape) (ha : a.zset? = none) :
    b.zset? = none := by
  have hb := isSome_zset?_eq b
  rw [← h, ← isSome_zset?_eq a, ha] at hb
  simpa using hb

theorem same_refl (e : Expr) : e.same e = true := by
  induction e using induction_children with
  | node e ih => exact same_iff_shape.mpr ⟨rfl, rfl, fun _ => List.forall₂_same.mpr ih⟩

theorem same_symm {a b : Expr} (h : a.same b = true) : b.same a = true := by
  induction a using induction_children generalizing b with
  | node a ih =>
    obtain ⟨hty, hshape, hchildren⟩ := same_iff_shape.mp h
    refine same_iff_shape.mpr ⟨hty.symm, hshape.symm, fun hz => ?_⟩
    have hsame := hchildren (zset?_eq_none_of_shape hshape.symm hz)
    exact (forall₂_imp_of_mem hsame fun x hx y _ hxy => ih x hx hxy).flip

theorem same_trans {a b c : Expr} (hab : a.same b = true) (hbc : b.same c = true) :
    a.same c = true := by
  induction a using induction_children generalizing b c with
  | node a ih =>
    obtain ⟨hty, hshape, hchildren⟩ := same_iff_shape.mp hab
    obtain ⟨hty', hshape', hchildren'⟩ := same_iff_shape.mp hbc
    refine same_iff_shape.mpr ⟨hty.trans hty', hshape.trans hshape', fun hz => ?_⟩
    exact forall₂_trans_of_mem (hchildren hz) (hchildren' (zset?_eq_none_of_shape hshape hz))
      fun x hx y z hxy hyz => ih x hx hxy hyz

/-! ## Keys of constants -/

theorem keys_eq_ok_iff {es : List Expr} {ks : List Key} :
    keys es = .ok ks ↔ List.Forall₂ (fun e k => e.key = .ok k) es ks := by
  induction es generalizing ks with
  | nil => cases ks <;> simp
  | cons e es ih =>
    rw [keys]
    cases hk : e.key with
    | error x => cases ks <;> simp [bind, Except.bind, hk]
    | ok k =>
      cases hks : keys es with
      | error x => cases ks <;> simp [bind, Except.bind, hk, hks, ← ih]
      | ok ks' => cases ks <;> simp [bind, Except.bind, pure, Except.pure, hk, hks, ← ih]

theorem key_tuple_eq_ok_iff {l : Label} {t : Ty} {fs : List Expr} {k : Key} :
    key ⟨l, t, .tuple fs⟩ = .ok k ↔
      ∃ ks, List.Forall₂ (fun e k => e.key = .ok k) fs ks ∧ k = .tuple ks := by
  rw [key]
  simp only [← keys_eq_ok_iff]
  cases hks : keys fs with
  | error x => simp [Except.map]
  | ok ks => simp [Except.map, eq_comm]

/-- The sub-expressions of a constant are constants. -/
theorem exists_key_of_mem_children {e c : Expr} {k : Key} (ht : e.Typed)
    (hk : e.key = .ok k) (hc : c ∈ e.children) : ∃ k', c.key = .ok k' := by
  rcases e with ⟨l, ty, form⟩
  cases form with
  | literal x => cases hc
  | zset z =>
    obtain ⟨row, hrow, rfl⟩ := List.mem_map.mp hc
    exact ⟨row.key, ht.2.keyed row hrow⟩
  | tuple fs =>
    obtain ⟨ks, hks, -⟩ := key_tuple_eq_ok_iff.mp hk
    obtain ⟨k', -, hk'⟩ := forall₂_exists_right hks hc
    exact ⟨k', hk'⟩
  | _ => simp at hk

theorem key_of_zset? {e : Expr} {z : ZSet Expr} (h : e.zset? = some z) :
    e.key = .ok (.zset z.weights) := by
  rcases e with ⟨l, ty, form⟩
  cases form <;> simp_all [zset?]

/-- **Constants that are the same have the same key.** -/
theorem key_eq_of_same {a b : Expr} {k : Key} (h : a.same b = true) (ha : a.key = .ok k) :
    b.key = .ok k := by
  induction a using induction_children generalizing b k with
  | node a ih =>
    rcases a with ⟨l, s, f⟩
    rcases b with ⟨m, t, g⟩
    cases f with
    | literal x => cases g <;> simp_all
    | zset z =>
      cases g with
      | zset w =>
        simp only [same, ZSet.same, Bool.and_eq_true, beq_iff_eq] at h
        simpa [h.2.2] using ha
      | _ => simp at h
    | tuple fs =>
      cases g with
      | tuple gs =>
        simp only [same, Bool.and_eq_true, sameAll_iff] at h
        obtain ⟨ks, hks, rfl⟩ := key_tuple_eq_ok_iff.mp ha
        refine key_tuple_eq_ok_iff.mpr ⟨ks, ?_, rfl⟩
        have step : List.Forall₂ (fun f g => ∀ k, f.key = .ok k → g.key = .ok k) fs gs :=
          forall₂_imp_of_mem h.2 fun f hf g _ hfg k hk => ih f hf hfg hk
        exact forall₂_trans_of_mem step.flip hks fun g _ f k hfg hk => hfg k hk
      | _ => simp at h
    | _ => simp at ha

/-- Fields of the same types and keys are the same, if that is so of each of them. -/
theorem forall₂_same_of_keys {fs gs : List Expr} {ks : List Key}
    (htys : fs.map Expr.ty = gs.map Expr.ty)
    (hfs : List.Forall₂ (fun f k => f.key = .ok k) fs ks)
    (hgs : List.Forall₂ (fun g k => g.key = .ok k) gs ks)
    (h : ∀ f ∈ fs, ∀ g ∈ gs, ∀ k, f.ty = g.ty → f.key = .ok k → g.key = .ok k → f.same g = true) :
    List.Forall₂ (fun f g => f.same g = true) fs gs := by
  have hkeys : List.Forall₂ (fun f g => ∃ k, f.key = .ok k ∧ g.key = .ok k) fs gs :=
    forall₂_trans_of_mem hfs hgs.flip fun f _ k g hfk hgk => ⟨k, hfk, hgk⟩
  have hboth := List.Forall₂.mp (fun f g => And.intro) (forall₂_map_eq_iff.mpr htys) hkeys
  refine forall₂_imp_of_mem hboth fun f hf g hg hfg => ?_
  obtain ⟨hty, k, hfk, hgk⟩ := hfg
  exact h f hf g hg k hty hfk hgk

/-- **Constants of one type and one key are the same.** -/
theorem same_of_key {a b : Expr} {k : Key} (hta : a.WellTyped) (htb : b.WellTyped)
    (hty : a.ty = b.ty) (ha : a.key = .ok k) (hb : b.key = .ok k) : a.same b = true := by
  induction a using induction_children generalizing b k with
  | node a ih =>
    rcases a with ⟨l, s, f⟩
    rcases b with ⟨m, t, g⟩
    obtain rfl : s = t := hty
    cases f with
    | literal x =>
      cases g with
      | literal y =>
        have hxy : x.key = y.key := by simpa using ha.trans hb.symm
        simp [Literal.key_injective hxy]
      | tuple gs =>
        obtain ⟨ks, -, rfl⟩ := key_tuple_eq_ok_iff.mp hb
        cases x <;> simp [Literal.key] at ha
      | zset w =>
        have hx : x.key = .zset w.weights := by simpa using ha.trans hb.symm
        cases x <;> simp [Literal.key] at hx
      | _ => simp at hb
    | zset z =>
      cases g with
      | literal y =>
        have hy : y.key = .zset z.weights := by simpa using hb.trans ha.symm
        cases y <;> simp [Literal.key] at hy
      | zset w =>
        have hweights : z.weights = w.weights := by simpa using ha.trans hb.symm
        have hz : s = z.ty := hta.typed.1
        have hw : s = w.ty := htb.typed.1
        simp [ZSet.same, hweights, ← hz, ← hw]
      | tuple gs =>
        obtain ⟨ks, -, rfl⟩ := key_tuple_eq_ok_iff.mp hb
        simp at ha
      | _ => simp at hb
    | tuple fs =>
      obtain ⟨ks, hks, rfl⟩ := key_tuple_eq_ok_iff.mp ha
      cases g with
      | literal y => cases y <;> simp [Literal.key] at hb
      | zset w => simp at hb
      | tuple gs =>
        obtain ⟨ks', hks', hkey⟩ := key_tuple_eq_ok_iff.mp hb
        obtain rfl : ks = ks' := by simpa using hkey
        have hf : s.fields? = some (fs.map Expr.ty) := hta.typed
        have hg : s.fields? = some (gs.map Expr.ty) := htb.typed
        simp only [same, Ty.same_refl, Bool.true_and, sameAll_iff]
        refine forall₂_same_of_keys (Option.some.inj (hf.symm.trans hg)) hks hks' ?_
        intro f hf g hg k hfg hfk hgk
        exact ih f hf (hta.child hf) (htb.child hg) hfg hfk hgk
      | _ => simp at hb
    | _ => simp at ha

/-- Equal keys mean equal elements: what two Z-sets of one shape hold is the same one by one. -/
theorem same_elements {z w : ZSet Expr} (hz : z.WellFormed) (hw : w.WellFormed)
    (htz : ∀ e ∈ z.elements, e.WellTyped) (htw : ∀ e ∈ w.elements, e.WellTyped)
    (h : z.map (fun _ => ()) = w.map (fun _ => ())) :
    List.Forall₂ (fun x y => x.same y = true) z.elements w.elements := by
  have hty : z.elementTy = w.elementTy := (ZSet.mk.inj h).1
  have hrows := forall₂_map_eq_iff.mpr (congrArg ZSet.rows h)
  refine List.forall₂_map_left_iff.mpr (List.forall₂_map_right_iff.mpr ?_)
  refine forall₂_imp_of_mem hrows fun row hrow row' hrow' hkey => ?_
  have hkey : row.key = row'.key := (Row.mk.inj hkey).1
  refine same_of_key (k := row.key) (htz _ (List.mem_map_of_mem hrow))
    (htw _ (List.mem_map_of_mem hrow')) ?_ (hz.keyed row hrow) ?_
  · rw [hz.typed row hrow, hw.typed row' hrow', hty]
  · rw [hkey]
    exact hw.keyed row' hrow'

/-- **The comparison, node by node.**  Two expressions are the same exactly when they have the same
type, the same shape, and sub-expressions that are the same one by one. -/
theorem same_iff {a b : Expr} (hta : a.WellTyped) (htb : b.WellTyped) :
    a.same b = true ↔ a.ty = b.ty ∧ a.shape = b.shape ∧
      List.Forall₂ (fun x y => x.same y = true) a.children b.children := by
  rw [same_iff_shape]
  refine ⟨fun h => ⟨h.1, h.2.1, ?_⟩, fun h => ⟨h.1, h.2.1, fun _ => h.2.2⟩⟩
  obtain ⟨-, hshape, hchildren⟩ := h
  cases hz : a.zset? with
  | none => exact hchildren hz
  | some z =>
    rcases a with ⟨l, s, f⟩
    rcases b with ⟨m, t, g⟩
    cases f <;> simp [zset?] at hz
    cases g <;> simp [shape, Form.shape, Form.map] at hshape
    exact same_elements hta.typed.2 htb.typed.2 (fun e he => hta.child he)
      (fun e he => htb.child he) hshape

/-! ## Rebuilding over equal sub-expressions -/

end Expr

namespace ZSet

/-- The same rows over the elements `cs`. -/
def withElements (z : ZSet Expr) (cs : List Expr) : ZSet Expr :=
  ⟨z.elementTy, z.weightTy, z.nullable, (z.rows.zip cs).map fun p => ⟨p.1.key, p.2, p.1.weight⟩⟩

section WithElements

variable {z : ZSet Expr} {cs : List Expr}

theorem map_rows_withElements {β : Type} (hlen : z.rows.length = cs.length) (f : Key → Int64 → β) :
    ((z.withElements cs).rows.map fun row => f row.key row.weight) =
      z.rows.map fun row => f row.key row.weight :=
  calc ((z.withElements cs).rows.map fun row => f row.key row.weight)
    _ = ((z.rows.zip cs).map Prod.fst).map fun row => f row.key row.weight := by
      simp [withElements, Function.comp_def]
    _ = z.rows.map fun row => f row.key row.weight := by rw [List.map_fst_zip hlen.le]

theorem elements_withElements (hlen : z.rows.length = cs.length) :
    (z.withElements cs).elements = cs := by
  have hsnd : (z.rows.zip cs).map Prod.snd = cs := List.map_snd_zip hlen.ge
  simpa [withElements, elements, Function.comp_def] using hsnd

variable (hcs : List.Forall₂ (fun row c => row.element.same c = true) z.rows cs)

include hcs

/-- Every row has an old row with the same key and weight and an element that is the same. -/
theorem exists_row_of_mem_withElements {row : Row Expr} (hrow : row ∈ (z.withElements cs).rows) :
    ∃ old ∈ z.rows, old.element.same row.element = true ∧ old.key = row.key ∧
      old.weight = row.weight := by
  obtain ⟨⟨old, c⟩, hmem, rfl⟩ := List.mem_map.mp hrow
  exact ⟨old, (List.of_mem_zip hmem).1, List.forall₂_zip hcs hmem, rfl, rfl⟩

/-- Elements that are the same have the same keys, so the rows stay in order. -/
theorem WellFormed.withElements (hz : z.WellFormed) : (z.withElements cs).WellFormed := by
  refine ⟨?_, fun row hrow => ?_, fun row hrow => ?_, fun row hrow => ?_⟩
  · have hkeys : (z.withElements cs).rows.map Row.key = z.rows.map Row.key :=
      map_rows_withElements hcs.length_eq fun k _ => k
    have hascending : (z.rows.map Row.key).Pairwise fun a b => a.compare b = .lt :=
      List.pairwise_map.mpr hz.ascending
    rw [← hkeys] at hascending
    exact List.pairwise_map.mp hascending
  · obtain ⟨old, hold, hsame, hkey, -⟩ := exists_row_of_mem_withElements hcs hrow
    rw [← hkey]
    exact Expr.key_eq_of_same hsame (hz.keyed old hold)
  · obtain ⟨old, hold, hsame, -⟩ := exists_row_of_mem_withElements hcs hrow
    exact (Expr.same_iff_shape.mp hsame).1.symm.trans (hz.typed old hold)
  · obtain ⟨old, hold, -, -, hweight⟩ := exists_row_of_mem_withElements hcs hrow
    rw [← hweight]
    exact hz.nonzero old hold

/-- Adding the new elements with the old weights one by one gives the rows there were. -/
theorem complete_addAll_withElements (hz : z.WellFormed) :
    ZSet.complete ((⟨z.elementTy, z.weightTy, z.nullable, []⟩ : ZSet Expr).addAll
      (cs.zip (z.rows.map Row.weight))) = .ok (z.withElements cs) := by
  have hwf := hz.withElements hcs
  have hentries : cs.zip (z.rows.map Row.weight) =
      (z.withElements cs).rows.map fun row => (row.element, row.weight) := by
    refine (List.zip_of_prod ?_ ?_).symm
    · rw [List.map_map]
      exact elements_withElements hcs.length_eq
    · rw [List.map_map]
      exact map_rows_withElements hcs.length_eq fun _ w => w
  have hadd : (⟨z.elementTy, z.weightTy, z.nullable, []⟩ : ZSet Expr).addAll
      ((z.withElements cs).rows.map fun row => (row.element, row.weight)) =
        (z.withElements cs, none) :=
    ZSet.addAll_of_ascending hwf.ascending hwf.keyed hwf.typed hwf.nonzero
  rw [hentries, hadd]
  rfl

end WithElements

end ZSet

namespace Expr

/-- **Sub-expressions that are the same are always accepted.** -/
theorem accepts_of_same {e : Expr} (he : e.Typed) {cs : List Expr}
    (hcs : List.Forall₂ (fun x y => x.same y = true) e.children cs) (hne : e.children ≠ [])
    (label : Label) : e.Accepts label cs := by
  have htys : cs.map Expr.ty = e.children.map Expr.ty :=
    (forall₂_map_eq_iff.mp (hcs.imp fun x y hxy => (same_iff_shape.mp hxy).1)).symm
  rcases e with ⟨l, ty, f⟩
  cases f with
  | zset z =>
    obtain ⟨hty, hwf⟩ : ty = z.ty ∧ z.WellFormed := he
    have hrows : List.Forall₂ (fun row c => row.element.same c = true) z.rows cs :=
      List.forall₂_map_left_iff.mp hcs
    have hlen : cs.length = (Expr.mk l ty (.zset z)).children.length := hcs.length_eq.symm
    refine ⟨zset label (z.withElements cs), ?_, rfl, hty.symm, ?_,
      ZSet.elements_withElements hrows.length_eq, rfl, hwf.withElements hrows⟩
    · simp only [withChildren, hlen, ne_eq, not_true_eq_false, if_false]
      change (do
        let rebuilt ← ZSet.complete ((⟨z.elementTy, z.weightTy, z.nullable, []⟩ : ZSet Expr).addAll
          (cs.zip (z.rows.map Row.weight)))
        return zset label rebuilt) = _
      rw [ZSet.complete_addAll_withElements hrows hwf]
      rfl
    · have hmap : (z.withElements cs).map (fun _ => ()) = z.map fun _ => () := by
        simp only [ZSet.map, ZSet.mk.injEq]
        refine ⟨rfl, rfl, rfl, ?_⟩
        exact ZSet.map_rows_withElements hrows.length_eq fun k w => (⟨k, (), w⟩ : Row Unit)
      simp only [shape, zset, Form.shape, Form.map, hmap]
  | _ => exact accepts_of_types he rfl htys hne label

end Expr

end FlowCircuit
