import FlowCircuit.Proofs.Obtained

/-!
# Rebuilding does not look at labels

Rebuilding a node over other sub-expressions looks at their types and, for a Z-set, at their keys.
Both are the same for expressions that are the same, so rebuilding two nodes that are the same over
sub-expressions that are the same either gives the same twice or fails twice
(`Expr.withChildren_agree`).  Rebuilding a node over the sub-expressions it has gives the same node
again (`Expr.withChildren_self`): for a Z-set the rows go in as they came out, and for a tuple the
declared type is the one it had.

For a Z-set the argument is that adding a weight never looks at elements: it commutes with
forgetting them (`Row.addWeight_map`).
-/

set_option autoImplicit false

namespace FlowCircuit

/-- Both succeed, with related results, or both fail. -/
inductive Agree {α β : Type} (R : α → β → Prop) : Except Error α → Except Error β → Prop
  | ok {a : α} {b : β} (h : R a b) : Agree R (.ok a) (.ok b)
  | error (e e' : Error) : Agree R (.error e) (.error e')

theorem Agree.trans {α β γ : Type} {R : α → β → Prop} {S : β → γ → Prop} {Q : α → γ → Prop}
    {x : Except Error α} {y : Except Error β} {z : Except Error γ} (hxy : Agree R x y)
    (hyz : Agree S y z) (hQ : ∀ a b c, R a b → S b c → Q a c) : Agree Q x z := by
  cases hxy with
  | ok hab =>
    cases hyz with
    | ok hbc => exact .ok (hQ _ _ _ hab hbc)
  | error e =>
    cases hyz with
    | error _ e' => exact .error e e'

theorem Agree.symm {α β : Type} {R : α → β → Prop} {x : Except Error α} {y : Except Error β}
    (h : Agree R x y) : Agree (fun b a => R a b) y x := by
  cases h with
  | ok h => exact .ok h
  | error e e' => exact .error e' e

/-- Success on one side is success on the other. -/
theorem agree_of_forall_ok {α β : Type} {R : α → β → Prop} {x : Except Error α} {y : Except Error β}
    (h : ∀ a, x = .ok a → ∃ b, y = .ok b ∧ R a b) (h' : ∀ b, y = .ok b → ∃ a, x = .ok a) :
    Agree R x y := by
  cases x with
  | ok a =>
    obtain ⟨b, rfl, hab⟩ := h a rfl
    exact .ok hab
  | error e =>
    cases y with
    | ok b =>
      obtain ⟨a, ha⟩ := h' b rfl
      cases ha
    | error e' => exact .error e e'

/-! ## Z-sets -/

/-- The row of another element. -/
def Row.map {α β : Type} (f : α → β) (row : Row α) : Row β := ⟨row.key, f row.element, row.weight⟩

/-- Adding a weight does not look at elements. -/
theorem Row.addWeight_map {α β : Type} (f : α → β) (key : Key) (element : α) (weight : Int64)
    (rows : List (Row α)) :
    addWeight key (f element) weight (rows.map (Row.map f)) =
      (addWeight key element weight rows).map (List.map (Row.map f)) := by
  induction rows with
  | nil =>
    rw [List.map_nil, addWeight, addWeight]
    split <;> rfl
  | cons row rows ih =>
    rw [List.map_cons, addWeight, addWeight, show (Row.map f row).key = row.key from rfl]
    split
    · split <;> rfl
    · rw [Option.map_map, show (Row.map f row).weight = row.weight from rfl]
      congr 1
      funext sum
      dsimp only [Function.comp]
      split <;> rfl
    · rw [ih, Option.map_map, Option.map_map]
      rfl

namespace ZSet

variable {z z' w : ZSet Expr} {x y : Expr} {weight : Int64} {xs ys : List (Expr × Int64)}

theorem same_symm (h : z.same w = true) : w.same z = true := by
  rw [same_iff_map] at h ⊢
  exact h.symm

/-- Adding elements that are the same to Z-sets that are the same. -/
theorem exists_add_of_same (hzw : z.same w = true) (hxy : x.same y = true)
    (h : z.add x weight = (z', none)) :
    ∃ w', w.add y weight = (w', none) ∧ z'.same w' = true := by
  rw [same_iff_map] at hzw
  obtain ⟨hElement, hWeight, hnullable, hmap⟩ := ZSet.mk.inj hzw
  obtain ⟨hty, key, rows, hkey, hrows, rfl⟩ := add_accepted_iff.mp h
  have hforget := Row.addWeight_map (fun _ => ()) key x weight z.rows
  have hforget' := Row.addWeight_map (fun _ => ()) key y weight w.rows
  have hrowmap : z.rows.map (Row.map fun _ => ()) = w.rows.map (Row.map fun _ => ()) := hmap
  rw [hrows, hrowmap, hforget', Option.map_some, Option.map_eq_some_iff] at hforget
  obtain ⟨rows', hrows', hsame⟩ := hforget
  have hyty : y.ty = w.elementTy := by
    rw [← (Expr.same_iff_shape.mp hxy).1, hty, hElement]
  refine ⟨_, add_accepted_iff.mpr ⟨hyty, key, rows', Expr.key_eq_of_same hxy hkey, hrows', rfl⟩, ?_⟩
  rw [same_iff_map]
  exact (ZSet.mk.injEq ..).mpr ⟨hElement, hWeight, hnullable, hsame.symm⟩

theorem exists_addAll_of_same (hzw : z.same w = true)
    (hxs : List.Forall₂ (fun x y => x.1.same y.1 = true ∧ x.2 = y.2) xs ys)
    (h : z.addAll xs = (z', none)) : ∃ w', w.addAll ys = (w', none) ∧ z'.same w' = true := by
  induction hxs generalizing z w with
  | nil =>
    cases h
    exact ⟨w, rfl, hzw⟩
  | @cons x y xs ys hxy _ ih =>
    obtain ⟨x, weight⟩ := x
    obtain ⟨y, weight'⟩ := y
    obtain ⟨hsame, rfl⟩ : x.same y = true ∧ weight = weight' := hxy
    rw [addAll] at h
    split at h
    · cases h
    case h_2 z₁ hadd =>
      obtain ⟨w₁, hadd', hzw₁⟩ := exists_add_of_same hzw hsame hadd
      rw [addAll, hadd']
      exact ih hzw₁ h

/-- Refilling Z-sets that are the same, with elements that are the same and the weights they had. -/
theorem exists_refill_of_same (hzw : z.same w = true) {cs ds : List Expr}
    (hcs : List.Forall₂ (fun c d => c.same d = true) cs ds)
    (h : ({ z with rows := [] } : ZSet Expr).addAll (cs.zip (z.rows.map Row.weight)) = (z', none)) :
    ∃ w', ({ w with rows := [] } : ZSet Expr).addAll (ds.zip (w.rows.map Row.weight)) = (w', none) ∧
      z'.same w' = true := by
  obtain ⟨hty, hweights⟩ := map_unit_eq_iff.mp (same_iff_map.mp hzw)
  have hweights : z.rows.map Row.weight = w.rows.map Row.weight := by
    simpa [weights, Function.comp_def] using congrArg (List.map Prod.snd) hweights
  have hempty : ({ z with rows := [] } : ZSet Expr).same { w with rows := [] } = true :=
    same_iff_map.mpr (map_unit_eq_iff.mpr ⟨hty, rfl⟩)
  have hzip (weights : List Int64) : List.Forall₂ (fun x y => x.1.same y.1 = true ∧ x.2 = y.2)
      (cs.zip weights) (ds.zip weights) := by
    clear h
    induction hcs generalizing weights with
    | nil => exact .nil
    | cons hcd _ ih =>
      cases weights with
      | nil => exact .nil
      | cons weight weights => exact .cons ⟨hcd, rfl⟩ (ih weights)
  rw [← hweights]
  exact exists_addAll_of_same hempty (hzip _) h

end ZSet

/-! ## Nodes -/

namespace Expr

variable {e e' u : Expr} {cs ds : List Expr} {label : Label}

theorem length_of_withChildren (h : e.withChildren label cs = .ok e') :
    cs.length = e.children.length := by
  unfold withChildren at h
  split at h
  · cases h
  case isFalse hlen => exact not_not.mp hlen

/-- Rebuilding a Z-set is filling an empty one. -/
theorem withChildren_zset_iff {l : Label} {ty : Ty} {z : ZSet Expr}
    (hlen : cs.length = z.rows.length) :
    withChildren label ⟨l, ty, .zset z⟩ cs = .ok e' ↔
      ∃ z', ({ z with rows := [] } : ZSet Expr).addAll (cs.zip (z.rows.map Row.weight)) =
        (z', none) ∧ e' = zset label z' := by
  have hlen' : cs.length = (Expr.mk l ty (.zset z)).children.length := by
    rw [hlen]
    exact (List.length_map _).symm
  unfold withChildren
  rw [if_neg (not_not.mpr hlen')]
  change (do
    let rebuilt ← ZSet.complete (({ z with rows := [] } : ZSet Expr).addAll
      (cs.zip (z.rows.map Row.weight)))
    return zset label rebuilt) = .ok e' ↔ _
  simp only [← ZSet.complete_eq_ok_iff]
  cases ZSet.complete _ <;> simp [bind, Except.bind, pure, Except.pure, eq_comm]

theorem withChildren_tuple {l : Label} {ty : Ty} {fs : List Expr} (hlen : cs.length = fs.length) :
    withChildren label ⟨l, ty, .tuple fs⟩ cs = tupleTyped label ty cs := by
  have hlen' : cs.length = (Expr.mk l ty (.tuple fs)).children.length := hlen
  unfold withChildren
  rw [if_neg (not_not.mpr hlen')]

/-! ### Each sort of node over parts that are the same -/

section Sorts

variable {c d c' d' : Expr} {label' : Label}

theorem exists_withChildren_zset_of_same {l m : Label} {ty ty' : Ty} {z w : ZSet Expr}
    (hzw : z.same w = true) (hcs : List.Forall₂ (fun c d => c.same d = true) cs ds)
    (h : withChildren label ⟨l, ty, .zset z⟩ cs = .ok e') (label' : Label) :
    ∃ u', withChildren label' ⟨m, ty', .zset w⟩ ds = .ok u' ∧ e'.same u' = true := by
  have hrows : z.rows.length = w.rows.length := by
    simpa [ZSet.map] using congrArg (fun z => z.rows.length) (ZSet.same_iff_map.mp hzw)
  have hlen : cs.length = z.rows.length := (length_of_withChildren h).trans (List.length_map _)
  obtain ⟨z', hadd, rfl⟩ := (withChildren_zset_iff hlen).mp h
  obtain ⟨w', hadd', hsame⟩ := ZSet.exists_refill_of_same hzw hcs hadd
  have hlen' : ds.length = w.rows.length := by rw [← hcs.length_eq, hlen, hrows]
  refine ⟨_, (withChildren_zset_iff hlen').mpr ⟨w', hadd', rfl⟩, ?_⟩
  simp only [zset, same, Bool.and_eq_true, Ty.same_iff]
  exact ⟨(ZSet.map_unit_eq_iff.mp (ZSet.same_iff_map.mp hsame)).1, hsame⟩

theorem exists_tupleTyped_of_same {ty : Ty}
    (hcs : List.Forall₂ (fun c d => c.same d = true) cs ds) (h : tupleTyped label ty cs = .ok e')
    (label' : Label) : ∃ u', tupleTyped label' ty ds = .ok u' ∧ e'.same u' = true := by
  have htys : cs.map Expr.ty = ds.map Expr.ty :=
    forall₂_map_eq_iff.mp (hcs.imp fun _ _ h => (same_iff_shape.mp h).1)
  obtain ⟨hdeclared, rfl⟩ := tupleTyped_eq_ok_iff.mp h
  refine ⟨_, tupleTyped_eq_ok_iff.mpr ⟨htys ▸ hdeclared, rfl⟩, ?_⟩
  simpa only [same, Ty.same_refl, Bool.true_and, sameAll_iff] using hcs

theorem borrow_same (h : c.same d = true) : (borrow label c).same (borrow label' d) = true := by
  simp only [borrow, same, (same_iff_shape.mp h).1, Ty.same_refl, h, Bool.and_self]

theorem exists_field_of_same {index : Nat} (hcd : c.same d = true)
    (h : field label c index = .ok e') (label' : Label) :
    ∃ u', field label' d index = .ok u' ∧ e'.same u' = true := by
  obtain ⟨ty, hty, rfl⟩ := field_eq_ok_iff.mp h
  rw [(same_iff_shape.mp hcd).1] at hty
  refine ⟨_, field_eq_ok_iff.mpr ⟨ty, hty, rfl⟩, ?_⟩
  simp only [same, Ty.same_refl, beq_self_eq_true, hcd, Bool.and_self]

theorem closure_same {params : List Parameter} (h : c.same d = true) :
    (closure label params c).same (closure label' params d) = true := by
  simp only [closure, same, (same_iff_shape.mp h).1, Ty.same_refl, beq_self_eq_true, h,
    Bool.and_self]

theorem exists_binary_of_same {op : BinOp} (hcd : c.same d = true) (hcd' : c'.same d' = true)
    (h : binary label op c c' = .ok e') (label' : Label) :
    ∃ u', binary label' op d d' = .ok u' ∧ e'.same u' = true := by
  obtain ⟨ty, hty, rfl⟩ := binary_eq_ok_iff.mp h
  rw [(same_iff_shape.mp hcd).1, (same_iff_shape.mp hcd').1] at hty
  refine ⟨_, binary_eq_ok_iff.mpr ⟨ty, hty, rfl⟩, ?_⟩
  simp only [same, Ty.same_refl, beq_self_eq_true, hcd, hcd', Bool.and_self]

end Sorts

/-- What one node accepts, another that is the same accepts too. -/
theorem exists_withChildren_of_same (heu : e.same u = true)
    (hcs : List.Forall₂ (fun c d => c.same d = true) cs ds) (h : e.withChildren label cs = .ok e')
    (label' : Label) : ∃ u', u.withChildren label' ds = .ok u' ∧ e'.same u' = true := by
  have hlen := length_of_withChildren h
  obtain ⟨hty, hshape, hchildren⟩ := same_iff_shape.mp heu
  rcases e with ⟨l, ty, f⟩
  rcases u with ⟨m, ty', g⟩
  obtain rfl : ty = ty' := hty
  cases f with
  | literal x | var x =>
    -- a node without sub-expressions is kept
    obtain rfl := List.length_eq_zero_iff.mp hlen
    cases hcs
    cases h
    cases g with
    | literal y | var y => exact ⟨_, rfl, heu⟩
    | _ => cases hshape
  | zset z =>
    cases g with
    | zset w =>
      have hzw : z.same w = true := ZSet.same_iff_map.mpr (Form.zset.inj hshape)
      exact exists_withChildren_zset_of_same hzw hcs h label'
    | _ => cases hshape
  | tuple fs =>
    cases g with
    | tuple gs =>
      have hlen : cs.length = fs.length := hlen
      have hfields : fs.length = gs.length := (hchildren rfl).length_eq
      rw [withChildren_tuple hlen] at h
      rw [withChildren_tuple (hcs.length_eq.symm.trans (hlen.trans hfields))]
      exact exists_tupleTyped_of_same hcs h label'
    | _ => cases hshape
  | borrow x =>
    obtain ⟨c, rfl⟩ := List.length_eq_one_iff.mp hlen
    rcases hcs with _ | ⟨hcd, ⟨⟩⟩
    cases g with
    | borrow y =>
      cases h
      exact ⟨_, rfl, borrow_same hcd⟩
    | _ => cases hshape
  | field x i =>
    obtain ⟨c, rfl⟩ := List.length_eq_one_iff.mp hlen
    rcases hcs with _ | ⟨hcd, ⟨⟩⟩
    cases g with
    | field y j =>
      obtain rfl : i = j := (Form.field.inj hshape).2
      exact exists_field_of_same hcd h label'
    | _ => cases hshape
  | closure ps x =>
    obtain ⟨c, rfl⟩ := List.length_eq_one_iff.mp hlen
    rcases hcs with _ | ⟨hcd, ⟨⟩⟩
    cases g with
    | closure qs y =>
      obtain rfl : ps = qs := (Form.closure.inj hshape).1
      cases h
      exact ⟨_, rfl, closure_same hcd⟩
    | _ => cases hshape
  | binary o x x' =>
    obtain ⟨c, c', rfl⟩ := List.length_eq_two.mp hlen
    rcases hcs with _ | ⟨hcd, _ | ⟨hcd', ⟨⟩⟩⟩
    cases g with
    | binary p y y' =>
      obtain rfl : o = p := (Form.binary.inj hshape).1
      exact exists_binary_of_same hcd hcd' h label'
    | _ => cases hshape

/-- **Rebuilding looks at nothing that distinguishes expressions that are the same.** -/
theorem withChildren_agree (heu : e.same u = true)
    (hcs : List.Forall₂ (fun c d => c.same d = true) cs ds) (label label' : Label) :
    Agree (fun a b => a.same b = true) (e.withChildren label cs) (u.withChildren label' ds) := by
  refine agree_of_forall_ok (fun e' h => exists_withChildren_of_same heu hcs h label')
    fun u' h => ?_
  have hds : List.Forall₂ (fun d c => d.same c = true) ds cs := (hcs.imp fun _ _ => same_symm).flip
  obtain ⟨e', he', -⟩ := exists_withChildren_of_same (same_symm heu) hds h label
  exact ⟨e', he'⟩

/-- **Rebuilding over the same sub-expressions changes nothing.** -/
theorem withChildren_self (he : e.Typed) (label : Label) :
    ∃ e', e.withChildren label e.children = .ok e' ∧ e'.same e = true := by
  by_cases hne : e.children = []
  · -- A node without sub-expressions is kept, unless it is an empty Z-set or tuple.
    rw [hne]
    rcases e with ⟨l, ty, form⟩
    cases form with
    | literal | var => exact ⟨_, rfl, same_refl _⟩
    | zset z =>
      have hrows : z.rows = [] := List.map_eq_nil_iff.mp hne
      have hty : ty = z.ty := he.1
      have hlen : ([] : List Expr).length = z.rows.length := by rw [hrows]; rfl
      have hsame : (zset label { z with rows := [] }).same ⟨l, ty, .zset z⟩ = true := by
        simp [zset, same, ZSet.same, hty, ZSet.weights, hrows, ZSet.ty]
      exact ⟨_, (withChildren_zset_iff hlen).mpr ⟨{ z with rows := [] }, rfl, rfl⟩, hsame⟩
    | tuple fields =>
      have hfields : fields = [] := hne
      subst hfields
      refine ⟨⟨label, ty, .tuple []⟩, ?_, ?_⟩
      · rw [withChildren_tuple rfl]
        exact tupleTyped_of_types he label
      · exact same_iff_shape.mpr ⟨rfl, rfl, fun _ => .nil⟩
    | borrow | field | closure | binary => cases hne
  · obtain ⟨e', hmade, -, hty, hshape, hchildren, -⟩ :=
      accepts_of_same he (List.forall₂_same.mpr fun c _ => same_refl c) hne label
    refine ⟨e', hmade, same_iff_shape.mpr ⟨hty, hshape, fun _ => ?_⟩⟩
    rw [hchildren]
    exact List.forall₂_same.mpr fun c _ => same_refl c

/-- What rebuilding makes: the node itself if it has no sub-expressions, or a node with the given
label over some of the given sub-expressions. -/
theorem parts_of_withChildren (h : e.withChildren label cs = .ok e') :
    e' = e ∨ e'.label = label ∧ ∀ c ∈ e'.children, c ∈ cs := by
  have hlen := length_of_withChildren h
  rcases e with ⟨l, ty, form⟩
  cases form with
  | literal | var =>
    obtain rfl := List.length_eq_zero_iff.mp hlen
    cases h
    exact .inl rfl
  | zset z =>
    obtain ⟨z', hadd, rfl⟩ := (withChildren_zset_iff (hlen.trans (List.length_map _))).mp h
    refine .inr ⟨rfl, fun c hc => ?_⟩
    obtain ⟨row, hrow, rfl⟩ := List.mem_map.mp hc
    obtain ⟨entry, hentry, heq⟩ :=
      List.mem_map.mp ((ZSet.WellFormedOver.of_addAll rfl hadd).elements row hrow)
    exact heq ▸ (List.of_mem_zip hentry).1
  | tuple fs =>
    have hlen : cs.length = fs.length := hlen
    rw [withChildren_tuple hlen] at h
    obtain ⟨-, rfl⟩ := tupleTyped_eq_ok_iff.mp h
    exact .inr ⟨rfl, fun c hc => hc⟩
  | borrow x =>
    obtain ⟨c, rfl⟩ := List.length_eq_one_iff.mp hlen
    cases h
    exact .inr ⟨rfl, fun c hc => hc⟩
  | field x i =>
    obtain ⟨c, rfl⟩ := List.length_eq_one_iff.mp hlen
    obtain ⟨-, -, rfl⟩ := field_eq_ok_iff.mp h
    exact .inr ⟨rfl, fun c hc => hc⟩
  | closure ps x =>
    obtain ⟨c, rfl⟩ := List.length_eq_one_iff.mp hlen
    cases h
    exact .inr ⟨rfl, fun c hc => hc⟩
  | binary o x x' =>
    obtain ⟨c, c', rfl⟩ := List.length_eq_two.mp hlen
    obtain ⟨-, -, rfl⟩ := binary_eq_ok_iff.mp h
    exact .inr ⟨rfl, fun c hc => hc⟩

end Expr

/-- What is rebuilt with the next label joins the nodes there are. -/
theorem Heap.withChildren {S : Set Expr} {next : Label} (hS : Heap S next) {e e' : Expr}
    {cs : List Expr} (he : e ∈ S) (hcs : ∀ c ∈ cs, c ∈ S) (h : e.withChildren next cs = .ok e') :
    ∃ S', S ⊆ S' ∧ Heap S' (next + 1) ∧ e' ∈ S' := by
  have hwell : e'.WellTyped :=
    Expr.stable_wellTyped.withChildren (hS.wellTyped he) (fun c hc => hS.wellTyped (hcs c hc)) h
  rcases Expr.parts_of_withChildren h with rfl | ⟨hlabel, hchildren⟩
  · exact ⟨S, Set.Subset.rfl, hS.mono (Nat.le_succ next), he⟩
  · exact ⟨_, Set.subset_insert e' S,
      hS.insert hlabel (fun c hc => hcs c (hchildren c hc)) hwell.typed, Set.mem_insert e' S⟩

end FlowCircuit
