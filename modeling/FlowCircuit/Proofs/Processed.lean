import Mathlib.Data.Set.Card
import FlowCircuit.Proofs.EditedOnce
import FlowCircuit.Proofs.Transform

/-!
# The nodes an edit has dealt with

`ExprEdit.Keeps` says what the hooks of an edit have to answer, however often they are asked about a
node.  To count what an edit does, one has to know more: the second hook is asked about a node only
when the node has not been dealt with, and in the end all nodes have been.

`ExprEdit.KeepsOnce` is the condition on hooks that may use this.  Its invariant speaks of the set
`P` of the nodes dealt with so far, and a step is taken only for a node outside of `P`, which it
puts into `P`.  The memory of the edit is what makes the set right (`Memo.Processed`): it holds
exactly the nodes in `P`, with everything below them, and a node is not below itself, so it is still
outside of `P` once its sub-expressions have been dealt with.

Lifted to circuits, the set is in the end the set of all nodes of functions and declaration values
(`Transforms.wp_editFunctions_once`).
-/

set_option autoImplicit false

namespace FlowCircuit

variable {σ γ : Type}

/-- `e` has been dealt with, and became `e'`. -/
def Dealt (becomes : γ → Expr → Expr → Prop) (g : γ × Set Expr) (e e' : Expr) : Prop :=
  e ∈ g.2 ∧ becomes g.1 e e'

/-- The nodes in `g.2` have been dealt with: they are remembered, and so is all that is below
them. -/
structure Memo.Processed (S : Set Expr) (inv : γ × Set Expr → Session σ → Prop)
    (becomes : γ → Expr → Expr → Prop) (g : γ × Set Expr) (s : Session (Memo σ)) : Prop
    extends Memo.Inv S inv (Dealt becomes) g s where
  subset : g.2 ⊆ S
  remembered : ∀ e ∈ g.2, s.state.done.get? e ≠ none
  closed : ∀ e ∈ g.2, ∀ c ∈ e.children, c ∈ g.2

variable {S : Set Expr} {inv : γ × Set Expr → Session σ → Prop} {becomes : γ → Expr → Expr → Prop}
  {fail : Error → Prop} {g : γ × Set Expr} {s : Session (Memo σ)}

theorem Memo.processed_start {g : γ} {hooks : σ} {next : Label} {notices : List Notice}
    (h : inv (g, ∅) ⟨next, notices, hooks⟩) :
    Memo.Processed S inv becomes (g, ∅) ⟨next, notices, Memo.start hooks⟩ where
  toInv := Memo.inv_start h
  subset := Set.empty_subset S
  remembered _ he := absurd he (Set.notMem_empty _)
  closed _ he := absurd he (Set.notMem_empty _)

/-- A node over nodes that have been dealt with joins them. -/
theorem Memo.Processed.insert {P : Set Expr} {g g' : γ} {e e' : Expr} {t : Session σ}
    (hs : Memo.Processed S inv becomes (g, P) s) (he : e ∈ S) (hc : ∀ c ∈ e.children, c ∈ P)
    (hmono : ∀ a b, becomes g a b → becomes g' a b) (ht : inv (g', insert e P) t)
    (hbecomes : becomes g' e e') :
    Memo.Processed S inv becomes (g', insert e P)
      ⟨t.next, t.notices, ⟨t.state, s.state.done.insert e e'⟩⟩ where
  hooks := ht
  done pair hpair := by
    rcases Replacements.mem_insert hpair with rfl | hold
    · exact ⟨he, Set.mem_insert e P, hbecomes⟩
    · obtain ⟨hmem, hdealt, hbecame⟩ := hs.done pair hold
      exact ⟨hmem, Set.mem_insert_of_mem e hdealt, hmono _ _ hbecame⟩
  subset := Set.insert_subset he hs.subset
  remembered d hd := by
    rw [Replacements.get?_insert]
    split
    · exact Option.some_ne_none e'
    case isFalse hne =>
      rcases hd with rfl | hd
      · exact absurd rfl hne
      · exact hs.remembered d hd
  closed d hd c hcd := by
    rcases hd with rfl | hd
    · exact Set.mem_insert_of_mem d (hc c hcd)
    · exact Set.mem_insert_of_mem e (hs.closed d hd c hcd)

variable [Preorder γ]

/-- The run has dealt with more nodes, all of them in `inside`, and `result` holds of them. -/
def Memo.Reached (S : Set Expr) (inv : γ × Set Expr → Session σ → Prop)
    (becomes : γ → Expr → Expr → Prop) (g : γ × Set Expr) (next : Label) (inside : Set Expr)
    (result : γ × Set Expr → Prop) (s : Session (Memo σ)) : Prop :=
  ∃ g', g ≤ g' ∧ next ≤ s.next ∧ Memo.Processed S inv becomes g' s ∧
    (∀ d ∈ g'.2, d ∈ g.2 ∨ d ∈ inside) ∧ result g'

namespace ExprEdit

variable {r : ExprEdit σ}

/-- The first hook replaces nothing.  The second one keeps `inv` when it is asked about a node of
`S` that has not been dealt with, and relates it to its replacement when its sub-expressions are
related to theirs. -/
structure KeepsOnce (r : ExprEdit σ) (S : Set Expr) (inv : γ × Set Expr → Session σ → Prop)
    (becomes : γ → Expr → Expr → Prop) (fail : Error → Prop) : Prop where
  mono : ∀ {g g' : γ} {e e' : Expr}, g ≤ g' → becomes g e e' → becomes g' e e'
  before : ∀ e, r.before e = pure none
  after : ∀ {g : γ} {P : Set Expr} {s : Session σ} {e : Expr} {cs : List Expr}, inv (g, P) s →
    e ∈ S → e ∉ P → List.Forall₂ (becomes g) e.children cs →
    Job.wp (rebuild e cs >>= r.after) (fun e' s' => ∃ g', g ≤ g' ∧ s.next ≤ s'.next ∧
      inv (g', insert e P) s' ∧ becomes g' e e') fail s

namespace KeepsOnce

theorem mono_dealt (hr : r.KeepsOnce S inv becomes fail) {g g' : γ × Set Expr} (hg : g ≤ g')
    {e e' : Expr} (h : Dealt becomes g e e') : Dealt becomes g' e e' :=
  ⟨hg.2 h.1, hr.mono hg.1 h.2⟩

/-- The step from the sub-expressions of a node to the node. -/
theorem wp_applyNode (hr : r.KeepsOnce S inv becomes fail)
    (hone : ∀ a ∈ S, ∀ b ∈ S, a.label = b.label → a = b) {e : Expr} (he : e ∈ S)
    (hs : Memo.Processed S inv becomes g s) {below : Run (Memo σ) (List Expr)}
    (hbelow : Job.wp below (fun cs => Memo.Reached S inv becomes g s.next (Expr.nodes e.children)
      fun g' => List.Forall₂ (Dealt becomes g') e.children cs) fail s) :
    Job.wp (r.applyNode e below) (fun e' => Memo.Reached S inv becomes g s.next {d | d.Within e}
      fun g' => Dealt becomes g' e e') fail s := by
  rw [applyNode, Memo.remember, Job.wp_bind, Job.wp_state]
  split
  · rename_i e' hget
    obtain ⟨pair, hpair, hid, rfl⟩ := Replacements.mem_of_get? hget
    obtain ⟨hold, hdealt⟩ := hs.done pair hpair
    have hsame : pair.1 = e := hone _ hold _ he (identical_iff.mp hid)
    exact ⟨g, le_refl g, le_refl _, hs, fun _ => Or.inl, hsame ▸ hdealt⟩
  · rename_i hget
    rw [hr.before e, Job.wp_bind, Job.wp_bind, Memo.wp_ask, Job.wp_pure, Job.wp_bind]
    refine hbelow.imp fun cs s₂ h => ?_
    obtain ⟨⟨g₂, P⟩, hg₂, hn₂, hs₂, hinside, hcs⟩ := h
    -- nothing below the node is the node, so it has not been dealt with on the way
    have hnew : e ∉ P := fun h => by
      rcases hinside e h with h | ⟨c, hc, hwithin⟩
      · exact hs.remembered e h hget
      · exact Expr.not_within_child hc hwithin
    have hchildren : ∀ c ∈ e.children, c ∈ P := fun c hc => by
      obtain ⟨_, -, h⟩ := forall₂_exists_right hcs hc
      exact h.1
    have hafter := hr.after hs₂.hooks he hnew (hcs.imp fun _ _ h => h.2)
    rw [Job.wp_bind] at hafter
    rw [Job.wp_bind, rebuild_eq_ask, Memo.wp_ask]
    refine hafter.imp fun e₁ t₁ h₁ => ?_
    rw [Memo.wp_ask]
    refine h₁.imp fun e' t₂ h₂ => ?_
    obtain ⟨g₃, hg₃, hn₃, ht₂, hbecomes⟩ := h₂
    refine ⟨(g₃, insert e P), ⟨hg₂.1.trans hg₃, hg₂.2.trans (Set.subset_insert e P)⟩, hn₂.trans hn₃,
      hs₂.insert he hchildren (fun _ _ => hr.mono hg₃) ht₂ hbecomes, ?_, Set.mem_insert e P,
      hbecomes⟩
    rintro d (rfl | hd)
    · exact Or.inr .refl
    · refine (hinside d hd).imp_right ?_
      rintro ⟨c, hc, hwithin⟩
      exact hwithin.trans (Expr.within_of_mem_children hc)

/-- Expressions that are each handled are handled one after another. -/
theorem wp_applyAll_of (hr : r.KeepsOnce S inv becomes fail) {es : List Expr}
    (h : ∀ e ∈ es, ∀ {g : γ × Set Expr} {s : Session (Memo σ)}, Memo.Processed S inv becomes g s →
      Job.wp (r.apply e) (fun e' => Memo.Reached S inv becomes g s.next {d | d.Within e}
        fun g' => Dealt becomes g' e e') fail s)
    (hs : Memo.Processed S inv becomes g s) :
    Job.wp (r.applyAll es) (fun es' => Memo.Reached S inv becomes g s.next (Expr.nodes es)
      fun g' => List.Forall₂ (Dealt becomes g') es es') fail s := by
  induction es generalizing g s with
  | nil =>
    rw [applyAll, Job.wp_pure]
    exact ⟨g, le_refl g, le_refl _, hs, fun _ => Or.inl, .nil⟩
  | cons e es ih =>
    rw [applyAll, Job.wp_bind]
    refine (h e List.mem_cons_self hs).imp fun e' s₁ h₁ => ?_
    obtain ⟨g₁, hg₁, hn₁, hs₁, hinside₁, he'⟩ := h₁
    rw [Job.wp_bind]
    refine (ih (fun x hx => h x (List.mem_cons_of_mem _ hx)) hs₁).imp fun es' s₂ h₂ => ?_
    obtain ⟨g₂, hg₂, hn₂, hs₂, hinside₂, hes'⟩ := h₂
    refine ⟨g₂, hg₁.trans hg₂, hn₁.trans hn₂, hs₂, fun d hd => ?_,
      .cons (hr.mono_dealt hg₂ he') hes'⟩
    rcases hinside₂ d hd with hd | ⟨x, hx, hwithin⟩
    · exact (hinside₁ d hd).imp_right fun hwithin => ⟨e, List.mem_cons_self, hwithin⟩
    · exact Or.inr ⟨x, List.mem_cons_of_mem _ hx, hwithin⟩

/-- **Each node of an expression is dealt with once.** -/
theorem wp_apply (hr : r.KeepsOnce S inv becomes fail)
    (hone : ∀ a ∈ S, ∀ b ∈ S, a.label = b.label → a = b)
    (hclosed : ∀ e ∈ S, ∀ c ∈ e.children, c ∈ S) {e : Expr} (he : e ∈ S)
    (hs : Memo.Processed S inv becomes g s) :
    Job.wp (r.apply e) (fun e' => Memo.Reached S inv becomes g s.next {d | d.Within e}
      fun g' => Dealt becomes g' e e') fail s := by
  induction e using Expr.induction_children generalizing g s with
  | node e ih =>
    rw [apply_eq]
    exact hr.wp_applyNode hone he hs
      (hr.wp_applyAll_of (fun c hc => ih c hc (hclosed e he c hc)) hs)

/-! ## Circuits -/

/-- An edit that deals with each node once is a change of expressions. -/
theorem transforms (hr : r.KeepsOnce S inv becomes fail)
    (hclosed : ∀ e ∈ S, ∀ c ∈ e.children, c ∈ S)
    (hone : ∀ a ∈ S, ∀ b ∈ S, a.label = b.label → a = b)
    (apart : ∀ {g : γ × Set Expr} {s : Session σ} {next : Label} {notices : List Notice}, inv g s →
      s.next ≤ next → inv g ⟨next, notices, s.state⟩)
    (heap : ∀ {g : γ × Set Expr} {s : Session σ}, inv g s → ∃ T, S ⊆ T ∧ Heap T s.next ∧
      ∀ e ∈ S, ∀ e', becomes g.1 e e' → e' ∈ T)
    (ty : ∀ {g : γ} {e e' : Expr}, becomes g e e' → e'.ty = e.ty)
    (zset : ∀ {g : γ} {e e' : Expr}, e ∈ S → becomes g e e' → e.zset?.isSome → e'.zset?.isSome) :
    Transforms r.apply S (Memo.Processed S inv becomes) (Dealt becomes) fail where
  mono hg h := hr.mono_dealt hg h
  apart hs hle := ⟨⟨apart hs.hooks hle, hs.done⟩, hs.subset, hs.remembered, hs.closed⟩
  heap hs := by
    obtain ⟨T, hST, hT, hmem⟩ := heap hs.hooks
    exact ⟨T, hST, hT, fun e he e' h => hmem e he e' h.2⟩
  ty h := ty h.2
  zset he h := zset he h.2
  run hs he := (hr.wp_apply hone hclosed he hs).imp fun _ _ h => by
    obtain ⟨g', hg, hnext, hs', -, hdealt⟩ := h
    exact ⟨g', hg, hnext, hs', hdealt⟩

end KeepsOnce

end ExprEdit

/-- **All nodes of functions and declaration values have been dealt with in the end**, each of them
once. -/
theorem Transforms.wp_editFunctions_once {c : Circuit} {transform : Expr → Run (Memo σ) Expr}
    (ht : Transforms transform c.exprNodes (Memo.Processed c.exprNodes inv becomes)
      (Dealt becomes) fail)
    {hooks : σ} {next : Label} {notices : List Notice} {g : γ} (hc : c.Made next)
    (hstart : inv (g, ∅) ⟨next, notices, hooks⟩) (hfail : (∀ e, fail e) ∨ c.validate = .ok ()) :
    Job.wp (c.editFunctions transform) (fun c' s' =>
      ∃ g', inv (g', c.exprNodes) ⟨s'.next, s'.notices, s'.state.hooks.hooks⟩ ∧
        c.Transformed (becomes g') c' ∧ c'.Made s'.next)
      fail ⟨next, notices, Memo.start (Memo.start hooks)⟩ := by
  refine (ht.wp_editFunctions (fun f => Expr.mem_nodes) hc (g := (g, ∅))
    (Memo.inv_start (Memo.processed_start hstart)) hfail).imp fun c' s' h => ?_
  obtain ⟨⟨g', P⟩, -, hs', hc', hmade⟩ := h
  have hP : P = c.exprNodes := by
    refine Set.Subset.antisymm hs'.hooks.subset (Expr.nodes_subset hs'.hooks.closed fun f hf => ?_)
    obtain ⟨_, -, h⟩ := forall₂_exists_right (Circuit.forall₂_functions hc'.nodes) hf
    exact h.1
  exact ⟨g', hP ▸ hs'.hooks.hooks, hc'.mono fun _ _ h => h.2, hmade⟩

end FlowCircuit
