import FlowCircuit.Proofs.Heap
import Mathlib.Order.Basic

/-!
# What an edit of expressions keeps

Changing an expression goes from the leaves up and remembers by label what became of each node.
This file says once what that does, for any hooks: if `becomes` relates a node to its replacement
whenever it relates the sub-expressions (`ExprEdit.Keeps`), it relates every expression to what the
whole run makes of it (`ExprEdit.Keeps.wp_apply`), and everything remembered stays right for the
runs that follow.

The relation may speak of things that grow as the run goes on, such as the nodes made so far.  They
are the index `g`: replacements stay related when the index grows.
-/

set_option autoImplicit false

namespace FlowCircuit

variable {σ γ : Type}

/-! ## What is remembered -/

/-- The hooks are in order, and all that is remembered is right. -/
structure Memo.Inv (S : Set Expr) (inv : γ → Session σ → Prop) (becomes : γ → Expr → Expr → Prop)
    (g : γ) (s : Session (Memo σ)) : Prop where
  hooks : inv g ⟨s.next, s.notices, s.state.hooks⟩
  done : ∀ pair ∈ s.state.done.pairs, pair.1 ∈ S ∧ becomes g pair.1 pair.2

variable {S : Set Expr} {inv : γ → Session σ → Prop} {becomes : γ → Expr → Expr → Prop}
  {fail : Error → Prop} {g : γ} {s : Session (Memo σ)}

theorem Memo.inv_start {hooks : σ} {next : Label} {notices : List Notice}
    (h : inv g ⟨next, notices, hooks⟩) :
    Memo.Inv S inv becomes g ⟨next, notices, Memo.start hooks⟩ :=
  ⟨h, fun _ hpair => absurd hpair List.not_mem_nil⟩

/-- What hooks do leaves the record as it is. -/
theorem Memo.Inv.mono {g' : γ} (hs : Memo.Inv S inv becomes g s)
    (hmono : ∀ e e', becomes g e e' → becomes g' e e') {t : Session σ} (ht : inv g' t) :
    Memo.Inv S inv becomes g' ⟨t.next, t.notices, { s.state with hooks := t.state }⟩ :=
  ⟨ht, fun pair hpair => ⟨(hs.done pair hpair).1, hmono _ _ (hs.done pair hpair).2⟩⟩

/-- Asking a hook runs it on its own part of the state. -/
theorem Memo.wp_ask {α : Type} {hook : Run σ α} {post : α → Session (Memo σ) → Prop} :
    Job.wp (Memo.ask hook) post fail s ↔
      Job.wp hook (fun a t => post a ⟨t.next, t.notices, { s.state with hooks := t.state }⟩) fail
        ⟨s.next, s.notices, s.state.hooks⟩ :=
  Job.wp_onPart

variable [Preorder γ]

/-- Index and labels have grown, the session is in order, and `e` became `e'`. -/
def Memo.Result (S : Set Expr) (inv : γ → Session σ → Prop) (becomes : γ → Expr → Expr → Prop)
    (g : γ) (next : Label) (e e' : Expr) (s : Session (Memo σ)) : Prop :=
  ∃ g', g ≤ g' ∧ next ≤ s.next ∧ Memo.Inv S inv becomes g' s ∧ becomes g' e e'

/-- What is remembered for a node is right for it, and what is computed instead is remembered. -/
theorem Memo.wp_remember {e : Expr} {compute : Run (Memo σ) Expr}
    (hone : ∀ a ∈ S, ∀ b ∈ S, a.label = b.label → a = b) (he : e ∈ S)
    (hs : Memo.Inv S inv becomes g s)
    (hcompute : Job.wp compute (Memo.Result S inv becomes g s.next e) fail s) :
    Job.wp (Memo.remember e compute) (Memo.Result S inv becomes g s.next e) fail s := by
  rw [Memo.remember, Job.wp_bind, Job.wp_state]
  split
  · rename_i e' hget
    obtain ⟨pair, hpair, hid, rfl⟩ := Replacements.mem_of_get? hget
    obtain ⟨hold, hbecomes⟩ := hs.done pair hpair
    have hsame : pair.1 = e := hone _ hold _ he (identical_iff.mp hid)
    exact ⟨g, le_refl g, le_refl _, hs, hsame ▸ hbecomes⟩
  · rw [Job.wp_bind]
    refine hcompute.imp fun e' s' h => ?_
    obtain ⟨g', hg, hnext, hs', hbecomes⟩ := h
    rw [Job.wp_bind, Job.wp_update]
    refine ⟨g', hg, hnext, ⟨hs'.hooks, fun pair hpair => ?_⟩, hbecomes⟩
    rcases Replacements.mem_insert hpair with rfl | hold
    · exact ⟨he, hbecomes⟩
    · exact hs'.done pair hold

/-! ## From one node to whole expressions -/

namespace ExprEdit

variable {r : ExprEdit σ}

/-- The hooks keep `inv` and give no label back, and relate a node of `S` to its replacement when
its sub-expressions are related to theirs. -/
structure Keeps (r : ExprEdit σ) (S : Set Expr) (inv : γ → Session σ → Prop)
    (becomes : γ → Expr → Expr → Prop) (fail : Error → Prop) : Prop where
  mono : ∀ {g g' : γ} {e e' : Expr}, g ≤ g' → becomes g e e' → becomes g' e e'
  before : ∀ {g : γ} {s : Session σ} {e : Expr}, inv g s → e ∈ S →
    Job.wp (r.before e) (fun found s' => ∃ g', g ≤ g' ∧ s.next ≤ s'.next ∧ inv g' s' ∧
      ∀ e' ∈ found, becomes g' e e') fail s
  after : ∀ {g : γ} {s : Session σ} {e : Expr} {cs : List Expr}, inv g s → e ∈ S →
    List.Forall₂ (becomes g) e.children cs →
    Job.wp (rebuild e cs >>= r.after) (fun e' s' => ∃ g', g ≤ g' ∧ s.next ≤ s'.next ∧ inv g' s' ∧
      becomes g' e e') fail s

/-- Rebuilding does not look at the state, so it may as well be done by a hook. -/
theorem rebuild_eq_ask (e : Expr) (cs : List Expr) :
    (rebuild e cs : Run (Memo σ) Expr) = Memo.ask (rebuild e cs) := by
  rw [rebuild, rebuild]
  split <;> rfl

namespace Keeps

/-- The step from the sub-expressions of a node to the node. -/
theorem wp_applyNode (hr : r.Keeps S inv becomes fail)
    (hone : ∀ a ∈ S, ∀ b ∈ S, a.label = b.label → a = b) {e : Expr} (he : e ∈ S)
    (hs : Memo.Inv S inv becomes g s) {below : Run (Memo σ) (List Expr)}
    (hbelow : ∀ {g : γ} {s : Session (Memo σ)}, Memo.Inv S inv becomes g s →
      Job.wp below (fun cs s' => ∃ g', g ≤ g' ∧ s.next ≤ s'.next ∧ Memo.Inv S inv becomes g' s' ∧
        List.Forall₂ (becomes g') e.children cs) fail s) :
    Job.wp (r.applyNode e below) (Memo.Result S inv becomes g s.next e) fail s := by
  refine Memo.wp_remember hone he hs ?_
  rw [Job.wp_bind, Memo.wp_ask]
  refine (hr.before hs.hooks he).imp fun found t h => ?_
  obtain ⟨g₁, hg₁, hn₁, ht, hfound⟩ := h
  have hs₁ := hs.mono (fun _ _ => hr.mono hg₁) ht
  cases found with
  | some e' => exact ⟨g₁, hg₁, hn₁, hs₁, hfound e' rfl⟩
  | none =>
    rw [Job.wp_bind]
    refine (hbelow hs₁).imp fun cs s₂ h => ?_
    obtain ⟨g₂, hg₂, hn₂, hs₂, hcs⟩ := h
    rw [Job.wp_bind, rebuild_eq_ask, Memo.wp_ask]
    have hafter := hr.after hs₂.hooks he hcs
    rw [Job.wp_bind] at hafter
    refine hafter.imp fun e₁ t₁ h₁ => ?_
    rw [Memo.wp_ask]
    refine h₁.imp fun e' t₂ h₂ => ?_
    obtain ⟨g₃, hg₃, hn₃, ht₃, hbecomes⟩ := h₂
    exact ⟨g₃, (hg₁.trans hg₂).trans hg₃, (hn₁.trans hn₂).trans hn₃,
      hs₂.mono (fun _ _ => hr.mono hg₃) ht₃, hbecomes⟩

/-- Expressions that are each handled are handled one after another. -/
theorem wp_applyAll_of (hr : r.Keeps S inv becomes fail) {es : List Expr}
    (h : ∀ e ∈ es, ∀ {g : γ} {s : Session (Memo σ)}, Memo.Inv S inv becomes g s →
      Job.wp (r.apply e) (Memo.Result S inv becomes g s.next e) fail s)
    (hs : Memo.Inv S inv becomes g s) :
    Job.wp (r.applyAll es) (fun es' s' => ∃ g', g ≤ g' ∧ s.next ≤ s'.next ∧
      Memo.Inv S inv becomes g' s' ∧ List.Forall₂ (becomes g') es es') fail s := by
  induction es generalizing g s with
  | nil =>
    rw [applyAll, Job.wp_pure]
    exact ⟨g, le_refl g, le_refl _, hs, .nil⟩
  | cons e es ih =>
    rw [applyAll, Job.wp_bind]
    refine (h e List.mem_cons_self hs).imp fun e' s₁ h₁ => ?_
    obtain ⟨g₁, hg₁, hn₁, hs₁, he'⟩ := h₁
    rw [Job.wp_bind]
    refine (ih (fun x hx => h x (List.mem_cons_of_mem _ hx)) hs₁).imp fun es' s₂ h₂ => ?_
    obtain ⟨g₂, hg₂, hn₂, hs₂, hes'⟩ := h₂
    exact ⟨g₂, hg₁.trans hg₂, hn₁.trans hn₂, hs₂, .cons (hr.mono hg₂ he') hes'⟩

variable (hr : r.Keeps S inv becomes fail)
  (hone : ∀ a ∈ S, ∀ b ∈ S, a.label = b.label → a = b)
  (hclosed : ∀ e ∈ S, ∀ c ∈ e.children, c ∈ S)

include hr hone hclosed

/-- **An expression becomes what its nodes become.** -/
theorem wp_apply {e : Expr} (he : e ∈ S) (hs : Memo.Inv S inv becomes g s) :
    Job.wp (r.apply e) (Memo.Result S inv becomes g s.next e) fail s := by
  induction e using Expr.induction_children generalizing g s with
  | node e ih =>
    rw [apply_eq]
    refine hr.wp_applyNode hone he hs fun hs' => ?_
    exact hr.wp_applyAll_of (fun c hc => ih c hc (hclosed e he c hc)) hs'

/-- So do several, one after another. -/
theorem wp_applyAll {es : List Expr} (hes : ∀ e ∈ es, e ∈ S)
    (hs : Memo.Inv S inv becomes g s) :
    Job.wp (r.applyAll es) (fun es' s' => ∃ g', g ≤ g' ∧ s.next ≤ s'.next ∧
      Memo.Inv S inv becomes g' s' ∧ List.Forall₂ (becomes g') es es') fail s :=
  hr.wp_applyAll_of (fun e he => hr.wp_apply hone hclosed (hes e he)) hs

end Keeps

end ExprEdit

end FlowCircuit
