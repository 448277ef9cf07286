import FlowCircuit.Edit.Expr
import FlowCircuit.Proofs.Job
import FlowCircuit.Proofs.Labels
import FlowCircuit.Proofs.Typing

/-!
# Expression nodes that exist

A `Heap` is a set of expression nodes as a session leaves it: made with labels of the session,
holding the sub-expressions of its members, and each member typed.  It only ever grows, by a node
over members with the next label (`Heap.insert`).

Rebuilding a node is the one way in which changing an expression allocates.  `Expr.Rebuilt` says
what comes out, whichever way the labels fell: a node of the same type and shape over the new
sub-expressions, which is the old node itself when nothing below it changed.
-/

set_option autoImplicit false

namespace FlowCircuit

/-- Expression nodes that exist in a session whose next unused label is `next`. -/
structure Heap (S : Set Expr) (next : Label) : Prop extends Drawn S next where
  closed : ∀ e ∈ S, ∀ c ∈ e.children, c ∈ S
  typed : ∀ e ∈ S, e.Typed

namespace Heap

variable {S : Set Expr} {next next' : Label}

theorem mono (h : Heap S next) (hle : next ≤ next') : Heap S next' :=
  ⟨h.toDrawn.mono hle, h.closed, h.typed⟩

theorem mem_of_within (h : Heap S next) {d e : Expr} (hd : d.Within e) (he : e ∈ S) : d ∈ S :=
  hd.mem_of_closed h.closed he

theorem wellTyped (h : Heap S next) {e : Expr} (he : e ∈ S) : e.WellTyped :=
  fun d hd => h.typed d (h.mem_of_within hd he)

/-- A typed node over members, made with the next label, is a member from then on. -/
theorem insert {e : Expr} (h : Heap S next) (hl : e.label = next) (hc : ∀ c ∈ e.children, c ∈ S)
    (ht : e.Typed) : Heap (insert e S) (next + 1) := by
  refine ⟨h.toDrawn.insert hl, ?_, ?_⟩
  · rintro x (rfl | hx) c hcx
    · exact Or.inr (hc c hcx)
    · exact Or.inr (h.closed x hx c hcx)
  · rintro x (rfl | hx)
    · exact ht
    · exact h.typed x hx

/-- The nodes of some members are a heap of their own. -/
theorem restrict (h : Heap S next) {T : Set Expr} (hTS : T ⊆ S)
    (hT : ∀ e ∈ T, ∀ c ∈ e.children, c ∈ T) : Heap T next :=
  ⟨h.toDrawn.subset hTS, hT, fun e he => h.typed e (hTS he)⟩

end Heap

/-- The nodes of several expressions. -/
def Expr.nodes (roots : List Expr) : Set Expr := {d | ∃ root ∈ roots, d.Within root}

theorem Expr.nodes_closed (roots : List Expr) :
    ∀ e ∈ nodes roots, ∀ c ∈ e.children, c ∈ nodes roots := by
  rintro e ⟨root, hroot, he⟩ c hc
  exact ⟨root, hroot, (within_of_mem_children hc).trans he⟩

theorem Expr.mem_nodes {roots : List Expr} {e : Expr} (h : e ∈ roots) : e ∈ nodes roots :=
  ⟨e, h, .refl⟩

theorem Expr.nodes_subset {roots : List Expr} {S : Set Expr}
    (hS : ∀ e ∈ S, ∀ c ∈ e.children, c ∈ S) (h : ∀ e ∈ roots, e ∈ S) : nodes roots ⊆ S := by
  rintro d ⟨root, hroot, hd⟩
  exact hd.mem_of_closed hS (h root hroot)

/-- Nodes that are listed once each, sub-expressions included, are a heap. -/
theorem Heap.of_list {l roots : List Expr} {next : Label} (hroots : ∀ e ∈ roots, e ∈ l)
    (hclosed : ∀ e ∈ l, ∀ c ∈ e.children, c ∈ l) (hlabels : (l.map Expr.label).Nodup)
    (hused : ∀ e ∈ l, e.label < next) (htyped : ∀ e ∈ l, e.Typed) :
    Heap (Expr.nodes roots) next := by
  have hall : Heap {e | e ∈ l} next := ⟨.of_list (fun _ h => h) hlabels hused, hclosed, htyped⟩
  exact hall.restrict (Expr.nodes_subset hclosed hroots) (Expr.nodes_closed roots)

/-! ## Rebuilding -/

/-- `e₁` is `e` over the sub-expressions `cs`, and `e` itself when those are the ones it has. -/
structure Expr.Rebuilt (e : Expr) (cs : List Expr) (e₁ : Expr) : Prop where
  ty : e₁.ty = e.ty
  shape : e₁.shape = e.shape
  children : e₁.children = cs
  typed : e₁.Typed
  kept : cs = e.children → e₁ = e

variable {σ : Type} {S : Set Expr} {s : Session σ} {fail : Error → Prop}

/-- **Rebuilding in a heap.**  `hbuild` is what the constructor of the node's sort makes of the new
sub-expressions; it is asked only when one of them is another node. -/
theorem wp_rebuild {e : Expr} {cs : List Expr} (hS : Heap S s.next) (he : e ∈ S)
    (hcs : ∀ c ∈ cs, c ∈ S) (hlen : cs.length = e.children.length)
    (hbuild : e.children ≠ [] → e.Accepts s.next cs) :
    Job.wp (ExprEdit.rebuild e cs) (fun e₁ s' => ∃ S', S ⊆ S' ∧ Heap S' s'.next ∧ e₁ ∈ S' ∧
      e.Rebuilt cs e₁ ∧ s.next ≤ s'.next ∧ s'.state = s.state) fail s := by
  rw [ExprEdit.rebuild]
  split
  · rename_i hlabels
    have hsame : e.children = cs := hS.eq_of_labels (hS.closed e he) hcs hlabels
    exact ⟨S, Set.Subset.rfl, hS, he, ⟨rfl, rfl, hsame, hS.typed e he, fun _ => rfl⟩,
      le_refl _, rfl⟩
  · rename_i hlabels
    have hne : cs ≠ e.children := fun h => hlabels (by rw [h])
    have hchildren : e.children ≠ [] := by
      intro h
      rw [h] at hlen
      exact hne (by rw [h, List.length_eq_zero_iff.mp hlen])
    obtain ⟨e₁, hmade, hl, hty, hshape, hc, ht⟩ := hbuild hchildren
    refine Job.wp_make_ok hmade ⟨insert e₁ S, Set.subset_insert e₁ S, ?_, Set.mem_insert e₁ S,
      ⟨hty, hshape, hc, ht, fun h => absurd h hne⟩, Nat.le_succ _, rfl⟩
    exact hS.insert hl (by rw [hc]; exact hcs) ht

end FlowCircuit
