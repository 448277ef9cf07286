import FlowCircuit.Edit.Replacements
import Mathlib.Data.List.Nodup
import Mathlib.Data.Set.Insert

/-!
# Labels that speak for nodes

A label says which node a handle leads to.  For that, the nodes in play have to be nodes that were
really made in one session: no label was given out twice, and none is still to be given out.
`Drawn S next` says so of a set of nodes; it survives the making of a node with the next label
(`Drawn.insert`), and under it two lists of handles with the same labels are one list, contents and
all (`Drawn.eq_of_labels`).

The second half is what a table of replacements knows under that reading: an entry found for a node
is an entry of that node.
-/

set_option autoImplicit false

namespace FlowCircuit

variable {α : Type} [Labelled α]

theorem identical_iff {a b : α} :
    identical a b = true ↔ Labelled.label a = Labelled.label b := beq_iff_eq

/-- Nodes made in a session whose next unused label is `next`. -/
structure Drawn (S : Set α) (next : Label) : Prop where
  /-- Equal labels mean one node. -/
  one : ∀ a ∈ S, ∀ b ∈ S, Labelled.label a = Labelled.label b → a = b
  /-- Labels that are still to be given out are not in use. -/
  used : ∀ a ∈ S, Labelled.label a < next

namespace Drawn

variable {S T : Set α} {next next' : Label}

theorem subset (h : Drawn T next) (hST : S ⊆ T) : Drawn S next :=
  ⟨fun a ha b hb => h.one a (hST ha) b (hST hb), fun a ha => h.used a (hST ha)⟩

/-- Nodes that are listed once each. -/
theorem of_list {l : List α} (hS : ∀ a ∈ S, a ∈ l) (hlabels : (l.map Labelled.label).Nodup)
    (hused : ∀ a ∈ l, Labelled.label a < next) : Drawn S next :=
  ⟨fun _ ha _ hb h => List.inj_on_of_nodup_map hlabels (hS _ ha) (hS _ hb) h,
    fun a ha => hused a (hS a ha)⟩

theorem mono (h : Drawn S next) (hle : next ≤ next') : Drawn S next' :=
  ⟨h.one, fun a ha => Nat.lt_of_lt_of_le (h.used a ha) hle⟩

/-- A node made with the next label joins the others. -/
theorem insert {a : α} (h : Drawn S next) (ha : Labelled.label a = next) :
    Drawn (insert a S) (next + 1) := by
  refine ⟨?_, ?_⟩
  · rintro x (rfl | hx) y (rfl | hy) hxy
    · rfl
    · exact absurd (h.used y hy) (by rw [← hxy, ha]; exact Nat.lt_irrefl next)
    · exact absurd (h.used x hx) (by rw [hxy, ha]; exact Nat.lt_irrefl next)
    · exact h.one x hx y hy hxy
  · rintro x (rfl | hx)
    · rw [ha]
      exact Nat.lt_succ_self next
    · exact Nat.lt_succ_of_lt (h.used x hx)

/-- Two lists of nodes with the same labels are one list. -/
theorem eq_of_labels (h : Drawn S next) {as bs : List α} (has : ∀ a ∈ as, a ∈ S)
    (hbs : ∀ b ∈ bs, b ∈ S) (hl : as.map Labelled.label = bs.map Labelled.label) : as = bs := by
  refine List.ext_getElem (by simpa using congrArg List.length hl) fun i hi hi' => ?_
  refine h.one _ (has _ (List.getElem_mem hi)) _ (hbs _ (List.getElem_mem hi')) ?_
  have := congrArg (fun l => l[i]?) hl
  simpa [hi, hi'] using this

end Drawn

/-! ## Tables of replacements -/

namespace Replacements

variable {r : Replacements α} {old new : α}

/-- What is found for a node was recorded for a node of the same label. -/
theorem mem_of_get? (h : r.get? old = some new) :
    ∃ pair ∈ r.pairs, identical pair.1 old = true ∧ pair.2 = new := by
  rw [get?, Option.map_eq_some_iff] at h
  obtain ⟨pair, hfind, hnew⟩ := h
  exact ⟨pair, List.mem_of_find?_eq_some hfind, by simpa using List.find?_some hfind, hnew⟩

/-- Handles to one node find the same. -/
theorem get?_congr {old' : α} (h : Labelled.label old = Labelled.label old') :
    r.get? old = r.get? old' := by
  rw [get?, get?]
  simp only [identical, h]

theorem get?_insert {other : α} :
    (r.insert old new).get? other =
      if Labelled.label old = Labelled.label other then some new else r.get? other := by
  split
  case isTrue h => exact get?_insert_of_identical (identical_iff.mpr h)
  case isFalse h =>
    exact get?_insert_of_not_identical (Bool.eq_false_iff.mpr fun h' => h (identical_iff.mp h'))

theorem mem_insert {pair : α × α} (h : pair ∈ (r.insert old new).pairs) :
    pair = (old, new) ∨ pair ∈ r.pairs := by
  rw [insert, List.mem_cons] at h
  exact h.imp_right fun h' => (List.mem_filter.mp h').1

end Replacements

end FlowCircuit
