import FlowCircuit.Circuit.Basic

/-!
# Replacements of nodes

Which node took the place of which.  Nodes are told apart by their labels: two equal nodes that are
not one node have replacements of their own, and two handles to one node have the same.
-/

set_option autoImplicit false

namespace FlowCircuit

/-- Nodes with their replacements, no node twice, the latest first. -/
structure Replacements (α : Type) where
  pairs : List (α × α)

namespace Replacements

variable {α : Type} [Labelled α]

/-- Nothing is replaced. -/
def empty : Replacements α := ⟨[]⟩

/-- The replacement of `old`. -/
def get? (r : Replacements α) (old : α) : Option α :=
  (r.pairs.find? fun pair => identical pair.1 old).map Prod.snd

/-- Whether a node has a replacement. -/
def contains (r : Replacements α) (old : α) : Bool := (r.get? old).isSome

/-- Records `new` in the place of `old`. -/
def insert (r : Replacements α) (old new : α) : Replacements α :=
  ⟨(old, new) :: r.pairs.filter fun pair => !identical pair.1 old⟩

/-- Number of nodes that have a replacement. -/
def size (r : Replacements α) : Nat := r.pairs.length

/-- Whether nothing was replaced so far. -/
def isEmpty (r : Replacements α) : Bool := r.pairs.isEmpty

/-- Number of nodes replaced by another node. -/
def replaced (r : Replacements α) : Nat :=
  (r.pairs.filter fun pair => !identical pair.1 pair.2).length

/-! ## What is recorded is what is found -/

@[simp]
theorem get?_empty (old : α) : (empty : Replacements α).get? old = none := rfl

theorem get?_insert_of_identical {r : Replacements α} {old new other : α}
    (h : identical old other = true) : (r.insert old new).get? other = some new := by
  simp [get?, insert, h]

theorem get?_insert_of_not_identical {r : Replacements α} {old new other : α}
    (h : identical old other = false) : (r.insert old new).get? other = r.get? other := by
  have apart (pair : α × α) (hpair : identical pair.1 other = true) :
      identical pair.1 old = false := by
    simp only [identical, beq_iff_eq, beq_eq_false_iff_ne, ne_eq] at *
    exact fun hold => h (hold.symm.trans hpair)
  simp only [get?, insert, List.find?_cons, h, List.find?_filter]
  congr 2
  funext pair
  cases hp : identical pair.1 other with
  | false => simp
  | true => simp [apart pair hp]

end Replacements

end FlowCircuit
