import FlowCircuit.Edit.Expr

/-!
# Sharing equal expressions

Equal expressions in the functions and declaration values of a circuit are made one node, from the
leaves up.  Once the sub-expressions of a node are shared, the node is replaced by the first one
found with the same payload over the same child nodes, or becomes the one that later nodes are
replaced by.

Nodes that others are replaced by are kept in buckets, by sort of node and type, and only the bucket
of a node is searched for it.
-/

set_option autoImplicit false

namespace FlowCircuit.Dedup

/-- The name of the pass in what it reports. -/
def name : String := "dedup"

/-- Nodes of one sort and type that others are replaced by, in the order in which they were met. -/
structure Bucket where
  kind : String
  ty : Ty
  nodes : List Expr

/-- Whether a node belongs into the bucket. -/
def Bucket.isFor (b : Bucket) (e : Expr) : Bool := b.kind = e.kindName && b.ty.same e.ty

/-- The buckets, and how many nodes have been replaced. -/
structure Table where
  buckets : List Bucket
  merged : Nat

namespace Table

/-- At first there is no bucket. -/
def start : Table := ⟨[], 0⟩

/-- The nodes in the bucket for `e`, which is empty as long as it was not needed. -/
def bucket (t : Table) (e : Expr) : List Expr :=
  match t.buckets.find? fun b => b.isFor e with
  | some b => b.nodes
  | none => []

/-- The buckets with `e` at the end of its own. -/
def filed (e : Expr) : List Bucket → List Bucket
  | [] => [⟨e.kindName, e.ty, [e]⟩]
  | b :: bs => if b.isFor e then { b with nodes := b.nodes ++ [e] } :: bs else b :: filed e bs

/-- Puts `e` into its bucket. -/
def file (t : Table) (e : Expr) : Table := { t with buckets := filed e t.buckets }

/-- How many nodes there are in all buckets. -/
def size (t : Table) : Nat := t.buckets.foldr (fun b n => b.nodes.length + n) 0

/-- The nodes of all buckets. -/
def canonical (t : Table) : List Expr := t.buckets.flatMap Bucket.nodes

theorem size_eq (t : Table) : t.size = t.canonical.length := by
  rw [size, canonical]
  induction t.buckets with
  | nil => rfl
  | cons b bs ih => rw [List.foldr_cons, ih, List.flatMap_cons, List.length_append]

theorem mem_canonical_of_mem_bucket {t : Table} {e known : Expr} (h : known ∈ t.bucket e) :
    known ∈ t.canonical := by
  rw [bucket] at h
  split at h
  · rename_i b hfind
    exact List.mem_flatMap.mpr ⟨b, List.mem_of_find?_eq_some hfind, h⟩
  · cases h

/-- A node that is put into its bucket joins the others. -/
theorem canonical_file (t : Table) (e : Expr) : (t.file e).canonical.Perm (e :: t.canonical) := by
  have hfiled (bs : List Bucket) :
      ((filed e bs).flatMap Bucket.nodes).Perm (e :: bs.flatMap Bucket.nodes) := by
    induction bs with
    | nil => exact .refl _
    | cons b bs ih =>
      rw [filed]
      split
      · rw [List.flatMap_cons, List.flatMap_cons, List.append_assoc]
        exact List.perm_middle
      · rw [List.flatMap_cons, List.flatMap_cons]
        exact (ih.append_left b.nodes).trans List.perm_middle
  exact hfiled t.buckets

theorem mem_canonical_file {t : Table} {e known : Expr} :
    known ∈ (t.file e).canonical ↔ known = e ∨ known ∈ t.canonical :=
  (canonical_file t e).mem_iff.trans List.mem_cons

end Table

/-- The edit that shares. -/
def edit : ExprEdit Table where
  after e := do
    let table ← Job.state
    match (table.bucket e).find? fun known => known.shallowSame e with
    | some known =>
      if !identical known e then
        Job.report (.merged name e)
        Job.update fun t => { t with merged := t.merged + 1 }
      return known
    | none =>
      Job.update fun t => t.file e
      return e

/-- Shares equal expressions in all functions and declaration values. -/
def run (c : Circuit) : Run Unit Circuit := do
  let (result, memo) ←
    Job.withState (Memo.start (Memo.start Table.start)) (c.editFunctions edit.apply)
  let table := memo.hooks.hooks
  Job.report (.duplicatesMerged name table.size table.merged c.name)
  return result

end FlowCircuit.Dedup
