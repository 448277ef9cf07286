import FlowCircuit.Circuit.Basic

/-!
# The graph of a circuit

Which operator reads which, by number.  An edge runs from an input to its reader, so a topological
order lists inputs first.  The graph exists for every circuit whose numbers are distinct and whose
operators read only operators of the circuit; it may have cycles, because an operator may read a
*copy* of a later one.

What reaches given operators is found by a loop over a stack (`Worklist.run`).  Nothing bounds the
loop but the graph itself: each turn takes one vertex off the stack, and the edges into a vertex are
put there once, when it is visited.  A topological order is left to a sort that is given
(`Graph.topologicalOrder`).
-/

set_option autoImplicit false

namespace FlowCircuit

/-! ## Ascending lists -/

/-- Puts a number into an ascending list, unless it is there. -/
def insertAscending (x : Nat) : List Nat → List Nat
  | [] => [x]
  | y :: ys => if x < y then x :: y :: ys else if x = y then y :: ys else y :: insertAscending x ys

/-- The numbers in ascending order, each once. -/
def ascending (xs : List Nat) : List Nat := xs.foldr insertAscending []

theorem mem_insertAscending {x z : Nat} {ys : List Nat} :
    z ∈ insertAscending x ys ↔ z = x ∨ z ∈ ys := by
  induction ys with
  | nil => simp [insertAscending]
  | cons y ys ih =>
    rw [insertAscending]
    split
    · simp
    · split
      · rename_i h
        simp [h]
      · simp only [List.mem_cons, ih]
        grind

theorem mem_ascending {z : Nat} {xs : List Nat} : z ∈ ascending xs ↔ z ∈ xs := by
  induction xs with
  | nil => simp [ascending]
  | cons x xs ih =>
    have h : ascending (x :: xs) = insertAscending x (ascending xs) := rfl
    rw [h, mem_insertAscending, ih, List.mem_cons]

/-! ## Graphs -/

/-- Numbers of operators, and edges from inputs to readers in the order in which the inputs are
listed. -/
structure Graph where
  ids : List OpId
  edges : List (OpId × OpId)

namespace Graph

/-- The first number that occurred before; `before` are the ones already passed. -/
def duplicate? (before : List OpId) : List OpId → Option OpId
  | [] => none
  | id :: rest => if before.contains id then some id else duplicate? (id :: before) rest

/-- The edges into one operator. -/
def edgesInto (circuit : String) (ids : List OpId) (op : Operator) :
    Except Error (List (OpId × OpId)) :=
  op.inputs.mapM fun input =>
    if ids.contains input.id then .ok (input.id, op.id)
    else .error (.violation (.foreignInput op.id input.id circuit))

/-- The graph of a circuit. -/
def ofCircuit (c : Circuit) : Except Error Graph := do
  let ids := c.operators.map Operator.id
  match duplicate? [] ids with
  | some id => throw (.violation (.duplicateId id c.name))
  | none =>
    let edges ← c.operators.mapM (edgesInto c.name ids)
    return ⟨ids, edges.flatten⟩

variable (g : Graph)

/-- What `id` reads, edge by edge. -/
def inputs (id : OpId) : List OpId :=
  (g.edges.filter fun edge => edge.2 = id).map Prod.fst

/-- What reads `id`, edge by edge. -/
def readers (id : OpId) : List OpId :=
  (g.edges.filter fun edge => edge.1 = id).map Prod.snd

/-- What `id` reads, in ascending order. -/
def dependencies (id : OpId) : List OpId := ascending (g.inputs id)

/-- What reads `id`, in ascending order. -/
def dependents (id : OpId) : List OpId := ascending (g.readers id)

/-- The operators with every input before its readers, as `toposort` lists them.  Where `toposort`
has met a cycle, it says at which operator. -/
def topologicalOrder (toposort : Graph → Except OpId (List OpId)) : Except Error (List OpId) :=
  match toposort g with
  | .ok order => .ok order
  | .error id => .error (.violation (.cycle id))

end Graph

/-! ## What reaches given operators -/

/-- The vertices that were visited, the latest first, and those that are still to be looked at, the
next first. -/
structure Worklist where
  visited : List OpId
  stack : List OpId
deriving DecidableEq

namespace Worklist

variable {g : Graph} {visited : List OpId} {id : OpId} {w w' : Worklist}

/-- One turn of the loop.  The next vertex is taken off the stack.  Unless it was visited before, it
is visited now, and what it reads is put on the stack, edge by edge.  On an empty stack the loop
ends. -/
def step (g : Graph) (w : Worklist) : Option Worklist :=
  match w.stack with
  | [] => none
  | id :: rest =>
    some (if w.visited.contains id then ⟨w.visited, rest⟩
      else ⟨id :: w.visited, g.inputs id ++ rest⟩)

/-- How many turns are left: one for every vertex on the stack, and one for every edge that may
still put one there. -/
def turnsLeft (g : Graph) (w : Worklist) : Nat :=
  w.stack.length + g.edges.countP fun edge => !w.visited.contains edge.2

/-- A visit uses up the edges into its vertex. -/
theorem countP_unvisited (h : id ∉ visited) :
    g.edges.countP (fun edge => !visited.contains edge.2) =
      (g.inputs id).length + g.edges.countP fun edge => !(id :: visited).contains edge.2 := by
  rw [Graph.inputs, List.length_map, ← List.countP_eq_length_filter]
  induction g.edges with
  | nil => rfl
  | cons edge edges ih =>
    simp only [List.countP_cons, ih]
    by_cases hid : edge.2 = id
    · simp [hid, h]
      omega
    · simp [hid]
      omega

/-- Each turn is one of those that were left. -/
theorem turnsLeft_of_step (h : w.step g = some w') : w'.turnsLeft g + 1 = w.turnsLeft g := by
  obtain ⟨visited, stack⟩ := w
  cases stack with
  | nil => cases h
  | cons id rest =>
    cases h
    by_cases hid : id ∈ visited
    · simp only [turnsLeft, List.contains_iff_mem.mpr hid, if_true, List.length_cons]
      omega
    · have hnew : visited.contains id = false := by simpa using hid
      simp only [turnsLeft, hnew, Bool.false_eq_true, if_false, countP_unvisited hid,
        List.length_append, List.length_cons]
      omega

/-- The loop, turn by turn, until the stack is empty. -/
def run (g : Graph) (w : Worklist) : Worklist :=
  match _hstep : w.step g with
  | none => w
  | some w' => run g w'
termination_by w.turnsLeft g
decreasing_by exact Nat.le_of_eq (turnsLeft_of_step _hstep)

end Worklist

namespace Graph

variable (g : Graph)

/-- The loop begins with nothing visited and the roots on the stack, the last on top.  Numbers that
are not in the graph are no roots. -/
def rooted (roots : List OpId) : Worklist := ⟨[], (roots.filter g.ids.contains).reverse⟩

/-- The operators from which one of `roots` can be reached, roots included, in ascending order. -/
def reaching (roots : List OpId) : List OpId := ascending ((g.rooted roots).run g).visited

end Graph

end FlowCircuit
