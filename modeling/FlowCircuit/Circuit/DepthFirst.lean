import FlowCircuit.Circuit.Graph

/-!
# Sorting a graph by depth-first search

A sort that `Graph.topologicalOrder` can be given.  The order is the one in which a depth-first
search along readers leaves the vertices, the last to be left first; a second look finds the cycles.
The length of a path without repetition bounds the recursion.
-/

set_option autoImplicit false

namespace FlowCircuit

/-- Vertices met so far and vertices left for good, the latest first. -/
structure Search where
  seen : List OpId
  left : List OpId

namespace Search

/-- Before the search nothing is met. -/
def start : Search := ⟨[], []⟩

/-- Visits `x`, unless it was met before, and then what `next` leads to, in order.  No path longer
than `depth` is followed. -/
def explore (next : OpId → List OpId) : Nat → Search → OpId → Search
  | 0, s, _ => s
  | depth + 1, s, x =>
    if s.seen.contains x then s
    else
      let s' := (next x).foldl (explore next depth) ⟨x :: s.seen, s.left⟩
      ⟨s'.seen, x :: s'.left⟩

end Search

namespace Graph

variable (g : Graph)

/-- A search along readers, from each vertex in turn. -/
def search : Search := g.ids.foldl (Search.explore g.readers g.ids.length) Search.start

/-- The first operator in `order` that reads something not before it, with what it reads. -/
def firstUnordered? (before : List OpId) : List OpId → Option OpId
  | [] => none
  | id :: rest =>
    match (g.inputs id).find? fun input => !(id :: before).contains input with
    | some input => some input
    | none => firstUnordered? (id :: before) rest

/-- The vertices in the order of the search, the last to be left first.  If there is a cycle, an
operator on the way round it: one that reads itself, the first to be met, or else an input out of
order. -/
def depthFirstOrder : Except OpId (List OpId) :=
  let s := g.search
  match s.seen.reverse.find? fun id => (g.readers id).contains id with
  | some id => .error id
  | none =>
    match g.firstUnordered? [] s.left with
    | some id => .error id
    | none => .ok s.left

end Graph

end FlowCircuit
