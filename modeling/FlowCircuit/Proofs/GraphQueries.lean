import FlowCircuit.Proofs.Liveness

/-!
# What is asked of a graph

A circuit has a graph exactly when its numbers are distinct and every operator reads only numbers of
the circuit (`Circuit.ofCircuit_eq_ok_iff`).  The graph may have cycles, since a number can stand
for a copy, and an edge occurs as often as an input is listed.

The answers to questions about a graph are lists in ascending order that hold each number once.
This file says which numbers they hold, in terms of the circuit alone (`Graph.queries_exact`).
-/

set_option autoImplicit false

namespace FlowCircuit

/-! ## Ascending lists -/

theorem pairwise_insertAscending {x : Nat} {ys : List Nat} (h : ys.Pairwise (· < ·)) :
    (insertAscending x ys).Pairwise (· < ·) := by
  induction ys with
  | nil => exact List.pairwise_singleton _ x
  | cons y ys ih =>
    obtain ⟨hy, hys⟩ := List.pairwise_cons.mp h
    rw [insertAscending]
    split
    · rename_i hxy
      exact List.pairwise_cons.mpr
        ⟨List.forall_mem_cons.mpr ⟨hxy, fun z hz => hxy.trans (hy z hz)⟩, h⟩
    · split
      · exact h
      · refine List.pairwise_cons.mpr ⟨fun z hz => ?_, ih hys⟩
        rcases mem_insertAscending.mp hz with rfl | hz
        · omega
        · exact hy z hz

theorem pairwise_ascending (xs : List Nat) : (ascending xs).Pairwise (· < ·) := by
  induction xs with
  | nil => exact .nil
  | cons x xs ih => exact pairwise_insertAscending ih

/-! ## Circuits that have a graph -/

namespace Graph

variable {g : Graph} {a b : OpId}

theorem mem_inputs_iff : a ∈ g.inputs b ↔ (a, b) ∈ g.edges := by
  simp [inputs]

theorem mem_readers_iff : b ∈ g.readers a ↔ (a, b) ∈ g.edges := by
  simp [readers]

end Graph

/-- In a list of successes every element succeeds. -/
theorem exists_ok_of_mapM {ε α β : Type} {f : α → Except ε β} {as : List α} {bs : List β}
    (h : as.mapM f = .ok bs) {a : α} (ha : a ∈ as) : ∃ b, f a = .ok b := by
  induction as generalizing bs with
  | nil => cases ha
  | cons x xs ih =>
    rw [List.mapM_cons] at h
    cases hx : f x with
    | error e =>
      rw [hx] at h
      cases h
    | ok b =>
      cases hxs : xs.mapM f with
      | error e =>
        rw [hx, hxs] at h
        cases h
      | ok bs' =>
        rcases List.mem_cons.mp ha with rfl | ha
        · exact ⟨b, hx⟩
        · exact ih hxs ha

namespace Circuit

variable {c : Circuit} {g : Graph} {a b id : OpId}

/-- The operator numbered `b` reads one numbered `a`. -/
def ReaderEdge (c : Circuit) (a b : OpId) : Prop :=
  ∃ op ∈ c.operators, op.id = b ∧ a ∈ op.inputs.map Operator.id

/-- **Which circuits have a graph.** -/
theorem ofCircuit_eq_ok_iff :
    Graph.ofCircuit c = .ok g ↔ ((c.operators.map Operator.id).Nodup ∧
      ∀ a b, c.ReaderEdge a b → a ∈ c.operators.map Operator.id) ∧ g = c.graph := by
  constructor
  · intro h
    suffices hc : (c.operators.map Operator.id).Nodup ∧
        ∀ op ∈ c.operators, ∀ input ∈ op.inputs, input.id ∈ c.operators.map Operator.id by
      refine ⟨⟨hc.1, ?_⟩, Except.ok.inj (h.symm.trans (ofCircuit_eq_ok hc.1 hc.2))⟩
      rintro a b ⟨op, hop, -, ha⟩
      obtain ⟨input, hinput, rfl⟩ := List.mem_map.mp ha
      exact hc.2 op hop input hinput
    rw [Graph.ofCircuit] at h
    cases hduplicate : Graph.duplicate? [] (c.operators.map Operator.id) with
    | some id =>
      simp only [hduplicate] at h
      cases h
    | none =>
      simp only [hduplicate] at h
      refine ⟨(Graph.duplicate?_eq_none_iff.mp hduplicate).1, fun op hop input hinput => ?_⟩
      cases hedges : c.operators.mapM (Graph.edgesInto c.name (c.operators.map Operator.id)) with
      | error e =>
        simp only [hedges] at h
        cases h
      | ok edges =>
        obtain ⟨into, hinto⟩ := exists_ok_of_mapM hedges hop
        obtain ⟨edge, hedge⟩ := exists_ok_of_mapM hinto hinput
        split at hedge
        · rename_i hknown
          simpa using hknown
        · cases hedge
  · rintro ⟨⟨hids, hinputs⟩, rfl⟩
    exact ofCircuit_eq_ok hids fun op hop input hinput =>
      hinputs input.id op.id ⟨op, hop, rfl, List.mem_map_of_mem hinput⟩

theorem mem_edges_graph_iff : (a, b) ∈ c.graph.edges ↔ c.ReaderEdge a b := by
  simp only [graph, ReaderEdge, List.mem_map, List.mem_flatMap, Prod.mk.injEq]
  constructor
  · rintro ⟨op, hop, input, hinput, rfl, rfl⟩
    exact ⟨op, hop, rfl, input, hinput, rfl⟩
  · rintro ⟨op, hop, rfl, input, hinput, rfl⟩
    exact ⟨op, hop, input, hinput, rfl, rfl⟩

/-- Where numbers are distinct, an operator is found by its number. -/
theorem operator?_eq_some_iff (hids : (c.operators.map Operator.id).Nodup) {op : Operator} :
    c.operator? id = some op ↔ op ∈ c.operators ∧ op.id = id := by
  constructor
  · intro h
    exact ⟨List.mem_of_find?_eq_some h, by simpa using List.find?_some h⟩
  · rintro ⟨hop, rfl⟩
    cases hfind : c.operator? op.id with
    | none => simpa using List.find?_eq_none.mp hfind op hop
    | some found =>
      have hfound : found ∈ c.operators := List.mem_of_find?_eq_some hfind
      have hid : found.id = op.id := by simpa using List.find?_some hfind
      rw [List.inj_on_of_nodup_map hids hfound hop hid]

end Circuit

/-! ## Answers -/

namespace Circuit

variable {c : Circuit} {a b id : OpId} {roots : List OpId}

theorem mem_dependencies_iff : a ∈ c.graph.dependencies b ↔ c.ReaderEdge a b := by
  rw [Graph.dependencies, mem_ascending, Graph.mem_inputs_iff, mem_edges_graph_iff]

theorem mem_dependents_iff : b ∈ c.graph.dependents a ↔ c.ReaderEdge a b := by
  rw [Graph.dependents, mem_ascending, Graph.mem_readers_iff, mem_edges_graph_iff]

/-- Going back along inputs is going forth along readers. -/
theorem leads_inputs_iff : Leads c.graph.inputs b a ↔ Relation.ReflTransGen c.ReaderEdge a b := by
  have hswap : (fun x y => y ∈ c.graph.inputs x) = Function.swap c.ReaderEdge :=
    funext₂ fun x y => propext (Graph.mem_inputs_iff.trans mem_edges_graph_iff)
  rw [Leads, hswap, Relation.reflTransGen_swap]

/-- What reaches the roots is on the way to one of them, and belongs to the circuit with it. -/
theorem mem_reaching_graph_iff
    (hinputs : ∀ a b, c.ReaderEdge a b → a ∈ c.operators.map Operator.id) :
    id ∈ c.graph.reaching roots ↔ id ∈ c.operators.map Operator.id ∧
      ∃ root ∈ roots, root ∈ c.operators.map Operator.id ∧
        Relation.ReflTransGen c.ReaderEdge id root := by
  simp only [Graph.mem_reaching_iff, leads_inputs_iff]
  constructor
  · rintro ⟨root, hroot, hknown, hpath⟩
    refine ⟨?_, root, hroot, hknown, hpath⟩
    rcases Relation.ReflTransGen.cases_head hpath with rfl | ⟨reader, hfirst, -⟩
    · exact hknown
    · exact hinputs id reader hfirst
  · rintro ⟨-, hroot⟩
    exact hroot

end Circuit

/-- **The answers are exact**, whatever cycles there are.  What an operator reads, what reads it,
and from where given operators can be reached along readers: each answer is a list in strictly
ascending order that holds just the numbers asked for.  The loop behind the last answer ends: after
no more turns than there are roots and edges its stack is empty, and what it has visited by then is
the answer. -/
theorem Graph.queries_exact {c : Circuit} {g : Graph} (hg : Graph.ofCircuit c = .ok g) :
    (∀ id, (g.dependencies id).Pairwise (· < ·) ∧ ∀ x, x ∈ g.dependencies id ↔
      ∃ op, c.operator? id = some op ∧ x ∈ op.inputs.map Operator.id) ∧
    (∀ id, (g.dependents id).Pairwise (· < ·) ∧ ∀ x, x ∈ g.dependents id ↔
      ∃ op ∈ c.operators, op.id = x ∧ id ∈ op.inputs.map Operator.id) ∧
    (∀ a b, a ∈ g.dependencies b ↔ b ∈ g.dependents a) ∧
    ∀ roots, (g.reaching roots).Pairwise (· < ·) ∧
      (∀ id, id ∈ g.reaching roots ↔ id ∈ c.operators.map Operator.id ∧
        ∃ root ∈ roots, root ∈ c.operators.map Operator.id ∧
          Relation.ReflTransGen c.ReaderEdge id root) ∧
      ∃ n ≤ roots.length + g.edges.length, ∃ last, Worklist.Turns g n (g.rooted roots) last ∧
        last.step g = none ∧ g.reaching roots = ascending last.visited := by
  obtain ⟨⟨hids, hinputs⟩, rfl⟩ := Circuit.ofCircuit_eq_ok_iff.mp hg
  refine ⟨fun id => ⟨pairwise_ascending _, fun x => ?_⟩,
    fun id => ⟨pairwise_ascending _, fun x => ?_⟩, fun a b => ?_,
    fun roots => ⟨pairwise_ascending _, fun id => ?_, ?_⟩⟩
  · simp only [Circuit.mem_dependencies_iff, Circuit.ReaderEdge, Circuit.operator?_eq_some_iff hids,
      and_assoc]
  · exact Circuit.mem_dependents_iff
  · rw [Circuit.mem_dependencies_iff, Circuit.mem_dependents_iff]
  · exact Circuit.mem_reaching_graph_iff hinputs
  · obtain ⟨hempty, n, hn, hturns⟩ := Worklist.turns_run c.graph (c.graph.rooted roots)
    exact ⟨n, hn.trans Graph.turnsLeft_rooted_le, _, hturns, Worklist.step_eq_none_iff.mpr hempty,
      rfl⟩

namespace Loop

/-! An operator reads a copy of one that stands behind it and reads it twice over: by number, a
cycle. -/

/-- A copy with the number of a later operator. -/
def copy : Operator := ⟨0, 7, .source "in", Sample.stream, none, none, []⟩

/-- Reads the copy. -/
def first : Operator := ⟨1, 3, .negate, Sample.stream, none, none, [copy]⟩

/-- Reads the first operator twice. -/
def second : Operator := ⟨2, 7, .sum, Sample.stream, none, none, [first, first]⟩

/-- Is on no cycle. -/
def aside : Operator := ⟨3, 5, .negate, Sample.stream, none, none, [second]⟩

/-- Three operators in order; the copy is not listed. -/
def circuit : Circuit := ⟨"loop", [.operator first, .operator second, .operator aside]⟩

/-- Their graph, with one edge twice. -/
def graph : Graph := ⟨[3, 7, 5], [(7, 3), (3, 7), (3, 7), (7, 5)]⟩

theorem ofCircuit_circuit : Graph.ofCircuit circuit = .ok graph := rfl

end Loop

theorem Graph.queries_exact_loop :
    Graph.ofCircuit Loop.circuit = .ok Loop.graph ∧ Loop.graph.dependencies 7 = [3] ∧
      Loop.graph.dependents 7 = [3, 5] ∧ Loop.graph.reaching [8, 3, 3] = [3, 7] ∧
      (∀ id, id ∈ Loop.graph.reaching [8, 3, 3] ↔ id ∈ Loop.circuit.operators.map Operator.id ∧
        ∃ root ∈ [8, 3, 3], root ∈ Loop.circuit.operators.map Operator.id ∧
          Relation.ReflTransGen Loop.circuit.ReaderEdge id root) :=
  ⟨Loop.ofCircuit_circuit, by decide, by decide, by decide +kernel,
    ((Graph.queries_exact Loop.ofCircuit_circuit).2.2.2 [8, 3, 3]).2.1⟩

end FlowCircuit
