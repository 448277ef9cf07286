import FlowCircuit.Proofs.DepthFirst
import FlowCircuit.Proofs.GraphQueries

/-!
# Inputs before their readers

A sort of graphs that finds a topological order wherever there is no cycle, and nothing else
(`Graph.IsToposort`), lists the operators of a circuit with every input before its readers
(`Circuit.inputs_before_readers`).  A well-formed circuit lists its operators in such an order
already, which is why its graph has no cycle, although the graph knows neither places nor labels
(`Circuit.sorted_of_validate`).

The sort by depth-first search is such a sort (`Graph.isToposort_depthFirstOrder`).
-/

set_option autoImplicit false

namespace FlowCircuit

namespace Graph

variable {g : Graph} {order : List OpId}

/-- The edges join vertices, and no vertex is listed twice. -/
structure WellFormed (g : Graph) : Prop where
  ids : g.ids.Nodup
  edges : ∀ edge ∈ g.edges, edge.1 ∈ g.ids ∧ edge.2 ∈ g.ids

/-- There is no way round along readers. -/
def Acyclic (g : Graph) : Prop := ∀ id, ¬ Relation.TransGen (fun a b => b ∈ g.readers a) id id

/-- The list holds every vertex once, each behind all that it reads. -/
structure Sorted (g : Graph) (order : List OpId) : Prop where
  perm : order.Perm g.ids
  before : ∀ edge ∈ g.edges, order.idxOf edge.1 < order.idxOf edge.2

/-- Along readers one goes forward in the list, and never comes back. -/
theorem Sorted.acyclic (h : g.Sorted order) : g.Acyclic := by
  intro id hcycle
  have hforward : ∀ a b, Relation.TransGen (fun a b => b ∈ g.readers a) a b →
      order.idxOf a < order.idxOf b := by
    intro a b hab
    induction hab with
    | single hb => exact h.before _ (mem_readers_iff.mp hb)
    | tail _ hb ih => exact ih.trans (h.before _ (mem_readers_iff.mp hb))
  exact Nat.lt_irrefl _ (hforward id id hcycle)

/-- **A topological sort**: on a graph whose edges join its vertices it returns topological orders
only, and it does return one if the graph has no cycle. -/
structure IsToposort (toposort : Graph → Except OpId (List OpId)) : Prop where
  sorted : ∀ g order, g.WellFormed → toposort g = .ok order → g.Sorted order
  exists_order : ∀ g, g.WellFormed → g.Acyclic → ∃ order, toposort g = .ok order

theorem topologicalOrder_eq_ok_iff {toposort : Graph → Except OpId (List OpId)} :
    g.topologicalOrder toposort = .ok order ↔ toposort g = .ok order := by
  rw [topologicalOrder]
  split <;> simp_all

/-! ## The sort by depth-first search -/

/-- Nothing is out of order exactly when every vertex stands behind what it reads, itself apart. -/
theorem firstUnordered?_eq_none_iff {before : List OpId} :
    g.firstUnordered? before order = none ↔
      AtEach (fun passed id => ∀ input ∈ g.inputs id,
        input = id ∨ input ∈ before ∨ input ∈ passed) order := by
  induction order generalizing before with
  | nil => exact iff_of_true rfl atEach_nil
  | cons id order ih =>
    rw [firstUnordered?, atEach_cons]
    cases hfind : (g.inputs id).find? fun input => !(id :: before).contains input with
    | some input =>
      have hinput : input ∈ g.inputs id := List.mem_of_find?_eq_some hfind
      have hlate : input ≠ id ∧ input ∉ before := by simpa using List.find?_some hfind
      refine iff_of_false (by simp) fun h => ?_
      simpa [hlate] using h.1 input hinput
    | none =>
      have hfirst : ∀ input ∈ g.inputs id, input = id ∨ input ∈ before ∨ input ∈ [] := by
        simpa [← or_iff_not_imp_left] using hfind
      rw [and_iff_right hfirst]
      simp only [ih, List.mem_cons, or_assoc, or_left_comm]

theorem depthFirstOrder_eq_ok_iff :
    g.depthFirstOrder = .ok order ↔ order = g.search.left ∧
      (∀ id ∈ g.search.seen, id ∉ g.readers id) ∧ g.firstUnordered? [] g.search.left = none := by
  rw [depthFirstOrder]
  split
  · rename_i id hfind
    have hseen : id ∈ g.search.seen := by simpa using List.mem_of_find?_eq_some hfind
    have hself : id ∈ g.readers id := by simpa using List.find?_some hfind
    exact iff_of_false (by simp) fun h => h.2.1 id hseen hself
  · rename_i hfind
    have hself : ∀ id ∈ g.search.seen, id ∉ g.readers id := by simpa using hfind
    split
    · rename_i hlate
      exact iff_of_false (by simp) fun h => by simp [hlate] at h
    · rename_i hnone
      exact ⟨fun h => ⟨(Except.ok.inj h).symm, hself, hnone⟩, fun h => congrArg Except.ok h.1.symm⟩

/-- What stands before an element of a list without repetition has a smaller index. -/
theorem idxOf_lt_of_mem {before after : List OpId} {x y : OpId} (h : (before ++ x :: after).Nodup)
    (hy : y ∈ before) : (before ++ x :: after).idxOf y < (before ++ x :: after).idxOf x := by
  have hx : x ∉ before := fun hx => (List.nodup_append.mp h).2.2 x hx x List.mem_cons_self rfl
  rw [List.idxOf_append_of_mem hy, List.idxOf_append_of_notMem hx]
  exact Nat.lt_add_right _ (List.idxOf_lt_length_of_mem hy)

section WellFormed

variable (hg : g.WellFormed)

include hg

theorem readers_closed : ∀ x ∈ g.ids, ∀ z ∈ g.readers x, z ∈ g.ids := fun x _ z hz =>
  (hg.edges (x, z) (mem_readers_iff.mp hz)).2

/-- The search meets every vertex. -/
theorem mem_seen_search_iff {y : OpId} : y ∈ g.search.seen ↔ y ∈ g.ids := by
  constructor
  · intro hy
    rcases Search.seen_of_mem_foldl (fun _ _ _ => Search.seen_of_mem_explore) hy with hy | hy
    · cases hy
    · obtain ⟨x, hx, hleads⟩ := hy
      exact hleads.mem_of_closed (readers_closed hg) hx
  · exact (Search.foldl_extends (fun _ _ => Search.explore_extends (readers_closed hg))
      (fun _ h => h) (List.length_filter_le _ _)).2 y

/-- The search leaves every vertex, once. -/
theorem left_perm : g.search.left.Perm g.ids := by
  have hstart : Search.Tidy Search.start := ⟨by simp [Search.start], List.nodup_nil⟩
  obtain ⟨htidy, hopen⟩ := Search.foldl_explore_closes g.readers g.ids.length g.ids hstart
  refine (List.perm_ext_iff_of_nodup htidy.nodup hg.ids).mpr fun y => ?_
  constructor
  · exact fun hy => (mem_seen_search_iff hg).mp (htidy.seen y hy)
  · intro hy
    by_contra hnot
    have hopen' := (hopen y).mp ⟨(mem_seen_search_iff hg).mpr hy, hnot⟩
    exact List.not_mem_nil hopen'.1

/-- An order that is found has every vertex behind all that it reads. -/
theorem sorted_of_depthFirstOrder (h : g.depthFirstOrder = .ok order) : g.Sorted order := by
  obtain ⟨rfl, hself, hfirst⟩ := depthFirstOrder_eq_ok_iff.mp h
  have hperm := left_perm hg
  refine ⟨hperm, ?_⟩
  rintro ⟨a, b⟩ hedge
  have hb : b ∈ g.ids := (hg.edges _ hedge).2
  obtain ⟨before, after, hsplit⟩ := List.append_of_mem (hperm.mem_iff.mpr hb)
  have hnodup := hperm.nodup_iff.mpr hg.ids
  rw [hsplit] at hnodup ⊢
  refine idxOf_lt_of_mem hnodup ?_
  rcases firstUnordered?_eq_none_iff.mp hfirst before b after hsplit a
    (mem_inputs_iff.mpr hedge) with rfl | hnil | hbefore
  · exact absurd (mem_readers_iff.mpr hedge) (hself a ((mem_seen_search_iff hg).mpr hb))
  · cases hnil
  · exact hbefore

/-- Without cycles the search leaves vertices in order. -/
theorem ordered_left (hacyclic : g.Acyclic) : Search.Ordered g.readers g.search.left :=
  Search.foldl_ordered (readers_closed hg)
    (fun _ _ => Search.explore_ordered hacyclic (readers_closed hg)) (fun _ h => h)
    (List.length_filter_le _ _) ⟨by simp [Search.start], List.nodup_nil⟩ trivial
    fun _ h => absurd h.1 List.not_mem_nil

/-- Without cycles nothing is out of order in what the search has left. -/
theorem firstUnordered?_left (hacyclic : g.Acyclic) :
    g.firstUnordered? [] g.search.left = none := by
  refine firstUnordered?_eq_none_iff.mpr fun before id after hsplit input hinput => ?_
  have hordered := ordered_left hg hacyclic
  have hnodup := (left_perm hg).nodup_iff.mpr hg.ids
  have hmem : input ∈ g.search.left :=
    (left_perm hg).mem_iff.mpr (hg.edges _ (mem_inputs_iff.mp hinput)).1
  rw [hsplit] at hordered hnodup hmem
  rcases List.mem_append.mp hmem with hbefore | hbehind
  · exact .inr (.inr hbefore)
  · rcases List.mem_cons.mp hbehind with heq | hafter
    · exact .inl heq
    · -- an input behind its reader would have the reader behind it as well
      have hlater : id ∈ after := (hordered.of_append).2.mem hafter
        (mem_readers_iff.mpr (mem_inputs_iff.mp hinput))
      exact absurd hlater (List.nodup_cons.mp (List.nodup_append.mp hnodup).2.1).1

end WellFormed

/-- **The sort by depth-first search is a topological sort.** -/
theorem isToposort_depthFirstOrder : IsToposort depthFirstOrder where
  sorted _ _ hg h := sorted_of_depthFirstOrder hg h
  exists_order _ hg hacyclic := ⟨_, depthFirstOrder_eq_ok_iff.mpr
    ⟨rfl, fun id _ hself => hacyclic id (.single hself), firstUnordered?_left hg hacyclic⟩⟩

end Graph

/-! ## Circuits -/

namespace Circuit

variable {c : Circuit} {g : Graph} {a b : OpId}

/-- Operators are the ends of all edges, and have numbers of their own. -/
theorem wellFormed_of_ofCircuit (h : Graph.ofCircuit c = .ok g) : g.WellFormed := by
  obtain ⟨⟨hids, hinputs⟩, rfl⟩ := ofCircuit_eq_ok_iff.mp h
  refine ⟨hids, fun edge hedge => ?_⟩
  have hfirst : edge.1 ∈ c.operators.map Operator.id := hinputs _ _ (mem_edges_graph_iff.mp hedge)
  obtain ⟨op, hop, hid, -⟩ := mem_edges_graph_iff.mp hedge
  exact ⟨hfirst, hid ▸ List.mem_map_of_mem hop⟩

/-- In a well-formed circuit what an operator reads is listed before it, by number as well. -/
theorem listed_before_reader (hv : c.validate = .ok ()) (h : c.ReaderEdge a b) :
    ∃ before after, c.operators.map Operator.id = before ++ b :: after ∧ a ∈ before := by
  obtain ⟨op, hop, rfl, ha⟩ := h
  obtain ⟨input, hinput, rfl⟩ := List.mem_map.mp ha
  obtain ⟨before, after, hsplit⟩ := List.append_of_mem hop
  obtain ⟨known, hknown, hid, -⟩ := (validate_eq_ok_iff.mp hv).2 before op after hsplit input hinput
  exact ⟨before.map Operator.id, after.map Operator.id, by simp [hsplit],
    hid ▸ List.mem_map_of_mem hknown⟩

theorem ofCircuit_of_validate (hv : c.validate = .ok ()) : Graph.ofCircuit c = .ok c.graph := by
  refine ofCircuit_eq_ok_iff.mpr ⟨⟨(validate_eq_ok_iff.mp hv).1, fun a b h => ?_⟩, rfl⟩
  obtain ⟨before, after, hsplit, ha⟩ := listed_before_reader hv h
  exact hsplit ▸ List.mem_append_left _ ha

/-- A well-formed circuit lists its operators in a topological order. -/
theorem sorted_of_validate (hv : c.validate = .ok ()) :
    c.graph.Sorted (c.operators.map Operator.id) := by
  refine ⟨.refl _, fun edge hedge => ?_⟩
  obtain ⟨before, after, hsplit, ha⟩ := listed_before_reader hv (mem_edges_graph_iff.mp hedge)
  have hids := (validate_eq_ok_iff.mp hv).1
  rw [hsplit] at hids ⊢
  exact Graph.idxOf_lt_of_mem hids ha

/-- **A well-formed circuit has a graph without cycles**, and its operators can be listed with every
input before its readers: whichever topological sort is used, the order exists, holds the number of
every operator once, and has each number behind those of all inputs, however often an input is
read. -/
theorem inputs_before_readers {toposort : Graph → Except OpId (List OpId)}
    (hsort : Graph.IsToposort toposort) (hv : c.validate = .ok ()) :
    ∃ g order, Graph.ofCircuit c = .ok g ∧ g.Acyclic ∧ g.topologicalOrder toposort = .ok order ∧
      order.Perm (c.operators.map Operator.id) ∧
      ∀ op ∈ c.operators, ∀ input ∈ op.inputs, order.idxOf input.id < order.idxOf op.id := by
  have hgraph := ofCircuit_of_validate hv
  have hg := wellFormed_of_ofCircuit hgraph
  have hacyclic := (sorted_of_validate hv).acyclic
  obtain ⟨order, horder⟩ := hsort.exists_order c.graph hg hacyclic
  have hsorted := hsort.sorted c.graph order hg horder
  refine ⟨c.graph, order, hgraph, hacyclic, Graph.topologicalOrder_eq_ok_iff.mpr horder,
    hsorted.perm, fun op hop input hinput => ?_⟩
  exact hsorted.before _ (mem_edges_graph_iff.mpr ⟨op, hop, rfl, List.mem_map_of_mem hinput⟩)

theorem inputs_before_readers_sample :
    Graph.IsToposort Graph.depthFirstOrder ∧ Sample.circuit.validate = .ok () ∧
      ∃ g order, Graph.ofCircuit Sample.circuit = .ok g ∧ g.Acyclic ∧
        g.topologicalOrder Graph.depthFirstOrder = .ok order ∧ order.Perm [0, 1, 2, 3, 4, 5] ∧
        ∀ op ∈ Sample.circuit.operators, ∀ input ∈ op.inputs,
          order.idxOf input.id < order.idxOf op.id :=
  ⟨Graph.isToposort_depthFirstOrder, Sample.validate_circuit,
    inputs_before_readers Graph.isToposort_depthFirstOrder Sample.validate_circuit⟩

end Circuit

end FlowCircuit
