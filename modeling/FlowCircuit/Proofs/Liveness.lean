import FlowCircuit.Pass.DeadCode
import FlowCircuit.Proofs.CircuitEdit
import FlowCircuit.Proofs.Reachability

/-!
# Dead operators are removed, and no others

An operator is live when a sink can be reached from it along readers (`Circuit.Live`).  The pass
works with numbers: it builds a graph of them, searches that graph backwards from the sinks, and
keeps the operators whose numbers were met.  In a well-formed circuit numbers stand for operators,
so a path of numbers is a path of operators (`Circuit.mem_live_iff`).

What is kept is kept as it is.  The inputs of a live operator are live, so they were kept before it
and have become themselves, and the operator is not rebuilt.
-/

set_option autoImplicit false

namespace FlowCircuit

/-- No number is found twice exactly when none occurs twice. -/
theorem Graph.duplicate?_eq_none_iff {before ids : List OpId} :
    duplicate? before ids = none ↔ ids.Nodup ∧ ∀ id ∈ ids, id ∉ before := by
  induction ids generalizing before with
  | nil => simp [duplicate?]
  | cons id ids ih =>
    rw [duplicate?]
    split
    · rename_i hid
      have hid' : id ∈ before := by simpa using hid
      exact iff_of_false nofun fun h => h.2 id List.mem_cons_self hid'
    · rename_i hid
      have hid' : id ∉ before := by simpa using hid
      rw [ih]
      simp only [List.nodup_cons, List.mem_cons, forall_eq_or_imp, not_or]
      grind

namespace Circuit

variable {c : Circuit} {op reader sink : Operator}

/-- `reader` is an operator of the circuit that reads `op`. -/
def ReadBy (c : Circuit) (op reader : Operator) : Prop := reader ∈ c.operators ∧ op ∈ reader.inputs

/-- There is a way from `op` along readers to `sink`. -/
def Feeds (c : Circuit) : Operator → Operator → Prop := Relation.ReflTransGen c.ReadBy

/-- A sink can be reached along readers. -/
def Live (c : Circuit) (op : Operator) : Prop := ∃ sink ∈ c.sinks, c.Feeds op sink

theorem Live.input (h : c.Live reader) (hreader : reader ∈ c.operators) (hop : op ∈ reader.inputs) :
    c.Live op := by
  obtain ⟨sink, hsink, hfeeds⟩ := h
  exact ⟨sink, hsink, hfeeds.head ⟨hreader, hop⟩⟩

/-! ## The graph of a circuit -/

/-- The graph of a circuit, for circuits that have one. -/
def graph (c : Circuit) : Graph :=
  ⟨c.operators.map Operator.id,
    c.operators.flatMap fun op => op.inputs.map fun input => (input.id, op.id)⟩

/-- Numbers have to be distinct, and inputs to be known by number. -/
theorem ofCircuit_eq_ok (hids : (c.operators.map Operator.id).Nodup)
    (hinputs : ∀ op ∈ c.operators, ∀ input ∈ op.inputs, input.id ∈ c.operators.map Operator.id) :
    Graph.ofCircuit c = .ok c.graph := by
  have hduplicate : Graph.duplicate? [] (c.operators.map Operator.id) = none :=
    Graph.duplicate?_eq_none_iff.mpr ⟨hids, fun _ _ => List.not_mem_nil⟩
  have hedges : c.operators.mapM (Graph.edgesInto c.name (c.operators.map Operator.id)) =
      .ok (c.operators.map fun op => op.inputs.map fun input => (input.id, op.id)) := by
    refine mapM_eq_ok fun op hop => mapM_eq_ok fun input hinput => if_pos ?_
    simpa using hinputs op hop input hinput
  rw [Graph.ofCircuit, hduplicate]
  simp only [hedges, graph, List.flatMap]
  rfl

theorem mem_inputs_graph {id input : OpId} :
    input ∈ c.graph.inputs id ↔
      ∃ op ∈ c.operators, op.id = id ∧ ∃ i ∈ op.inputs, i.id = input := by
  simp only [Graph.inputs, graph, List.mem_map, List.mem_filter, List.mem_flatMap]
  constructor
  · rintro ⟨_, ⟨⟨op, hop, i, hi, rfl⟩, hid⟩, rfl⟩
    exact ⟨op, hop, by simpa using hid, i, hi, rfl⟩
  · rintro ⟨op, hop, rfl, i, hi, rfl⟩
    exact ⟨(i.id, op.id), ⟨⟨op, hop, i, hi, rfl⟩, by simp⟩, rfl⟩

/-! ## Paths of numbers and paths of operators -/

/-- The number of every operator on the way to `sink` is met on the way back. -/
theorem leads_of_feeds (h : c.Feeds op sink) :
    Leads c.graph.inputs sink.id op.id := by
  induction h using Relation.ReflTransGen.head_induction_on with
  | refl => exact .refl
  | head hread _ ih => exact ih.tail (mem_inputs_graph.mpr ⟨_, hread.1, rfl, _, hread.2, rfl⟩)

/-- What is met on the way back from `sink` is the number of an operator on the way to it. -/
theorem exists_feeds_of_leads (hids : (c.operators.map Operator.id).Nodup)
    (hinputs : ∀ op ∈ c.operators, ∀ input ∈ op.inputs, input ∈ c.operators)
    (hsink : sink ∈ c.operators) {id : OpId} (h : Leads c.graph.inputs sink.id id) :
    ∃ op ∈ c.operators, op.id = id ∧ c.Feeds op sink := by
  induction h with
  | refl => exact ⟨sink, hsink, rfl, .refl⟩
  | tail _ hstep ih =>
    obtain ⟨op, hop, rfl, hfeeds⟩ := ih
    obtain ⟨reader, hreader, hid, input, hinput, rfl⟩ := mem_inputs_graph.mp hstep
    obtain rfl : reader = op := List.inj_on_of_nodup_map hids hreader hop hid
    exact ⟨input, hinputs reader hreader input hinput, rfl, hfeeds.head ⟨hreader, hinput⟩⟩

/-- **Numbers that were met are numbers of live operators.** -/
theorem mem_live_iff (hids : (c.operators.map Operator.id).Nodup)
    (hinputs : ∀ op ∈ c.operators, ∀ input ∈ op.inputs, input ∈ c.operators)
    (hop : op ∈ c.operators) : op.id ∈ DeadCode.live c c.graph ↔ c.Live op := by
  rw [DeadCode.live, Graph.mem_reaching_iff]
  constructor
  · rintro ⟨id, hid, -, hleads⟩
    obtain ⟨sink, hsink, rfl⟩ := List.mem_map.mp hid
    obtain ⟨op', hop', hid', hfeeds⟩ :=
      exists_feeds_of_leads hids hinputs (List.mem_filter.mp hsink).1 hleads
    obtain rfl : op' = op := List.inj_on_of_nodup_map hids hop' hop hid'
    exact ⟨sink, hsink, hfeeds⟩
  · rintro ⟨sink, hsink, hfeeds⟩
    exact ⟨sink.id, List.mem_map_of_mem hsink, List.mem_map_of_mem (List.mem_filter.mp hsink).1,
      leads_of_feeds hfeeds⟩

end Circuit

/-! ## The pass -/

namespace DeadCode

variable {c c' : Circuit} {live : List OpId} {fail : Error → Prop} {s : Session Unit}

/-- Whether a node is left when the operators listed are kept. -/
def survives (live : List OpId) : Node → Bool
  | .declaration _ => true
  | .operator op => live.contains op.id

/-- `c'` is what is left of `c`. -/
structure Pruned (live : List OpId) (c c' : Circuit) : Prop where
  name : c'.name = c.name
  nodes : c'.nodes = c.nodes.filter (survives live)
  reads : AtEach Node.Reads c'.nodes

/-- What may become of nodes: they go or stay, and the labels from `next` on may be drawn. -/
def pruned (live : List OpId) (next : Label) : CircuitEdit.Spec Unit Unit where
  inv _ s := next ≤ s.next
  kept _ op := live.contains op.id = true
  operator _ op new := new = if live.contains op.id then some op else none
  declaration _ d new := new = some d

/-- An operator whose inputs became themselves becomes itself. -/
theorem wp_keepOnly_operator {next : Label} (hs : next ≤ s.next) {op : Operator}
    {inputs : List Operator} (hop : live.contains op.id = true)
    (hinputs : List.Forall₂ (fun input new => (pruned live next).operator () input (some new))
      op.inputs inputs) :
    Job.wp ((keepOnly live).operator op inputs) (fun new s' => ∃ g', () ≤ g' ∧
      (pruned live next).inv g' s' ∧ (pruned live next).operator g' op new ∧
      ∀ op' ∈ new, op'.inputs = inputs) fail s := by
  have hsame : List.Forall₂ Eq op.inputs inputs := hinputs.imp fun input new h => by
    simp only [pruned] at h
    split at h
    · exact (Option.some.inj h).symm
    · cases h
  obtain rfl : op.inputs = inputs := by rwa [List.forall₂_eq_eq_eq] at hsame
  have hbuild : op.rebuildWithInputs s.next op.inputs = .ok op :=
    if_pos (by rw [Operator.hasInputs, beq_self_eq_true])
  change Job.wp (_ >>= _) _ _ _
  rw [Job.wp_bind]
  refine Job.wp_make_ok hbuild ⟨(), le_refl _, Nat.le_succ_of_le hs, ?_, ?_⟩
  · simp only [pruned, hop, if_true]
  · rintro _ ⟨rfl⟩
    rfl

theorem keepOnly_keeps (live : List OpId) (next : Label) (O : Set Operator) (D : Set Declaration) :
    (keepOnly live).Keeps (pruned live next) O D fail where
  mono_operator _ h := h
  mono_declaration _ h := h
  report hs := hs
  keep {g s op} hs _ := by
    refine ⟨g, le_refl g, hs, ?_⟩
    split
    · assumption
    · simp_all [pruned]
  operator hs _ hkept hinputs := (wp_keepOnly_operator hs hkept hinputs).imp
    fun _ _ ⟨g', hg, hs', hop, hreads⟩ => ⟨g', hg, hs', hop, fun _ => hreads⟩
  declaration {g s d} hs _ := ⟨g, le_refl g, hs, rfl⟩

/-- Keeping operators with their inputs succeeds where inputs stand before their readers. -/
theorem wp_keepOnly (hc : c.Made s.next)
    (hfail : (∀ e, fail e) ∨ AtEach Node.Reads c.nodes ∧
      ∀ op ∈ c.operators, op.id ∈ live → ∀ input ∈ op.inputs, input.id ∈ live) :
    Job.wp ((keepOnly live).apply c) (fun c' s' => s.next ≤ s'.next ∧ Pruned live c c') fail s := by
  refine ((keepOnly_keeps live s.next _ _).wp_apply_made hc (g := ()) (le_refl _) ?_).imp ?_
  · refine hfail.imp_right fun ⟨hreads, hlive⟩ => ⟨hreads, ?_⟩
    intro op hop g hkept input hinput hnone
    have hinput' : input.id ∈ live := hlive op hop (by simpa [pruned] using hkept) input hinput
    simp [pruned, hinput'] at hnone
  · rintro c' s' ⟨g, -, hs', hedited⟩
    refine ⟨hs', hedited.name, hedited.nodes_eq_filter fun node outcome h => ?_,
      hedited.reads trivial⟩
    cases node with
    | operator op =>
      obtain ⟨new, rfl, rfl⟩ := h
      exact apply_ite (Option.map Node.operator) _ _ _
    | declaration d =>
      obtain ⟨new, rfl, rfl⟩ := h
      rfl

theorem ofCircuit_eq_ok_of_validate (hc : c.Made s.next) (hv : c.validate = .ok ()) :
    Graph.ofCircuit c = .ok c.graph :=
  Circuit.ofCircuit_eq_ok (Circuit.validate_eq_ok_iff.mp hv).1 fun op hop input hinput =>
    List.mem_map_of_mem (hc.mem_operators_of_validate hv op hop input hinput)

/-- The search has met the inputs of what it has met. -/
theorem mem_live_of_input (hc : c.Made s.next) (hv : c.validate = .ok ()) :
    ∀ op ∈ c.operators, op.id ∈ DeadCode.live c c.graph →
      ∀ input ∈ op.inputs, input.id ∈ DeadCode.live c c.graph := by
  intro op hop hlive input hinput
  have hids := (Circuit.validate_eq_ok_iff.mp hv).1
  have hinputs := hc.mem_operators_of_validate hv
  rw [Circuit.mem_live_iff hids hinputs (hinputs op hop input hinput)]
  exact ((Circuit.mem_live_iff hids hinputs hop).mp hlive).input hop hinput

/-- The pass keeps what its search has met. -/
theorem wp_run (hc : c.Made s.next) (hfail : (∀ e, fail e) ∨ c.validate = .ok ()) :
    Job.wp (run c) (fun c' s' => s.next ≤ s'.next ∧ ∃ g, Graph.ofCircuit c = .ok g ∧
      Pruned (DeadCode.live c g) c c') fail s := by
  rw [run, Job.wp_bind, Job.wp_ofExcept]
  cases hgraph : Graph.ofCircuit c with
  | error e =>
    rcases hfail with hfail | hv
    · exact hfail e
    · rw [ofCircuit_eq_ok_of_validate hc hv] at hgraph
      cases hgraph
  | ok g =>
    have hclosed : (∀ e, fail e) ∨ AtEach Node.Reads c.nodes ∧ ∀ op ∈ c.operators,
        op.id ∈ DeadCode.live c g → ∀ input ∈ op.inputs, input.id ∈ DeadCode.live c g := by
      refine hfail.imp_right fun hv => ⟨Circuit.reads_of_validate hc.operators.one hv, ?_⟩
      rw [ofCircuit_eq_ok_of_validate hc hv] at hgraph
      exact Except.ok.inj hgraph ▸ mem_live_of_input hc hv
    have hkeep (notices : List Notice) := wp_keepOnly (s := { s with notices }) hc hclosed
    dsimp only
    split
    · exact (hkeep _).imp fun c' s' h => ⟨h.1, g, rfl, h.2⟩
    · exact (hkeep _).imp fun c' s' h => ⟨h.1, g, rfl, h.2⟩

/-! ## What is left -/

/-- Every declaration is spared, and every live operator. -/
def Spared (c : Circuit) : Node → Prop
  | .declaration _ => True
  | .operator op => c.Live op

/-- In a well-formed circuit the search has met exactly what is to be spared. -/
theorem survives_iff (hc : c.Made s.next) (hv : c.validate = .ok ()) {node : Node}
    (hnode : node ∈ c.nodes) : survives (DeadCode.live c c.graph) node = true ↔ Spared c node := by
  cases node with
  | declaration => exact iff_of_true rfl trivial
  | operator op =>
    have hids := (Circuit.validate_eq_ok_iff.mp hv).1
    rw [survives, List.contains_iff_mem]
    exact Circuit.mem_live_iff hids (hc.mem_operators_of_validate hv)
      (Circuit.mem_operators.mpr hnode)

section Spared

open Classical

variable (hnodes : c'.nodes = c.nodes.filter fun node => Spared c node)

include hnodes

theorem operators_eq_filter : c'.operators = c.operators.filter fun op => c.Live op := by
  rw [Circuit.operators, Circuit.operators, hnodes, List.filterMap_filter, List.filter_filterMap]
  refine congrArg (List.filterMap · c.nodes) (funext fun node => ?_)
  cases node with
  | declaration => simp [Node.operator?]
  | operator op =>
    by_cases hlive : c.Live op <;> simp [Node.operator?, Option.filter, Spared, hlive]

theorem sinks_eq : c'.sinks = c.sinks := by
  rw [Circuit.sinks, operators_eq_filter hnodes, List.filter_filter]
  refine List.filter_congr fun op hop => ?_
  rw [Bool.and_eq_left_iff_imp, decide_eq_true_eq]
  exact fun hsink => ⟨op, List.mem_filter.mpr ⟨hop, hsink⟩, .refl⟩

/-- What feeds a sink is left with all that it reads. -/
theorem feeds_iff {sink op : Operator} (hsink : sink ∈ c.sinks) :
    c'.Feeds op sink ↔ c.Feeds op sink := by
  have hmem : ∀ op, op ∈ c'.operators ↔ op ∈ c.operators ∧ c.Live op := fun op => by
    rw [operators_eq_filter hnodes, List.mem_filter, decide_eq_true_eq]
  have hread : c'.ReadBy ≤ c.ReadBy := fun _ reader h => ⟨((hmem reader).mp h.1).1, h.2⟩
  constructor
  · exact Relation.ReflTransGen.mono hread op sink
  · intro h
    induction h using Relation.ReflTransGen.head_induction_on with
    | refl => exact .refl
    | head hfirst hrest ih =>
      exact ih.head ⟨(hmem _).mpr ⟨hfirst.1, sink, hsink, hrest⟩, hfirst.2⟩

end Spared

open Classical in
/-- **Exactly the dead operators are removed.**  What is left are the declarations and the live
operators, the nodes they were and in their order; so the sinks are all there, and so is what feeds
them. -/
theorem keeps_exactly_the_live (hc : c.Made s.next) (hv : c.validate = .ok ()) :
    ∃ c' s', (run c).exec s = (.ok c', s') ∧ c'.name = c.name ∧
      c'.nodes = c.nodes.filter (fun node => Spared c node) ∧ c'.sinks = c.sinks ∧
      ∀ sink ∈ c.sinks, ∀ op, c'.Feeds op sink ↔ c.Feeds op sink := by
  have hrun : Job.wp (run c) _ (fun _ => False) s := wp_run hc (Or.inr hv)
  obtain ⟨c', s', hexec, -, g, hgraph, hpruned⟩ := hrun.exists_ok
  obtain rfl : c.graph = g := by
    rw [ofCircuit_eq_ok_of_validate hc hv] at hgraph
    exact Except.ok.inj hgraph
  have hnodes : c'.nodes = c.nodes.filter fun node => Spared c node := by
    rw [hpruned.nodes]
    refine List.filter_congr fun node hnode => ?_
    rw [Bool.eq_iff_iff, decide_eq_true_eq]
    exact survives_iff hc hv hnode
  exact ⟨c', s', hexec, hpruned.name, hnodes, sinks_eq hnodes,
    fun _ hsink _ => feeds_iff hnodes hsink⟩

theorem not_live_idle : ¬ Sample.circuit.Live Sample.idle := by
  have hreaders : ∀ reader ∈ Sample.circuit.operators, Sample.idle.label ∉ reader.inputs.map
      Operator.label := by decide
  have hsinks : Sample.idle.label ∉ Sample.circuit.sinks.map Operator.label := by decide
  rintro ⟨sink, hsink, hfeeds⟩
  rcases Relation.ReflTransGen.cases_head hfeeds with rfl | ⟨reader, hread, -⟩
  · exact hsinks (List.mem_map_of_mem hsink)
  · exact hreaders reader hread.1 (List.mem_map_of_mem hread.2)

theorem keeps_exactly_the_live_sample :
    Sample.circuit.Made 15 ∧ Sample.circuit.validate = .ok () ∧
      ∃ c' s', (run Sample.circuit).exec ⟨15, [], ()⟩ = (.ok c', s') ∧
        .operator Sample.idle ∉ c'.nodes ∧ c'.sinks = [Sample.sink] ∧
        c'.Feeds Sample.source Sample.sink := by
  obtain ⟨c', s', hrun, -, hnodes, hsinks, hfeeds⟩ := keeps_exactly_the_live (s := ⟨15, [], ()⟩)
    Sample.made_circuit Sample.validate_circuit
  have hsource : Sample.circuit.Feeds Sample.source Sample.sink := by
    refine .head (b := Sample.left) ⟨?_, ?_⟩ (.head (b := Sample.total) ⟨?_, ?_⟩ (.single ⟨?_, ?_⟩))
    all_goals simp [Sample.operators_circuit, Sample.left, Sample.total, Sample.sink]
  refine ⟨Sample.made_circuit, Sample.validate_circuit, c', s', hrun, fun hidle => ?_, hsinks, ?_⟩
  · simp only [hnodes, List.mem_filter, decide_eq_true_eq] at hidle
    exact not_live_idle hidle.2
  · exact (hfeeds Sample.sink (List.mem_singleton.mpr rfl) _).mpr hsource

end DeadCode

end FlowCircuit
