import FlowCircuit.Proofs.Frame
import FlowCircuit.Proofs.Pipeline
import FlowCircuit.Proofs.GraphQueries

/-!
# A pass that is run again

What a pass has made of a circuit it leaves alone: run again, it gives back the circuit node for
node, not copies of them (`Pass.run_again`).  Nothing is assumed of the circuit but that it is made,
so nodes may be listed more than once.

For the two passes on functions there is one argument.  If the hooks give back every expression node
of the circuit, the memo only ever remembers nodes for themselves, no function and no input is
replaced, and so no operator is rebuilt (`CircuitEdit.wp_editFunctions_unchanged`).  The hooks do so
because nothing is left to be evaluated, and because no two nodes are left that are the same.
Removing dead operators cannot make others dead: a way to a sink is made of operators that stay
(`DeadCode.live_of_pruned`).
-/

set_option autoImplicit false

namespace FlowCircuit

variable {σ : Type} {S : Set Expr} {fail : Error → Prop}

theorem Circuit.eq_of_nodes {c c' : Circuit} (hname : c'.name = c.name)
    (hnodes : c'.nodes = c.nodes) : c' = c := by
  cases c
  cases c'
  cases hname
  cases hnodes
  rfl

/-! ## Changes that change nothing -/

/-- What becomes of expressions that are left alone. -/
def unchanged (_ : Unit) (e e' : Expr) : Prop := e' = e

/-- Hooks that give back the nodes they are asked about leave expressions alone. -/
theorem ExprEdit.keeps_unchanged {r : ExprEdit σ} {inv : σ → Prop}
    (hbefore : ∀ e, r.before e = pure none)
    (hafter : ∀ {s : Session σ} {e : Expr}, inv s.state → e ∈ S →
      Job.wp (r.after e) (fun e' s' => s.next ≤ s'.next ∧ inv s'.state ∧ e' = e) fail s) :
    r.Keeps S (fun (_ : Unit) s => inv s.state) unchanged fail where
  mono _ h := h
  before {_ s e} hs _ := by
    rw [hbefore]
    exact ⟨(), le_refl _, le_refl _, hs, by simp⟩
  after {_ s e cs} hs he hcs := by
    obtain rfl : cs = e.children := by
      have hflip : List.Forall₂ Eq cs e.children := hcs.flip
      rwa [List.forall₂_eq_eq_eq] at hflip
    have hsame : (rebuild e e.children : Run σ Expr) = pure e := if_pos rfl
    rw [hsame, pure_bind]
    exact (hafter hs he).imp fun e' s' h => ⟨(), le_refl _, h⟩

namespace CircuitEdit

variable {c : Circuit} {transform : Expr → Run σ Expr} {inv : Session (Memo σ) → Prop}

/-- Nothing becomes of a node but the node itself. -/
def still (inv : Session (Memo σ) → Prop) : Spec Unit (Memo σ) where
  inv _ s := inv s
  kept _ _ := True
  operator _ op new := new = some op
  declaration _ d new := new = some d

/-- The hooks of a change that leaves functions alone leave nodes alone. -/
theorem ofTransform_keeps_still
    (hreport : ∀ {s : Session (Memo σ)} {notices : List Notice}, inv s → inv { s with notices })
    (hsite : ∀ {s : Session (Memo σ)} {f : Expr}, inv s → f ∈ c.functions →
      Job.wp (site transform f) (fun f' s' => inv s' ∧ f' = f) fail s) :
    (ofTransform transform).Keeps
      (still inv) {op | op ∈ c.operators} {d | d ∈ c.declarations} fail where
  mono_operator _ h := h
  mono_declaration _ h := h
  report hs := hreport hs
  keep hs _ := ⟨(), le_refl _, hs, trivial⟩
  operator {_ s op inputs} hs hop _ hinputs := by
    obtain rfl : op.inputs = inputs := by
      have hsame : List.Forall₂ Eq op.inputs inputs :=
        hinputs.imp fun _ _ h => (Option.some.inj h).symm
      rwa [List.forall₂_eq_eq_eq] at hsame
    have hassemble (s : Session (Memo σ)) (hs : inv s) : Job.wp (assemble op op.inputs op.function)
        (fun new s' => ∃ g', () ≤ g' ∧ (still inv).inv g' s' ∧ (still inv).operator g' op new ∧
          ((still inv).rewired → ∀ op' ∈ new, op'.inputs = op.inputs)) fail s := by
      rw [assemble, if_pos (by simp [Operator.hasInputs])]
      exact ⟨(), le_refl _, hs, rfl, by simp⟩
    rw [operator_ofTransform, Job.wp_bind]
    cases hfunction : op.function with
    | none => simpa [hfunction] using hassemble s hs
    | some f =>
      rw [Option.mapM_some, map_eq_pure_bind, Job.wp_bind]
      refine (hsite hs (Circuit.mem_functions_of_operator hop hfunction)).imp fun f' s' h => ?_
      obtain ⟨hs', rfl⟩ := h
      exact hfunction ▸ hassemble s' hs'
  declaration {_ s d} hs hd := by
    change Job.wp (site transform d.value >>= _) _ _ _
    rw [Job.wp_bind]
    refine (hsite hs (Circuit.mem_functions_of_declaration hd)).imp fun value s' h => ?_
    obtain ⟨hs', rfl⟩ := h
    rw [if_pos (identical_iff.mpr rfl)]
    exact ⟨(), le_refl _, hs', rfl⟩

/-- **A change that leaves functions alone leaves the circuit alone**, if its operators read what
stands before them. -/
theorem wp_editFunctions_unchanged {next : Label} {s : Session (Memo σ)} (hc : c.Made next)
    (hreads : AtEach Node.Reads c.nodes) (hs : inv s)
    (hreport : ∀ {s : Session (Memo σ)} {notices : List Notice}, inv s → inv { s with notices })
    (hsite : ∀ {s : Session (Memo σ)} {f : Expr}, inv s → f ∈ c.functions →
      Job.wp (site transform f) (fun f' s' => inv s' ∧ f' = f) fail s) :
    Job.wp (c.editFunctions transform) (fun c' _ => c' = c) fail s := by
  refine ((ofTransform_keeps_still hreport hsite).wp_apply_made hc (g := ()) hs
    (.inr ⟨hreads, ?_⟩)).imp ?_
  · rintro op - g - input - ⟨⟩
  · rintro c' s' ⟨g, -, -, hedited⟩
    have hnodes : c'.nodes = c.nodes.filter fun _ => true := by
      refine hedited.nodes_eq_filter fun node outcome h => ?_
      cases node with
      | operator op =>
        obtain ⟨new, rfl, rfl⟩ := h
        rfl
      | declaration d =>
        obtain ⟨new, rfl, rfl⟩ := h
        rfl
    rw [List.filter_true] at hnodes
    exact Circuit.eq_of_nodes hedited.name hnodes

end CircuitEdit

/-- An edit of expressions that gives back the nodes of a circuit leaves the circuit alone. -/
theorem Circuit.wp_editFunctions_apply {c : Circuit} {r : ExprEdit σ} {inv : σ → Prop} {hooks : σ}
    {next first : Label} {notices : List Notice} (hc : c.Made next)
    (hreads : AtEach Node.Reads c.nodes)
    (hr : r.Keeps c.exprNodes (fun (_ : Unit) s => inv s.state) unchanged fail)
    (hhooks : inv hooks) : Job.wp (c.editFunctions r.apply) (fun c' _ => c' = c) fail
      ⟨first, notices, Memo.start (Memo.start hooks)⟩ := by
  -- one record is kept for functions, and one below it for their nodes
  let below := Memo.Inv c.exprNodes (fun (_ : Unit) (s : Session σ) => inv s.state) unchanged
  have hstart :
      Memo.Inv c.exprNodes below unchanged () ⟨first, notices, Memo.start (Memo.start hooks)⟩ :=
    Memo.inv_start (Memo.inv_start hhooks)
  refine CircuitEdit.wp_editFunctions_unchanged hc hreads hstart ?_ ?_
  · exact fun hs => ⟨⟨hs.hooks.hooks, hs.hooks.done⟩, hs.done⟩
  · intro s f hs hf
    have hf' : f ∈ c.exprNodes := Expr.mem_nodes hf
    refine (Memo.wp_remember hc.expressions.one hf' hs ?_).imp fun f' s' h => ?_
    · rw [Memo.wp_ask]
      refine (hr.wp_apply hc.expressions.one hc.expressions.closed hf' hs.hooks).imp
        fun f' t h => ?_
      obtain ⟨g, hg, hnext, ht, hsame⟩ := h
      exact ⟨g, hg, hnext, hs.mono (fun _ _ h => h) ht, hsame⟩
    · obtain ⟨g, -, -, hs', hsame⟩ := h
      exact ⟨hs', hsame⟩

/-! ## The passes -/

variable {c c₁ : Circuit} {s : Session Unit}

namespace ConstantFold

/-- Where nothing is left to be evaluated, nothing is. -/
theorem wp_run_of_normal (hc : c.Made s.next) (hreads : AtEach Node.Reads c.nodes)
    (hnormal : ∀ f ∈ c.functions, Normal f) : Job.wp (run c) (fun c' _ => c' = c) fail s := by
  have hfold : ∀ e ∈ c.exprNodes, ∀ label, fold label e = none := by
    rintro e ⟨f, hf, he⟩
    exact (Expr.all_iff.mp ((hnormal f hf).within he)).1
  let inv (_ : Nat) : Prop := True
  have hkeeps : edit.Keeps c.exprNodes (fun (_ : Unit) s => inv s.state) unchanged fail := by
    refine ExprEdit.keeps_unchanged (fun _ => rfl) fun {s e} _ he => ?_
    change Job.wp (Job.fresh >>= _) _ _ _
    rw [Job.wp_bind, Job.wp_fresh, hfold e he]
    exact ⟨Nat.le_succ _, trivial, rfl⟩
  rw [run, Job.wp_bind, Job.wp_withState]
  exact Circuit.wp_editFunctions_apply hc hreads hkeeps trivial

/-- **What was evaluated has nothing left to be evaluated.** -/
theorem wp_run_again (hc₁ : c₁.Made s.next) (hfolded : c.Transformed Folds c₁) :
    Job.wp (run c₁) (fun c' _ => c' = c₁) fail s := by
  refine wp_run_of_normal hc₁ hfolded.reads fun f hf => ?_
  obtain ⟨_, -, hfolds⟩ := forall₂_exists_left (Circuit.forall₂_functions hfolded.nodes) hf
  exact hfolds.normal

end ConstantFold

namespace Dedup

/-- **Where no two nodes are the same, each is the first of its kind to be met**, however often it
is met. -/
theorem wp_run_again (hc : c.Made s.next) (hreads : AtEach Node.Reads c.nodes)
    (hone : ∀ a ∈ c.exprNodes, ∀ b ∈ c.exprNodes, a.same b = true → a = b) :
    Job.wp (run c) (fun c' _ => c' = c) fail s := by
  let inv (table : Table) : Prop := ∀ known ∈ table.canonical, known ∈ c.exprNodes
  have hkeeps : edit.Keeps c.exprNodes (fun (_ : Unit) s => inv s.state) unchanged fail := by
    refine ExprEdit.keeps_unchanged (fun _ => rfl) fun {s e} hs he => ?_
    change Job.wp (Job.state >>= _) _ _ _
    rw [Job.wp_bind, Job.wp_state]
    cases hfind : (s.state.bucket e).find? fun known => known.shallowSame e with
    | some known =>
      have hknown : known ∈ c.exprNodes :=
        hs known (Table.mem_canonical_of_mem_bucket (List.mem_of_find?_eq_some hfind))
      have hsame : known.same e = true :=
        Expr.same_of_shallowSame hc.expressions hknown he (by simpa using List.find?_some hfind)
      obtain rfl : known = e := hone known hknown e he hsame
      have hid : identical known known = true := identical_iff.mpr rfl
      simp only [hid, Bool.not_true, Bool.false_eq_true, if_false]
      exact ⟨le_refl _, hs, rfl⟩
    | none =>
      refine ⟨le_refl _, fun known hknown => ?_, rfl⟩
      rcases Table.mem_canonical_file.mp hknown with rfl | hknown
      · exact he
      · exact hs known hknown
  rw [run, Job.wp_bind, Job.wp_withState]
  exact Circuit.wp_editFunctions_apply hc hreads hkeeps
    (by simp [inv, Table.start, Table.canonical])

end Dedup

namespace DeadCode

theorem Pruned.mem_operators {live : List OpId} (h : Pruned live c c₁) {op : Operator} :
    op ∈ c₁.operators ↔ op ∈ c.operators ∧ op.id ∈ live := by
  rw [Circuit.mem_operators, Circuit.mem_operators, h.nodes, List.mem_filter, survives,
    List.contains_iff_mem]

/-- A way along numbers to a sink that is left is a way along operators that are left.  Of the
circuit itself only numbers are known: it may read an operator that is not there but has the number
of one that is. -/
theorem exists_live_of_path {live : List OpId} (hids : (c.operators.map Operator.id).Nodup)
    (hpruned : Pruned live c c₁) {sink : Operator} (hsink : sink ∈ c₁.sinks) {id : OpId}
    (hpath : Relation.ReflTransGen c.ReaderEdge id sink.id) :
    ∃ op ∈ c₁.operators, op.id = id ∧ c₁.Live op := by
  induction hpath using Relation.ReflTransGen.head_induction_on with
  | refl => exact ⟨sink, (List.mem_filter.mp hsink).1, rfl, sink, hsink, .refl⟩
  | head hedge _ ih =>
    obtain ⟨reader, hreader, hid, hlive⟩ := ih
    obtain ⟨op, hop, hid', hread⟩ := hedge
    obtain rfl : op = reader :=
      List.inj_on_of_nodup_map hids hop (hpruned.mem_operators.mp hreader).1 (hid'.trans hid.symm)
    obtain ⟨input, hinput, rfl⟩ := List.mem_map.mp hread
    have hinput₁ : input ∈ c₁.operators :=
      Circuit.mem_operators_of_reads hpruned.reads hreader hinput
    exact ⟨input, hinput₁, rfl, hlive.input hreader hinput⟩

/-- Removing dead operators makes no others dead. -/
theorem live_of_pruned (hids : (c.operators.map Operator.id).Nodup)
    (hinputs : ∀ a b, c.ReaderEdge a b → a ∈ c.operators.map Operator.id)
    (hpruned : Pruned (DeadCode.live c c.graph) c c₁) {op : Operator} (hop : op ∈ c₁.operators) :
    c₁.Live op := by
  obtain ⟨hold, hlive⟩ := hpruned.mem_operators.mp hop
  rw [DeadCode.live, Circuit.mem_reaching_graph_iff hinputs] at hlive
  obtain ⟨-, root, hroot, hknown, hpath⟩ := hlive
  obtain ⟨sink, hsink, rfl⟩ := List.mem_map.mp hroot
  have hsink₁ : sink ∈ c₁.sinks := by
    obtain ⟨hsinkop, hkind⟩ := List.mem_filter.mp hsink
    have hmet : sink.id ∈ DeadCode.live c c.graph :=
      (Circuit.mem_reaching_graph_iff hinputs).mpr ⟨hknown, _, hroot, hknown, .refl⟩
    exact List.mem_filter.mpr ⟨hpruned.mem_operators.mpr ⟨hsinkop, hmet⟩, hkind⟩
  obtain ⟨op', hop', hid, hlive'⟩ := exists_live_of_path hids hpruned hsink₁ hpath
  obtain rfl : op' = op := List.inj_on_of_nodup_map hids (hpruned.mem_operators.mp hop').1 hold hid
  exact hlive'

/-- **What is left has nothing dead in it.** -/
theorem wp_run_again {g : Graph} (hc₁ : c₁.Made s.next) (hgraph : Graph.ofCircuit c = .ok g)
    (hpruned : Pruned (DeadCode.live c g) c c₁) : Job.wp (run c₁) (fun c' _ => c' = c₁) fail s := by
  obtain ⟨⟨hids, hinputs⟩, rfl⟩ := Circuit.ofCircuit_eq_ok_iff.mp hgraph
  have hv : c₁.validate = .ok () := hpruned.validate_eq_ok hids
  refine (wp_run hc₁ (.inr hv)).imp fun c' s' h => ?_
  obtain ⟨-, g, hgraph₁, hpruned₁⟩ := h
  obtain ⟨-, rfl⟩ := Circuit.ofCircuit_eq_ok_iff.mp hgraph₁
  refine Circuit.eq_of_nodes hpruned₁.name ?_
  rw [hpruned₁.nodes, List.filter_eq_self]
  intro node hnode
  refine (survives_iff hc₁ hv hnode).mpr ?_
  cases node with
  | declaration => trivial
  | operator op => exact live_of_pruned hids hinputs hpruned (Circuit.mem_operators.mpr hnode)

end DeadCode

namespace Pass

/-- What a pass has made, it leaves alone. -/
theorem wp_run_again (pass : Pass) {s₁ t : Session Unit} (hc : c.Made s.next)
    (hrun : (pass.run c).exec s = (.ok c₁, s₁)) (ht : s₁.next ≤ t.next) :
    Job.wp (pass.run c₁) (fun c' _ => c' = c₁) fail t := by
  cases pass with
  | deadCode =>
    have hfirst : Job.wp (DeadCode.run c) _ (fun _ => True) s :=
      DeadCode.wp_run hc (.inl fun _ => trivial)
    obtain ⟨hle, g, hgraph, hpruned⟩ := hfirst.of_exec_ok hrun
    exact DeadCode.wp_run_again (hc.of_subset hpruned.subset (hle.trans ht)) hgraph hpruned
  | constantFold =>
    have hfirst : Job.wp (ConstantFold.run c) _ (fun _ => True) s :=
      ConstantFold.wp_run hc (.inl fun _ => trivial)
    obtain ⟨hfolded, hc₁⟩ := hfirst.of_exec_ok hrun
    exact ConstantFold.wp_run_again (hc₁.of_subset (List.Subset.refl _) ht) hfolded
  | dedup =>
    have hfirst : Job.wp (Dedup.run c) _ (fun _ => True) s :=
      Dedup.wp_run hc (.inl fun _ => trivial)
    obtain ⟨hshared, hc₁, hone⟩ := hfirst.of_exec_ok hrun
    exact Dedup.wp_run_again (hc₁.of_subset (List.Subset.refl _) ht) hshared.reads hone

/-- **Running a pass again changes nothing.**  Whatever circuit a pass succeeds on, well formed or
not, it succeeds on the result, now or later, and gives back its nodes: the very operators and
declarations, in their places. -/
theorem run_again {pass : Pass} {s₁ t : Session Unit} (hc : c.Made s.next)
    (hrun : (pass.run c).exec s = (.ok c₁, s₁)) (ht : s₁.next ≤ t.next) :
    ∃ c₂ t₁, (pass.run c₁).exec t = (.ok c₂, t₁) ∧ c₂.name = c₁.name ∧
      List.Forall₂ (fun node again => identical node again = true ∧ again = node)
        c₁.nodes c₂.nodes := by
  have hagain : Job.wp (pass.run c₁) (fun c' _ => c' = c₁) (fun _ => False) t :=
    wp_run_again pass hc hrun ht
  obtain ⟨c₂, t₁, hexec, rfl⟩ := hagain.exists_ok
  exact ⟨c₂, t₁, hexec, rfl, List.forall₂_same.mpr fun _ _ => ⟨identical_iff.mpr rfl, rfl⟩⟩

end Pass

namespace Ripple

open Sample

/-- Every node is listed twice. -/
def twice : Circuit := ⟨"twice", circuit.nodes ++ circuit.nodes⟩

/-- An operator that reaches no sink stands before the one that it reads. -/
def ahead : Circuit :=
  ⟨"ahead", [.operator aside, .declaration ⟨6, "five", five₁⟩, .operator source, .operator raised,
    .operator out]⟩

/-- A circuit that is not well formed and that the pass succeeds on. -/
def illFormed : Pass → Circuit
  | .deadCode => ahead
  | .constantFold | .dedup => twice

theorem made_illFormed (pass : Pass) : (illFormed pass).Made 13 := by
  refine made_circuit.of_subset ?_ (le_refl _)
  cases pass <;> simp [illFormed, ahead, twice, circuit]

theorem validate_illFormed (pass : Pass) : (illFormed pass).validate ≠ .ok () := by
  intro h
  cases pass <;> cases h

theorem isOk_run_illFormed (pass : Pass) :
    ((pass.run (illFormed pass)).exec ⟨13, [], ()⟩).1.isOk = true := by
  cases pass <;> decide +kernel

end Ripple

theorem Pass.run_again_ripple :
    (∀ pass, (Ripple.illFormed pass).Made 13 ∧ (Ripple.illFormed pass).validate ≠ .ok ()) ∧
      ∀ pass : Pass, ∃ c₁ s₁ c₂ t₁, (pass.run (Ripple.illFormed pass)).exec ⟨13, [], ()⟩ =
        (.ok c₁, s₁) ∧ (pass.run c₁).exec s₁ = (.ok c₂, t₁) ∧
        List.Forall₂ (fun node again => identical node again = true ∧ again = node)
          c₁.nodes c₂.nodes := by
  refine ⟨fun pass => ⟨Ripple.made_illFormed pass, Ripple.validate_illFormed pass⟩, fun pass => ?_⟩
  obtain ⟨c₁, s₁, hrun⟩ := Job.exists_of_isOk (Ripple.isOk_run_illFormed pass)
  obtain ⟨c₂, t₁, hagain, -, hnodes⟩ :=
    run_again (s := ⟨13, [], ()⟩) (Ripple.made_illFormed pass) hrun (le_refl _)
  exact ⟨c₁, s₁, c₂, t₁, hrun, hagain, hnodes⟩

end FlowCircuit
