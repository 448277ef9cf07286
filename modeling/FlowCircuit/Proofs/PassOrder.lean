import FlowCircuit.Proofs.Pipeline
import FlowCircuit.Proofs.Printing
import FlowCircuit.Proofs.Refold

/-!
# The order of passes does not matter

Passes can be run in any order and any number of times.  What comes out is determined, up to which
nodes are shared, by *which* passes there are: dead operators are gone or not, and constants are
evaluated or not (`Pipeline.result_of_pass_set`).

`Brought c folded pruned c'` says what passes make of `c`: the nodes that remain of it, in their
places, with functions that are the same as those there were, or the same as what those evaluate to.
Each pass takes a circuit so described to another one, with a flag set that may have been set before
(`Brought.wp_run`).  Evaluating after sharing is evaluating, and sharing after evaluating changes
nothing that `same` can see; dead operators are told by numbers, which no other pass changes.
-/

set_option autoImplicit false

namespace FlowCircuit

/-! ## Expressions -/

/-- What passes make of an expression, with or without evaluating constants. -/
def Reached (folded : Bool) (e e' : Expr) : Prop :=
  e.WellTyped ∧ e'.WellTyped ∧ if folded then
    ∃ a b : Expr, a.WellTyped ∧ e.same a = true ∧ ConstantFold.Folds a b ∧ b.same e' = true
  else e.same e' = true

namespace Reached

variable {folded : Bool} {e e' e'' : Expr}

/-- An expression that is the same may stand for the result. -/
theorem of_same (h : Reached folded e e')
    (h' : e'.WellTyped ∧ e''.WellTyped ∧ e'.same e'' = true) : Reached folded e e'' := by
  refine ⟨h.1, h'.2.1, ?_⟩
  cases folded with
  | false => exact Expr.same_trans h.2.2 h'.2.2
  | true =>
    obtain ⟨a, b, ha, hea, hab, hb⟩ := h.2.2
    exact ⟨a, b, ha, hea, hab, Expr.same_trans hb h'.2.2⟩

/-- Constants may be evaluated at any time. -/
theorem of_folds (h : Reached folded e e')
    (h' : e'.WellTyped ∧ e''.WellTyped ∧ ConstantFold.Folds e' e'') : Reached true e e'' := by
  refine ⟨h.1, h'.2.1, ?_⟩
  cases folded with
  | false => exact ⟨e', e'', h.2.1, h.2.2, h'.2.2, e''.same_refl⟩
  | true =>
    obtain ⟨a, b, ha, hea, hab, hb⟩ := h.2.2
    exact ⟨a, b, ha, hea, hab, hab.again.same h'.2.2 hb hab.wellTyped h.2.1⟩

/-- What is reached is determined up to `same`. -/
theorem same (h : Reached folded e e') (h' : Reached folded e e'') : e'.same e'' = true := by
  cases folded with
  | false => exact Expr.same_trans (Expr.same_symm h.2.2) h'.2.2
  | true =>
    obtain ⟨a, b, ha, hea, hab, hb⟩ := h.2.2
    obtain ⟨a', b', ha', hea', hab', hb'⟩ := h'.2.2
    have haa' := Expr.same_trans (Expr.same_symm hea) hea'
    exact Expr.same_trans (Expr.same_symm hb) (Expr.same_trans (hab.same hab' haa' ha ha') hb')

end Reached

/-! ## Circuits -/

open DeadCode (survives)

/-- The nodes of a circuit, or those that are left without its dead operators. -/
def Circuit.remaining (c : Circuit) (pruned : Bool) : List Node :=
  if pruned then c.nodes.filter (survives (DeadCode.live c c.graph)) else c.nodes

/-- What passes make of a circuit, with or without evaluating constants and removing dead
operators. -/
structure Brought (c : Circuit) (folded pruned : Bool) (c' : Circuit) : Prop where
  name : c'.name = c.name
  nodes : List.Forall₂ (Node.Alike (Reached folded)) (c.remaining pruned) c'.nodes

theorem Node.Alike.survives_eq {R : Expr → Expr → Prop} {a b : Node} (h : a.Alike R b)
    (live : List OpId) : survives live a = survives live b := by
  cases a with
  | operator a =>
    cases b with
    | operator b => rw [survives, survives, Operator.Alike.id h]
    | declaration b => exact h.elim
  | declaration a =>
    cases b with
    | operator b => exact h.elim
    | declaration b => rfl

section

variable {c c' c'' : Circuit} {next next' : Label} {folded pruned : Bool}

/-- The dead operators of a well-formed circuit can be removed, and then there are none. -/
theorem Circuit.Made.remaining (hc : c.Made next) (hv : c.validate = .ok ()) :
    ∃ c', c'.nodes = c.remaining true ∧ c'.Made next ∧ c'.validate = .ok () ∧
      ∀ node ∈ c'.nodes, survives (DeadCode.live c' c'.graph) node = true := by
  have hrun : Job.wp (DeadCode.run c) _ (fun _ => False) ⟨next, [], ()⟩ :=
    DeadCode.wp_run hc (Or.inr hv)
  obtain ⟨c', s', -, -, g, hgraph, hpruned⟩ := hrun.exists_ok
  obtain rfl : c.graph = g := by
    rw [DeadCode.ofCircuit_eq_ok_of_validate (s := ⟨next, [], ()⟩) hc hv] at hgraph
    exact Except.ok.inj hgraph
  have hv' := hpruned.validate_eq_ok (Circuit.validate_eq_ok_iff.mp hv).1
  have hc' : c'.Made next := hc.of_subset hpruned.subset (le_refl _)
  refine ⟨c', hpruned.nodes, hc', hv', fun node hnode => ?_⟩
  classical
  have hspared : c'.nodes = c.nodes.filter fun node => DeadCode.Spared c node := by
    rw [hpruned.nodes]
    refine List.filter_congr fun node hnode => ?_
    rw [Bool.eq_iff_iff, decide_eq_true_eq]
    exact DeadCode.survives_iff (s := ⟨next, [], ()⟩) hc hv hnode
  rw [DeadCode.survives_iff (s := ⟨next, [], ()⟩) hc' hv' hnode]
  rw [hspared, List.mem_filter, decide_eq_true_eq] at hnode
  cases node with
  | declaration => trivial
  | operator op =>
    obtain ⟨sink, hsink, hfeeds⟩ := hnode.2
    exact ⟨sink, DeadCode.sinks_eq hspared ▸ hsink, (DeadCode.feeds_iff hspared hsink).mpr hfeeds⟩

namespace Brought

/-- A circuit that no pass was run on. -/
theorem refl (hc : c.Made next) (hv : c.validate = .ok ()) : Brought c false false c :=
  ⟨rfl, Circuit.forall₂_alike_wellTyped hc hv hc hv (List.Subset.refl _) (List.Subset.refl _)
    (List.forall₂_same.mpr fun node _ => node.alike_refl Expr.same_refl)⟩

/-- A pass that changes functions. -/
theorem of_transformed {R : Expr → Expr → Prop} {folded' : Bool} (h : Brought c folded pruned c')
    (hc' : c'.Made next) (hv' : c'.validate = .ok ()) (hc'' : c''.Made next')
    (hv'' : c''.validate = .ok ()) (h' : c'.Transformed R c'')
    (hR : ∀ e e' e'', Reached folded e e' → e'.WellTyped ∧ e''.WellTyped ∧ R e' e'' →
      Reached folded' e e'') : Brought c folded' pruned c'' := by
  have hnodes := Circuit.forall₂_alike_wellTyped hc' hv' hc'' hv'' (List.Subset.refl _)
    (List.Subset.refl _) h'.nodes
  exact ⟨h'.name.trans h.name,
    forall₂_trans_of_mem h.nodes hnodes fun a _ b c hab hbc => hab.trans hR hbc⟩

/-- The pass that removes dead operators. -/
theorem of_pruned (hc : c.Made next) (hv : c.validate = .ok ()) (h : Brought c folded pruned c')
    (h' : DeadCode.Pruned (DeadCode.live c' c'.graph) c' c'') : Brought c folded true c'' := by
  refine ⟨h'.name.trans h.name, ?_⟩
  rw [h'.nodes]
  cases pruned with
  | false =>
    have hlive := Circuit.live_eq_of_alike h.nodes
    rw [Circuit.remaining, if_pos rfl, ← hlive]
    exact List.rel_filter (fun a b hab => Bool.eq_iff_iff.mp (hab.survives_eq _)) h.nodes
  | true =>
    obtain ⟨cp, hnodes, -, -, hall⟩ := hc.remaining hv
    have halike := h.nodes
    rw [← hnodes] at halike
    rw [List.filter_eq_self.mpr, ← hnodes]
    · exact halike
    · intro node hnode
      obtain ⟨old, hold, hsame⟩ := forall₂_exists_left halike hnode
      rw [← Circuit.live_eq_of_alike halike, ← hsame.survives_eq]
      exact hall old hold

/-- Circuits brought about by the same passes agree node by node. -/
theorem alike (h : Brought c folded pruned c') (h' : Brought c folded pruned c'') :
    List.Forall₂ (Node.Alike fun e e' => e.WellTyped ∧ e'.WellTyped ∧ e.same e' = true)
      c'.nodes c''.nodes :=
  forall₂_trans_of_mem h.nodes.flip h'.nodes fun _ _ _ _ hab hac =>
    Node.Alike.trans (fun _ _ _ hae hac => ⟨hae.2.1, hac.2.1, hae.same hac⟩)
      (Node.Alike.symm hab) hac

/-- Every pass sets the flag of what it does. -/
theorem wp_run (hc : c.Made next) (hv : c.validate = .ok ()) (pass : Pass) {s : Session Unit}
    {fail : Error → Prop} (h : Brought c folded pruned c') (hc' : c'.Made s.next)
    (hv' : c'.validate = .ok ()) :
    Job.wp (pass.run c') (fun c'' s' =>
      (Brought c (decide (pass = .constantFold) || folded)
        (decide (pass = .deadCode) || pruned) c'' ∧ c''.Made s'.next) ∧
      c''.validate = .ok ()) fail s := by
  have hids := (Circuit.validate_eq_ok_iff.mp hv').1
  cases pass with
  | deadCode =>
    refine (DeadCode.wp_run hc' (Or.inr hv')).imp fun c'' s' hrun => ?_
    obtain ⟨hle, g, hgraph, hpruned⟩ := hrun
    rw [DeadCode.ofCircuit_eq_ok_of_validate hc' hv'] at hgraph
    obtain rfl : c'.graph = g := Except.ok.inj hgraph
    exact ⟨⟨h.of_pruned hc hv hpruned, hc'.of_subset hpruned.subset hle⟩,
      hpruned.validate_eq_ok hids⟩
  | constantFold =>
    refine (ConstantFold.wp_run hc' (Or.inr hv')).imp fun c'' s' hrun => ?_
    have hv'' := hrun.1.validate_eq_ok hids
    exact ⟨⟨h.of_transformed hc' hv' hrun.2 hv'' hrun.1 fun _ _ _ => Reached.of_folds,
      hrun.2⟩, hv''⟩
  | dedup =>
    refine (Dedup.wp_run hc' (Or.inr hv')).imp fun c'' s' hrun => ?_
    have hv'' := hrun.1.validate_eq_ok hids
    exact ⟨⟨h.of_transformed hc' hv' hrun.2.1 hv'' hrun.1 fun _ _ _ => Reached.of_same,
      hrun.2.1⟩, hv''⟩

/-- Passes set the flags of what they do, one after another. -/
theorem wp_steps (hc : c.Made next) (hv : c.validate = .ok ()) (p : Pipeline) (passes : List Pass)
    {s : Session Unit} {fail : CompileError → Prop} (h : Brought c folded pruned c')
    (hc' : c'.Made s.next) (hv' : c'.validate = .ok ()) :
    Job.wp (p.steps c' passes) (fun c'' _ =>
      Brought c (decide (.constantFold ∈ passes) || folded)
        (decide (.deadCode ∈ passes) || pruned) c'') fail s := by
  induction passes generalizing c' s folded pruned with
  | nil => exact h
  | cons pass passes ih =>
    rw [Pipeline.steps, Job.wp_bind]
    refine (Pipeline.wp_step_of (fun c'' next => Brought c _ _ c'' ∧ c''.Made next) fun notices =>
      h.wp_run (s := { s with notices }) hc hv pass hc' hv').imp fun c₁ s₁ h₁ => ?_
    refine (ih h₁.1.1 h₁.1.2 h₁.2).imp fun c'' s'' h'' => ?_
    simpa [eq_comm, Bool.or_assoc, Bool.or_comm, Bool.or_left_comm] using h''

end Brought

end

namespace Pipeline

variable {c : Circuit} {s s₁ s₂ : Session Unit}

/-- What a pipeline makes of a well-formed circuit. -/
theorem exists_brought (p : Pipeline) (hc : c.Made s.next) (hv : c.validate = .ok ()) :
    ∃ c' s', (p.run c).exec s = (.ok c', s') ∧
      Brought c (decide (.constantFold ∈ p.passes)) (decide (.deadCode ∈ p.passes)) c' := by
  have hrun : Job.wp (p.run c) (fun c' _ =>
      Brought c (decide (.constantFold ∈ p.passes)) (decide (.deadCode ∈ p.passes)) c')
      (fun _ => False) s := by
    rw [run, Job.wp_bind, Job.wp_ofExcept, verified_eq_ok hv]
    refine (Brought.wp_steps hc hv p p.passes (.refl hc hv) hc hv).imp fun c' s' h => ?_
    rwa [Bool.or_false, Bool.or_false] at h
  exact hrun.exists_ok

/-- **What a pipeline gives depends only on which passes it has**, not on their order or on how
often they are run.  Two pipelines of the same passes give circuits of the same name whose nodes
agree one by one, with functions that are the same; so the circuits are written the same way. -/
theorem result_of_pass_set {o₁ o₂ : Options} {passes₁ passes₂ : List Pass}
    (ho₁ : o₁.passes = passes₁.map Pass.name) (ho₂ : o₂.passes = passes₂.map Pass.name)
    (hpasses : ∀ pass, pass ∈ passes₁ ↔ pass ∈ passes₂) (hc₁ : c.Made s₁.next)
    (hc₂ : c.Made s₂.next) (hv : c.validate = .ok ()) :
    ∃ p₁ p₂ c₁ c₂ s₁' s₂', ofOptions o₁ = .ok p₁ ∧ ofOptions o₂ = .ok p₂ ∧
      (p₁.run c).exec s₁ = (.ok c₁, s₁') ∧ (p₂.run c).exec s₂ = (.ok c₂, s₂') ∧
      c₁.name = c₂.name ∧
      List.Forall₂ (Node.Alike fun e e' => e.same e' = true) c₁.nodes c₂.nodes ∧
      c₁.text = c₂.text := by
  obtain ⟨p₁, hp₁, rfl, -⟩ := exists_ofOptions ho₁
  obtain ⟨p₂, hp₂, rfl, -⟩ := exists_ofOptions ho₂
  obtain ⟨c₁, s₁', hrun₁, h₁⟩ := p₁.exists_brought hc₁ hv
  obtain ⟨c₂, s₂', hrun₂, h₂⟩ := p₂.exists_brought hc₂ hv
  simp only [hpasses] at h₁
  have hname : c₁.name = c₂.name := h₁.name.trans h₂.name.symm
  have halike := h₁.alike h₂
  refine ⟨p₁, p₂, c₁, c₂, s₁', s₂', hp₁, hp₂, hrun₁, hrun₂, hname, ?_, ?_⟩
  · exact halike.imp fun _ _ h => h.mono fun e e' h => h.2.2
  · refine Circuit.text_eq_of_nodes hname (halike.imp fun _ _ h => h.text fun e e' h => ?_)
    exact ⟨(Expr.same_iff_shape.mp h.2.2).1, Expr.text_eq_of_same h.1 h.2.1 h.2.2⟩

theorem result_of_pass_set_sample :
    Sample.circuit.Made 15 ∧ Sample.circuit.validate = .ok () ∧ ∃ p₁ p₂ c₁ c₂ s₁' s₂',
      ofOptions ⟨["dedup", "dead_code", "dedup", "constant_fold"], true, false⟩ = .ok p₁ ∧
        ofOptions ⟨["constant_fold", "dead_code", "dedup"], false, true⟩ = .ok p₂ ∧
        (p₁.run Sample.circuit).exec ⟨15, [], ()⟩ = (.ok c₁, s₁') ∧
        (p₂.run Sample.circuit).exec ⟨15, [], ()⟩ = (.ok c₂, s₂') ∧ c₁.name = c₂.name ∧
        List.Forall₂ (Node.Alike fun e e' => e.same e' = true) c₁.nodes c₂.nodes ∧
        c₁.text = c₂.text := by
  have hnames₁ : ["dedup", "dead_code", "dedup", "constant_fold"] =
      [Pass.dedup, .deadCode, .dedup, .constantFold].map Pass.name := rfl
  have hnames₂ : ["constant_fold", "dead_code", "dedup"] =
      [Pass.constantFold, .deadCode, .dedup].map Pass.name := rfl
  have hpasses : ∀ pass, pass ∈ [Pass.dedup, .deadCode, .dedup, .constantFold] ↔
      pass ∈ [Pass.constantFold, .deadCode, .dedup] := by
    intro pass
    cases pass <;> decide
  exact ⟨Sample.made_circuit, Sample.validate_circuit, result_of_pass_set hnames₁ hnames₂ hpasses
    Sample.made_circuit Sample.made_circuit Sample.validate_circuit⟩

end Pipeline

end FlowCircuit
