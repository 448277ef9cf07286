import FlowCircuit.Pass.Pipeline
import FlowCircuit.Proofs.Alike
import FlowCircuit.Proofs.Folding
import FlowCircuit.Proofs.Sharing

/-!
# Well-formed circuits go through every pipeline

Every pass turns a well-formed circuit into a well-formed one, and never fails on it
(`Pass.wp_run`).  So a pipeline that checks circuits fails exactly on those that are not well
formed, before its first pass, and never because of a pass.

A pass makes an ill-formed circuit well formed or fails, as long as no number occurs twice: whatever
it keeps, it makes read what it keeps.  So a pipeline that checks nothing still ends in a
well-formed circuit if it ends in one at all, and has a pass.
-/

set_option autoImplicit false

namespace FlowCircuit

variable {c c' : Circuit} {s : Session Unit}

/-! ## One pass -/

/-- Changing functions leaves numbers where they are. -/
theorem Circuit.Transformed.ids {R : Expr → Expr → Prop} (h : c.Transformed R c') :
    c'.operators.map Operator.id = c.operators.map Operator.id :=
  (forall₂_map_eq_iff.mp ((forall₂_operators h.nodes).imp fun _ _ hab => hab.id.symm)).symm

theorem Circuit.Transformed.validate_eq_ok {R : Expr → Expr → Prop} (h : c.Transformed R c')
    (hids : (c.operators.map Operator.id).Nodup) : c'.validate = .ok () :=
  validate_eq_ok_of_reads (h.ids ▸ hids) h.reads

theorem DeadCode.Pruned.subset {live : List OpId} (h : Pruned live c c') : c'.nodes ⊆ c.nodes := by
  rw [h.nodes]
  exact List.filter_subset_self _

theorem DeadCode.Pruned.validate_eq_ok {live : List OpId} (h : Pruned live c c')
    (hids : (c.operators.map Operator.id).Nodup) : c'.validate = .ok () := by
  refine Circuit.validate_eq_ok_of_reads (hids.sublist ?_) h.reads
  rw [Circuit.operators, Circuit.operators, h.nodes]
  exact (List.filter_sublist.filterMap _).map _

/-- **What a pass gives is well formed.**  It may fail only where it was given something that is
not. -/
theorem Pass.wp_run (pass : Pass) {fail : Error → Prop} (hc : c.Made s.next)
    (hids : (c.operators.map Operator.id).Nodup) (hfail : (∀ e, fail e) ∨ c.validate = .ok ()) :
    Job.wp (pass.run c) (fun c' s' => c'.Made s'.next ∧ c'.validate = .ok ()) fail s := by
  cases pass with
  | deadCode =>
    refine (DeadCode.wp_run hc hfail).imp fun c' s' h => ?_
    obtain ⟨hle, g, -, hpruned⟩ := h
    exact ⟨hc.of_subset hpruned.subset hle, hpruned.validate_eq_ok hids⟩
  | constantFold =>
    exact (ConstantFold.wp_run hc hfail).imp fun c' s' h => ⟨h.2, h.1.validate_eq_ok hids⟩
  | dedup =>
    exact (Dedup.wp_run hc hfail).imp fun c' s' h => ⟨h.2.1, h.1.validate_eq_ok hids⟩

namespace Pipeline

variable {p : Pipeline} {fail : CompileError → Prop}

/-! ## One step -/

theorem verified_eq_ok (hv : c.validate = .ok ()) : p.verified c = .ok () := by
  rw [verified, hv, ite_self]

/-- The check after a pass finds nothing where the pass gives well-formed circuits. -/
theorem wp_step_of (post : Circuit → Label → Prop) {pass : Pass}
    (hpass : ∀ notices, Job.wp (pass.run c) (fun c' s' => post c' s'.next ∧ c'.validate = .ok ())
      (fun e => fail (.passFailed pass.name e)) { s with notices }) :
    Job.wp (p.step c pass) (fun c' s' => post c' s'.next ∧ c'.validate = .ok ()) fail s := by
  rw [step, Job.wp_bind, Job.wp_report, Job.wp_bind, Job.wp_mapError]
  refine (hpass _).imp fun c' s' h => ?_
  rw [Job.wp_bind, Job.wp_ofExcept, verified_eq_ok h.2]
  exact h

theorem wp_step (pass : Pass) (hc : c.Made s.next) (hids : (c.operators.map Operator.id).Nodup)
    (hfail : (∀ e, fail e) ∨ c.validate = .ok ()) :
    Job.wp (p.step c pass) (fun c' s' => c'.Made s'.next ∧ c'.validate = .ok ()) fail s :=
  wp_step_of Circuit.Made fun notices => pass.wp_run (s := { s with notices }) hc hids
    (hfail.imp_left fun h e => h (.passFailed pass.name e))

/-! ## Whole pipelines -/

theorem wp_steps (passes : List Pass) (hc : c.Made s.next) (hv : c.validate = .ok ()) :
    Job.wp (p.steps c passes) (fun c' s' => c'.Made s'.next ∧ c'.validate = .ok ()) fail s := by
  induction passes generalizing c s with
  | nil => exact ⟨hc, hv⟩
  | cons pass passes ih =>
    have hids := (Circuit.validate_eq_ok_iff.mp hv).1
    rw [steps, Job.wp_bind]
    exact (wp_step pass hc hids (Or.inr hv)).imp fun c' s' h => ih h.1 h.2

/-- A well-formed circuit goes through, checked or not. -/
theorem wp_run_of_validate (hc : c.Made s.next) (hv : c.validate = .ok ()) :
    Job.wp (p.run c) (fun c' _ => c'.validate = .ok ()) fail s := by
  rw [run, Job.wp_bind, Job.wp_ofExcept, verified_eq_ok hv]
  exact (wp_steps p.passes hc hv).imp fun c' s' h => h.2

/-- A circuit that is not well formed is turned away. -/
theorem exec_run_of_validate_error (hverify : p.verify = true) {e : Error}
    (hv : c.validate = .error e) : (p.run c).exec s = (.error (.circuit e), s) := by
  rw [run, Job.exec_bind, verified, if_pos hverify, hv]
  rfl

/-- Unchecked, what comes out of the first pass is well formed. -/
theorem wp_run_of_nodup (hverify : p.verify = false) (hpasses : p.passes ≠ [])
    (hc : c.Made s.next) (hids : (c.operators.map Operator.id).Nodup) :
    Job.wp (p.run c) (fun c' _ => c'.validate = .ok ()) (fun _ => True) s := by
  have hverified : p.verified c = .ok () := by simp [verified, hverify]
  rw [run, Job.wp_bind, Job.wp_ofExcept, hverified]
  obtain ⟨pass, rest, hcons⟩ := List.exists_cons_of_ne_nil hpasses
  change Job.wp (p.steps c p.passes) _ _ _
  rw [hcons, steps, Job.wp_bind]
  refine (wp_step pass hc hids (Or.inl fun _ => trivial)).imp fun c₁ s₁ h => ?_
  exact (wp_steps rest h.1 h.2).imp fun c' s' h => h.2

/-- Options that name passes ask for a pipeline of those passes. -/
theorem exists_ofOptions {o : Options} {passes : List Pass} (h : o.passes = passes.map Pass.name) :
    ∃ p, ofOptions o = .ok p ∧ p.passes = passes ∧ p.verify = o.verify := by
  have hnamed : passes.mapM (passNamed ∘ Pass.name) = .ok (passes.map id) :=
    mapM_eq_ok fun pass _ => by cases pass <;> rfl
  refine ⟨⟨passes, o.verify, if o.logStatistics then .info else .debug⟩, ?_, rfl, rfl⟩
  rw [ofOptions, h, List.mapM_map, hnamed, List.map_id]
  rfl

/-- **A pipeline that checks circuits succeeds on exactly the well-formed ones**, whichever passes
it has.  Its result is well formed; and when it fails, the circuit it was given was not, which is
what it reports.  A pipeline that checks nothing still gives only well-formed results, if it has a
pass at all and no number occurs twice. -/
theorem run_succeeds_iff_validate {o : Options} {passes : List Pass}
    (ho : o.passes = passes.map Pass.name) (hc : c.Made s.next) :
    ∃ p, ofOptions o = .ok p ∧
      (o.verify = true →
        ((∃ c' s', (p.run c).exec s = (.ok c', s')) ↔ c.validate = .ok ()) ∧
        (∀ c' s', (p.run c).exec s = (.ok c', s') → c'.validate = .ok ()) ∧
        (∀ e, c.validate = .error e → ((p.run c).exec s).1 = .error (.circuit e)) ∧
        ∀ e s', (p.run c).exec s = (.error e, s') → ∃ e', c.validate = .error e' ∧
          e = .circuit e') ∧
      (o.verify = false → passes ≠ [] → (c.operators.map Operator.id).Nodup →
        ∀ c' s', (p.run c).exec s = (.ok c', s') → c'.validate = .ok ()) := by
  obtain ⟨p, hp, rfl, hverify⟩ := exists_ofOptions ho
  rw [← hverify]
  refine ⟨p, hp, fun hverify => ?_, fun hverify hpasses hids c' s' hexec =>
    (wp_run_of_nodup hverify hpasses hc hids).of_exec_ok hexec⟩
  cases hv : c.validate with
  | ok =>
    have hrun : Job.wp (p.run c) _ (fun _ => False) s := wp_run_of_validate hc hv
    obtain ⟨c', s', hexec, hv'⟩ := hrun.exists_ok
    rw [hexec]
    refine ⟨iff_of_true ⟨c', s', rfl⟩ rfl, ?_, ?_, ?_⟩
    · rintro _ _ ⟨rfl⟩
      exact hv'
    · intro e h
      cases h
    · intro e s'' h
      cases h
  | error e =>
    rw [exec_run_of_validate_error hverify hv]
    refine ⟨iff_of_false ?_ nofun, ?_, ?_, ?_⟩
    · rintro ⟨c', s', h⟩
      cases h
    · intro c' s' h
      cases h
    · rintro _ ⟨rfl⟩
      rfl
    · rintro _ _ ⟨rfl⟩
      exact ⟨e, rfl, rfl⟩

theorem run_succeeds_iff_validate_sample :
    Sample.circuit.Made 15 ∧ ∃ p c' s',
      ofOptions ⟨["dedup", "dead_code", "dedup", "constant_fold"], true, false⟩ = .ok p ∧
        (p.run Sample.circuit).exec ⟨15, [], ()⟩ = (.ok c', s') ∧ c'.validate = .ok () := by
  have hnames : ["dedup", "dead_code", "dedup", "constant_fold"] =
      [Pass.dedup, .deadCode, .dedup, .constantFold].map Pass.name := rfl
  obtain ⟨p, hp, hchecked, -⟩ := run_succeeds_iff_validate (o := ⟨_, true, false⟩)
    (s := ⟨15, [], ()⟩) hnames Sample.made_circuit
  obtain ⟨hiff, hvalid, -⟩ := hchecked rfl
  obtain ⟨c', s', hrun⟩ := hiff.mpr Sample.validate_circuit
  exact ⟨Sample.made_circuit, p, c', s', hp, hrun, hvalid c' s' hrun⟩

end Pipeline

end FlowCircuit
