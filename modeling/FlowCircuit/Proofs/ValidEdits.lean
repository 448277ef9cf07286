import FlowCircuit.Proofs.AskedOnce
import FlowCircuit.Proofs.Made

/-!
# Edits that keep circuits well formed

An edit may drop what it likes, and it may answer a question differently each time it is asked.  As
long as every operator it returns has the number of the operator it replaces and reads the inputs it
was given, what comes out of a well-formed circuit is well formed, and the nodes that are left stand
in their old order.  If no hook fails, the run fails exactly when an operator that is kept reads one
that was dropped (`CircuitEdit.apply_keeps_valid`).

The argument follows the nodes that were given out: a replacement that the run has noted stands
among them, with everything it reads (`Record.Emitted`).
-/

set_option autoImplicit false

namespace FlowCircuit.CircuitEdit

variable {σ : Type} {r : CircuitEdit σ} {I : σ → Prop} {p p' : Record} {nodes : List Node}

/-! ## Questions are about the nodes of the circuit -/

/-- The node that a question is about. -/
def Event.node : Event → Node
  | .keep op _ => .operator op
  | .operator op _ _ => .operator op
  | .declaration d _ => .declaration d

/-- All new questions are about nodes of the list, answered by the hooks, and none was taken
back. -/
structure Adds (r : CircuitEdit σ) (I : σ → Prop) (history : List Event) (nodes : List Node)
    (history' : List Event) : Prop where
  subset : history ⊆ history'
  about : ∀ event ∈ history', event ∈ history ∨ event.node ∈ nodes ∧ r.Answers I event

theorem adds_refl (history : List Event) (nodes : List Node) : Adds r I history nodes history :=
  ⟨List.Subset.refl _, fun _ h => .inl h⟩

theorem Adds.cons {history history' : List Event} {event : Event}
    (h : Adds r I history nodes history') (hevent : event.node ∈ nodes)
    (hanswer : r.Answers I event) : Adds r I history nodes (event :: history') := by
  refine ⟨List.Subset.trans h.subset (List.subset_cons_self _ _), fun event' h' => ?_⟩
  rcases List.mem_cons.mp h' with rfl | h'
  · exact .inr ⟨hevent, hanswer⟩
  · exact h.about event' h'

/-- A step asks about its own node. -/
theorem NodeStep.adds {node : Node} {result : Except Error (Option Node)}
    (h : NodeStep r I p result p' node) : Adds r I p.history [node] p'.history := by
  have hnone : Adds r I p.history [node] p.history := adds_refl _ _
  have hself := List.mem_singleton_self node
  cases node with
  | operator op =>
    obtain ⟨_, hstep, -⟩ := h
    cases hstep with
    | again => exact hnone
    | stillDropped => exact hnone
    | keepFails _ hkeep => exact hnone.cons hself hkeep
    | refused _ hkeep => exact hnone.cons hself hkeep
    | inputMissing _ hkeep => exact hnone.cons hself hkeep
    | asked _ hkeep _ hanswer =>
      rw [Record.history_settle]
      have hkeep' : Adds r I p.history [.operator op] (.keep op (.ok true) :: p.history) :=
        hnone.cons hself hkeep
      exact hkeep'.cons hself hanswer
  | declaration d =>
    obtain ⟨_, hstep, -⟩ := h
    cases hstep with
    | again => exact hnone
    | asked _ hanswer =>
      rw [Record.history_declare]
      exact hnone.cons hself hanswer

/-- A run asks about the nodes it is run over. -/
theorem Steps.adds {os : List (Option Node)} (h : Steps r I nodes p os p') :
    Adds r I p.history nodes p'.history := by
  induction h with
  | nil => exact adds_refl _ _
  | cons hstep _ ih =>
    refine ⟨List.Subset.trans hstep.adds.subset ih.subset, fun event h => ?_⟩
    rcases ih.about event h with h | ⟨h, hanswer⟩
    · refine (hstep.adds.about event h).imp_right fun h => ⟨?_, h.2⟩
      exact List.mem_cons.mpr (.inl (List.mem_singleton.mp h.1))
    · exact .inr ⟨List.mem_cons_of_mem _ h, hanswer⟩

theorem Ends.adds {result : Except Error (List (Option Node))} (h : Ends r I nodes p result p') :
    Adds r I p.history nodes p'.history := by
  cases result with
  | ok os => exact Steps.adds h
  | error e =>
    obtain ⟨before, node, after, os, q, rfl, hsteps, hstep⟩ := h
    refine ⟨List.Subset.trans hsteps.adds.subset hstep.adds.subset, fun event h => ?_⟩
    rcases hstep.adds.about event h with h | ⟨h, hanswer⟩
    · exact (hsteps.adds.about event h).imp_right fun h => ⟨List.mem_append_left _ h.1, h.2⟩
    · obtain rfl := List.mem_singleton.mp h
      exact .inr ⟨List.mem_append_right _ List.mem_cons_self, hanswer⟩

/-- Everything in the history of a run was answered so by the hooks, in some session. -/
theorem answers_of_mem_history {c : Circuit} {s : Session σ} (hr : r.Preserves I c.nodes)
    (hI : I s.state) {event : Event} (h : event ∈ r.history c s) :
    event.node ∈ c.nodes ∧ r.Answers I event := by
  obtain ⟨p', hends, hhistory⟩ := ends_apply c s hr hI
  exact (hends.adds.about event (hhistory ▸ h)).resolve_left List.not_mem_nil

/-! ## What became of the nodes -/

/-- What the questions say about a node and its outcome. -/
def Became (history : List Event) : Node → Option Node → Prop
  | .operator op, none => Dropped history op
  | .operator op, some (.operator new) => ∃ inputs, .operator op inputs (.ok (some new)) ∈ history
  | .operator _, some (.declaration _) => False
  | .declaration d, none => ∃ d', d'.label = d.label ∧ .declaration d' (.ok none) ∈ history
  | .declaration d, some (.declaration new) =>
    ∃ d', d'.label = d.label ∧ .declaration d' (.ok (some new)) ∈ history
  | .declaration _, some (.operator _) => False

theorem DeclarationStep.told {d : Declaration} {new? : Option Declaration}
    (h : DeclarationStep r I d p (.ok new?) p') (hp : p.Sound) :
    ∃ d', d'.label = d.label ∧ Event.declaration d' (.ok new?) ∈ p'.history := by
  cases h with
  | again hget => exact hp.declared d _ hget
  | asked =>
    rw [Record.history_declare]
    exact ⟨d, rfl, List.mem_cons_self⟩

theorem Steps.declaration_outcome {os : List (Option Node)} (h : Steps r I nodes p os p')
    (hp : p.Sound) {d : Declaration} {new? : Option Node}
    (hmem : (.declaration d, new?) ∈ nodes.zip os) :
    ∃ d' new, d'.label = d.label ∧ .declaration d' (.ok new) ∈ p'.history ∧
      new? = new.map .declaration := by
  induction h with
  | nil => cases hmem
  | cons hstep hrest ih =>
    rcases List.mem_cons.mp hmem with hhead | hmem
    · cases hhead
      obtain ⟨new, hd, rfl⟩ := hstep.declaration_ok
      obtain ⟨d', hlabel, h⟩ := hd.told hp
      exact ⟨d', new, hlabel, hrest.adds.subset h, rfl⟩
    · exact ih (hstep.sound hp) hmem

/-- In a run that succeeds, every node became what the hooks said. -/
theorem Steps.became {os : List (Option Node)} (h : Steps r I nodes .start os p')
    (hone : ∀ a b, .operator a ∈ nodes → .operator b ∈ nodes → a.label = b.label → a = b) :
    List.Forall₂ (Became p'.history) nodes os := by
  have hsound := h.sound Record.sound_start
  have hasked (event : Event) (hevent : event ∈ p'.history) : event.node ∈ nodes :=
    ((h.adds.about event hevent).resolve_left List.not_mem_nil).1
  refine List.forall₂_iff_zip.mpr ⟨h.length_eq.symm, fun {node new?} hmem => ?_⟩
  cases node with
  | declaration d =>
    obtain ⟨d', new, hlabel, h, rfl⟩ := h.declaration_outcome Record.sound_start hmem
    cases new <;> exact ⟨d', hlabel, h⟩
  | operator op =>
    obtain ⟨rfl, hmet⟩ := h.operator_outcome hmem
    have hop : .operator op ∈ nodes := (List.of_mem_zip hmem).1
    cases hget : p'.operators.get? op with
    | none =>
      have hgone : op.label ∈ p'.removed := by
        by_contra hgone
        exact hmet ⟨hget, hgone⟩
      obtain ⟨old, hlabel, hdropped⟩ := hsound.removed op.label hgone
      have hold : .operator old ∈ nodes := by
        rcases hdropped with h | ⟨inputs, h⟩ <;> exact hasked _ h
      exact hone old op hold hop hlabel ▸ hdropped
    | some new =>
      obtain ⟨old, inputs, hlabel, htold⟩ := hsound.replaced op new hget
      obtain rfl := hone old op (hasked _ htold) hop hlabel
      exact ⟨inputs, htold⟩

/-- The operators that are left have the numbers they had, in the order they had. -/
theorem ids_sublist {history : List Event} {os : List (Option Node)}
    (h : List.Forall₂ (Became history) nodes os)
    (hids : ∀ op inputs new, .operator op inputs (.ok (some new)) ∈ history → new.id = op.id) :
    List.Sublist (((survivors os).filterMap Node.operator?).map Operator.id)
      ((nodes.filterMap Node.operator?).map Operator.id) := by
  induction h with
  | nil => exact .refl _
  | @cons node new? nodes os hbecame _ ih =>
    rcases node with d | op <;> rcases new? with _ | (_ | new)
    · exact ih
    · exact ih
    · exact hbecame.elim
    · exact ih.cons op.id
    · exact hbecame.elim
    · obtain ⟨inputs, htold⟩ := hbecame
      change List.Sublist (new.id :: _) (op.id :: _)
      rw [hids op inputs new htold]
      exact ih.cons_cons op.id

/-! ## Nodes that were given out -/

/-- The replacements that the run has noted were given out, with everything they read. -/
def Record.Emitted (p : Record) (emitted : List Node) : Prop :=
  ∀ op new, p.operators.get? op = some new →
    .operator new ∈ emitted ∧ ∀ input ∈ new.inputs, .operator input ∈ emitted

theorem Record.Emitted.mono {emitted more : List Node} (h : p.Emitted emitted)
    (hsub : emitted ⊆ more) : p.Emitted more := fun op new hget =>
  ⟨hsub (h op new hget).1, fun input hinput => hsub ((h op new hget).2 input hinput)⟩

theorem OperatorStep.emitted {op : Operator} {new? : Option Operator} {emitted : List Node}
    (h : OperatorStep r I op p (.ok new?) p') (hp : p.Emitted emitted)
    (hinputs : ∀ op inputs new, .operator op inputs (.ok (some new)) ∈ p'.history →
      new.inputs = inputs) :
    (∀ new ∈ new?, ∀ input ∈ new.inputs, .operator input ∈ emitted) ∧
      p'.Emitted (emitted ++ (new?.map Node.operator).toList) := by
  have hmore {more : List Node} : p.Emitted (emitted ++ more) :=
    hp.mono (List.subset_append_left _ _)
  cases h with
  | again hget =>
    refine ⟨?_, hmore⟩
    rintro _ ⟨rfl⟩
    exact (hp op _ hget).2
  | stillDropped => exact ⟨fun _ h => (by cases h), hmore⟩
  | refused => exact ⟨fun _ h => (by cases h), hmore⟩
  | @asked inputs _ _ _ hfound =>
    cases new? with
    | none => exact ⟨fun _ h => (by cases h), hmore⟩
    | some new =>
      have hreads : ∀ input ∈ new.inputs, .operator input ∈ emitted := by
        rw [hinputs op inputs new List.mem_cons_self]
        intro input hinput
        obtain ⟨old, -, hget⟩ := forall₂_exists_left hfound hinput
        exact (hp old input hget).1
      refine ⟨?_, fun other new' hget => ?_⟩
      · rintro _ ⟨rfl⟩
        exact hreads
      · rw [Record.settle, Replacements.get?_insert] at hget
        split at hget
        · cases hget
          refine ⟨List.mem_append_right _ List.mem_cons_self, fun input hinput => ?_⟩
          exact List.mem_append_left _ (hreads input hinput)
        · exact hmore other new' hget

/-- One step gives out a node that reads what was given out before it. -/
theorem NodeStep.emitted {node : Node} {new? : Option Node} {emitted : List Node}
    (h : NodeStep r I p (.ok new?) p' node) (hp : p.Emitted emitted)
    (hinputs : ∀ op inputs new, .operator op inputs (.ok (some new)) ∈ p'.history →
      new.inputs = inputs) :
    (∀ new ∈ new?, Node.Reads emitted new) ∧ p'.Emitted (emitted ++ new?.toList) := by
  cases node with
  | operator op =>
    obtain ⟨new, hstep, rfl⟩ := h.operator_ok
    obtain ⟨hreads, hemitted⟩ := hstep.emitted hp hinputs
    refine ⟨?_, hemitted⟩
    cases new with
    | none => exact fun _ h => by cases h
    | some new =>
      rintro _ ⟨rfl⟩ _ ⟨rfl⟩
      exact hreads new rfl
  | declaration d =>
    obtain ⟨new, hstep, rfl⟩ := h.declaration_ok
    have hoperators : p'.operators = p.operators := by
      cases hstep with
      | again => rfl
      | asked => exact Record.operators_declare _ _ _
    refine ⟨?_, fun op new hget => ?_⟩
    · cases new with
      | none => exact fun _ h => by cases h
      | some new =>
        rintro _ ⟨rfl⟩
        exact fun _ h => by cases h
    · rw [hoperators] at hget
      exact hp.mono (List.subset_append_left _ _) op new hget

/-- In a run that succeeds, every node that is given out reads nodes that were given out before
it. -/
theorem Steps.reads {os : List (Option Node)} {emitted : List Node} (h : Steps r I nodes p os p')
    (hp : p.Emitted emitted)
    (hinputs : ∀ op inputs new, .operator op inputs (.ok (some new)) ∈ p'.history →
      new.inputs = inputs) :
    AtEach (fun before => Node.Reads (emitted ++ before)) (survivors os) := by
  induction h generalizing emitted with
  | nil => exact atEach_nil
  | @cons node nodes p q p' new? os hstep hrest ih =>
    obtain ⟨hreads, hemitted⟩ := hstep.emitted hp fun op inputs new h =>
      hinputs op inputs new (hrest.adds.subset h)
    have htail := ih hemitted hinputs
    cases new? with
    | none =>
      rw [Option.toList_none, List.append_nil] at htail
      exact htail
    | some new =>
      refine atEach_cons.mpr ⟨?_, ?_⟩
      · rw [List.append_nil]
        exact hreads new rfl
      · simp only [Option.toList_some, List.append_assoc, List.singleton_append] at htail
        exact htail

/-! ## Where a run fails -/

/-- The hook gave an answer. -/
def Event.Answered : Event → Prop
  | .keep _ answer => ∃ kept, answer = .ok kept
  | .operator _ _ answer => ∃ new?, answer = .ok new?
  | .declaration _ answer => ∃ new?, answer = .ok new?

/-- If no hook fails, a step fails only at an operator that is kept and one of whose inputs has no
replacement. -/
theorem NodeStep.missing_of_error {node : Node} {e : Error}
    (h : NodeStep r I p (.error e) p' node) (hanswered : ∀ event ∈ p'.history, event.Answered) :
    ∃ op input why, node = .operator op ∧ .keep op (.ok true) ∈ p'.history ∧ input ∈ op.inputs ∧
      p.operators.get? input = none ∧ e = .traversal r.name why := by
  cases node with
  | operator op =>
    obtain ⟨new?, hstep, hresult⟩ := h
    cases hstep with
    | again => cases hresult
    | stillDropped => cases hresult
    | refused => cases hresult
    | keepFails =>
      obtain ⟨kept, hkept⟩ := hanswered _ List.mem_cons_self
      cases hkept
    | @inputMissing input why _ _ hinput hget =>
      exact ⟨op, input, why, rfl, List.mem_cons_self, hinput, hget, Except.error.inj hresult⟩
    | @asked inputs =>
      obtain ⟨new, rfl⟩ : Event.Answered (.operator op inputs new?) := by
        refine hanswered _ ?_
        rw [Record.history_settle]
        exact List.mem_cons_self
      cases hresult
  | declaration d =>
    obtain ⟨new?, hstep, hresult⟩ := h
    cases hstep with
    | again => cases hresult
    | asked =>
      obtain ⟨new, rfl⟩ : Event.Answered (.declaration d new?) := by
        refine hanswered _ ?_
        rw [Record.history_declare]
        exact List.mem_cons_self
      cases hresult

/-- In a run that succeeds, no operator that was kept reads one that was dropped. -/
theorem Record.Sound.not_dropped (hp : p.Sound) {op input : Operator}
    (hkept : .keep op (.ok true) ∈ p.history) (hinput : input ∈ op.inputs) :
    ¬ Dropped p.history input := by
  obtain ⟨new, hget⟩ := Option.ne_none_iff_exists'.mp (hp.reads op hkept input hinput)
  obtain ⟨old, inputs, hlabel, htold⟩ := hp.replaced input new hget
  rintro (hrefused | ⟨inputs', hdropped⟩)
  · have heq := hp.keep.eq (hp.kept old inputs _ htold) hrefused (congrArg some hlabel) rfl
    cases heq
  · have heq := hp.operator.eq htold hdropped (congrArg some hlabel) rfl
    cases heq

section Circuit

variable {c : Circuit}

/-- In a well-formed circuit, an input without a replacement was dropped. -/
theorem Ends.dropped_of_error {e : Error} (h : Ends r I c.nodes .start (.error e) p')
    (hone : ∀ a ∈ c.operatorNodes, ∀ b ∈ c.operatorNodes, a.label = b.label → a = b)
    (hvalid : c.validate = .ok ()) (hanswered : ∀ event ∈ p'.history, event.Answered) :
    (∃ op input, .keep op (.ok true) ∈ p'.history ∧ input ∈ op.inputs ∧ Dropped p'.history input) ∧
      ∃ why, e = .traversal r.name why := by
  obtain ⟨before, node, after, os, q, hnodes, hsteps, hstep⟩ := h
  obtain ⟨op, input, why, rfl, hkeep, hinput, hget, he⟩ := hstep.missing_of_error hanswered
  refine ⟨⟨op, input, hkeep, hinput, ?_⟩, why, he⟩
  -- the input stands before its reader, so the run has met it
  have hbefore : .operator input ∈ before :=
    Circuit.reads_of_validate hone hvalid before _ after hnodes op rfl input hinput
  obtain ⟨new?, hmem⟩ := hsteps.exists_outcome hbefore
  have hgone : input.label ∈ q.removed := by
    by_contra hgone
    exact (hsteps.operator_outcome hmem).2 ⟨hget, hgone⟩
  obtain ⟨old, hlabel, hdropped⟩ := (hsteps.sound Record.sound_start).removed _ hgone
  have hold : .operator old ∈ before := by
    rcases hdropped with h | ⟨inputs, h⟩ <;>
      exact ((hsteps.adds.about _ h).resolve_left List.not_mem_nil).1
  have hmem {op : Operator} (h : .operator op ∈ before) : op ∈ c.operatorNodes :=
    .inl (Circuit.mem_operators.mpr (hnodes ▸ List.mem_append_left _ h))
  obtain rfl := hone old (hmem hold) input (hmem hbefore) hlabel
  exact hdropped.mono hstep.adds.subset

/-- **Edits keep circuits well formed.**  Let every operator that the hooks return have the number
of the operator it replaces and read the inputs it was given.  Then what comes out of a well-formed
circuit is well formed, under the same name, and its nodes are what became of the old ones, in their
order.  If no hook fails, the run fails exactly when an operator that was kept reads one that was
dropped. -/
theorem apply_keeps_valid {s : Session σ}
    (hone : ∀ a ∈ c.operatorNodes, ∀ b ∈ c.operatorNodes, a.label = b.label → a = b)
    (hvalid : c.validate = .ok ())
    (hbehaved : ∀ op inputs new, .operator op inputs (.ok (some new)) ∈ r.history c s →
      new.id = op.id ∧ new.inputs = inputs) :
    (∀ c', ((r.apply c).exec s).1 = .ok c' → c'.validate = .ok () ∧ c'.name = c.name ∧
      ∃ os, List.Forall₂ (Became (r.history c s)) c.nodes os ∧ c'.nodes = survivors os) ∧
    ((∀ event ∈ r.history c s, event.Answered) →
      ((∃ e, ((r.apply c).exec s).1 = .error e) ↔
        ∃ op input, .keep op (.ok true) ∈ r.history c s ∧ input ∈ op.inputs ∧
          Dropped (r.history c s) input) ∧
      ∀ e, ((r.apply c).exec s).1 = .error e → ∃ why, e = .traversal r.name why) := by
  obtain ⟨p', hends, hhistory⟩ := ends_apply c s (r.preserves_trivial c.nodes) trivial
  rw [← hhistory] at hbehaved ⊢
  rw [fst_exec_apply]
  cases hresults : r.results c.nodes s with
  | ok os =>
    rw [hresults] at hends
    have hsteps : Steps r _ c.nodes .start os p' := hends
    refine ⟨?_, fun _ => ⟨iff_of_false (fun ⟨e, he⟩ => by cases he) ?_, fun e he => by cases he⟩⟩
    · rintro _ ⟨rfl⟩
      have hbecame := hsteps.became fun a b ha hb =>
        hone a (.inl (Circuit.mem_operators.mpr ha)) b (.inl (Circuit.mem_operators.mpr hb))
      have hids := ids_sublist hbecame fun op inputs new h => (hbehaved op inputs new h).1
      have hreads : AtEach (fun before => Node.Reads ([] ++ before)) (survivors os) :=
        hsteps.reads (fun _ _ hget => by cases hget) fun op inputs new h =>
          (hbehaved op inputs new h).2
      refine ⟨?_, rfl, os, hbecame, rfl⟩
      exact Circuit.validate_eq_ok_of_reads
        ((Circuit.validate_eq_ok_iff.mp hvalid).1.sublist hids) hreads
    · rintro ⟨op, input, hkept, hinput, hdropped⟩
      exact (hsteps.sound Record.sound_start).not_dropped hkept hinput hdropped
  | error e =>
    rw [hresults] at hends
    refine ⟨fun _ h => (by cases h), fun hanswered => ?_⟩
    obtain ⟨hdropped, hwhy⟩ := hends.dropped_of_error hone hvalid hanswered
    refine ⟨iff_of_true ⟨e, rfl⟩ hdropped, ?_⟩
    rintro _ ⟨rfl⟩
    exact hwhy

end Circuit

/-- Copies all operators but number 2, and keeps the declarations that stand before all
operators. -/
def copyWithoutTwo : CircuitEdit Nat where
  keep op := do
    Job.update (· + 1)
    return op.id != 2
  operator op inputs := do
    let label ← Job.fresh
    return some { op with label, inputs }
  declaration d := do
    let operators ← Job.state
    return if operators = 0 then some d else none

theorem apply_keeps_valid_sample :
    ∃ c', ((copyWithoutTwo.apply Sample.circuit).exec ⟨15, [], 0⟩).1 = .ok c' ∧
      c'.validate = .ok () ∧ c'.name = "sample" ∧ c'.nodes.length = 6 := by
  have hbehaved (op : Operator) (inputs : List Operator) (new : Operator)
      (h : .operator op inputs (.ok (some new)) ∈ copyWithoutTwo.history Sample.circuit
        ⟨15, [], 0⟩) :
      new.id = op.id ∧ new.inputs = inputs := by
    obtain ⟨-, t, -, hanswer⟩ :=
      answers_of_mem_history (copyWithoutTwo.preserves_trivial _) trivial h
    cases hanswer
    exact ⟨rfl, rfl⟩
  have hvalid :=
    apply_keeps_valid Sample.made_circuit.operators.one Sample.validate_circuit hbehaved
  have hlength : (((copyWithoutTwo.apply Sample.circuit).exec ⟨15, [], 0⟩).1.toOption.map
      fun c' => c'.nodes.length) = some 6 := by decide +kernel
  cases hrun : ((copyWithoutTwo.apply Sample.circuit).exec ⟨15, [], 0⟩).1 with
  | error e =>
    rw [hrun] at hlength
    cases hlength
  | ok c' =>
    rw [hrun] at hlength
    obtain ⟨hvalid', hname, -⟩ := hvalid.1 c' hrun
    exact ⟨c', rfl, hvalid', hname, Option.some.inj hlength⟩

end FlowCircuit.CircuitEdit
