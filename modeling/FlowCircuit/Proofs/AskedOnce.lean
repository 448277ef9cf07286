import FlowCircuit.Proofs.EditSteps
import FlowCircuit.Proofs.Lists
import Mathlib.Data.List.Nodup
import Mathlib.Data.List.Pairwise

/-!
# How often a node is asked about

A node that occurs several times in a circuit or a file is one node, and an edit should treat it as
one: ask about it once, and do the same at every occurrence.  For operators that is so in every run,
also in one that fails.  For declarations it is so exactly as long as no declaration occurs again
after it was dropped: that a declaration was dropped is noted nowhere, so at its next occurrence it
is asked about again, and the hook may answer differently (`CircuitEdit.asked_once_unless_dropped`).

`Record.Sound` is what connects the tables of a run with its history; one step keeps it
(`NodeStep.sound`), so every run does (`Steps.sound`).
-/

set_option autoImplicit false

namespace FlowCircuit

/-- The label of a node that is an operator. -/
def Node.operatorLabel? (node : Node) : Option Label := node.operator?.map Operator.label

/-- The label of a node that is a declaration. -/
def Node.declarationLabel? (node : Node) : Option Label := node.declaration?.map Declaration.label

namespace CircuitEdit

variable {σ : Type}

namespace Event

/-- The operator whose survival was asked about. -/
def keepLabel? : Event → Option Label
  | .keep op _ => some op.label
  | .operator .. => none
  | .declaration .. => none

/-- The operator whose replacement was asked for. -/
def operatorLabel? : Event → Option Label
  | .operator op _ _ => some op.label
  | .keep .. => none
  | .declaration .. => none

/-- The declaration whose replacement was asked for. -/
def declarationLabel? : Event → Option Label
  | .declaration d _ => some d.label
  | .keep .. => none
  | .operator .. => none

/-- If both are about one declaration, then the earlier question was answered by dropping it. -/
def OnlyIfDropped (later earlier : Event) : Prop :=
  ∀ label, later.declarationLabel? = some label → earlier.declarationLabel? = some label →
    ∃ d, earlier = .declaration d (.ok none)

end Event

/-- No node is asked about twice, where `label?` tells the node that a question is about. -/
def AskedOnce (label? : Event → Option Label) (history : List Event) : Prop :=
  (history.filterMap label?).Nodup

/-- Two questions about one node are one question. -/
theorem AskedOnce.eq {label? : Event → Option Label} {history : List Event}
    (h : AskedOnce label? history) {event event' : Event} (hevent : event ∈ history)
    (hevent' : event' ∈ history) {label : Label} (hlabel : label? event = some label)
    (hlabel' : label? event' = some label) : event = event' := by
  by_contra hne
  have hapart := List.pairwise_filterMap.mp h
  have hsymm : Std.Symm fun a a' : Event =>
      ∀ b, label? a = some b → ∀ b', label? a' = some b' → b ≠ b' :=
    ⟨fun a a' h b hb b' hb' => (h b' hb' b hb).symm⟩
  exact hapart.forall hevent hevent' hne label hlabel label hlabel' rfl

/-- An operator was dropped, before its inputs were looked up or after. -/
def Dropped (history : List Event) (op : Operator) : Prop :=
  .keep op (.ok false) ∈ history ∨ ∃ inputs, .operator op inputs (.ok none) ∈ history

theorem Dropped.mono {history more : List Event} {op : Operator} (h : Dropped history op)
    (hsub : history ⊆ more) : Dropped more op :=
  h.imp (fun h => hsub h) fun ⟨inputs, h⟩ => ⟨inputs, hsub h⟩

/-! ## Questions that are put -/

/-- Each operator was asked about once, and a declaration again only after it was dropped. -/
structure WellAsked (history : List Event) : Prop where
  keep : AskedOnce Event.keepLabel? history
  operator : AskedOnce Event.operatorLabel? history
  declaration : history.Pairwise Event.OnlyIfDropped

namespace WellAsked

variable {history : List Event}

theorem nil : WellAsked [] := ⟨List.nodup_nil, List.nodup_nil, .nil⟩

theorem consKeep {op : Operator} (h : WellAsked history)
    (hnew : op.label ∉ history.filterMap Event.keepLabel?) (answer : Except Error Bool) :
    WellAsked (.keep op answer :: history) :=
  ⟨List.nodup_cons.mpr ⟨hnew, h.keep⟩, h.operator,
    List.pairwise_cons.mpr ⟨fun _ _ _ hlater => (by cases hlater), h.declaration⟩⟩

theorem consOperator {op : Operator} (h : WellAsked history)
    (hnew : op.label ∉ history.filterMap Event.operatorLabel?) (inputs : List Operator)
    (answer : Except Error (Option Operator)) : WellAsked (.operator op inputs answer :: history) :=
  ⟨h.keep, List.nodup_cons.mpr ⟨hnew, h.operator⟩,
    List.pairwise_cons.mpr ⟨fun _ _ _ hlater => (by cases hlater), h.declaration⟩⟩

theorem consDeclaration {d : Declaration} (h : WellAsked history)
    (hdropped : ∀ d' answer, .declaration d' answer ∈ history → d'.label = d.label →
      answer = .ok none)
    (answer : Except Error (Option Declaration)) :
    WellAsked (.declaration d answer :: history) := by
  refine ⟨h.keep, h.operator, List.pairwise_cons.mpr ⟨?_, h.declaration⟩⟩
  intro event hevent label hlater hearlier
  cases hlater
  cases event with
  | keep => cases hearlier
  | operator => cases hearlier
  | declaration d' answer' =>
    obtain rfl := hdropped d' answer' hevent (Option.some.inj hearlier)
    exact ⟨d', rfl⟩

end WellAsked

/-! ## What the tables of a run say about its history -/

namespace Record

variable {p : Record} {op other : Operator}

theorem unmet_congr (h : op.label = other.label) : p.Unmet op ↔ p.Unmet other := by
  rw [Unmet, Unmet, Replacements.get?_congr h, h]

theorem get?_settle_of_ne (hne : other.label ≠ op.label) (answer : Except Error (Option Operator)) :
    (p.settle op answer).operators.get? other = p.operators.get? other := by
  rcases answer with _ | (_ | new)
  · rfl
  · rfl
  · exact Replacements.get?_insert.trans (if_neg fun h => hne h.symm)

/-- An operator that is settled was met, and no other. -/
theorem unmet_settle {new? : Option Operator} :
    (p.settle op (.ok new?)).Unmet other ↔ p.Unmet other ∧ other.label ≠ op.label := by
  by_cases hlabel : other.label = op.label
  · refine iff_of_false ?_ fun h => h.2 hlabel
    rintro ⟨hget, hgone⟩
    cases new? with
    | none => exact hgone (hlabel ▸ List.mem_cons_self)
    | some new =>
      have hsome : (p.operators.insert op new).get? other = some new :=
        Replacements.get?_insert.trans (if_pos hlabel.symm)
      cases hsome.symm.trans hget
  · have hgone : other.label ∈ (p.settle op (.ok new?)).removed ↔ other.label ∈ p.removed := by
      cases new? with
      | none => exact List.mem_cons.trans (or_iff_right hlabel)
      | some new => exact Iff.rfl
    rw [Unmet, get?_settle_of_ne hlabel, hgone]
    exact (and_iff_left hlabel).symm

/-- What was found is found again. -/
theorem get?_settle_ne_none (h : p.operators.get? other ≠ none)
    (answer : Except Error (Option Operator)) :
    (p.settle op answer).operators.get? other ≠ none := by
  by_cases hlabel : other.label = op.label
  · rcases answer with _ | (_ | new)
    · exact h
    · exact h
    · rw [settle, Replacements.get?_insert.trans (if_pos hlabel.symm)]
      exact Option.some_ne_none new
  · rwa [get?_settle_of_ne hlabel]

/-- A declaration without a replacement gets the one that the hook gives. -/
theorem get?_declare {d other : Declaration} (hnew : p.declarations.get? d = none)
    (new? : Option Declaration) :
    (p.declare d (.ok new?)).declarations.get? other =
      if d.label = other.label then new? else p.declarations.get? other := by
  cases new? with
  | none =>
    split
    case isTrue hlabel => exact (Replacements.get?_congr hlabel.symm).trans hnew
    case isFalse => rfl
  | some new => exact Replacements.get?_insert

/-- The tables of operators agree with what was asked about operators. -/
structure TracksOperators (p : Record) : Prop where
  met : ∀ op answer, .keep op answer ∈ p.history → ¬ p.Unmet op
  kept : ∀ op inputs answer, .operator op inputs answer ∈ p.history →
    .keep op (.ok true) ∈ p.history
  /-- An operator that was kept reads operators that were replaced. -/
  reads : ∀ op, .keep op (.ok true) ∈ p.history → ∀ input ∈ op.inputs,
    p.operators.get? input ≠ none
  replaced : ∀ op new, p.operators.get? op = some new →
    ∃ old inputs, old.label = op.label ∧ .operator old inputs (.ok (some new)) ∈ p.history
  removed : ∀ label ∈ p.removed, ∃ op, op.label = label ∧ Dropped p.history op

/-- The table of declarations agrees with what was asked about declarations. -/
structure TracksDeclarations (p : Record) : Prop where
  declared : ∀ d new, p.declarations.get? d = some new →
    ∃ old, old.label = d.label ∧ .declaration old (.ok (some new)) ∈ p.history
  answered : ∀ d answer, .declaration d answer ∈ p.history →
    answer = .ok none ∨ ∃ new, answer = .ok (some new) ∧ p.declarations.get? d = some new

/-- The record of a run in which nothing failed. -/
structure Sound (p : Record) : Prop extends
  WellAsked p.history, TracksOperators p, TracksDeclarations p

theorem sound_start : Record.start.Sound where
  toWellAsked := .nil
  met _ _ h := by cases h
  kept _ _ _ h := by cases h
  reads _ h := by cases h
  replaced _ _ h := by cases h
  removed _ h := by cases h
  declared _ _ h := by cases h
  answered _ _ h := by cases h

/-- An operator is settled after some questions about it. -/
theorem TracksOperators.settle (hp : p.TracksOperators) (hnew : p.Unmet op) {asked : List Event}
    {new? : Option Operator} (habout : ∀ other answer, .keep other answer ∈ asked → other = op)
    (hkept : ∀ other inputs answer, .operator other inputs answer ∈ asked →
      .keep other (.ok true) ∈ asked)
    (hreads : .keep op (.ok true) ∈ asked → ∀ input ∈ op.inputs, p.operators.get? input ≠ none)
    (hsome : ∀ new, new? = some new → ∃ inputs, .operator op inputs (.ok (some new)) ∈ asked)
    (hnone : new? = none → Dropped asked op) :
    (Record.settle { p with history := asked ++ p.history } op (.ok new?)).TracksOperators where
  met other answer h := by
    rw [unmet_settle]
    rintro ⟨hunmet, hne⟩
    rw [history_settle, List.mem_append] at h
    rcases h with h | h
    · exact hne (habout other answer h ▸ rfl)
    · exact hp.met other answer h hunmet
  kept other inputs answer h := by
    rw [history_settle, List.mem_append] at h ⊢
    exact h.imp (hkept other inputs answer) (hp.kept other inputs answer)
  reads other h input hinput := by
    refine get?_settle_ne_none ?_ _
    rw [history_settle, List.mem_append] at h
    rcases h with h | h
    · obtain rfl := habout other _ h
      exact hreads h input hinput
    · exact hp.reads other h input hinput
  replaced other new hget := by
    rw [history_settle]
    by_cases hlabel : other.label = op.label
    · have hsettled : new? = some new := by
        cases new? with
        | none =>
          have hunmet := (Replacements.get?_congr hlabel).trans hnew.1
          exact absurd (hget.symm.trans hunmet) (Option.some_ne_none new)
        | some new' =>
          rw [Record.settle, Replacements.get?_insert.trans (if_pos hlabel.symm)] at hget
          exact hget
      obtain ⟨inputs, h⟩ := hsome new hsettled
      exact ⟨op, inputs, hlabel.symm, List.mem_append_left _ h⟩
    · rw [get?_settle_of_ne hlabel] at hget
      obtain ⟨old, inputs, hlabel', h⟩ := hp.replaced other new hget
      exact ⟨old, inputs, hlabel', List.mem_append_right _ h⟩
  removed label h := by
    rw [history_settle]
    have hold (h : label ∈ p.removed) :
        ∃ op', op'.label = label ∧ Dropped (asked ++ p.history) op' := by
      obtain ⟨old, hlabel, h⟩ := hp.removed label h
      exact ⟨old, hlabel, h.mono (List.subset_append_right _ _)⟩
    cases new? with
    | none =>
      rcases List.mem_cons.mp h with rfl | h
      · exact ⟨op, rfl, (hnone rfl).mono (List.subset_append_left _ _)⟩
      · exact hold h
    | some new => exact hold h

/-- Questions about declarations say nothing about operators. -/
theorem TracksOperators.declare (hp : p.TracksOperators) {d : Declaration}
    {answer : Except Error (Option Declaration)} :
    ((p.tell (.declaration d answer)).declare d answer).TracksOperators := by
  have hmem {event : Event} (h : event ∈ (p.tell (.declaration d answer)).history)
      (hevent : event.declarationLabel? = none) : event ∈ p.history := by
    rcases List.mem_cons.mp h with rfl | h
    · cases hevent
    · exact h
  constructor
  · intro op answer' h
    rw [history_declare] at h
    rw [Unmet, operators_declare, removed_declare]
    exact hp.met op answer' (hmem h rfl)
  · intro op inputs answer' h
    rw [history_declare] at h ⊢
    exact List.mem_cons_of_mem _ (hp.kept op inputs answer' (hmem h rfl))
  · intro op h
    rw [history_declare] at h
    rw [operators_declare]
    exact hp.reads op (hmem h rfl)
  · intro op new hget
    rw [operators_declare] at hget
    rw [history_declare]
    obtain ⟨old, inputs, hlabel, h⟩ := hp.replaced op new hget
    exact ⟨old, inputs, hlabel, List.mem_cons_of_mem _ h⟩
  · intro label h
    rw [removed_declare] at h
    rw [history_declare]
    obtain ⟨old, hlabel, h⟩ := hp.removed label h
    exact ⟨old, hlabel, h.mono (List.subset_cons_self _ _)⟩

/-- Questions about operators say nothing about declarations. -/
theorem TracksDeclarations.settle (hp : p.TracksDeclarations) {asked : List Event}
    (hasked : ∀ event ∈ asked, event.declarationLabel? = none)
    {answer : Except Error (Option Operator)} :
    (Record.settle { p with history := asked ++ p.history } op answer).TracksDeclarations := by
  constructor
  · intro d new hget
    rw [declarations_settle] at hget
    rw [history_settle]
    obtain ⟨old, hlabel, h⟩ := hp.declared d new hget
    exact ⟨old, hlabel, List.mem_append_right _ h⟩
  · intro d answer' h
    rw [declarations_settle]
    rw [history_settle, List.mem_append] at h
    rcases h with h | h
    · cases hasked _ h
    · exact hp.answered d answer' h

theorem TracksDeclarations.declare (hp : p.TracksDeclarations) {d : Declaration}
    (hnew : p.declarations.get? d = none) (new? : Option Declaration) :
    ((p.tell (.declaration d (.ok new?))).declare d (.ok new?)).TracksDeclarations := by
  have hget (d' : Declaration) :
      ((p.tell (.declaration d (.ok new?))).declare d (.ok new?)).declarations.get? d' =
        if d.label = d'.label then new? else p.declarations.get? d' :=
    get?_declare (p := p.tell (.declaration d (.ok new?))) hnew new?
  constructor
  · intro d' new hfound
    rw [history_declare]
    rw [hget] at hfound
    split at hfound
    case isTrue hlabel => exact ⟨d, hlabel, List.mem_cons.mpr (.inl (by rw [hfound]))⟩
    case isFalse =>
      obtain ⟨old, hlabel, h⟩ := hp.declared d' new hfound
      exact ⟨old, hlabel, List.mem_cons_of_mem _ h⟩
  · intro d' answer h
    rw [history_declare] at h
    rw [hget]
    rcases List.mem_cons.mp h with h | h
    · cases h
      cases new? with
      | none => exact .inl rfl
      | some new => exact .inr ⟨new, rfl, if_pos rfl⟩
    · refine (hp.answered d' answer h).imp id ?_
      rintro ⟨new, rfl, hfound⟩
      refine ⟨new, rfl, ?_⟩
      -- a declaration that was replaced is not asked about again
      have hne : d.label ≠ d'.label := by
        intro hlabel
        rw [Replacements.get?_congr hlabel] at hnew
        cases hnew.symm.trans hfound
      rw [if_neg hne]
      exact hfound

namespace Sound

variable (hp : p.Sound)
include hp

theorem keepLabel_notMem (hnew : p.Unmet op) : op.label ∉ p.history.filterMap Event.keepLabel? := by
  intro h
  obtain ⟨event, hevent, hlabel⟩ := List.mem_filterMap.mp h
  cases event with
  | keep other answer =>
    exact hp.met other answer hevent ((unmet_congr (Option.some.inj hlabel)).mpr hnew)
  | operator => cases hlabel
  | declaration => cases hlabel

theorem operatorLabel_notMem (hnew : p.Unmet op) :
    op.label ∉ p.history.filterMap Event.operatorLabel? := by
  intro h
  obtain ⟨event, hevent, hlabel⟩ := List.mem_filterMap.mp h
  cases event with
  | operator other inputs answer =>
    have hkept := hp.kept other inputs answer hevent
    exact hp.met other _ hkept ((unmet_congr (Option.some.inj hlabel)).mpr hnew)
  | keep => cases hlabel
  | declaration => cases hlabel

/-- A question about an operator that was not met before. -/
theorem wellAsked_keep (hnew : p.Unmet op) (answer : Except Error Bool) :
    WellAsked (p.tell (.keep op answer)).history :=
  hp.toWellAsked.consKeep (hp.keepLabel_notMem hnew) answer

theorem wellAsked_operator (hnew : p.Unmet op) (inputs : List Operator)
    (answer : Except Error (Option Operator)) :
    WellAsked ((p.tell (.keep op (.ok true))).tell (.operator op inputs answer)).history :=
  (hp.wellAsked_keep hnew (.ok true)).consOperator (hp.operatorLabel_notMem hnew) inputs answer

/-- A question about a declaration that has no replacement: if it is not the first, the earlier ones
were answered by dropping it. -/
theorem wellAsked_declaration {d : Declaration} (hnew : p.declarations.get? d = none)
    (answer : Except Error (Option Declaration)) :
    WellAsked (p.tell (.declaration d answer)).history := by
  refine hp.toWellAsked.consDeclaration (fun d' answer' hd' hlabel => ?_) answer
  rcases hp.answered d' answer' hd' with h | ⟨new, -, hget⟩
  · exact h
  · rw [Replacements.get?_congr hlabel, hnew] at hget
    cases hget

end Sound

end Record

/-! ## Steps and runs -/

section Steps

variable {r : CircuitEdit σ} {I : σ → Prop} {p p' : Record}

theorem OperatorStep.wellAsked {op : Operator} {result : Except Error (Option Operator)}
    (h : OperatorStep r I op p result p') (hp : p.Sound) : WellAsked p'.history := by
  cases h with
  | again => exact hp.toWellAsked
  | stillDropped => exact hp.toWellAsked
  | keepFails hnew => exact hp.wellAsked_keep hnew _
  | refused hnew => exact hp.wellAsked_keep hnew _
  | inputMissing hnew => exact hp.wellAsked_keep hnew _
  | asked hnew =>
    rw [Record.history_settle]
    exact hp.wellAsked_operator hnew _ _

theorem DeclarationStep.wellAsked {d : Declaration} {result : Except Error (Option Declaration)}
    (h : DeclarationStep r I d p result p') (hp : p.Sound) : WellAsked p'.history := by
  cases h with
  | again => exact hp.toWellAsked
  | asked hnew =>
    rw [Record.history_declare]
    exact hp.wellAsked_declaration hnew _

/-- One step puts only questions that were not put before, whether it fails or not. -/
theorem NodeStep.wellAsked {node : Node} {result : Except Error (Option Node)}
    (h : NodeStep r I p result p' node) (hp : p.Sound) : WellAsked p'.history := by
  cases node with
  | operator op =>
    obtain ⟨_, hstep, -⟩ := h
    exact hstep.wellAsked hp
  | declaration d =>
    obtain ⟨_, hstep, -⟩ := h
    exact hstep.wellAsked hp

theorem OperatorStep.tracks {op : Operator} {new? : Option Operator}
    (h : OperatorStep r I op p (.ok new?) p') (hp : p.Sound) :
    p'.TracksOperators ∧ p'.TracksDeclarations := by
  cases h with
  | again => exact ⟨hp.toTracksOperators, hp.toTracksDeclarations⟩
  | stillDropped => exact ⟨hp.toTracksOperators, hp.toTracksDeclarations⟩
  | refused hnew =>
    change (Record.settle { p with history := [.keep op (.ok false)] ++ p.history } op
      (.ok none)).TracksOperators ∧ (Record.settle
        { p with history := [.keep op (.ok false)] ++ p.history } op (.ok none)).TracksDeclarations
    refine ⟨hp.toTracksOperators.settle hnew ?_ ?_ ?_ ?_ ?_, hp.toTracksDeclarations.settle ?_⟩
    all_goals simp [Dropped, Event.declarationLabel?]
  | @asked inputs _ hnew _ hinputs =>
    have hreads : ∀ input ∈ op.inputs, p.operators.get? input ≠ none := by
      intro input hinput
      obtain ⟨new, -, hget⟩ := forall₂_exists_right hinputs hinput
      rw [hget]
      exact Option.some_ne_none new
    let asked : List Event := [.operator op inputs (.ok new?), .keep op (.ok true)]
    change (Record.settle { p with history := asked ++ p.history } op (.ok new?)).TracksOperators ∧
      (Record.settle { p with history := asked ++ p.history } op (.ok new?)).TracksDeclarations
    refine ⟨hp.toTracksOperators.settle hnew ?_ ?_ (fun _ => hreads) ?_ ?_,
      hp.toTracksDeclarations.settle ?_⟩
    all_goals simp +contextual [asked, Dropped, Event.declarationLabel?]

theorem DeclarationStep.tracks {d : Declaration} {new? : Option Declaration}
    (h : DeclarationStep r I d p (.ok new?) p') (hp : p.Sound) :
    p'.TracksOperators ∧ p'.TracksDeclarations := by
  cases h with
  | again => exact ⟨hp.toTracksOperators, hp.toTracksDeclarations⟩
  | asked hnew => exact ⟨hp.toTracksOperators.declare, hp.toTracksDeclarations.declare hnew new?⟩

/-- One step that does not fail keeps tables and history together. -/
theorem NodeStep.sound {node : Node} {new? : Option Node} (h : NodeStep r I p (.ok new?) p' node)
    (hp : p.Sound) : p'.Sound := by
  have htracks : p'.TracksOperators ∧ p'.TracksDeclarations := by
    cases node with
    | operator op =>
      obtain ⟨_, hstep, -⟩ := h.operator_ok
      exact hstep.tracks hp
    | declaration d =>
      obtain ⟨_, hstep, -⟩ := h.declaration_ok
      exact hstep.tracks hp
  exact ⟨h.wellAsked hp, htracks.1, htracks.2⟩

theorem Steps.sound {nodes : List Node} {os : List (Option Node)} (h : Steps r I nodes p os p')
    (hp : p.Sound) : p'.Sound := by
  induction h with
  | nil => exact hp
  | cons hstep _ ih => exact ih (hstep.sound hp)

/-- A run puts each question about an operator once, whether it fails or not. -/
theorem Ends.wellAsked {nodes : List Node} {result : Except Error (List (Option Node))}
    (h : Ends r I nodes p result p') (hp : p.Sound) : WellAsked p'.history := by
  cases result with
  | ok os => exact (Steps.sound h hp).toWellAsked
  | error e =>
    obtain ⟨before, node, after, os, q, -, hsteps, hstep⟩ := h
    exact hstep.wellAsked (hsteps.sound hp)

/-! ### One outcome for an operator -/

theorem OperatorStep.outcome {op : Operator} {new? : Option Operator}
    (h : OperatorStep r I op p (.ok new?) p') : p'.operators.get? op = new? ∧ ¬ p'.Unmet op := by
  have hsettled {q : Record} {new? : Option Operator} : ¬ (q.settle op (.ok new?)).Unmet op :=
    fun h => (Record.unmet_settle.mp h).2 rfl
  cases h with
  | again hget => exact ⟨hget, fun h => Option.some_ne_none _ (hget.symm.trans h.1)⟩
  | stillDropped hget hgone => exact ⟨hget, fun h => h.2 hgone⟩
  | refused hnew => exact ⟨hnew.1, hsettled⟩
  | asked hnew =>
    refine ⟨?_, hsettled⟩
    cases new? with
    | none => exact hnew.1
    | some new => exact Replacements.get?_insert.trans (if_pos rfl)

/-- What is known about an operator stays so. -/
theorem OperatorStep.get?_of_met {op other : Operator} {new? : Option Operator}
    (h : OperatorStep r I op p (.ok new?) p') (hmet : ¬ p.Unmet other) :
    p'.operators.get? other = p.operators.get? other ∧ ¬ p'.Unmet other := by
  have hne (hnew : p.Unmet op) : other.label ≠ op.label :=
    fun hlabel => hmet ((Record.unmet_congr hlabel).mpr hnew)
  have hstill {q : Record} {new? : Option Operator} (hq : ¬ q.Unmet other) :
      ¬ (q.settle op (.ok new?)).Unmet other := fun h => hq (Record.unmet_settle.mp h).1
  cases h with
  | again => exact ⟨rfl, hmet⟩
  | stillDropped => exact ⟨rfl, hmet⟩
  | refused hnew => exact ⟨rfl, hstill hmet⟩
  | asked hnew => exact ⟨Record.get?_settle_of_ne (hne hnew) _, hstill hmet⟩

theorem NodeStep.get?_of_met {node : Node} {new? : Option Node} {op : Operator}
    (h : NodeStep r I p (.ok new?) p' node) (hmet : ¬ p.Unmet op) :
    p'.operators.get? op = p.operators.get? op ∧ ¬ p'.Unmet op := by
  cases node with
  | operator other =>
    obtain ⟨_, hstep, -⟩ := h.operator_ok
    exact hstep.get?_of_met hmet
  | declaration d =>
    obtain ⟨_, hstep, -⟩ := h.declaration_ok
    cases hstep with
    | again => exact ⟨rfl, hmet⟩
    | asked =>
      rw [Record.Unmet, Record.operators_declare, Record.removed_declare]
      exact ⟨rfl, hmet⟩

theorem Steps.get?_of_met {nodes : List Node} {os : List (Option Node)} {op : Operator}
    (h : Steps r I nodes p os p') (hmet : ¬ p.Unmet op) :
    p'.operators.get? op = p.operators.get? op ∧ ¬ p'.Unmet op := by
  induction h with
  | nil => exact ⟨rfl, hmet⟩
  | cons hstep _ ih =>
    obtain ⟨hget, hmet'⟩ := hstep.get?_of_met hmet
    obtain ⟨hget', hmet''⟩ := ih hmet'
    exact ⟨hget'.trans hget, hmet''⟩

/-- At every occurrence an operator becomes what the table has for it in the end. -/
theorem Steps.operator_outcome {nodes : List Node} {os : List (Option Node)}
    (h : Steps r I nodes p os p') {op : Operator} {new? : Option Node}
    (hmem : (.operator op, new?) ∈ nodes.zip os) :
    new? = (p'.operators.get? op).map .operator ∧ ¬ p'.Unmet op := by
  induction h with
  | nil => cases hmem
  | cons hstep hrest ih =>
    rcases List.mem_cons.mp hmem with hhead | hmem
    · cases hhead
      obtain ⟨new, hop, rfl⟩ := hstep.operator_ok
      obtain ⟨hget, hmet⟩ := hop.outcome
      obtain ⟨hget', hmet'⟩ := hrest.get?_of_met hmet
      exact ⟨by rw [hget', hget], hmet'⟩
    · exact ih hmem

theorem Steps.exists_outcome {nodes : List Node} {os : List (Option Node)}
    (h : Steps r I nodes p os p') {node : Node} (hnode : node ∈ nodes) :
    ∃ new?, (node, new?) ∈ nodes.zip os := by
  induction h with
  | nil => cases hnode
  | @cons first nodes p q p' new? os hstep hrest ih =>
    rcases List.mem_cons.mp hnode with rfl | hnode
    · exact ⟨new?, List.mem_cons_self⟩
    · obtain ⟨new?, hmem⟩ := ih hnode
      exact ⟨new?, List.mem_cons_of_mem _ hmem⟩

/-! ### Declarations that were replaced -/

theorem DeclarationStep.outcome {d : Declaration} {new? : Option Declaration}
    (h : DeclarationStep r I d p (.ok new?) p') : p'.declarations.get? d = new? := by
  cases h with
  | again hget => exact hget
  | asked hnew =>
    exact (Record.get?_declare (p := p.tell (.declaration d (.ok new?))) hnew new?).trans
      (if_pos rfl)

/-- What a step does to the replacement of a declaration that it is not about. -/
theorem NodeStep.get?_declarations_of_ne {node : Node} {new? : Option Node} {d : Declaration}
    (h : NodeStep r I p (.ok new?) p' node) (hne : node.declarationLabel? ≠ some d.label) :
    p'.declarations.get? d = p.declarations.get? d := by
  cases node with
  | operator op =>
    obtain ⟨_, hstep, -⟩ := h.operator_ok
    cases hstep with
    | again => rfl
    | stillDropped => rfl
    | refused => rfl
    | asked => rw [Record.declarations_settle]; rfl
  | declaration other =>
    obtain ⟨new, hstep, -⟩ := h.declaration_ok
    cases hstep with
    | again => rfl
    | asked hnew =>
      have hlabel : other.label ≠ d.label := fun h => hne (congrArg some h)
      exact (Record.get?_declare (p := p.tell (.declaration other (.ok new))) hnew new).trans
        (if_neg hlabel)

/-- A declaration that has a replacement gets it, without a question. -/
theorem DeclarationStep.eq_of_declared {d : Declaration} {new? : Option Declaration}
    {new : Declaration} (h : DeclarationStep r I d p (.ok new?) p')
    (hget : p.declarations.get? d = some new) : new? = some new ∧ p' = p := by
  cases h with
  | again hget' => exact ⟨hget'.symm.trans hget, rfl⟩
  | asked hnew => cases hnew.symm.trans hget

theorem Steps.eq_of_declared {nodes : List Node} {os : List (Option Node)} {d new : Declaration}
    (h : Steps r I nodes p os p') (hget : p.declarations.get? d = some new)
    {outcome : Node × Option Node} (hmem : outcome ∈ nodes.zip os)
    (hlabel : outcome.1.declarationLabel? = some d.label) :
    outcome.2 = some (.declaration new) := by
  induction h with
  | nil => cases hmem
  | @cons node nodes p q p' new? os hstep hrest ih =>
    by_cases hhead : node.declarationLabel? = some d.label
    · cases node with
      | operator => cases hhead
      | declaration other =>
        have hsame : other.label = d.label := Option.some.inj hhead
        obtain ⟨new', hother, rfl⟩ := hstep.declaration_ok
        obtain ⟨rfl, rfl⟩ := hother.eq_of_declared ((Replacements.get?_congr hsame).trans hget)
        rcases List.mem_cons.mp hmem with rfl | hmem
        · rfl
        · exact ih hget hmem
    · rcases List.mem_cons.mp hmem with rfl | hmem
      · exact absurd hlabel hhead
      · exact ih ((hstep.get?_declarations_of_ne hhead).trans hget) hmem

/-- Once a declaration was replaced, every later occurrence is replaced by the same node. -/
theorem Steps.kept_again {nodes : List Node} {os : List (Option Node)}
    (h : Steps r I nodes p os p') :
    (nodes.zip os).Pairwise fun earlier later => ∀ label, earlier.1.declarationLabel? = some label →
      later.1.declarationLabel? = some label → earlier.2 ≠ none → later.2 = earlier.2 := by
  induction h with
  | nil => exact .nil
  | @cons node nodes p q p' new? os hstep hrest ih =>
    refine List.pairwise_cons.mpr ⟨fun later hlater label hearlier hlabel hkept => ?_, ih⟩
    cases node with
    | operator => cases hearlier
    | declaration d =>
      cases hearlier
      obtain ⟨new', hd, rfl⟩ := hstep.declaration_ok
      cases new' with
      | none => exact absurd rfl hkept
      | some new => exact hrest.eq_of_declared hd.outcome hlater hlabel

/-! ### Declarations that were dropped -/

/-- What was asked about declarations, the latest first. -/
def Record.declarationsAsked (p : Record) : List Label :=
  p.history.filterMap Event.declarationLabel?

theorem NodeStep.declarationsAsked_of_operator {op : Operator} {new? : Option Node}
    (h : NodeStep r I p (.ok new?) p' (.operator op)) :
    p'.declarationsAsked = p.declarationsAsked := by
  obtain ⟨_, hstep, -⟩ := h.operator_ok
  cases hstep with
  | again => rfl
  | stillDropped => rfl
  | refused => rfl
  | asked => rw [Record.declarationsAsked, Record.history_settle]; rfl

theorem Record.declarationsAsked_declare (d : Declaration)
    (answer : Except Error (Option Declaration)) :
    ((p.tell (.declaration d answer)).declare d answer).declarationsAsked =
      d.label :: p.declarationsAsked := by
  rw [declarationsAsked, history_declare]
  rfl

theorem NodeStep.declarationsAsked_suffix {node : Node} {new? : Option Node}
    (h : NodeStep r I p (.ok new?) p' node) : p.declarationsAsked <:+ p'.declarationsAsked := by
  cases node with
  | operator op => exact h.declarationsAsked_of_operator ▸ List.suffix_rfl
  | declaration d =>
    obtain ⟨_, hstep, -⟩ := h.declaration_ok
    cases hstep with
    | again => exact List.suffix_rfl
    | asked =>
      rw [Record.declarationsAsked_declare]
      exact List.suffix_cons _ _

theorem Steps.declarationsAsked_suffix {nodes : List Node} {os : List (Option Node)}
    (h : Steps r I nodes p os p') : p.declarationsAsked <:+ p'.declarationsAsked := by
  induction h with
  | nil => exact List.suffix_rfl
  | cons hstep _ ih => exact hstep.declarationsAsked_suffix.trans ih

/-- No declaration occurs again after an occurrence at which it was dropped. -/
def NoneMetAgain (nodes : List Node) (os : List (Option Node)) : Prop :=
  (nodes.zip os).Pairwise fun earlier later => earlier.2 = none → ∀ label,
    earlier.1.declarationLabel? = some label → later.1.declarationLabel? ≠ some label

/-- If in the end no declaration was asked about twice, one that was dropped is not met again. -/
theorem Steps.not_met_of_nodup {nodes : List Node} {os : List (Option Node)} {d : Declaration}
    (h : Steps r I nodes p os p') (hasked : d.label ∈ p.declarationsAsked)
    (hget : p.declarations.get? d = none) (hnodup : p'.declarationsAsked.Nodup) {node : Node}
    (hnode : node ∈ nodes) : node.declarationLabel? ≠ some d.label := by
  induction h with
  | nil => cases hnode
  | @cons first nodes p q p' new? os hstep hrest ih =>
    have hfirst : first.declarationLabel? ≠ some d.label := by
      intro hlabel
      cases first with
      | operator => cases hlabel
      | declaration other =>
        have hlabel := Option.some.inj hlabel
        obtain ⟨new', hother, rfl⟩ := hstep.declaration_ok
        cases hother with
        | again hget' => cases ((Replacements.get?_congr hlabel).symm.trans hget').symm.trans hget
        | asked =>
          have hsuffix := hrest.declarationsAsked_suffix
          rw [Record.declarationsAsked_declare] at hsuffix
          have hfresh := List.nodup_cons.mp (hnodup.sublist hsuffix.sublist)
          exact hfresh.1 (hlabel ▸ hasked)
    rcases List.mem_cons.mp hnode with rfl | hnode
    · exact hfirst
    · refine ih (hstep.declarationsAsked_suffix.subset hasked) ?_ hnodup hnode
      exact (hstep.get?_declarations_of_ne hfirst).trans hget

theorem Steps.noneMetAgain_of_nodup {nodes : List Node} {os : List (Option Node)}
    (h : Steps r I nodes p os p') (hnodup : p'.declarationsAsked.Nodup) :
    NoneMetAgain nodes os := by
  induction h with
  | nil => exact .nil
  | @cons node nodes p q p' new? os hstep hrest ih =>
    refine List.pairwise_cons.mpr ⟨fun later hlater hdropped label hearlier => ?_, ih hnodup⟩
    cases node with
    | operator => cases hearlier
    | declaration d =>
      cases hearlier
      obtain ⟨new', hd, rfl⟩ := hstep.declaration_ok
      cases hd with
      | again => cases hdropped
      | asked hnew =>
        obtain rfl : new' = none := by
          cases new' with
          | none => rfl
          | some => cases hdropped
        refine hrest.not_met_of_nodup ?_ hnew hnodup (List.of_mem_zip hlater).1
        rw [Record.declarationsAsked_declare]
        exact List.mem_cons_self

/-- If no declaration that was dropped is met again, none is asked about twice. -/
theorem Steps.nodup_of_noneMetAgain {nodes : List Node} {os : List (Option Node)}
    (h : Steps r I nodes p os p') (hnone : NoneMetAgain nodes os)
    (hnodup : p.declarationsAsked.Nodup)
    (hfresh : ∀ d : Declaration, d.label ∈ p.declarationsAsked → p.declarations.get? d = none →
      ∀ node ∈ nodes, node.declarationLabel? ≠ some d.label) : p'.declarationsAsked.Nodup := by
  induction h with
  | nil => exact hnodup
  | @cons node nodes p q p' new? os hstep hrest ih =>
    obtain ⟨hhead, htail⟩ := List.pairwise_cons.mp hnone
    cases node with
    | operator op =>
      have hasked := hstep.declarationsAsked_of_operator
      refine ih htail (hasked ▸ hnodup) fun d hd hget node hnode => ?_
      have hsame := hstep.get?_declarations_of_ne (Option.some_ne_none d.label).symm
      exact hfresh d (hasked ▸ hd) (hsame.symm.trans hget) node (List.mem_cons_of_mem _ hnode)
    | declaration d =>
      obtain ⟨new, hd, rfl⟩ := hstep.declaration_ok
      cases hd with
      | again =>
        refine ih htail hnodup fun d' hd' hget node hnode => ?_
        exact hfresh d' hd' hget node (List.mem_cons_of_mem _ hnode)
      | asked hnew =>
        have hfirst : d.label ∉ p.declarationsAsked :=
          fun h => hfresh d h hnew (.declaration d) List.mem_cons_self rfl
        refine ih htail ?_ fun d' hd' hget node hnode => ?_
        · rw [Record.declarationsAsked_declare]
          exact List.nodup_cons.mpr ⟨hfirst, hnodup⟩
        · rw [Record.declarationsAsked_declare] at hd'
          have hget' := (Record.get?_declare
            (p := p.tell (.declaration d (.ok new))) hnew new).symm.trans hget
          by_cases hlabel : d.label = d'.label
          · obtain rfl : new = none := (if_pos hlabel).symm.trans hget'
            obtain ⟨new?, hlater⟩ := hrest.exists_outcome hnode
            exact hlabel ▸ hhead (node, new?) hlater rfl d.label rfl
          · have hold : p.declarations.get? d' = none := (if_neg hlabel).symm.trans hget'
            have hd' : d'.label ∈ p.declarationsAsked :=
              (List.mem_cons.mp hd').resolve_left fun h => hlabel h.symm
            exact hfresh d' hd' hold node (List.mem_cons_of_mem _ hnode)

end Steps

/-! ## One node, one outcome -/

/-- All occurrences of a node have the same outcome, where `label?` tells the nodes in question
apart. -/
def OneOutcome (label? : Node → Option Label) (nodes : List Node)
    (os : List (Option Node)) : Prop :=
  ∀ a ∈ nodes.zip os, ∀ b ∈ nodes.zip os, ∀ label, label? a.1 = some label →
    label? b.1 = some label → a.2 = b.2

/-- How the nodes fare in a run with these results and this history. -/
structure Handled (nodes : List Node) (results : Except Error (List (Option Node)))
    (history : List Event) : Prop extends WellAsked history where
  /-- In a run that succeeds, all occurrences of an operator become one node or are all dropped. -/
  operators : ∀ os, results = .ok os → OneOutcome Node.operatorLabel? nodes os
  /-- For declarations this and being asked about once hold as long as none that was dropped is met
  again. -/
  declarations : ∀ os, results = .ok os →
    (AskedOnce Event.declarationLabel? history ∧ OneOutcome Node.declarationLabel? nodes os ↔
      NoneMetAgain nodes os)

section Handled

variable {r : CircuitEdit σ} {I : σ → Prop} {p p' : Record} {nodes : List Node}

theorem Steps.oneOutcome_operators {os : List (Option Node)} (h : Steps r I nodes p os p') :
    OneOutcome Node.operatorLabel? nodes os := by
  rintro ⟨a, new?⟩ ha ⟨b, new?'⟩ hb label hlabel hlabel'
  cases a with
  | declaration => cases hlabel
  | operator op =>
    cases b with
    | declaration => cases hlabel'
    | operator op' =>
      have hsame : op.label = op'.label := Option.some.inj (hlabel.trans hlabel'.symm)
      rw [(h.operator_outcome ha).1, (h.operator_outcome hb).1, Replacements.get?_congr hsame]

theorem Steps.oneOutcome_declarations {os : List (Option Node)} (h : Steps r I nodes p os p')
    (hnone : NoneMetAgain nodes os) : OneOutcome Node.declarationLabel? nodes os := by
  have hpair : (nodes.zip os).Pairwise fun a b => ∀ label, a.1.declarationLabel? = some label →
      b.1.declarationLabel? = some label → a.2 = b.2 := by
    refine hnone.imp₂ (fun a b hnone hkept label ha hb => ?_) h.kept_again
    exact (hkept label ha hb fun hdropped => hnone hdropped label ha hb).symm
  have hsymm : Std.Symm fun a b : Node × Option Node =>
      ∀ label, a.1.declarationLabel? = some label → b.1.declarationLabel? = some label →
        a.2 = b.2 :=
    ⟨fun a b h label hb ha => (h label ha hb).symm⟩
  exact fun a ha b hb => hpair.forall_of_forall (fun _ _ _ _ _ => rfl) ha hb

theorem Ends.handled {results : Except Error (List (Option Node))}
    (h : Ends r I nodes .start results p') : Handled nodes results p'.history where
  toWellAsked := h.wellAsked Record.sound_start
  operators := by
    rintro os rfl
    exact Steps.oneOutcome_operators h
  declarations := by
    rintro os rfl
    refine ⟨fun h' => Steps.noneMetAgain_of_nodup h h'.1, fun hnone => ⟨?_, ?_⟩⟩
    · exact Steps.nodup_of_noneMetAgain h hnone List.nodup_nil fun _ hd => by cases hd
    · exact Steps.oneOutcome_declarations h hnone

/-- **A node is one node.**  Whatever an edit does with a circuit or a file, each operator is asked
about at most once, and all its occurrences have one outcome.  A declaration is asked about again
only after it was dropped; so each declaration is asked about at most once, and has one outcome,
exactly when none occurs again after it was dropped.  The histories are those of the runs: watching
an edit changes nothing. -/
theorem asked_once_unless_dropped (r : CircuitEdit σ) (s : Session σ) :
    (∀ c : Circuit, Job.Refines Watched.hooks (r.watched.apply c) (r.apply c) ∧
      ((r.apply c).exec s).1 = (r.results c.nodes s).map c.refill ∧
      Handled c.nodes (r.results c.nodes s) (r.history c s)) ∧
    ∀ f : File, Job.Refines Watched.hooks (r.watched.applyFile f) (r.applyFile f) ∧
      ((r.applyFile f).exec s).1 = (r.results f.nodes s).map f.refill ∧
      Handled f.nodes (r.results f.nodes s) (r.fileHistory f s) := by
  refine ⟨fun c => ⟨r.refines_apply c, r.fst_exec_apply c s, ?_⟩,
    fun f => ⟨r.refines_applyFile f, r.fst_exec_applyFile f s, ?_⟩⟩
  · obtain ⟨p', hends, hhistory⟩ := ends_apply c s (r.preserves_trivial c.nodes) trivial
    exact hhistory ▸ hends.handled
  · obtain ⟨p', hends, hhistory⟩ := ends_applyFile f s (r.preserves_trivial f.nodes) trivial
    exact hhistory ▸ hends.handled

end Handled

/-- Drops every declaration. -/
def dropDeclarations : CircuitEdit Unit where
  declaration _ := pure none

/-- One declaration, twice. -/
def declaredTwice : Circuit :=
  let limit : Declaration := ⟨1, "LIMIT", .bool 0 true⟩
  ⟨"twice", [.declaration limit, .declaration limit]⟩

/-- A declaration that is dropped is asked about again at its next occurrence. -/
theorem dropped_declaration_asked_twice :
    ¬ AskedOnce Event.declarationLabel? (dropDeclarations.history declaredTwice ⟨2, [], ()⟩) := by
  have hasked : (dropDeclarations.history declaredTwice ⟨2, [], ()⟩).filterMap
      Event.declarationLabel? = [1, 1] := rfl
  rw [AskedOnce, hasked]
  decide

end CircuitEdit
end FlowCircuit
