import FlowCircuit.Proofs.History
import Mathlib.Data.List.Forall2

/-!
# What an edit can do to a node

`OperatorStep` and `DeclarationStep` list everything a run of an edit can do when it comes to a
node: which question it puts, under which circumstances, and what it notes about the answer.
`Steps` chains them over nodes that all went well, and `Ends` says how a run over a list of nodes
ends: a step for each node, or steps up to the first node whose step fails.

Every run ends so (`ends_results`).  What is true of all runs is proved from the rules by an
induction over `Steps`, without another look at the text of the edit.
-/

set_option autoImplicit false

namespace FlowCircuit.CircuitEdit

variable {σ : Type}

/-- What an edit has noted about the nodes, and what it has asked so far. -/
structure Record where
  operators : Replacements Operator
  /-- Labels of the operators that were dropped. -/
  removed : List Label
  declarations : Replacements Declaration
  /-- The latest question first. -/
  history : List Event

namespace Record

/-- At first nothing is noted and nothing was asked. -/
def start : Record := ⟨.empty, [], .empty, []⟩

/-- The record that a watched run has reached. -/
def ofProgress (p : Progress (Watched Event σ)) : Record :=
  ⟨p.operators, p.removed, p.declarations, p.hooks.log⟩

/-- The operator was neither replaced nor dropped so far. -/
def Unmet (p : Record) (op : Operator) : Prop :=
  p.operators.get? op = none ∧ op.label ∉ p.removed

/-- A question was put and answered. -/
def tell (p : Record) (event : Event) : Record := { p with history := event :: p.history }

/-- What is noted about an operator once its replacement was asked for. -/
def settle (p : Record) (op : Operator) : Except Error (Option Operator) → Record
  | .ok (some new) => { p with operators := p.operators.insert op new }
  | .ok none => { p with removed := op.label :: p.removed }
  | .error _ => p

/-- What is noted about a declaration once its replacement was asked for: nothing when it is
dropped. -/
def declare (p : Record) (d : Declaration) : Except Error (Option Declaration) → Record
  | .ok (some new) => { p with declarations := p.declarations.insert d new }
  | .ok none => p
  | .error _ => p

@[simp]
theorem history_settle (p : Record) (op : Operator) (answer : Except Error (Option Operator)) :
    (p.settle op answer).history = p.history := by
  rcases answer with _ | (_ | _) <;> rfl

@[simp]
theorem declarations_settle (p : Record) (op : Operator) (answer : Except Error (Option Operator)) :
    (p.settle op answer).declarations = p.declarations := by
  rcases answer with _ | (_ | _) <;> rfl

@[simp]
theorem history_declare (p : Record) (d : Declaration)
    (answer : Except Error (Option Declaration)) : (p.declare d answer).history = p.history := by
  rcases answer with _ | (_ | _) <;> rfl

@[simp]
theorem operators_declare (p : Record) (d : Declaration)
    (answer : Except Error (Option Declaration)) :
    (p.declare d answer).operators = p.operators := by
  rcases answer with _ | (_ | _) <;> rfl

@[simp]
theorem removed_declare (p : Record) (d : Declaration)
    (answer : Except Error (Option Declaration)) : (p.declare d answer).removed = p.removed := by
  rcases answer with _ | (_ | _) <;> rfl

end Record

/-! ## The rules -/

/-- The hooks give this answer in some session whose state is as `I` says. -/
def Answers (r : CircuitEdit σ) (I : σ → Prop) : Event → Prop
  | .keep op answer => ∃ s, I s.state ∧ ((r.keep op).exec s).1 = answer
  | .operator op inputs answer => ∃ s, I s.state ∧ ((r.operator op inputs).exec s).1 = answer
  | .declaration d answer => ∃ s, I s.state ∧ ((r.declaration d).exec s).1 = answer

/-- What can happen when a run comes to an operator. -/
inductive OperatorStep (r : CircuitEdit σ) (I : σ → Prop) (op : Operator) (p : Record) :
    Except Error (Option Operator) → Record → Prop
  | again {new : Operator} (hget : p.operators.get? op = some new) :
    OperatorStep r I op p (.ok (some new)) p
  | stillDropped (hget : p.operators.get? op = none) (hgone : op.label ∈ p.removed) :
    OperatorStep r I op p (.ok none) p
  | keepFails {e : Error} (hnew : p.Unmet op) (hkeep : r.Answers I (.keep op (.error e))) :
    OperatorStep r I op p (.error e) (p.tell (.keep op (.error e)))
  | refused (hnew : p.Unmet op) (hkeep : r.Answers I (.keep op (.ok false))) :
    OperatorStep r I op p (.ok none) ((p.tell (.keep op (.ok false))).settle op (.ok none))
  | inputMissing {input : Operator} {why : String} (hnew : p.Unmet op)
    (hkeep : r.Answers I (.keep op (.ok true))) (hinput : input ∈ op.inputs)
    (hget : p.operators.get? input = none) :
    OperatorStep r I op p (.error (.traversal r.name why)) (p.tell (.keep op (.ok true)))
  | asked {inputs : List Operator} {answer : Except Error (Option Operator)} (hnew : p.Unmet op)
    (hkeep : r.Answers I (.keep op (.ok true)))
    (hinputs : List.Forall₂ (fun input new => p.operators.get? input = some new) op.inputs inputs)
    (hanswer : r.Answers I (.operator op inputs answer)) :
    OperatorStep r I op p answer
      (((p.tell (.keep op (.ok true))).tell (.operator op inputs answer)).settle op answer)

/-- What can happen when a run comes to a declaration. -/
inductive DeclarationStep (r : CircuitEdit σ) (I : σ → Prop) (d : Declaration) (p : Record) :
    Except Error (Option Declaration) → Record → Prop
  | again {new : Declaration} (hget : p.declarations.get? d = some new) :
    DeclarationStep r I d p (.ok (some new)) p
  | asked {answer : Except Error (Option Declaration)} (hget : p.declarations.get? d = none)
    (hanswer : r.Answers I (.declaration d answer)) :
    DeclarationStep r I d p answer ((p.tell (.declaration d answer)).declare d answer)

/-- What can happen when a run comes to a node. -/
def NodeStep (r : CircuitEdit σ) (I : σ → Prop) (p : Record) (result : Except Error (Option Node))
    (p' : Record) : Node → Prop
  | .operator op => ∃ new?, OperatorStep r I op p new? p' ∧ result = new?.map (·.map .operator)
  | .declaration d =>
    ∃ new?, DeclarationStep r I d p new? p' ∧ result = new?.map (·.map .declaration)

section NodeStep

variable {r : CircuitEdit σ} {I : σ → Prop} {p p' : Record} {new? : Option Node}

theorem NodeStep.operator_ok {op : Operator} (h : NodeStep r I p (.ok new?) p' (.operator op)) :
    ∃ new, OperatorStep r I op p (.ok new) p' ∧ new? = new.map .operator := by
  obtain ⟨_ | new, hstep, hresult⟩ := h
  · cases hresult
  · exact ⟨new, hstep, Except.ok.inj hresult⟩

theorem NodeStep.declaration_ok {d : Declaration}
    (h : NodeStep r I p (.ok new?) p' (.declaration d)) :
    ∃ new, DeclarationStep r I d p (.ok new) p' ∧ new? = new.map .declaration := by
  obtain ⟨_ | new, hstep, hresult⟩ := h
  · cases hresult
  · exact ⟨new, hstep, Except.ok.inj hresult⟩

end NodeStep

/-- A step for each node, none of which fails. -/
inductive Steps (r : CircuitEdit σ) (I : σ → Prop) :
    List Node → Record → List (Option Node) → Record → Prop
  | nil {p : Record} : Steps r I [] p [] p
  | cons {node : Node} {nodes : List Node} {p q p' : Record} {new? : Option Node}
    {os : List (Option Node)} (hstep : NodeStep r I p (.ok new?) q node)
    (hrest : Steps r I nodes q os p') : Steps r I (node :: nodes) p (new? :: os) p'

theorem Steps.length_eq {r : CircuitEdit σ} {I : σ → Prop} {nodes : List Node} {p p' : Record}
    {os : List (Option Node)} (h : Steps r I nodes p os p') : os.length = nodes.length := by
  induction h with
  | nil => rfl
  | cons _ _ ih => exact congrArg Nat.succ ih

/-- How a run over the nodes ends: with a step for each of them, or at the first whose step
fails. -/
def Ends (r : CircuitEdit σ) (I : σ → Prop) (nodes : List Node) (p : Record) :
    Except Error (List (Option Node)) → Record → Prop
  | .ok os, p' => Steps r I nodes p os p'
  | .error e, p' => ∃ before node after os q, nodes = before ++ node :: after ∧
      Steps r I before p os q ∧ NodeStep r I q (.error e) p' node

theorem Ends.cons {r : CircuitEdit σ} {I : σ → Prop} {node : Node} {nodes : List Node}
    {p q p' : Record} {new? : Option Node} {result : Except Error (List (Option Node))}
    (hstep : NodeStep r I p (.ok new?) q node) (hrest : Ends r I nodes q result p') :
    Ends r I (node :: nodes) p (result.map (new? :: ·)) p' := by
  cases result with
  | ok os => exact Steps.cons hstep hrest
  | error e =>
    obtain ⟨before, last, after, os, q', rfl, hsteps, hlast⟩ := hrest
    exact ⟨node :: before, last, after, new? :: os, q', rfl, .cons hstep hsteps, hlast⟩

/-! ## Every run follows the rules -/

/-- The hooks, asked about nodes of the list, keep their state as `I` says. -/
structure Preserves (r : CircuitEdit σ) (I : σ → Prop) (nodes : List Node) : Prop where
  keep : ∀ op, .operator op ∈ nodes → ∀ s, I s.state → I ((r.keep op).exec s).2.state
  operator : ∀ op, .operator op ∈ nodes → ∀ inputs s, I s.state →
    I ((r.operator op inputs).exec s).2.state
  declaration : ∀ d, .declaration d ∈ nodes → ∀ s, I s.state → I ((r.declaration d).exec s).2.state

theorem preserves_trivial (r : CircuitEdit σ) (nodes : List Node) :
    r.Preserves (fun _ => True) nodes :=
  ⟨fun _ _ _ _ => trivial, fun _ _ _ _ _ => trivial, fun _ _ _ _ => trivial⟩

open Job (ends)

section Runs

variable {r : CircuitEdit σ} {I : σ → Prop} {nodes : List Node}
  {s : Session (Progress (Watched Event σ))}

/-- Looking up the inputs changes nothing, and fails at the first that has no replacement. -/
theorem exec_replacedInputs (op : Operator) (inputs : List Operator) :
    (∃ news, (inputs.mapM (r.watched.replacedInput op)).exec s = (.ok news, s) ∧
      List.Forall₂ (fun input new => s.state.operators.get? input = some new) inputs news) ∨
    ∃ input ∈ inputs, s.state.operators.get? input = none ∧
      ∃ why, (inputs.mapM (r.watched.replacedInput op)).exec s =
        (.error (.traversal r.name why), s) := by
  induction inputs with
  | nil => exact .inl ⟨[], rfl, .nil⟩
  | cons input inputs ih =>
    rw [List.mapM_cons, Job.exec_bind]
    cases hget : s.state.operators.get? input with
    | none =>
      have hfirst : ∃ why, (r.watched.replacedInput op input).exec s =
          (.error (.traversal r.name why), s) := by
        simp only [replacedInput, Job.exec_bind, Job.state, Job.exec_of, hget, Job.exec_throw]
        exact ⟨_, rfl⟩
      obtain ⟨why, hfirst⟩ := hfirst
      exact .inr ⟨input, List.mem_cons_self, hget, why, by rw [hfirst]⟩
    | some new =>
      have hfirst : (r.watched.replacedInput op input).exec s = (.ok new, s) := by
        simp only [replacedInput, Job.exec_bind, Job.state, Job.exec_of, hget, Job.exec_pure]
      rw [hfirst]
      simp only [Job.exec_bind]
      rcases ih with ⟨news, hrun, hnews⟩ | ⟨other, hother, hnone, why, hrun⟩
      · rw [hrun]
        exact .inl ⟨new :: news, rfl, .cons hget hnews⟩
      · rw [hrun]
        exact .inr ⟨other, List.mem_cons_of_mem _ hother, hnone, why, rfl⟩

/-- What one question does: it is written down, and the state of the hooks moves on. -/
theorem ends_ask {α : Type} {event : Except Error α → Event} {hook : Run σ α}
    {post : Except Error α → Session (Progress (Watched Event σ)) → Prop}
    (h : ∀ answer s', (∃ t : Session σ, t.state = s.state.hooks.hooks ∧ (hook.exec t).1 = answer ∧
        s'.state.hooks.hooks = (hook.exec t).2.state) →
      Record.ofProgress s'.state = (Record.ofProgress s.state).tell (event answer) →
      post answer s') :
    ends (Progress.ask (Watched.ask event hook)) post s :=
  h _ _ ⟨⟨s.next, s.notices, s.state.hooks.hooks⟩, rfl, rfl, rfl⟩ rfl

theorem ends_drop {op : Operator}
    {post : Except Error (Option Operator) → Session (Progress (Watched Event σ)) → Prop}
    (h : ∀ s', s'.state.hooks = s.state.hooks →
      Record.ofProgress s'.state = (Record.ofProgress s.state).settle op (.ok none) →
      post (.ok none) s') : ends (r.watched.drop op) post s :=
  h _ rfl rfl

/-- An operator that is kept and whose inputs have their replacements. -/
theorem ends_replacement (hr : r.Preserves I nodes) {op : Operator} (hop : .operator op ∈ nodes)
    (hI : I s.state.hooks.hooks) {p : Record} (hnew : p.Unmet op)
    (hkeep : r.Answers I (.keep op (.ok true))) {inputs : List Operator}
    (hinputs : List.Forall₂ (fun input new => p.operators.get? input = some new) op.inputs inputs)
    (hs : Record.ofProgress s.state = p.tell (.keep op (.ok true))) :
    ends (do
      match ← Progress.ask (r.watched.operator op inputs) with
      | some new =>
        if !identical op new then
          Job.report (.replacedOperator r.watched.name op.id)
        Job.update fun p => { p with operators := p.operators.insert op new }
        return some new
      | none => r.watched.drop op)
      (fun result s' => OperatorStep r I op p result (.ofProgress s'.state) ∧
        I s'.state.hooks.hooks) s := by
  rw [Job.ends_bind]
  refine ends_ask fun answer s₁ hask hs₁ => ?_
  obtain ⟨t, ht, hanswer, hhooks⟩ := hask
  have hasked := OperatorStep.asked hnew hkeep hinputs
    (show r.Answers I (.operator op inputs answer) from ⟨t, ht ▸ hI, hanswer⟩)
  have hI₁ : I s₁.state.hooks.hooks := hhooks ▸ hr.operator op hop inputs t (ht ▸ hI)
  rw [← hs, ← hs₁] at hasked
  rcases answer with e | (_ | new)
  · exact ⟨hasked, hI₁⟩
  · exact ends_drop fun s₂ hsame hs₂ => ⟨hs₂ ▸ hasked, hsame ▸ hI₁⟩
  · dsimp only
    split <;> exact ⟨hasked, hI₁⟩

/-- An operator that was not met before. -/
theorem ends_newOperator (hr : r.Preserves I nodes) {op : Operator} (hop : .operator op ∈ nodes)
    (hI : I s.state.hooks.hooks) (hnew : (Record.ofProgress s.state).Unmet op) :
    ends (r.watched.newOperator op) (fun result s' =>
      OperatorStep r I op (.ofProgress s.state) result (.ofProgress s'.state) ∧
        I s'.state.hooks.hooks) s := by
  rw [newOperator, Job.ends_bind]
  refine ends_ask fun answer s₁ hask hs₁ => ?_
  obtain ⟨t, ht, hanswer, hhooks⟩ := hask
  have hkeep : r.Answers I (.keep op answer) := ⟨t, ht ▸ hI, hanswer⟩
  have hI₁ : I s₁.state.hooks.hooks := hhooks ▸ hr.keep op hop t (ht ▸ hI)
  cases answer with
  | error e =>
    refine ⟨?_, hI₁⟩
    rw [hs₁]
    exact .keepFails hnew hkeep
  | ok kept =>
    cases kept with
    | false =>
      refine ends_drop fun s₂ hsame hs₂ => ⟨?_, hsame ▸ hI₁⟩
      rw [hs₂, hs₁]
      exact .refused hnew hkeep
    | true =>
      have hoperators : s₁.state.operators = s.state.operators := congrArg Record.operators hs₁
      dsimp only
      rw [if_pos rfl, Job.ends_bind]
      rcases r.exec_replacedInputs (s := s₁) op op.inputs with
        ⟨inputs, hrun, hinputs⟩ | ⟨input, hinput, hget, why, hrun⟩
      · rw [ends, hrun]
        rw [hoperators] at hinputs
        exact ends_replacement hr hop hI₁ hnew hkeep hinputs hs₁
      · rw [ends, hrun]
        refine ⟨?_, hI₁⟩
        rw [hs₁]
        rw [hoperators] at hget
        exact .inputMissing hnew hkeep hinput hget

theorem ends_editOperator (hr : r.Preserves I nodes) {op : Operator} (hop : .operator op ∈ nodes)
    (hI : I s.state.hooks.hooks) :
    ends (r.watched.editOperator op) (fun result s' =>
      OperatorStep r I op (.ofProgress s.state) result (.ofProgress s'.state) ∧
        I s'.state.hooks.hooks) s := by
  rw [editOperator, Job.ends_state_bind]
  cases hget : s.state.operators.get? op with
  | some new => exact ⟨.again hget, hI⟩
  | none =>
    dsimp only
    split
    case isTrue hgone => exact ⟨.stillDropped hget (List.contains_iff_mem.mp hgone), hI⟩
    case isFalse hgone =>
      exact ends_newOperator hr hop hI ⟨hget, fun h => hgone (List.contains_iff_mem.mpr h)⟩

theorem ends_editDeclaration (hr : r.Preserves I nodes) {d : Declaration}
    (hd : .declaration d ∈ nodes) (hI : I s.state.hooks.hooks) :
    ends (r.watched.editDeclaration d) (fun result s' =>
      DeclarationStep r I d (.ofProgress s.state) result (.ofProgress s'.state) ∧
        I s'.state.hooks.hooks) s := by
  rw [editDeclaration, Job.ends_state_bind]
  cases hget : s.state.declarations.get? d with
  | some new => exact ⟨.again hget, hI⟩
  | none =>
    rw [Job.ends_bind]
    refine ends_ask fun answer s₁ hask hs₁ => ?_
    obtain ⟨t, ht, hanswer, hhooks⟩ := hask
    have hasked := DeclarationStep.asked (p := .ofProgress s.state) hget
      (show r.Answers I (.declaration d answer) from ⟨t, ht ▸ hI, hanswer⟩)
    have hI₁ : I s₁.state.hooks.hooks := hhooks ▸ hr.declaration d hd t (ht ▸ hI)
    rw [← hs₁] at hasked
    rcases answer with e | (_ | new) <;> exact ⟨hasked, hI₁⟩

theorem ends_editNode (hr : r.Preserves I nodes) {node : Node} (hnode : node ∈ nodes)
    (hI : I s.state.hooks.hooks) :
    ends (r.watched.editNode node) (fun result s' =>
      NodeStep r I (.ofProgress s.state) result (.ofProgress s'.state) node ∧
        I s'.state.hooks.hooks) s := by
  cases node with
  | operator op =>
    rw [editNode, Job.ends_bind]
    refine (ends_editOperator hr hnode hI).imp fun result s' h => ?_
    cases result <;> exact ⟨⟨_, h.1, rfl⟩, h.2⟩
  | declaration d =>
    rw [editNode, Job.ends_bind]
    refine (ends_editDeclaration hr hnode hI).imp fun result s' h => ?_
    cases result <;> exact ⟨⟨_, h.1, rfl⟩, h.2⟩

/-- A run over some of the nodes, from wherever it stands. -/
theorem ends_watched_outcomes (hr : r.Preserves I nodes) {rest : List Node} (hrest : rest ⊆ nodes)
    (hI : I s.state.hooks.hooks) :
    ends (r.watched.outcomes rest) (fun result s' =>
      Ends r I rest (.ofProgress s.state) result (.ofProgress s'.state)) s := by
  induction rest generalizing s with
  | nil => exact Steps.nil
  | cons node rest ih =>
    obtain ⟨hnode, hrest⟩ := List.cons_subset.mp hrest
    rw [outcomes, List.mapM_cons, Job.ends_bind]
    refine (ends_editNode hr hnode hI).imp fun result s₁ h => ?_
    cases result with
    | error e => exact ⟨[], node, rest, [], _, rfl, .nil, h.1⟩
    | ok new? =>
      dsimp only
      rw [Job.ends_bind]
      refine (ih hrest h.2).imp fun result s₂ hrest => ?_
      cases result <;> exact Ends.cons h.1 hrest

/-- **Every run follows the rules**, from its start to its results. -/
theorem ends_results (s : Session σ) (hr : r.Preserves I nodes) (hI : I s.state) :
    Ends r I nodes .start (r.results nodes s)
      (.ofProgress ((r.watched.outcomes nodes).exec
        ((s.map Watched.start).map .start)).2.state) := by
  have hrun :=
    ends_watched_outcomes (s := (s.map Watched.start).map .start) hr (List.Subset.refl _) hI
  have hsame := congrArg Prod.fst (r.refines_outcomes nodes ((s.map Watched.start).map .start))
  rw [results]
  exact hsame ▸ hrun

/-- Taking a circuit through the edit follows the rules, and its history is what they tell. -/
theorem ends_apply (c : Circuit) (s : Session σ) (hr : r.Preserves I c.nodes) (hI : I s.state) :
    ∃ p', Ends r I c.nodes .start (r.results c.nodes s) p' ∧ p'.history = r.history c s := by
  refine ⟨_, ends_results s hr hI, ?_⟩
  rw [history, exec_apply]
  rfl

theorem ends_applyFile (f : File) (s : Session σ) (hr : r.Preserves I f.nodes) (hI : I s.state) :
    ∃ p', Ends r I f.nodes .start (r.results f.nodes s) p' ∧ p'.history = r.fileHistory f s := by
  refine ⟨_, ends_results s hr hI, ?_⟩
  rw [fileHistory, exec_applyFile]
  rfl

end Runs

end FlowCircuit.CircuitEdit
