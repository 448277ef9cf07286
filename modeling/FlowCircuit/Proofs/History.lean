import FlowCircuit.Edit.Circuit
import FlowCircuit.Proofs.Job
import FlowCircuit.Proofs.Labels

/-!
# What an edit asks its hooks

The run of a `CircuitEdit` shows in what comes out of it, but not in how often a hook was asked and
what it answered.  `CircuitEdit.watched` is the same edit with hooks that write down every question
and its answer, also an answer that is a failure.  Watching changes nothing: the watched run is the
run (`CircuitEdit.refines_apply`, `CircuitEdit.refines_applyFile`), so the list it leaves behind is
a history of the run that was watched.  That is so for any two edits whose hooks do the same
(`CircuitEdit.Imitates`).

What a run can do to a node is said once, by the rules of `NodeStep`: which question it puts, under
which circumstances, and what it notes.  `Steps` chains the rules over a list of nodes, and every
run is such a chain, or ends at the first node whose step fails (`CircuitEdit.ends_results`).  All
that is known about histories is read off the rules, not off the text of the edit.
-/

set_option autoImplicit false

namespace FlowCircuit

/-- The nodes of an item, as an edit meets them. -/
def FileItem.nodes : FileItem → List Node
  | .declaration d => [.declaration d]
  | .circuit c => c.nodes

/-- The nodes of a file, as an edit meets them. -/
def File.nodes (f : File) : List Node := f.items.flatMap FileItem.nodes

/-! ## Putting together what became of the nodes -/

/-- The nodes that were not dropped. -/
def survivors (outcomes : List (Option Node)) : List Node := outcomes.flatMap Option.toList

@[simp]
theorem survivors_nil : survivors [] = [] := rfl

@[simp]
theorem survivors_cons (outcome : Option Node) (outcomes : List (Option Node)) :
    survivors (outcome :: outcomes) = outcome.toList ++ survivors outcomes := rfl

/-- The circuit with each node replaced by what became of it. -/
def Circuit.refill (c : Circuit) (outcomes : List (Option Node)) : Circuit :=
  ⟨c.name, survivors outcomes⟩

/-- The item with each node replaced by what became of it. -/
def FileItem.refill : FileItem → List (Option Node) → Option FileItem
  | .declaration _, outcomes =>
    ((survivors outcomes).findSome? Node.declaration?).map .declaration
  | .circuit c, outcomes => some (.circuit (c.refill outcomes))

/-- The items with each node replaced by what became of it. -/
def File.refillItems : List FileItem → List (Option Node) → List FileItem
  | [], _ => []
  | item :: items, outcomes =>
    (item.refill (outcomes.take item.nodes.length)).toList ++
      refillItems items (outcomes.drop item.nodes.length)

/-- The file with each node replaced by what became of it. -/
def File.refill (f : File) (outcomes : List (Option Node)) : File :=
  ⟨refillItems f.items outcomes⟩

namespace CircuitEdit

variable {σ α : Type}

/-- What becomes of each of the nodes in turn. -/
def outcomes (r : CircuitEdit σ) (nodes : List Node) : Run (Progress σ) (List (Option Node)) :=
  nodes.mapM r.editNode

/-- What became of each of the nodes in a run from its start. -/
def results (r : CircuitEdit σ) (nodes : List Node) (s : Session σ) :
    Except Error (List (Option Node)) :=
  ((r.outcomes nodes).exec (s.map .start)).1

section Outcomes

variable (r : CircuitEdit σ)

theorem editNodes_eq (nodes : List Node) : r.editNodes nodes = survivors <$> r.outcomes nodes := by
  induction nodes with
  | nil => rfl
  | cons node nodes ih => simp [editNodes, outcomes, ih, survivors]

theorem editCircuit_eq (c : Circuit) : r.editCircuit c = c.refill <$> r.outcomes c.nodes := by
  rw [editCircuit, editNodes_eq, bind_map_left, map_eq_pure_bind]
  rfl

theorem editItem_eq (item : FileItem) :
    r.editItem item = item.refill <$> r.outcomes item.nodes := by
  cases item with
  | declaration d =>
    have hrefill (new : Option Declaration) :
        (FileItem.declaration d).refill [new.map .declaration] = new.map .declaration := by
      cases new <;> rfl
    simp [editItem, outcomes, FileItem.nodes, editNode, hrefill]
  | circuit c =>
    rw [editItem, editCircuit_eq, bind_map_left, map_eq_pure_bind]
    rfl

theorem outcomes_append (nodes more : List Node) :
    r.outcomes (nodes ++ more) = do
      let before ← r.outcomes nodes
      let after ← r.outcomes more
      return before ++ after := List.mapM_append

/-- Each node has one outcome. -/
theorem length_outcomes {nodes : List Node} {os : List (Option Node)} {s s' : Session (Progress σ)}
    (h : (r.outcomes nodes).exec s = (.ok os, s')) : os.length = nodes.length := by
  induction nodes generalizing os s with
  | nil =>
    cases h
    rfl
  | cons node nodes ih =>
    rw [outcomes, List.mapM_cons, Job.exec_bind] at h
    rcases hfirst : (r.editNode node).exec s with ⟨_ | new?, s₁⟩
    · rw [hfirst] at h
      cases h
    · rw [hfirst] at h
      simp only [Job.exec_bind] at h
      rcases hrest : (nodes.mapM r.editNode).exec s₁ with ⟨_ | os', s₂⟩
      · rw [hrest] at h
        cases h
      · rw [hrest] at h
        cases h
        exact congrArg Nat.succ (ih hrest)

/-- Items are edited by editing their nodes in turn. -/
theorem exec_editItems (items : List FileItem) (s : Session (Progress σ)) :
    (r.editItems items).exec s =
      (File.refillItems items <$> r.outcomes (items.flatMap FileItem.nodes)).exec s := by
  induction items generalizing s with
  | nil => rfl
  | cons item items ih =>
    rw [editItems, editItem_eq, List.flatMap_cons, outcomes_append]
    simp only [bind_map_left, Job.exec_map, Job.exec_bind]
    rcases hrun : (r.outcomes item.nodes).exec s with ⟨_ | os, s'⟩
    · rfl
    · have hlength := r.length_outcomes hrun
      simp only [ih, Job.exec_map]
      rcases (r.outcomes (items.flatMap FileItem.nodes)).exec s' with ⟨_ | os', s''⟩
      · rfl
      · simp [File.refillItems, Except.map, ← hlength]

/-- Taking a circuit through the edit is editing its nodes in turn. -/
theorem exec_apply (c : Circuit) (s : Session σ) :
    (r.apply c).exec s =
      let (outcome, s') := (r.outcomes c.nodes).exec (s.map .start)
      let operators := s'.state.operators
      let notice := Notice.operatorsReplaced r.name operators.replaced operators.size c.name
      (outcome.map c.refill, ⟨s'.next, notice :: s'.notices, s'.state.hooks⟩) := by
  rw [apply, Job.exec_of, runFromStart, editCircuit_eq, Job.exec_map]
  rfl

theorem exec_applyFile (f : File) (s : Session σ) :
    (r.applyFile f).exec s =
      let (outcome, s') := (r.outcomes f.nodes).exec (s.map .start)
      (outcome.map f.refill, ⟨s'.next, s'.notices, s'.state.hooks⟩) := by
  have hitems : (r.editItems f.items).exec ⟨s.next, s.notices, .start s.state⟩ =
      (File.refillItems f.items <$> r.outcomes f.nodes).exec (s.map .start) :=
    r.exec_editItems f.items _
  rw [applyFile, Job.exec_of, runFromStart, hitems, Job.exec_map]
  rcases (r.outcomes f.nodes).exec (s.map .start) with ⟨_ | os, s'⟩ <;> rfl

theorem fst_exec_apply (c : Circuit) (s : Session σ) :
    ((r.apply c).exec s).1 = (r.results c.nodes s).map c.refill := by
  rw [exec_apply]
  rfl

theorem fst_exec_applyFile (f : File) (s : Session σ) :
    ((r.applyFile f).exec s).1 = (r.results f.nodes s).map f.refill := by
  rw [exec_applyFile]
  rfl

end Outcomes

/-! ## Edits that do the same

Two edits whose hooks do the same, each on a state of its own, do the same.  So a run can be
compared with one that keeps a record. -/

open Job (Refines)

section Imitates

variable {τ : Type} {f : σ → τ}

/-- How far the edit has come, with another state of the hooks. -/
def Progress.map (f : σ → τ) (p : Progress σ) : Progress τ :=
  ⟨f p.hooks, p.operators, p.removed, p.declarations⟩

@[simp]
theorem Progress.operators_map (p : Progress σ) : (p.map f).operators = p.operators := rfl

@[simp]
theorem Progress.removed_map (p : Progress σ) : (p.map f).removed = p.removed := rfl

@[simp]
theorem Progress.declarations_map (p : Progress σ) : (p.map f).declarations = p.declarations := rfl

/-- The hooks of `r` do on a state what those of `r₀` do on the part `f` of it. -/
structure Imitates (f : σ → τ) (r : CircuitEdit σ) (r₀ : CircuitEdit τ) : Prop where
  name : r.name = r₀.name
  keep : ∀ op, Refines f (r.keep op) (r₀.keep op)
  operator : ∀ op inputs, Refines f (r.operator op inputs) (r₀.operator op inputs)
  declaration : ∀ d, Refines f (r.declaration d) (r₀.declaration d)

theorem Progress.refines_ask {hook : Run σ α} {hook₀ : Run τ α} (h : Refines f hook hook₀) :
    Refines (Progress.map f) (Progress.ask hook) (Progress.ask hook₀) :=
  h.onPart (fun _ => rfl) fun _ _ => rfl

namespace Imitates

variable {r : CircuitEdit σ} {r₀ : CircuitEdit τ} (hr : Imitates f r r₀)

include hr

theorem replacedInput (op input : Operator) :
    Refines (Progress.map f) (r.replacedInput op input) (r₀.replacedInput op input) := by
  refine .state_bind fun p => ?_
  rw [Progress.operators_map, hr.name]
  cases p.operators.get? input with
  | some new => exact .pure new
  | none => exact .throw _

theorem drop (op : Operator) : Refines (Progress.map f) (r.drop op) (r₀.drop op) := by
  rw [CircuitEdit.drop, CircuitEdit.drop, hr.name]
  refine (Refines.report _).bind fun _ => Refines.bind (Refines.update ?_) fun _ => .pure none
  exact fun _ => rfl

theorem newOperator (op : Operator) :
    Refines (Progress.map f) (r.newOperator op) (r₀.newOperator op) := by
  refine (Progress.refines_ask (hr.keep op)).bind fun kept => ?_
  cases kept with
  | false => exact hr.drop op
  | true =>
    refine (Refines.mapM (hr.replacedInput op) op.inputs).bind fun inputs => ?_
    refine (Progress.refines_ask (hr.operator op inputs)).bind fun new? => ?_
    cases new? with
    | none => exact hr.drop op
    | some new =>
      have hrest : Refines (Progress.map f)
          (do
            Job.update fun p : Progress σ => { p with operators := p.operators.insert op new }
            return some new)
          (do
            Job.update fun p : Progress τ => { p with operators := p.operators.insert op new }
            return some new : Run (Progress τ) (Option Operator)) := by
        refine Refines.bind (Refines.update ?_) fun _ => .pure (some new)
        exact fun _ => rfl
      dsimp only
      rw [hr.name]
      split
      · exact (Refines.report _).bind fun _ => hrest
      · exact hrest

theorem editNode (node : Node) : Refines (Progress.map f) (r.editNode node) (r₀.editNode node) := by
  cases node with
  | operator op =>
    refine Refines.bind (.state_bind fun p => ?_) fun new? => .pure _
    rw [Progress.operators_map, Progress.removed_map]
    cases p.operators.get? op with
    | some new => exact .pure (some new)
    | none =>
      dsimp only
      split
      · exact .pure none
      · exact hr.newOperator op
  | declaration d =>
    refine Refines.bind (.state_bind fun p => ?_) fun new? => .pure _
    rw [Progress.declarations_map]
    cases p.declarations.get? d with
    | some new => exact .pure (some new)
    | none =>
      refine (Progress.refines_ask (hr.declaration d)).bind fun new? => ?_
      cases new? with
      | some new =>
        refine Refines.bind (Refines.update ?_) fun _ => .pure (some new)
        exact fun _ => rfl
      | none =>
        dsimp only
        rw [hr.name]
        exact (Refines.report _).bind fun _ => .pure none

theorem outcomes (nodes : List Node) :
    Refines (Progress.map f) (r.outcomes nodes) (r₀.outcomes nodes) :=
  .mapM hr.editNode nodes

/-- **Edits with hooks that do the same do the same to circuits**, and to files. -/
theorem apply (c : Circuit) : Refines f (r.apply c) (r₀.apply c) := fun s => by
  have h := hr.outcomes c.nodes (s.map .start)
  change (r₀.outcomes c.nodes).exec ((s.map f).map .start) = _ at h
  rw [exec_apply, exec_apply, h, hr.name]
  rfl

theorem applyFile (file : File) : Refines f (r.applyFile file) (r₀.applyFile file) := fun s => by
  have h := hr.outcomes file.nodes (s.map .start)
  change (r₀.outcomes file.nodes).exec ((s.map f).map .start) = _ at h
  rw [exec_applyFile, exec_applyFile, h]
  rfl

end Imitates

end Imitates

/-! ## Watching the hooks -/

/-- A question to a hook, with the answer it gave. -/
inductive Event where
  | keep (op : Operator) (answer : Except Error Bool)
  | operator (op : Operator) (inputs : List Operator) (answer : Except Error (Option Operator))
  | declaration (d : Declaration) (answer : Except Error (Option Declaration))

/-- The edit with hooks that write down what they are asked. -/
def watched (r : CircuitEdit σ) : CircuitEdit (Watched Event σ) where
  name := r.name
  keep op := Watched.ask (.keep op) (r.keep op)
  operator op inputs := Watched.ask (.operator op inputs) (r.operator op inputs)
  declaration d := Watched.ask (.declaration d) (r.declaration d)

/-- What the hooks are asked while a circuit is taken through the edit, the latest first. -/
def history (r : CircuitEdit σ) (c : Circuit) (s : Session σ) : List Event :=
  ((r.watched.apply c).exec (s.map .start)).2.state.log

/-- What the hooks are asked while a file is taken through the edit, the latest first. -/
def fileHistory (r : CircuitEdit σ) (f : File) (s : Session σ) : List Event :=
  ((r.watched.applyFile f).exec (s.map .start)).2.state.log

/-! ### Watching changes nothing -/

section Refines

variable (r : CircuitEdit σ)

theorem watched_imitates : Imitates Watched.hooks r.watched r where
  name := rfl
  keep _ := Watched.refines_ask _ _
  operator _ _ := Watched.refines_ask _ _
  declaration _ := Watched.refines_ask _ _

theorem refines_outcomes (nodes : List Node) :
    Refines (Progress.map Watched.hooks) (r.watched.outcomes nodes) (r.outcomes nodes) :=
  r.watched_imitates.outcomes nodes

/-- **A watched run is the run.**  It has the same outcome, and apart from what was written down it
ends in the same session. -/
theorem refines_apply (c : Circuit) : Refines Watched.hooks (r.watched.apply c) (r.apply c) :=
  r.watched_imitates.apply c

theorem refines_applyFile (f : File) :
    Refines Watched.hooks (r.watched.applyFile f) (r.applyFile f) :=
  r.watched_imitates.applyFile f

end Refines

end CircuitEdit
end FlowCircuit
