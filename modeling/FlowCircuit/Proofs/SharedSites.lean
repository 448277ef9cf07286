import FlowCircuit.Proofs.History
import FlowCircuit.Proofs.Transform

/-!
# Sharing under a change of functions

`Circuit.editFunctions` applies a transform to the functions of operators and to the values of
declarations.  The transform may do what it likes, remember what it likes, and answer differently
each time.  Still, what is shared stays shared (`CircuitEdit.sites_stay_shared`): the transform is
asked once for each expression, at the first place where it stands, every other place gets the same
answer, and whoever read one operator reads one operator.

Three tables are involved: what became of expressions, of operators and of declarations.  They only
grow (`Replacements.Grows`), so it is enough to say for each node, when it is dealt with, where its
parts lead in the tables (`Node.Replaced`).  `Settled` says how the tables stand to the nodes dealt
with so far; one node keeps it (`wp_editNode_settled`), so a whole run does
(`wp_editNodes_settled`).  Nothing is assumed of the labels of the transform's answers.
-/

set_option autoImplicit false

namespace FlowCircuit

/-! ## Tables that grow -/

namespace Replacements

variable {α : Type} [Labelled α] {r r' r'' : Replacements α} {old new : α}

/-- What is recorded in `r` is recorded in `r'` as well. -/
def Grows (r r' : Replacements α) : Prop := ∀ a x, r.get? a = some x → r'.get? a = some x

theorem Grows.refl (r : Replacements α) : r.Grows r := fun _ _ h => h

theorem Grows.trans (h : r.Grows r') (h' : r'.Grows r'') : r.Grows r'' :=
  fun a x hx => h' a x (h a x hx)

theorem grows_insert (hnone : r.get? old = none) : r.Grows (r.insert old new) := by
  intro a x hx
  rw [get?_insert, if_neg, hx]
  intro hlabel
  rw [← get?_congr hlabel, hnone] at hx
  cases hx

/-- The replacement of `old` is the node `new`. -/
def Leads (r : Replacements α) (old new : α) : Prop :=
  ∃ x, r.get? old = some x ∧ Labelled.label x = Labelled.label new

theorem Leads.mono (h : r.Leads old new) (hgrows : r.Grows r') : r'.Leads old new := by
  obtain ⟨x, hget, hlabel⟩ := h
  exact ⟨x, hgrows old x hget, hlabel⟩

/-- The label of the replacement, by the label of what it replaces. -/
def newLabel (r : Replacements α) (l : Label) : Label :=
  ((r.pairs.find? fun pair => Labelled.label pair.1 == l).map
    fun pair => Labelled.label pair.2).getD l

theorem newLabel_of_get? (h : r.get? old = some new) :
    r.newLabel (Labelled.label old) = Labelled.label new := by
  rw [get?, Option.map_eq_some_iff] at h
  obtain ⟨pair, hfind, rfl⟩ := h
  have hfind' : (r.pairs.find? fun pair => Labelled.label pair.1 == Labelled.label old) =
      some pair := hfind
  rw [newLabel, hfind']
  rfl

theorem Leads.label_eq (h : r.Leads old new) :
    Labelled.label new = r.newLabel (Labelled.label old) := by
  obtain ⟨x, hget, hlabel⟩ := h
  rw [newLabel_of_get? hget, hlabel]

end Replacements

/-! ## Listening to a transform -/

/-- What has become of expressions, with another state of the hooks. -/
def Memo.map {σ τ : Type} (f : σ → τ) (m : Memo σ) : Memo τ := ⟨f m.hooks, m.done⟩

@[simp]
theorem Memo.done_map {σ τ : Type} (f : σ → τ) (m : Memo σ) : (m.map f).done = m.done := rfl

theorem Memo.refines_remember {σ τ : Type} {f : σ → τ} {e : Expr} {job : Run (Memo σ) Expr}
    {job₀ : Run (Memo τ) Expr} (h : Job.Refines (Memo.map f) job job₀) :
    Job.Refines (Memo.map f) (Memo.remember e job) (Memo.remember e job₀) := by
  refine .state_bind fun m => ?_
  rw [Memo.done_map]
  cases m.done.get? e with
  | some result => exact .pure result
  | none =>
    refine h.bind fun result => Job.Refines.bind (.update ?_) fun _ => .pure result
    exact fun _ => rfl

namespace CircuitEdit

variable {σ : Type}

/-- A question to a transform, with its answer. -/
structure Call where
  asked : Expr
  answer : Except Error Expr

/-- The transform, with every question and its answer written down. -/
def listen (transform : Expr → Run σ Expr) (e : Expr) : Run (Watched Call σ) Expr :=
  Watched.ask (⟨e, ·⟩) (transform e)

/-- What the transform is asked while the functions of a circuit are changed, in order. -/
def calls (transform : Expr → Run σ Expr) (c : Circuit) (s : Session σ) : List Call :=
  ((c.editFunctions (listen transform)).exec
    (s.map fun hooks => Memo.start (Watched.start hooks))).2.state.hooks.log.reverse

/-- Transforms that do the same change functions in the same way. -/
theorem ofTransform_imitates {τ : Type} {f : σ → τ} {transform : Expr → Run σ Expr}
    {transform₀ : Expr → Run τ Expr} (h : ∀ e, Job.Refines f (transform e) (transform₀ e)) :
    Imitates (Memo.map f) (ofTransform transform) (ofTransform transform₀) := by
  have hsite (e : Expr) : Job.Refines (Memo.map f) (site transform e) (site transform₀ e) :=
    Memo.refines_remember ((h e).onPart (fun _ => rfl) fun _ _ => rfl)
  refine ⟨rfl, fun op => .pure true, fun op inputs => ?_, fun d => ?_⟩
  · rw [operator_ofTransform, operator_ofTransform]
    have hassemble (function : Option Expr) : Job.Refines (Memo.map f)
        (assemble op inputs function) (assemble op inputs function) := by
      rw [assemble, assemble]
      split
      · exact .pure (some op)
      · exact Job.Refines.bind (fun _ => rfl) fun new => .pure (some new)
    refine Job.Refines.bind ?_ hassemble
    cases op.function with
    | none => exact .pure none
    | some f => exact (hsite f).bind fun new => .pure (some new)
  · refine (hsite d.value).bind fun value => ?_
    split
    · exact .pure (some d)
    · exact Job.Refines.bind (fun _ => rfl) fun label => .pure _

/-- **The run that is listened to is the run.** -/
theorem refines_listen (transform : Expr → Run σ Expr) (c : Circuit) :
    Job.Refines (Memo.map Watched.hooks) (c.editFunctions (listen transform))
      (c.editFunctions transform) :=
  (ofTransform_imitates fun e => Watched.refines_ask _ (transform e)).apply c

/-! ## What the transform is asked -/

/-- The transform was asked about the expressions in `fs`, about each when it was met first, and its
answers are remembered. -/
structure Tracks (fs : List Expr) (m : Memo (Watched Call σ)) : Prop where
  order : (m.hooks.log.reverse.map fun call => call.asked.label) = (fs.map Expr.label).eraseDups
  asked : ∀ call ∈ m.hooks.log, call.asked ∈ fs
  answered : ∀ call ∈ m.hooks.log, ∃ x, call.answer = .ok x ∧ m.done.get? call.asked = some x
  known : ∀ f : Expr, m.done.get? f ≠ none ↔ f.label ∈ fs.map Expr.label

namespace Tracks

variable {fs : List Expr} {m : Memo (Watched Call σ)} {f : Expr}

theorem start (hooks : σ) : Tracks [] (Memo.start (Watched.start hooks)) where
  order := rfl
  asked _ h := absurd h List.not_mem_nil
  answered _ h := absurd h List.not_mem_nil
  known _ := ⟨fun h => absurd rfl h, fun h => absurd h List.not_mem_nil⟩

/-- Expressions that are met again. -/
theorem again (h : Tracks fs m) {gs : List Expr} (hgs : gs.map Expr.label ⊆ fs.map Expr.label) :
    Tracks (fs ++ gs) m where
  order := by
    rw [h.order, List.map_append]
    exact (eraseDups_append_of_subset hgs).symm
  asked call hcall := List.mem_append_left _ (h.asked call hcall)
  answered := h.answered
  known e := by
    rw [h.known, List.map_append, List.mem_append]
    exact ⟨.inl, fun hmem => hmem.elim id fun hmem => hgs hmem⟩

/-- An expression that is met first. -/
theorem call (h : Tracks fs m) (hnew : m.done.get? f = none) (hooks : σ) (x : Expr) :
    Tracks (fs ++ [f]) ⟨⟨hooks, ⟨f, .ok x⟩ :: m.hooks.log⟩, m.done.insert f x⟩ where
  order := by
    have hf : f.label ∉ fs.map Expr.label := fun hmem => (h.known f).mpr hmem hnew
    rw [List.reverse_cons, List.map_append, h.order, List.map_append]
    exact (eraseDups_append_of_notMem hf).symm
  asked call hcall := by
    rcases List.mem_cons.mp hcall with rfl | hcall
    · exact List.mem_append_right _ List.mem_cons_self
    · exact List.mem_append_left _ (h.asked call hcall)
  answered call hcall := by
    rcases List.mem_cons.mp hcall with rfl | hcall
    · exact ⟨x, rfl, Replacements.get?_insert_of_identical (identical_iff.mpr rfl)⟩
    · obtain ⟨y, hanswer, hget⟩ := h.answered call hcall
      exact ⟨y, hanswer, Replacements.grows_insert hnew _ _ hget⟩
  known e := by
    dsimp only
    rw [Replacements.get?_insert, List.map_append, List.mem_append]
    split
    case isTrue hlabel =>
      exact ⟨fun _ => .inr (List.mem_singleton.mpr hlabel.symm), fun _ => Option.some_ne_none x⟩
    case isFalse hlabel =>
      rw [h.known]
      exact ⟨.inl, fun hmem => hmem.resolve_right fun hmem =>
        hlabel (List.mem_singleton.mp hmem).symm⟩

end Tracks

section Hooks

variable {transform : Expr → Run σ Expr} {fs : List Expr} {s : Session (Memo (Watched Call σ))}
  {f : Expr}

/-- What one question does: it is written down. -/
theorem wp_ask_listen :
    Job.wp (Memo.ask (listen transform f)) (fun x s' => ∃ hooks,
      s'.state = ⟨⟨hooks, ⟨f, .ok x⟩ :: s.state.hooks.log⟩, s.state.done⟩) (fun _ => True) s := by
  rw [Memo.wp_ask, listen, Watched.ask, Job.wp_of]
  rcases (transform f).exec _ with ⟨answer, t⟩
  cases answer with
  | ok x => exact ⟨t.state, rfl⟩
  | error err => trivial

/-- One more place of an expression. -/
theorem wp_site (hs : Tracks fs s.state) :
    Job.wp (site (listen transform) f) (fun x s' => Tracks (fs ++ [f]) s'.state ∧
      s.state.done.Grows s'.state.done ∧ s'.state.done.get? f = some x) (fun _ => True) s := by
  rw [site, Memo.remember, Job.wp_bind, Job.wp_state]
  cases hget : s.state.done.get? f with
  | some x =>
    have hf : f.label ∈ fs.map Expr.label := (hs.known f).mp (by simp [hget])
    exact ⟨hs.again (by simpa using hf), .refl _, hget⟩
  | none =>
    dsimp only
    rw [Job.wp_bind]
    refine wp_ask_listen.imp fun x s' h => ?_
    obtain ⟨hooks, hstate⟩ := h
    rw [Job.wp_bind, Job.wp_update, hstate]
    refine ⟨hs.call hget hooks x, Replacements.grows_insert hget, ?_⟩
    exact Replacements.get?_insert_of_identical (identical_iff.mpr rfl)

/-- Putting an operator together. -/
theorem wp_assemble_labels {op : Operator} {inputs : List Operator} {function : Option Expr} :
    Job.wp (assemble op inputs function) (fun new s' => s'.state = s.state ∧ ∃ op', new = some op' ∧
      op'.id = op.id ∧ op'.function.map Expr.label = function.map Expr.label ∧
      op'.inputs.map Operator.label = inputs.map Operator.label) (fun _ => True) s := by
  rw [assemble]
  split
  · rename_i hsame
    simp only [Bool.and_eq_true, decide_eq_true_eq, Operator.hasInputs, beq_iff_eq] at hsame
    exact ⟨rfl, op, rfl, rfl, hsame.1.symm, hsame.2⟩
  · rw [Job.wp_bind, Job.wp_make]
    cases hbuild : op.withParts s.next function op.aggregate inputs with
    | error err => trivial
    | ok new =>
      obtain rfl := Operator.eq_of_withParts hbuild
      exact ⟨rfl, _, rfl, rfl, rfl, rfl⟩

/-- What the edit answers about an operator over replaced inputs. -/
theorem wp_operator_listen (hs : Tracks fs s.state) {op : Operator} {inputs : List Operator} :
    Job.wp ((ofTransform (listen transform)).operator op inputs) (fun new s' =>
      Tracks (fs ++ op.function.toList) s'.state ∧ s.state.done.Grows s'.state.done ∧
      ∃ op', new = some op' ∧ op'.id = op.id ∧
        Option.Rel s'.state.done.Leads op.function op'.function ∧
        op'.inputs.map Operator.label = inputs.map Operator.label) (fun _ => True) s := by
  rw [operator_ofTransform, Job.wp_bind]
  cases hfunction : op.function with
  | none =>
    refine wp_assemble_labels.imp fun new s' h => ?_
    obtain ⟨hstate, op', rfl, hid, hlabel, hinputs⟩ := h
    have hnone : op'.function = none := Option.map_eq_none_iff.mp hlabel
    rw [hstate]
    refine ⟨?_, .refl _, op', rfl, hid, ?_, hinputs⟩
    · rwa [Option.toList_none, List.append_nil]
    · rw [hnone]
      exact .none
  | some f =>
    rw [Option.mapM_some, map_eq_pure_bind, Job.wp_bind]
    refine (wp_site hs).imp fun x s₁ h₁ => ?_
    obtain ⟨htracks, hgrows, hget⟩ := h₁
    refine wp_assemble_labels.imp fun new s₂ h₂ => ?_
    obtain ⟨hstate, op', rfl, hid, hlabel, hinputs⟩ := h₂
    obtain ⟨f', hf', hlabel'⟩ := Option.map_eq_some_iff.mp hlabel
    rw [hstate]
    refine ⟨htracks, hgrows, op', rfl, hid, ?_, hinputs⟩
    rw [hf']
    exact .some ⟨x, hget, hlabel'.symm⟩

/-- What the edit answers about a declaration. -/
theorem wp_declaration_listen (hs : Tracks fs s.state) {d : Declaration} :
    Job.wp ((ofTransform (listen transform)).declaration d) (fun new s' =>
      Tracks (fs ++ [d.value]) s'.state ∧ s.state.done.Grows s'.state.done ∧
      ∃ d', new = some d' ∧ d'.name = d.name ∧ s'.state.done.Leads d.value d'.value)
      (fun _ => True) s := by
  change Job.wp (site (listen transform) d.value >>= _) _ _ _
  rw [Job.wp_bind]
  refine (wp_site hs).imp fun x s₁ h₁ => ?_
  obtain ⟨htracks, hgrows, hget⟩ := h₁
  split
  case isTrue hsame => exact ⟨htracks, hgrows, d, rfl, rfl, x, hget, identical_iff.mp hsame⟩
  case isFalse => exact ⟨htracks, hgrows, _, rfl, rfl, x, hget, rfl⟩

end Hooks

end CircuitEdit

/-! ## What became of nodes -/

/-- A label belongs to one operator of the circuit, and to one declaration. -/
structure Circuit.OneEach (c : Circuit) : Prop where
  operators : ∀ a ∈ c.operators, ∀ b ∈ c.operators, a.label = b.label → a = b
  declarations : ∀ a ∈ c.declarations, ∀ b ∈ c.declarations, a.label = b.label → a = b

/-- The parts of `new` are where the parts of `op` lead in the tables. -/
structure Operator.Replaced (done : Replacements Expr) (operators : Replacements Operator)
    (op new : Operator) : Prop where
  id : new.id = op.id
  function : Option.Rel done.Leads op.function new.function
  inputs : List.Forall₂ operators.Leads op.inputs new.inputs

theorem Operator.Replaced.mono {done done' : Replacements Expr}
    {operators operators' : Replacements Operator} {op new : Operator}
    (h : op.Replaced done operators new) (hdone : done.Grows done')
    (hoperators : operators.Grows operators') : op.Replaced done' operators' new where
  id := h.id
  function := optionRel_imp h.function fun _ _ _ hleads => hleads.mono hdone
  inputs := h.inputs.imp fun _ _ hleads => hleads.mono hoperators

/-- The parts of the second node are where the parts of the first lead in the tables. -/
def Node.Replaced (done : Replacements Expr) (operators : Replacements Operator) :
    Node → Node → Prop
  | .operator op, .operator new => operators.Leads op new ∧ op.Replaced done operators new
  | .declaration d, .declaration new => new.name = d.name ∧ done.Leads d.value new.value
  | .operator _, .declaration _ => False
  | .declaration _, .operator _ => False

theorem Node.Replaced.mono {done done' : Replacements Expr}
    {operators operators' : Replacements Operator} {node new : Node}
    (h : node.Replaced done operators new) (hdone : done.Grows done')
    (hoperators : operators.Grows operators') : node.Replaced done' operators' new := by
  cases node with
  | operator op =>
    cases new with
    | operator op' => exact ⟨h.1.mono hoperators, h.2.mono hdone hoperators⟩
    | declaration d' => exact h
  | declaration d =>
    cases new with
    | operator op' => exact h
    | declaration d' => exact ⟨h.1, h.2.mono hdone⟩

/-- The second node is the first with other parts: `expr` and `operator` say which expressions and
which operators took the place of which. -/
def Node.Relabelled (expr operator : Label → Label) : Node → Node → Prop
  | .operator op, .operator new => new.id = op.id ∧ new.label = operator op.label ∧
    new.function.map Expr.label = op.function.map (fun f => expr f.label) ∧
    new.inputs.map Operator.label = op.inputs.map fun input => operator input.label
  | .declaration d, .declaration new => new.name = d.name ∧ new.value.label = expr d.value.label
  | .operator _, .declaration _ => False
  | .declaration _, .operator _ => False

/-- Tables have one replacement for each label. -/
theorem Node.Replaced.relabelled {done : Replacements Expr} {operators : Replacements Operator}
    {node new : Node} (h : node.Replaced done operators new) :
    node.Relabelled done.newLabel operators.newLabel new := by
  cases node with
  | operator op =>
    cases new with
    | declaration d' => exact h
    | operator op' =>
      obtain ⟨hleads, hid, hfunction, hinputs⟩ := h
      refine ⟨hid, hleads.label_eq, ?_, ?_⟩
      · generalize op.function = old, op'.function = new at hfunction ⊢
        cases hfunction with
        | none => rfl
        | some hf => exact congrArg some hf.label_eq
      · exact (forall₂_map_eq_iff.mp (hinputs.imp fun _ _ h => h.label_eq.symm)).symm
  | declaration d =>
    cases new with
    | operator op' => exact h
    | declaration d' => exact ⟨h.1, h.2.label_eq⟩

namespace CircuitEdit

variable {σ : Type}

/-- How the tables stand to the nodes that have been dealt with: nothing was dropped, and what is
found for a node is what became of one of them with its label. -/
structure Settled (visited : List Node) (p : Progress (Memo (Watched Call σ))) : Prop where
  tracks : Tracks (visited.flatMap Node.functions) p.hooks
  operators : ∀ op new, p.operators.get? op = some new → ∃ old, .operator old ∈ visited ∧
    old.label = op.label ∧ old.Replaced p.hooks.done p.operators new
  declarations : ∀ d new, p.declarations.get? d = some new → ∃ old, .declaration old ∈ visited ∧
    old.label = d.label ∧ new.name = old.name ∧ p.hooks.done.Leads old.value new.value
  removed : p.removed = []

/-- The tables that tell where parts of nodes lead have grown. -/
def Progress.Grows (p p' : Progress (Memo σ)) : Prop :=
  p.hooks.done.Grows p'.hooks.done ∧ p.operators.Grows p'.operators

namespace Settled

variable {visited : List Node} {p : Progress (Memo (Watched Call σ))}
  {hooks : Memo (Watched Call σ)}

theorem start (s : σ) : Settled [] (Progress.start (Memo.start (Watched.start s))) where
  tracks := .start s
  operators _ _ h := by cases h
  declarations _ _ h := by cases h
  removed := rfl

/-- A node that is met again. -/
theorem again (hs : Settled visited p) {node : Node} (hnode : node ∈ visited) :
    Settled (visited ++ [node]) p where
  tracks := by
    rw [List.flatMap_append, List.flatMap_singleton]
    refine hs.tracks.again (List.map_subset _ fun f hf => ?_)
    exact List.mem_flatMap.mpr ⟨node, hnode, hf⟩
  operators op new hget := by
    obtain ⟨old, hmem, h⟩ := hs.operators op new hget
    exact ⟨old, List.mem_append_left _ hmem, h⟩
  declarations d new hget := by
    obtain ⟨old, hmem, h⟩ := hs.declarations d new hget
    exact ⟨old, List.mem_append_left _ hmem, h⟩
  removed := hs.removed

/-- An operator that is met first. -/
theorem operator (hs : Settled visited p) {op new : Operator} (hnew : p.operators.get? op = none)
    (htracks : Tracks (visited.flatMap Node.functions ++ op.function.toList) hooks)
    (hgrows : p.hooks.done.Grows hooks.done) (hreplaced : op.Replaced hooks.done p.operators new) :
    Settled (visited ++ [.operator op])
      { p with hooks, operators := p.operators.insert op new } where
  tracks := by
    rw [List.flatMap_append, List.flatMap_singleton]
    exact htracks
  operators other new' hget := by
    have hinsert : p.operators.Grows (p.operators.insert op new) := Replacements.grows_insert hnew
    change (p.operators.insert op new).get? other = some new' at hget
    rw [Replacements.get?_insert] at hget
    split at hget
    case isTrue hlabel =>
      cases hget
      exact ⟨op, by simp, hlabel, hreplaced.mono (.refl _) hinsert⟩
    case isFalse =>
      obtain ⟨old, hmem, hlabel, h⟩ := hs.operators other new' hget
      exact ⟨old, List.mem_append_left _ hmem, hlabel, h.mono hgrows hinsert⟩
  declarations d new' hget := by
    obtain ⟨old, hmem, hlabel, hname, hvalue⟩ := hs.declarations d new' hget
    exact ⟨old, List.mem_append_left _ hmem, hlabel, hname, hvalue.mono hgrows⟩
  removed := hs.removed

/-- A declaration that is met first. -/
theorem declaration (hs : Settled visited p) {d new : Declaration}
    (htracks : Tracks (visited.flatMap Node.functions ++ [d.value]) hooks)
    (hgrows : p.hooks.done.Grows hooks.done) (hname : new.name = d.name)
    (hvalue : hooks.done.Leads d.value new.value) :
    Settled (visited ++ [.declaration d])
      { p with hooks, declarations := p.declarations.insert d new } where
  tracks := by
    rw [List.flatMap_append, List.flatMap_singleton]
    exact htracks
  operators op new' hget := by
    obtain ⟨old, hmem, hlabel, h⟩ := hs.operators op new' hget
    exact ⟨old, List.mem_append_left _ hmem, hlabel, h.mono hgrows (.refl _)⟩
  declarations other new' hget := by
    change (p.declarations.insert d new).get? other = some new' at hget
    rw [Replacements.get?_insert] at hget
    split at hget
    case isTrue hlabel =>
      cases hget
      exact ⟨d, by simp, hlabel, hname, hvalue⟩
    case isFalse =>
      obtain ⟨old, hmem, hlabel, hname', hvalue'⟩ := hs.declarations other new' hget
      exact ⟨old, List.mem_append_left _ hmem, hlabel, hname', hvalue'.mono hgrows⟩
  removed := hs.removed

end Settled

/-! ## One node, and all of them -/

section Steps

variable {transform : Expr → Run σ Expr} {visited : List Node}
  {s : Session (Progress (Memo (Watched Call σ)))}

/-- A node became `new`, and the tables know. -/
def Done (visited : List Node) (p : Progress (Memo (Watched Call σ))) (node new : Node)
    (p' : Progress (Memo (Watched Call σ))) : Prop :=
  Settled (visited ++ [node]) p' ∧ p.Grows p' ∧ node.Replaced p'.hooks.done p'.operators new

/-- Inputs are replaced by what the table has for them. -/
theorem wp_replacedInputs (r : CircuitEdit (Memo (Watched Call σ))) (op : Operator)
    (inputs : List Operator) :
    Job.wp (inputs.mapM (r.replacedInput op)) (fun news s' =>
      List.Forall₂ (fun input new => s.state.operators.get? input = some new) inputs news ∧ s' = s)
      (fun _ => True) s := by
  refine Job.wp_mapM_of_still fun input _ => ?_
  rw [replacedInput, Job.wp_bind, Job.wp_state]
  cases hget : s.state.operators.get? input with
  | none => trivial
  | some new => exact ⟨rfl, rfl⟩

theorem wp_newOperator_settled (hs : Settled visited s.state) {op : Operator}
    (hnew : s.state.operators.get? op = none) :
    Job.wp ((ofTransform (listen transform)).newOperator op) (fun new s' => ∃ op', new = some op' ∧
      Done visited s.state (.operator op) (.operator op') s'.state) (fun _ => True) s := by
  rw [newOperator, Job.wp_bind, Progress.wp_ask]
  show Job.wp (List.mapM _ _ >>= _) _ _ _
  rw [Job.wp_bind]
  refine (wp_replacedInputs _ op op.inputs).imp fun inputs s₁ h₁ => ?_
  obtain ⟨hinputs, rfl⟩ := h₁
  rw [Job.wp_bind, Progress.wp_ask]
  refine (wp_operator_listen hs.tracks).imp fun new t h => ?_
  obtain ⟨htracks, hgrows, op', rfl, hid, hfunction, hlabels⟩ := h
  have hreplaced : op.Replaced t.state.done s.state.operators op' := by
    have hsame : List.Forall₂ (fun a b => a.label = b.label) inputs op'.inputs :=
      forall₂_map_eq_iff.mpr hlabels.symm
    exact ⟨hid, hfunction, forall₂_trans_of_mem hinputs hsame fun _ _ x _ hget hlabel =>
      ⟨x, hget, hlabel⟩⟩
  have hinsert : s.state.operators.Grows (s.state.operators.insert op op') :=
    Replacements.grows_insert hnew
  have hleads : (s.state.operators.insert op op').Leads op op' :=
    ⟨op', Replacements.get?_insert_of_identical (identical_iff.mpr rfl), rfl⟩
  have hdone : Done visited s.state (.operator op) (.operator op')
      { s.state with hooks := t.state, operators := s.state.operators.insert op op' } :=
    ⟨hs.operator hnew htracks hgrows hreplaced, ⟨hgrows, hinsert⟩, hleads,
      hreplaced.mono (.refl _) hinsert⟩
  dsimp only
  split
  · exact ⟨op', rfl, hdone⟩
  · exact ⟨op', rfl, hdone⟩

variable {c : Circuit}

theorem wp_editNode_settled (hc : c.OneEach) (hvisited : visited ⊆ c.nodes) {node : Node}
    (hnode : node ∈ c.nodes) (hs : Settled visited s.state) :
    Job.wp ((ofTransform (listen transform)).editNode node) (fun new s' =>
      ∃ node', new = some node' ∧ Done visited s.state node node' s'.state) (fun _ => True) s := by
  cases node with
  | operator op =>
    rw [editNode, editOperator, Job.wp_bind, Job.wp_bind, Job.wp_state]
    cases hget : s.state.operators.get? op with
    | some new =>
      obtain ⟨old, hold, hlabel, hreplaced⟩ := hs.operators op new hget
      obtain rfl : old = op := hc.operators old (Circuit.mem_operators.mpr (hvisited hold)) op
        (Circuit.mem_operators.mpr hnode) hlabel
      exact ⟨_, rfl, hs.again hold, ⟨.refl _, .refl _⟩, ⟨new, hget, rfl⟩, hreplaced⟩
    | none =>
      dsimp only
      rw [hs.removed, List.contains_nil, if_neg Bool.false_ne_true]
      refine (wp_newOperator_settled hs hget).imp fun new s' h => ?_
      obtain ⟨op', rfl, hdone⟩ := h
      exact ⟨_, rfl, hdone⟩
  | declaration d =>
    rw [editNode, editDeclaration, Job.wp_bind, Job.wp_bind, Job.wp_state]
    cases hget : s.state.declarations.get? d with
    | some new =>
      obtain ⟨old, hold, hlabel, hname, hvalue⟩ := hs.declarations d new hget
      obtain rfl : old = d := hc.declarations old (Circuit.mem_declarations.mpr (hvisited hold)) d
        (Circuit.mem_declarations.mpr hnode) hlabel
      exact ⟨_, rfl, hs.again hold, ⟨.refl _, .refl _⟩, hname, hvalue⟩
    | none =>
      dsimp only
      rw [Job.wp_bind, Progress.wp_ask]
      refine (wp_declaration_listen hs.tracks).imp fun new t h => ?_
      obtain ⟨htracks, hgrows, d', rfl, hname, hvalue⟩ := h
      exact ⟨_, rfl, hs.declaration htracks hgrows hname hvalue, ⟨hgrows, .refl _⟩, hname, hvalue⟩

/-- The run over the nodes that are left, by the node that comes next. -/
theorem wp_editNodes_settled (hc : c.OneEach) {rest : List Node} (hrest : visited ++ rest ⊆ c.nodes)
    (hs : Settled visited s.state) :
    Job.wp ((ofTransform (listen transform)).editNodes rest) (fun news s' =>
      Settled (visited ++ rest) s'.state ∧ s.state.Grows s'.state ∧
      List.Forall₂ (Node.Replaced s'.state.hooks.done s'.state.operators) rest news)
      (fun _ => True) s := by
  induction rest generalizing visited s with
  | nil =>
    rw [editNodes, Job.wp_pure, List.append_nil]
    exact ⟨hs, ⟨.refl _, .refl _⟩, .nil⟩
  | cons node rest ih =>
    have hvisited : visited ⊆ c.nodes := fun x hx => hrest (List.mem_append_left _ hx)
    have hnode : node ∈ c.nodes := hrest (by simp)
    rw [editNodes, Job.wp_bind]
    refine (wp_editNode_settled hc hvisited hnode hs).imp fun new s₁ h₁ => ?_
    obtain ⟨node', rfl, hs₁, hgrows₁, hreplaced⟩ := h₁
    rw [Job.wp_bind]
    have hrest₁ : (visited ++ [node]) ++ rest ⊆ c.nodes := by
      rwa [List.append_assoc]
    refine (ih hrest₁ hs₁).imp fun news s₂ h₂ => ?_
    obtain ⟨hs₂, hgrows₂, hnews⟩ := h₂
    rw [List.append_assoc] at hs₂
    exact ⟨hs₂, ⟨hgrows₁.1.trans hgrows₂.1, hgrows₁.2.trans hgrows₂.2⟩,
      .cons (hreplaced.mono hgrows₂.1 hgrows₂.2) hnews⟩

end Steps

/-- The tables at the end of a run. -/
theorem wp_editFunctions_settled {transform : Expr → Run σ Expr} {c : Circuit} (hc : c.OneEach)
    (s : Session σ) :
    Job.wp (c.editFunctions (listen transform)) (fun c' s' =>
      ∃ p : Progress (Memo (Watched Call σ)), p.hooks = s'.state ∧ Settled c.nodes p ∧
        List.Forall₂ (Node.Replaced p.hooks.done p.operators) c.nodes c'.nodes) (fun _ => True)
      (s.map fun hooks => Memo.start (Watched.start hooks)) := by
  rw [Circuit.editFunctions, wp_apply_iff]
  refine (wp_editNodes_settled hc (List.Subset.refl _) (.start s.state)).imp fun news s' h => ?_
  obtain ⟨hs', -, hnews⟩ := h
  exact ⟨s'.state, rfl, hs', hnews⟩

/-- **What is shared stays shared.**  When a change of functions succeeds, the transform was asked
once about each function and declaration value, where it stands first.  All places of one expression
then hold one expression, the one that the transform answered, and all readers of one operator read
one operator, the one that took its place. -/
theorem sites_stay_shared (transform : Expr → Run σ Expr) {c c' : Circuit} (hc : c.OneEach)
    (s : Session σ) (hrun : ((c.editFunctions transform).exec (s.map Memo.start)).1 = .ok c') :
    Job.Refines (Memo.map Watched.hooks) (c.editFunctions (listen transform))
      (c.editFunctions transform) ∧
    ((calls transform c s).map fun call => call.asked.label) =
      (c.functions.map Expr.label).eraseDups ∧
    (∀ call ∈ calls transform c s, call.asked ∈ c.functions) ∧
    ∃ expr operator : Label → Label,
      (∀ call ∈ calls transform c s, ∃ x, call.answer = .ok x ∧ expr call.asked.label = x.label) ∧
      List.Forall₂ (Node.Relabelled expr operator) c.nodes c'.nodes := by
  have hrefines := refines_listen transform c
  refine ⟨hrefines, ?_⟩
  rcases hexec : (c.editFunctions (listen transform)).exec
    (s.map fun hooks => Memo.start (Watched.start hooks)) with ⟨outcome, s'⟩
  have hsame := congrArg Prod.fst (hrefines (s.map fun hooks => Memo.start (Watched.start hooks)))
  rw [hexec] at hsame
  obtain rfl : .ok c' = outcome := hrun.symm.trans hsame
  obtain ⟨p, hp, hsettled, hnodes⟩ := (wp_editFunctions_settled hc s).of_exec_ok hexec
  have hcalls : calls transform c s = p.hooks.hooks.log.reverse := by rw [calls, hexec, hp]
  have htracks : Tracks c.functions p.hooks := hsettled.tracks
  rw [hcalls]
  refine ⟨htracks.order, fun call hcall => ?_, p.hooks.done.newLabel, p.operators.newLabel,
    fun call hcall => ?_, hnodes.imp fun _ _ h => h.relabelled⟩
  · exact htracks.asked call (List.mem_reverse.mp hcall)
  · obtain ⟨x, hanswer, hget⟩ := htracks.answered call (List.mem_reverse.mp hcall)
    exact ⟨x, hanswer, Replacements.newLabel_of_get? hget⟩

namespace SharedFunction

/-! Two operators and a declaration with one function between them; the first of the operators is
read twice and stands in the list twice. -/

open Sample

/-- An operator with the function of another one. -/
def twin : Operator := ⟨12, 3, .map, stream, left.function, none, [source]⟩

/-- Reads the two operators with one function. -/
def both : Operator := ⟨13, 4, .sum, stream, none, none, [left, twin]⟩

/-- The function stands in a declaration and in two operators, one of them listed twice. -/
def circuit : Circuit :=
  ⟨"shared function", [.declaration ⟨7, "f", function 5 sum₁⟩, .operator source, .operator left,
    .operator idle, .operator twin, .operator left, .operator both]⟩

/-- Answers every question with a node of its own. -/
def copy (e : Expr) : Run Unit Expr := do
  let label ← Job.fresh
  return ⟨label, e.ty, e.form⟩

theorem operators_circuit : circuit.operators = [source, left, idle, twin, left, both] := rfl

theorem oneEach_circuit : circuit.OneEach := by
  have hoperators : Drawn {op | op ∈ circuit.operators} 20 := by
    refine .of_list (l := [source, left, idle, twin, both]) ?_ ?_ ?_
    · simp [operators_circuit]
    · decide
    · decide
  have hdeclarations : Drawn {d | d ∈ circuit.declarations} 20 := by
    refine .of_list (fun _ h => h) ?_ ?_
    · decide
    · decide
  exact ⟨hoperators.one, hdeclarations.one⟩

theorem exists_result :
    ∃ c', ((circuit.editFunctions copy).exec ⟨20, [], Memo.start ()⟩).1 = .ok c' := by
  have hok : ((circuit.editFunctions copy).exec ⟨20, [], Memo.start ()⟩).1.isOk = true := by
    decide +kernel
  cases hrun : ((circuit.editFunctions copy).exec ⟨20, [], Memo.start ()⟩).1 with
  | ok c' => exact ⟨c', rfl⟩
  | error err =>
    rw [hrun] at hok
    cases hok

end SharedFunction

open SharedFunction

/-- One question for the four places of the function. -/
theorem sites_stay_shared_function :
    circuit.OneEach ∧ ∃ c', ((circuit.editFunctions copy).exec ⟨20, [], Memo.start ()⟩).1 = .ok c' ∧
      ((calls copy circuit ⟨20, [], ()⟩).map fun call => call.asked.label) = [5] ∧
      ∃ expr operator, List.Forall₂ (Node.Relabelled expr operator) circuit.nodes c'.nodes := by
  obtain ⟨c', hrun⟩ := exists_result
  obtain ⟨-, horder, -, expr, operator, -, hnodes⟩ :=
    sites_stay_shared copy oneEach_circuit ⟨20, [], ()⟩ hrun
  exact ⟨oneEach_circuit, c', hrun, horder, expr, operator, hnodes⟩

end CircuitEdit

end FlowCircuit
