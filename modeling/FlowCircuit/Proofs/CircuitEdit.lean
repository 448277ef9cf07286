import FlowCircuit.Proofs.History
import FlowCircuit.Proofs.Made
import Mathlib.Data.Set.BooleanAlgebra
import Mathlib.Order.CompletePartialOrder

/-!
# What an edit of circuits keeps

An edit takes a circuit node by node and asks hooks what becomes of each.  Hooks may keep a state,
and may drop what they like.  This file says once what the whole run does, from what the hooks do:
if every answer of the hooks is one that a `Spec` allows, then so is what became of every node of
the circuit, in its place (`CircuitEdit.Keeps.wp_apply`, and `wp_apply_made` for circuits whose
parts are made).

Two facts come with it.  Where a replacement reads what became of the inputs of its operator, an
operator of the result reads only operators of the result that stand before it.  And the only
failure that is not a failure of a hook is a kept operator that reads one which was dropped, or
which does not stand before it.

As for expressions, what a `Spec` allows may speak of an index `g` that grows with the run.
-/

set_option autoImplicit false

namespace FlowCircuit.CircuitEdit

variable {σ γ : Type}

/-- What may become of nodes. -/
structure Spec (γ σ : Type) where
  /-- What holds of the session between two questions. -/
  inv : γ → Session σ → Prop
  /-- What holds of an operator that the hooks have agreed to keep. -/
  kept : γ → Operator → Prop
  /-- What may become of an operator; `none` when it is dropped. -/
  operator : γ → Operator → Option Operator → Prop
  declaration : γ → Declaration → Option Declaration → Prop
  /-- Whether a replacement has to read what became of the inputs of its operator, and nothing
  else. -/
  rewired : Prop := True

/-- What may become of a node. -/
def Spec.node (p : Spec γ σ) (g : γ) : Node → Option Node → Prop
  | .operator op, outcome => ∃ new, outcome = new.map .operator ∧ p.operator g op new
  | .declaration d, outcome => ∃ new, outcome = new.map .declaration ∧ p.declaration g d new

theorem Spec.node_operator {p : Spec γ σ} {g : γ} {node : Node} {new : Operator}
    (h : p.node g node (some (.operator new))) :
    ∃ op, node = .operator op ∧ p.operator g op (some new) := by
  cases node with
  | operator op =>
    obtain ⟨new', heq, h⟩ := h
    cases new' with
    | none => cases heq
    | some new' =>
      obtain rfl : new = new' := by simpa using heq
      exact ⟨op, rfl, h⟩
  | declaration d =>
    obtain ⟨new', heq, -⟩ := h
    cases new' <;> simp at heq

theorem Spec.node_declaration {p : Spec γ σ} {g : γ} {node : Node} {new : Declaration}
    (h : p.node g node (some (.declaration new))) :
    ∃ d, node = .declaration d ∧ p.declaration g d (some new) := by
  cases node with
  | declaration d =>
    obtain ⟨new', heq, h⟩ := h
    cases new' with
    | none => cases heq
    | some new' =>
      obtain rfl : new = new' := by simpa using heq
      exact ⟨d, rfl, h⟩
  | operator op =>
    obtain ⟨new', heq, -⟩ := h
    cases new' <;> simp at heq

/-- `c'` is `c` with every node replaced by what became of it, and if replacements are rewired its
operators read each other. -/
structure Spec.Edited (p : Spec γ σ) (g : γ) (c c' : Circuit) : Prop where
  name : c'.name = c.name
  nodes : ∃ outcomes, List.Forall₂ (p.node g) c.nodes outcomes ∧
    c'.nodes = outcomes.flatMap Option.toList
  reads : p.rewired → AtEach Node.Reads c'.nodes

/-- The answers of the hooks are allowed, for operators in `O` and declarations in `D`. -/
structure Keeps [Preorder γ] (r : CircuitEdit σ) (p : Spec γ σ) (O : Set Operator)
    (D : Set Declaration) (fail : Error → Prop) : Prop where
  mono_operator : ∀ {g g' : γ} {op : Operator} {new : Option Operator}, g ≤ g' →
    p.operator g op new → p.operator g' op new
  mono_declaration : ∀ {g g' : γ} {d : Declaration} {new : Option Declaration}, g ≤ g' →
    p.declaration g d new → p.declaration g' d new
  /-- Notices are of no importance. -/
  report : ∀ {g : γ} {s : Session σ} {notice : Notice}, p.inv g s →
    p.inv g { s with notices := notice :: s.notices }
  keep : ∀ {g : γ} {s : Session σ} {op : Operator}, p.inv g s → op ∈ O →
    Job.wp (r.keep op) (fun answer s' => ∃ g', g ≤ g' ∧ p.inv g' s' ∧
      if answer then p.kept g' op else p.operator g' op none) fail s
  operator : ∀ {g : γ} {s : Session σ} {op : Operator} {inputs : List Operator}, p.inv g s →
    op ∈ O → p.kept g op →
    List.Forall₂ (fun input new => p.operator g input (some new)) op.inputs inputs →
    Job.wp (r.operator op inputs) (fun new s' => ∃ g', g ≤ g' ∧ p.inv g' s' ∧
      p.operator g' op new ∧ (p.rewired → ∀ op' ∈ new, op'.inputs = inputs)) fail s
  declaration : ∀ {g : γ} {s : Session σ} {d : Declaration}, p.inv g s → d ∈ D →
    Job.wp (r.declaration d) (fun new s' => ∃ g', g ≤ g' ∧ p.inv g' s' ∧
      p.declaration g' d new) fail s

/-! ## How far the run has come -/

/-- All that is on record is allowed.  `visited` are the nodes of the circuit so far, and `emitted`
the nodes of the result. -/
structure Progress.Inv (p : Spec γ σ) (O : Set Operator) (D : Set Declaration) (g : γ)
    (visited emitted : List Node) (s : Session (Progress σ)) : Prop where
  hooks : p.inv g ⟨s.next, s.notices, s.state.hooks⟩
  operators : ∀ pair ∈ s.state.operators.pairs, pair.1 ∈ O ∧ p.operator g pair.1 (some pair.2) ∧
    .operator pair.2 ∈ emitted ∧ (p.rewired → ∀ input ∈ pair.2.inputs, .operator input ∈ emitted)
  removed : ∀ op ∈ O, op.label ∈ s.state.removed → p.operator g op none
  declarations : ∀ pair ∈ s.state.declarations.pairs, pair.1 ∈ D ∧
    p.declaration g pair.1 (some pair.2)
  visited : ∀ op, .operator op ∈ visited →
    (∃ new, s.state.operators.get? op = some new) ∨ p.operator g op none

theorem Progress.inv_start {p : Spec γ σ} {O : Set Operator} {D : Set Declaration} {g : γ}
    {s : Session σ} (h : p.inv g s) :
    Progress.Inv p O D g [] [] ⟨s.next, s.notices, .start s.state⟩ where
  hooks := h
  operators _ hpair := absurd hpair List.not_mem_nil
  removed _ _ h := absurd h List.not_mem_nil
  declarations _ hpair := absurd hpair List.not_mem_nil
  visited _ h := absurd h List.not_mem_nil

variable {r : CircuitEdit σ} {p : Spec γ σ} {O : Set Operator} {D : Set Declaration}
  {fail : Error → Prop} {g : γ} {visited emitted : List Node} {s : Session (Progress σ)}

/-- Asking a hook runs it on its own part of the state. -/
theorem Progress.wp_ask {α : Type} {hook : Run σ α} {post : α → Session (Progress σ) → Prop} :
    Job.wp (Progress.ask hook) post fail s ↔
      Job.wp hook (fun a t => post a ⟨t.next, t.notices, { s.state with hooks := t.state }⟩) fail
        ⟨s.next, s.notices, s.state.hooks⟩ :=
  Job.wp_onPart

/-- Taking a circuit through the edit is editing its nodes, with a notice at the end. -/
theorem wp_apply_iff {c : Circuit} {s : Session σ} {post : Circuit → Session σ → Prop} :
    Job.wp (r.apply c) post fail s ↔
      Job.wp (r.editNodes c.nodes) (fun nodes s' => post ⟨c.name, nodes⟩ ⟨s'.next,
        .operatorsReplaced r.name s'.state.operators.replaced s'.state.operators.size c.name ::
          s'.notices,
        s'.state.hooks⟩) fail (s.map .start) := by
  rw [apply, Job.wp_of, runFromStart, editCircuit, Job.exec_bind, Job.wp, Session.map]
  rcases (r.editNodes c.nodes).exec ⟨s.next, s.notices, .start s.state⟩ with ⟨outcome, s'⟩
  cases outcome <;> exact Iff.rfl

/-- An input is replaced by what became of it, or else it was dropped or does not stand before its
reader. -/
theorem wp_replacedInput (hs : Progress.Inv p O D g visited emitted s) {op input : Operator}
    (hinput : ∀ a ∈ O, a.label = input.label → a = input)
    (hmissing : ∀ why, (.operator input ∈ visited → p.operator g input none) →
      fail (.traversal r.name why)) :
    Job.wp (r.replacedInput op input) (fun new s' => (p.operator g input (some new) ∧
      .operator new ∈ emitted) ∧ s' = s) fail s := by
  rw [replacedInput, Job.wp_bind, Job.wp_state]
  split
  · rename_i new hget
    obtain ⟨pair, hpair, hid, rfl⟩ := Replacements.mem_of_get? hget
    obtain ⟨hO, hop, hemitted, -⟩ := hs.operators pair hpair
    have hsame : pair.1 = input := hinput _ hO (identical_iff.mp hid)
    exact ⟨⟨hsame ▸ hop, hemitted⟩, rfl⟩
  · rename_i hget
    refine hmissing _ fun hvisited => ?_
    rcases hs.visited input hvisited with ⟨new, hnew⟩ | hgone
    · rw [hget] at hnew
      cases hnew
    · exact hgone

/-- Nodes that are on record are visited again without a trace. -/
theorem Progress.Inv.again (hs : Progress.Inv p O D g visited emitted s) {node : Node}
    (h : ∀ op ∈ node.operator?,
      (∃ new, s.state.operators.get? op = some new) ∨ p.operator g op none) (more : List Node) :
    Progress.Inv p O D g (visited ++ [node]) (emitted ++ more) s where
  hooks := hs.hooks
  operators pair hpair :=
    let ⟨hO, hop, hemitted, hreads⟩ := hs.operators pair hpair
    ⟨hO, hop, List.mem_append_left _ hemitted, fun hrewired input hinput =>
      List.mem_append_left _ (hreads hrewired input hinput)⟩
  removed := hs.removed
  declarations := hs.declarations
  visited op hop := by
    rcases List.mem_append.mp hop with hop | hop
    · exact hs.visited op hop
    · obtain rfl : .operator op = node := by simpa using hop
      exact h op rfl

/-- A replaced operator goes on record with its replacement. -/
theorem Progress.Inv.insert (hs : Progress.Inv p O D g visited emitted s) {op new : Operator}
    (hop : op ∈ O) (hbecomes : p.operator g op (some new))
    (hinputs : p.rewired → ∀ input ∈ new.inputs, .operator input ∈ emitted) :
    Progress.Inv p O D g (visited ++ [.operator op]) (emitted ++ [.operator new])
      { s with state := { s.state with operators := s.state.operators.insert op new } } where
  hooks := hs.hooks
  operators pair hpair := by
    rcases Replacements.mem_insert hpair with rfl | hpair
    · exact ⟨hop, hbecomes, by simp, fun hrewired input hinput =>
        List.mem_append_left _ (hinputs hrewired input hinput)⟩
    · obtain ⟨hO, hpair, hemitted, hreads⟩ := hs.operators pair hpair
      exact ⟨hO, hpair, List.mem_append_left _ hemitted, fun hrewired input hinput =>
        List.mem_append_left _ (hreads hrewired input hinput)⟩
  removed := hs.removed
  declarations := hs.declarations
  visited op' hop' := by
    cases hid : identical op op' with
    | true => exact Or.inl ⟨new, Replacements.get?_insert_of_identical hid⟩
    | false =>
      rw [Replacements.get?_insert_of_not_identical hid]
      refine hs.visited op' ((List.mem_append.mp hop').resolve_right fun h => ?_)
      obtain rfl : op' = op := by simpa using h
      simp [identical] at hid

variable [Preorder γ]

/-- A node, what became of it, and how far the run has come with it. -/
def Spec.Done (p : Spec γ σ) (O : Set Operator) (D : Set Declaration) (g : γ)
    (visited emitted : List Node) (node : Node) (outcome : Option Node)
    (s : Session (Progress σ)) : Prop :=
  ∃ g', g ≤ g' ∧ p.node g' node outcome ∧ (p.rewired → ∀ new ∈ outcome, new.Reads emitted) ∧
    Progress.Inv p O D g' (visited ++ [node]) (emitted ++ outcome.toList) s

/-- A kept operator that reads one which was dropped, or which is not among the nodes `before` it,
is a failure that is allowed. -/
def Spec.Missing (p : Spec γ σ) (r : CircuitEdit σ) (fail : Error → Prop) (before : List Node)
    (node : Node) : Prop :=
  ∀ op ∈ node.operator?, ∀ g, p.kept g op → ∀ input ∈ op.inputs,
    (.operator input ∈ before → p.operator g input none) → ∀ why, fail (.traversal r.name why)

/-- The hooks can deal with the node, and labels tell what it reads. -/
structure Covers (O : Set Operator) (D : Set Declaration) (node : Node) : Prop where
  operator : ∀ op ∈ node.operator?, op ∈ O
  inputs : ∀ op ∈ node.operator?, ∀ input ∈ op.inputs, ∀ a ∈ O, a.label = input.label → a = input
  declaration : ∀ d ∈ node.declaration?, d ∈ D

omit [Preorder γ] in
/-- The nodes of a circuit whose operators have labels of their own. -/
theorem covers_of_drawn {c : Circuit} {next : Label} (hc : Drawn c.operatorNodes next) :
    ∀ node ∈ c.nodes, Covers {op | op ∈ c.operators} {d | d ∈ c.declarations} node := by
  intro node hnode
  have hmem : ∀ op ∈ node.operator?, op ∈ c.operators := fun op hop =>
    List.mem_filterMap.mpr ⟨node, hnode, hop⟩
  refine ⟨hmem, fun op hop input hinput a ha => ?_, fun d hd =>
    List.mem_filterMap.mpr ⟨node, hnode, hd⟩⟩
  exact hc.one a (Or.inl ha) input (Or.inr ⟨op, hmem op hop, hinput⟩)

namespace Keeps

/-- What hooks answer leaves the record as it is. -/
theorem inv_of_hooks (hr : r.Keeps p O D fail) (hs : Progress.Inv p O D g visited emitted s)
    {g' : γ} (hg : g ≤ g') {t : Session σ} (ht : p.inv g' t) :
    Progress.Inv p O D g' visited emitted
      ⟨t.next, t.notices, { s.state with hooks := t.state }⟩ where
  hooks := ht
  operators pair hpair :=
    let ⟨hO, hop, hemitted⟩ := hs.operators pair hpair
    ⟨hO, hr.mono_operator hg hop, hemitted⟩
  removed op hop h := hr.mono_operator hg (hs.removed op hop h)
  declarations pair hpair :=
    let ⟨hD, hd⟩ := hs.declarations pair hpair
    ⟨hD, hr.mono_declaration hg hd⟩
  visited op hop := (hs.visited op hop).imp_right (hr.mono_operator hg)

theorem mono_node (hr : r.Keeps p O D fail) {g' : γ} (hg : g ≤ g') {node : Node}
    {outcome : Option Node} (h : p.node g node outcome) : p.node g' node outcome := by
  cases node with
  | operator op =>
    obtain ⟨new, rfl, h⟩ := h
    exact ⟨new, rfl, hr.mono_operator hg h⟩
  | declaration d =>
    obtain ⟨new, rfl, h⟩ := h
    exact ⟨new, rfl, hr.mono_declaration hg h⟩

theorem inv_report (hr : r.Keeps p O D fail) (hs : Progress.Inv p O D g visited emitted s)
    (notice : Notice) :
    Progress.Inv p O D g visited emitted { s with notices := notice :: s.notices } :=
  ⟨hr.report hs.hooks, hs.operators, hs.removed, hs.declarations, hs.visited⟩

/-! ## One node -/

/-- A dropped operator goes on record as dropped. -/
theorem wp_drop (hr : r.Keeps p O D fail) (hone : ∀ a ∈ O, ∀ b ∈ O, a.label = b.label → a = b)
    (hs : Progress.Inv p O D g visited emitted s) {op : Operator} (hop : op ∈ O)
    (hgone : p.operator g op none) :
    Job.wp (r.drop op) (fun new s' => new = none ∧
      Progress.Inv p O D g (visited ++ [.operator op]) emitted s') fail s := by
  rw [drop, Job.wp_bind, Job.wp_report, Job.wp_bind, Job.wp_update]
  have hs' := hr.inv_report hs (.removedOperator r.name op.id)
  refine ⟨rfl, hs'.hooks, hs'.operators, ?_, hs'.declarations, ?_⟩
  · intro op' hop' hlabel
    rcases List.mem_cons.mp hlabel with hlabel | hlabel
    · exact hone _ hop' _ hop hlabel ▸ hgone
    · exact hs'.removed op' hop' hlabel
  · intro op' hop'
    rcases List.mem_append.mp hop' with hop' | hop'
    · exact hs'.visited op' hop'
    · obtain rfl : op' = op := by simpa using hop'
      exact Or.inr hgone

theorem wp_newOperator (hr : r.Keeps p O D fail)
    (hone : ∀ a ∈ O, ∀ b ∈ O, a.label = b.label → a = b)
    (hs : Progress.Inv p O D g visited emitted s) {op : Operator} (hop : op ∈ O)
    (hinputs : ∀ input ∈ op.inputs, ∀ a ∈ O, a.label = input.label → a = input)
    (hmissing : p.Missing r fail visited (.operator op)) :
    Job.wp (r.newOperator op) (fun new => p.Done O D g visited emitted (.operator op)
      (new.map .operator)) fail s := by
  rw [newOperator, Job.wp_bind, Progress.wp_ask]
  refine (hr.keep hs.hooks hop).imp fun answer t h => ?_
  obtain ⟨g₁, hg₁, ht, hanswer⟩ := h
  have hs₁ := hr.inv_of_hooks hs hg₁ ht
  cases answer with
  | false =>
    refine (hr.wp_drop hone hs₁ hop hanswer).imp fun new s' h => ?_
    obtain ⟨rfl, hs'⟩ := h
    exact ⟨g₁, hg₁, ⟨none, rfl, hanswer⟩, by simp, by simpa using hs'⟩
  | true =>
    rw [if_pos rfl, Job.wp_bind]
    refine (Job.wp_mapM_of_still fun input hinput => wp_replacedInput hs₁
      (hinputs input hinput) fun why hgone => hmissing op rfl g₁ hanswer input hinput hgone why).imp
      fun inputs s₁ h => ?_
    obtain ⟨hreplaced, rfl⟩ := h
    have hemitted : ∀ input ∈ inputs, .operator input ∈ emitted := fun input hinput => by
      obtain ⟨_, _, -, h⟩ := forall₂_exists_left hreplaced hinput
      exact h
    rw [Job.wp_bind, Progress.wp_ask]
    refine (hr.operator ht hop hanswer (hreplaced.imp fun _ _ h => h.1)).imp fun new t₂ h => ?_
    obtain ⟨g₂, hg₂, ht₂, hbecomes, hreads⟩ := h
    have hs₂ := hr.inv_of_hooks hs₁ hg₂ ht₂
    cases new with
    | none =>
      refine (hr.wp_drop hone hs₂ hop hbecomes).imp fun new s' h => ?_
      obtain ⟨rfl, hs'⟩ := h
      exact ⟨g₂, hg₁.trans hg₂, ⟨none, rfl, hbecomes⟩, by simp, by simpa using hs'⟩
    | some new =>
      have hinputs' : p.rewired → ∀ input ∈ new.inputs, .operator input ∈ emitted := fun hrewired =>
        hreads hrewired new rfl ▸ hemitted
      have hdone : ∀ s, Progress.Inv p O D g₂ visited emitted s →
          p.Done O D g visited emitted (.operator op) (some (.operator new))
            { s with state := { s.state with operators := s.state.operators.insert op new } } :=
        fun s hs => ⟨g₂, hg₁.trans hg₂, ⟨some new, rfl, hbecomes⟩,
          by simpa [Node.Reads, Node.operator?] using hinputs', hs.insert hop hbecomes hinputs'⟩
      dsimp only
      split
      · exact hdone _ (hr.inv_report hs₂ _)
      · exact hdone _ hs₂

theorem wp_editOperator (hr : r.Keeps p O D fail)
    (hone : ∀ a ∈ O, ∀ b ∈ O, a.label = b.label → a = b)
    (hs : Progress.Inv p O D g visited emitted s) {op : Operator} (hop : op ∈ O)
    (hinputs : ∀ input ∈ op.inputs, ∀ a ∈ O, a.label = input.label → a = input)
    (hmissing : p.Missing r fail visited (.operator op)) :
    Job.wp (r.editOperator op) (fun new => p.Done O D g visited emitted (.operator op)
      (new.map .operator)) fail s := by
  rw [editOperator, Job.wp_bind, Job.wp_state]
  split
  · rename_i new hget
    obtain ⟨pair, hpair, hid, rfl⟩ := Replacements.mem_of_get? hget
    obtain ⟨hO, hbecomes, -, hreads⟩ := hs.operators pair hpair
    have hsame : pair.1 = op := hone _ hO _ hop (identical_iff.mp hid)
    refine ⟨g, le_refl g, ⟨some pair.2, rfl, hsame ▸ hbecomes⟩, ?_, hs.again ?_ _⟩
    · simpa [Node.Reads, Node.operator?] using hreads
    · rintro _ ⟨rfl⟩
      exact Or.inl ⟨_, hget⟩
  · split
    · rename_i hremoved
      have hgone : p.operator g op none := hs.removed op hop (by simpa using hremoved)
      refine ⟨g, le_refl g, ⟨none, rfl, hgone⟩, by simp, hs.again ?_ _⟩
      rintro _ ⟨rfl⟩
      exact Or.inr hgone
    · exact hr.wp_newOperator hone hs hop hinputs hmissing

theorem wp_editDeclaration (hr : r.Keeps p O D fail)
    (hone : ∀ a ∈ D, ∀ b ∈ D, a.label = b.label → a = b)
    (hs : Progress.Inv p O D g visited emitted s) {d : Declaration} (hd : d ∈ D) :
    Job.wp (r.editDeclaration d) (fun new => p.Done O D g visited emitted (.declaration d)
      (new.map .declaration)) fail s := by
  rw [editDeclaration, Job.wp_bind, Job.wp_state]
  have hagain {g : γ} {s : Session (Progress σ)} (hs : Progress.Inv p O D g visited emitted s)
      (new : Option Declaration) : Progress.Inv p O D g (visited ++ [.declaration d])
        (emitted ++ (new.map Node.declaration).toList) s :=
    hs.again (by simp [Node.operator?]) _
  split
  · rename_i new hget
    obtain ⟨pair, hpair, hid, rfl⟩ := Replacements.mem_of_get? hget
    obtain ⟨hD, hbecomes⟩ := hs.declarations pair hpair
    have hsame : pair.1 = d := hone _ hD _ hd (identical_iff.mp hid)
    exact ⟨g, le_refl g, ⟨some pair.2, rfl, hsame ▸ hbecomes⟩, by simp [Node.Reads, Node.operator?],
      hagain hs (some pair.2)⟩
  · rw [Job.wp_bind, Progress.wp_ask]
    refine (hr.declaration hs.hooks hd).imp fun new t h => ?_
    obtain ⟨g', hg, ht, hbecomes⟩ := h
    have hs' := hr.inv_of_hooks hs hg ht
    cases new with
    | none =>
      exact ⟨g', hg, ⟨none, rfl, hbecomes⟩, by simp, hagain (hr.inv_report hs' _) none⟩
    | some new =>
      have hs'' := hagain hs' (some new)
      refine ⟨g', hg, ⟨some new, rfl, hbecomes⟩, by simp [Node.Reads, Node.operator?],
        hs''.hooks, hs''.operators, hs''.removed, fun pair hpair => ?_, hs''.visited⟩
      rcases Replacements.mem_insert hpair with rfl | hpair
      · exact ⟨hd, hbecomes⟩
      · exact hs'.declarations pair hpair

variable (hr : r.Keeps p O D fail) (hO : ∀ a ∈ O, ∀ b ∈ O, a.label = b.label → a = b)
  (hD : ∀ a ∈ D, ∀ b ∈ D, a.label = b.label → a = b)

include hr hO hD

theorem wp_editNode (hs : Progress.Inv p O D g visited emitted s) {node : Node}
    (hcovers : Covers O D node) (hmissing : p.Missing r fail visited node) :
    Job.wp (r.editNode node) (p.Done O D g visited emitted node) fail s := by
  cases node with
  | operator op =>
    rw [editNode, Job.wp_bind]
    exact hr.wp_editOperator hO hs (hcovers.operator op rfl) (hcovers.inputs op rfl) hmissing
  | declaration d =>
    rw [editNode, Job.wp_bind]
    exact hr.wp_editDeclaration hD hs (hcovers.declaration d rfl)

/-! ## Whole circuits -/

/-- The run over the nodes that are left, by the node that comes next. -/
theorem wp_outcomes {rest : List Node} (hs : Progress.Inv p O D g visited emitted s)
    (hcovers : ∀ node ∈ rest, Covers O D node)
    (hmissing : AtEach (fun before => p.Missing r fail (visited ++ before)) rest) :
    Job.wp (r.outcomes rest) (fun os s' => ∃ g', g ≤ g' ∧ List.Forall₂ (p.node g') rest os ∧
      (p.rewired → AtEach (fun before => Node.Reads (emitted ++ before)) (survivors os)) ∧
      Progress.Inv p O D g' (visited ++ rest) (emitted ++ survivors os) s') fail s := by
  induction rest generalizing g visited emitted s with
  | nil =>
    rw [outcomes, List.mapM_nil, Job.wp_pure]
    exact ⟨g, le_refl g, .nil, fun _ => atEach_nil, by simpa using hs⟩
  | cons node rest ih =>
    obtain ⟨hfirst, hrest⟩ := atEach_cons.mp hmissing
    rw [outcomes, List.mapM_cons, Job.wp_bind]
    refine (hr.wp_editNode hO hD hs (hcovers node List.mem_cons_self)
      (by simpa using hfirst)).imp fun outcome s₁ h₁ => ?_
    obtain ⟨g₁, hg₁, houtcome, hreads, hs₁⟩ := h₁
    rw [Job.wp_bind]
    refine (ih hs₁ (fun node' h => hcovers node' (List.mem_cons_of_mem _ h))
      (by simpa using hrest)).imp fun os s₂ h₂ => ?_
    obtain ⟨g₂, hg₂, hos, hreads', hs₂⟩ := h₂
    refine ⟨g₂, hg₁.trans hg₂, .cons (hr.mono_node hg₂ houtcome) hos, ?_, ?_⟩
    · cases outcome with
      | none => simpa using hreads'
      | some new =>
        intro hrewired
        rw [survivors_cons, Option.toList_some, List.singleton_append, atEach_cons]
        exact ⟨by simpa using hreads hrewired new rfl, by simpa using hreads' hrewired⟩
    · simpa using hs₂

/-- **A circuit becomes what its nodes become.** -/
theorem wp_apply {c : Circuit} {s : Session σ} (hs : p.inv g s)
    (hcovers : ∀ node ∈ c.nodes, Covers O D node) (hmissing : AtEach (p.Missing r fail) c.nodes) :
    Job.wp (r.apply c) (fun c' s' => ∃ g', g ≤ g' ∧ p.inv g' s' ∧ p.Edited g' c c') fail s := by
  have hrun := hr.wp_outcomes hO hD (Progress.inv_start hs) hcovers (by simpa using hmissing)
  rw [wp_apply_iff, editNodes_eq, map_eq_pure_bind, Job.wp_bind]
  refine hrun.imp fun os s' h => ?_
  obtain ⟨g', hg, hos, hreads, hs'⟩ := h
  exact ⟨g', hg, hr.report hs'.hooks, rfl, ⟨os, hos, rfl⟩, by simpa using hreads⟩

end Keeps

/-- A circuit whose parts are made, under an edit that deals with all of them.  The edit need not
fail if inputs stand before their readers and no kept operator reads one that may be dropped. -/
theorem Keeps.wp_apply_made {c : Circuit} {next : Label} {s : Session σ}
    (hr : r.Keeps p {op | op ∈ c.operators} {d | d ∈ c.declarations} fail) (hc : c.Made next)
    (hs : p.inv g s) (hfail : (∀ e, fail e) ∨ AtEach Node.Reads c.nodes ∧
      ∀ op ∈ c.operators, ∀ g, p.kept g op → ∀ input ∈ op.inputs, ¬ p.operator g input none) :
    Job.wp (r.apply c) (fun c' s' => ∃ g', g ≤ g' ∧ p.inv g' s' ∧ p.Edited g' c c') fail s := by
  have hO : ∀ a ∈ c.operators, ∀ b ∈ c.operators, a.label = b.label → a = b := fun a ha b hb =>
    hc.operators.one a (Or.inl ha) b (Or.inl hb)
  refine hr.wp_apply hO hc.declarations.one hs (covers_of_drawn hc.operators) ?_
  rcases hfail with hfail | ⟨hreads, hkept⟩
  · exact fun _ _ _ _ _ _ _ _ _ _ _ why => hfail _
  · refine hreads.imp fun before node _ hnode hreads op hop g' hkeep input hinput hgone => ?_
    have hop' : op ∈ c.operators := List.mem_filterMap.mpr ⟨node, hnode, hop⟩
    exact absurd (hgone (hreads op hop input hinput)) (hkept op hop' g' hkeep input hinput)

/-! ## Edited circuits -/

namespace Spec.Edited

variable {c c' : Circuit}

omit [Preorder γ]

/-- Where nothing may be dropped, every node has its replacement in its place. -/
theorem forall₂_nodes (h : p.Edited g c c') (hnone : ∀ node, ¬ p.node g node none) :
    List.Forall₂ (fun node new => p.node g node (some new)) c.nodes c'.nodes := by
  obtain ⟨outcomes, houtcomes, hnodes⟩ := h.nodes
  rw [hnodes]
  clear hnodes
  generalize c.nodes = nodes at houtcomes
  induction houtcomes with
  | nil => exact .nil
  | @cons node outcome nodes outcomes hnode _ ih =>
    cases outcome with
    | none => exact absurd hnode (hnone node)
    | some new => exact .cons hnode ih

/-- Where nodes may only be dropped or left as they are, some are left. -/
theorem nodes_eq_filter (h : p.Edited g c c') {keep : Node → Bool}
    (hkeep : ∀ node outcome, p.node g node outcome →
      outcome = if keep node then some node else none) :
    c'.nodes = c.nodes.filter keep := by
  obtain ⟨outcomes, houtcomes, hnodes⟩ := h.nodes
  rw [hnodes]
  clear hnodes
  generalize c.nodes = nodes at houtcomes
  induction houtcomes with
  | nil => rfl
  | @cons node outcome nodes outcomes hnode _ ih =>
    rw [List.flatMap_cons, List.filter_cons, ih, hkeep node outcome hnode]
    split <;> rfl

end Spec.Edited

end FlowCircuit.CircuitEdit
