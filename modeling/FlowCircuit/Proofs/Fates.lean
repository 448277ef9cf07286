import FlowCircuit.Proofs.CircuitEdit
import FlowCircuit.Proofs.Structure

/-!
# What becomes of a node, whatever the run

An edit may be run on one circuit or on many, from any session, and what it has noted about other
nodes by the time it meets a node differs from run to run.  None of it matters for hooks that keep
no state and do not look at labels.  An operator then has a *fate* that is said without any run
(`CircuitEdit.Fate`): it is dropped if `keep` refuses it, and otherwise it is what the hook makes of
it over what its inputs are fated to become.  An operator has no more than one fate, up to labels
(`CircuitEdit.RespectsStructure.fate_unique`).

A run succeeds exactly if all its nodes have a fate, and then each of them meets it
(`CircuitEdit.RespectsStructure.exists_results_iff` and `fated_of_results`).

Hooks are asked about nodes that exist.  A `World` is a set of nodes of every sort, and `World.Real`
says that they exist in a session: labels tell them apart, they hold only each other, and they keep
the rules.  Hooks may make nodes, which is how worlds grow.
-/

set_option autoImplicit false

namespace FlowCircuit

/-! ## Nodes that exist -/

/-- Nodes of every sort. -/
structure World where
  exprs : Set Expr
  aggregates : Set Aggregate
  operators : Set Operator
  declarations : Set Declaration

namespace World

instance : Preorder World where
  le w w' := w.exprs ⊆ w'.exprs ∧ w.aggregates ⊆ w'.aggregates ∧ w.operators ⊆ w'.operators ∧
    w.declarations ⊆ w'.declarations
  le_refl _ := ⟨Set.Subset.rfl, Set.Subset.rfl, Set.Subset.rfl, Set.Subset.rfl⟩
  le_trans _ _ _ h h' := ⟨h.1.trans h'.1, h.2.1.trans h'.2.1, h.2.2.1.trans h'.2.2.1,
    h.2.2.2.trans h'.2.2.2⟩

variable {w w' : World} {next next' : Label}

theorem operators_subset (h : w ≤ w') : w.operators ⊆ w'.operators := h.2.2.1

theorem declarations_subset (h : w ≤ w') : w.declarations ⊆ w'.declarations := h.2.2.2

/-- All nodes exist in a session whose next unused label is `next`. -/
structure Real (w : World) (next : Label) : Prop where
  exprs : Heap w.exprs next
  aggregates : Drawn w.aggregates next
  operators : Drawn w.operators next
  declarations : Drawn w.declarations next
  children : ∀ a ∈ w.aggregates, ∀ e ∈ a.children, e ∈ w.exprs
  inputs : ∀ op ∈ w.operators, ∀ input ∈ op.inputs, input ∈ w.operators
  function : ∀ op ∈ w.operators, ∀ f ∈ op.function, f ∈ w.exprs
  aggregate : ∀ op ∈ w.operators, ∀ a ∈ op.aggregate, a ∈ w.aggregates
  value : ∀ d ∈ w.declarations, d.value ∈ w.exprs
  checked : ∀ op ∈ w.operators, op.check = .ok ()

/-- One operator more. -/
def insertOperator (w : World) (op : Operator) : World :=
  { w with operators := insert op w.operators }

theorem le_insertOperator (w : World) (op : Operator) : w ≤ w.insertOperator op :=
  ⟨Set.Subset.rfl, Set.Subset.rfl, Set.subset_insert op w.operators, Set.Subset.rfl⟩

namespace Real

theorem mono (hw : w.Real next) (hle : next ≤ next') : w.Real next' :=
  ⟨hw.exprs.mono hle, hw.aggregates.mono hle, hw.operators.mono hle, hw.declarations.mono hle,
    hw.children, hw.inputs, hw.function, hw.aggregate, hw.value, hw.checked⟩

/-- An operator over nodes that exist, made with the next label, exists from then on. -/
theorem insertOperator (hw : w.Real next) {op : Operator} (hlabel : op.label = next)
    (hinputs : ∀ input ∈ op.inputs, input ∈ w.operators)
    (hfunction : ∀ f ∈ op.function, f ∈ w.exprs) (haggregate : ∀ a ∈ op.aggregate, a ∈ w.aggregates)
    (hchecked : op.check = .ok ()) : (w.insertOperator op).Real (next + 1) where
  exprs := hw.exprs.mono (Nat.le_succ next)
  aggregates := hw.aggregates.mono (Nat.le_succ next)
  operators := hw.operators.insert hlabel
  declarations := hw.declarations.mono (Nat.le_succ next)
  children := hw.children
  inputs := by
    rintro reader (rfl | hreader) input hinput
    · exact Or.inr (hinputs input hinput)
    · exact Or.inr (hw.inputs reader hreader input hinput)
  function := by
    rintro reader (rfl | hreader)
    · exact hfunction
    · exact hw.function reader hreader
  aggregate := by
    rintro reader (rfl | hreader)
    · exact haggregate
    · exact hw.aggregate reader hreader
  value := hw.value
  checked := by
    rintro reader (rfl | hreader)
    · exact hchecked
    · exact hw.checked reader hreader

end Real

/-- The node of a circuit is one of them. -/
def Holds (w : World) : Node → Prop
  | .operator op => op ∈ w.operators
  | .declaration d => d ∈ w.declarations

end World

namespace CircuitEdit

variable {σ : Type} (r : CircuitEdit σ) (base : World)

/-! ## Hooks that depend on structure only -/

/-- The hooks may answer so when they are asked about nodes that exist.  Those in `base` are there
from the start. -/
def CanAnswer : Event → Prop
  | .keep op answer => ∃ (w : World) (s : Session σ), base ≤ w ∧ w.Real s.next ∧ op ∈ w.operators ∧
      ((r.keep op).exec s).1 = answer
  | .operator op inputs answer => ∃ (w : World) (s : Session σ), base ≤ w ∧ w.Real s.next ∧
      op ∈ w.operators ∧ (∀ input ∈ inputs, input ∈ w.operators) ∧
      ((r.operator op inputs).exec s).1 = answer
  | .declaration d answer => ∃ (w : World) (s : Session σ), base ≤ w ∧ w.Real s.next ∧
      d ∈ w.declarations ∧ ((r.declaration d).exec s).1 = answer

/-- The hooks answer alike about nodes of the same structure, whenever and wherever they are
asked. -/
structure RespectsStructure : Prop where
  keep : ∀ {op op' : Operator} {a a' : Except Error Bool}, op.unlabelled = op'.unlabelled →
    r.CanAnswer base (.keep op a) → r.CanAnswer base (.keep op' a') → Agree Eq a a'
  operator : ∀ {op op' : Operator} {inputs inputs' : List Operator}
    {a a' : Except Error (Option Operator)}, op.unlabelled = op'.unlabelled →
    inputs.map Operator.unlabelled = inputs'.map Operator.unlabelled →
    r.CanAnswer base (.operator op inputs a) → r.CanAnswer base (.operator op' inputs' a') →
    Agree (fun new new' => new.map Operator.unlabelled = new'.map Operator.unlabelled) a a'
  declaration : ∀ {d d' : Declaration} {a a' : Except Error (Option Declaration)},
    d.unlabelled = d'.unlabelled → r.CanAnswer base (.declaration d a) →
    r.CanAnswer base (.declaration d' a') →
    Agree (fun new new' => new.map Declaration.unlabelled = new'.map Declaration.unlabelled) a a'

/-- The hooks make nodes with labels of the session, and answer with nodes that exist. -/
structure Allocates : Prop where
  keep : ∀ {w : World} {s : Session σ} {op : Operator}, base ≤ w → w.Real s.next →
    op ∈ w.operators →
    Job.wp (r.keep op) (fun _ s' => ∃ w', w ≤ w' ∧ w'.Real s'.next) (fun _ => True) s
  operator : ∀ {w : World} {s : Session σ} {op : Operator} {inputs : List Operator}, base ≤ w →
    w.Real s.next → op ∈ w.operators → (∀ input ∈ inputs, input ∈ w.operators) →
    Job.wp (r.operator op inputs) (fun new s' => ∃ w', w ≤ w' ∧ w'.Real s'.next ∧
      ∀ op' ∈ new, op' ∈ w'.operators) (fun _ => True) s
  declaration : ∀ {w : World} {s : Session σ} {d : Declaration}, base ≤ w → w.Real s.next →
    d ∈ w.declarations →
    Job.wp (r.declaration d) (fun new s' => ∃ w', w ≤ w' ∧ w'.Real s'.next ∧
      ∀ d' ∈ new, d' ∈ w'.declarations) (fun _ => True) s

/-! ## Fates -/

/-- What becomes of an operator. -/
inductive Fate : Operator → Option Operator → Prop
  | refused {op : Operator} (hrefused : r.CanAnswer base (.keep op (.ok false))) : Fate op none
  | asked {op : Operator} {inputs : List Operator} {new : Option Operator}
      (hkept : r.CanAnswer base (.keep op (.ok true))) (hlength : op.inputs.length = inputs.length)
      (hinputs : ∀ input input', (input, input') ∈ op.inputs.zip inputs → Fate input (some input'))
      (hanswer : r.CanAnswer base (.operator op inputs (.ok new))) : Fate op new

/-- Nodes meet their fates, and what is made exists. -/
def fated : Spec World σ where
  inv w s := base ≤ w ∧ w.Real s.next
  kept _ op := r.CanAnswer base (.keep op (.ok true))
  operator w op new := r.Fate base op new ∧ ∀ op' ∈ new, op' ∈ w.operators
  declaration _ d new := r.CanAnswer base (.declaration d (.ok new))
  rewired := False

/-- The node has a fate. -/
def HasFate (node : Node) : Prop := ∃ w outcome, (r.fated base).node w node outcome

variable {r base} {op : Operator} {new new' : Option Operator} {w w' : World}

namespace RespectsStructure

variable (hr : r.RespectsStructure base)

include hr

/-- An operator that is kept is what the hook makes of it over what became of its inputs. -/
theorem fate_of_kept (h : r.Fate base op new) (hkept : r.CanAnswer base (.keep op (.ok true))) :
    ∃ inputs, List.Forall₂ (fun input input' => r.Fate base input (some input')) op.inputs inputs ∧
      r.CanAnswer base (.operator op inputs (.ok new)) := by
  cases h with
  | refused hrefused =>
    cases hr.keep rfl hkept hrefused with
    | ok h => cases h
  | asked _ hlength hinputs hanswer =>
    exact ⟨_, List.forall₂_iff_zip.mpr ⟨hlength, fun h => hinputs _ _ h⟩, hanswer⟩

/-- **An operator has one fate**, up to labels.  By induction over what it reads. -/
theorem fate_unique (h : r.Fate base op new) (h' : r.Fate base op new') :
    new.map Operator.unlabelled = new'.map Operator.unlabelled := by
  induction h generalizing new' with
  | refused hrefused =>
    cases h' with
    | refused _ => rfl
    | asked hkept =>
      cases hr.keep rfl hkept hrefused with
      | ok h => cases h
  | @asked op inputs new hkept hlength _ hanswer ih =>
    obtain ⟨inputs', hinputs', hanswer'⟩ := hr.fate_of_kept h' hkept
    have hunique : List.Forall₂ (fun input input' => ∀ new', r.Fate base input new' →
        some input'.unlabelled = new'.map Operator.unlabelled) op.inputs inputs :=
      List.forall₂_iff_zip.mpr ⟨hlength, fun hmem new' h' => ih _ _ hmem h'⟩
    have hsame : inputs.map Operator.unlabelled = inputs'.map Operator.unlabelled :=
      map_eq_of_forall₂ hunique hinputs' fun _ _ _ h h' => Option.some.inj (h _ h')
    cases hr.operator rfl hsame hanswer hanswer' with
    | ok h => exact h

/-- A node has one fate, up to labels. -/
theorem node_unique {node : Node} {outcome outcome' : Option Node}
    (h : (r.fated base).node w node outcome) (h' : (r.fated base).node w' node outcome') :
    outcome.map Node.unlabelled = outcome'.map Node.unlabelled := by
  cases node with
  | operator op =>
    obtain ⟨new, rfl, hfate, -⟩ := h
    obtain ⟨new', rfl, hfate', -⟩ := h'
    have hsame := congrArg (Option.map Node.operator) (hr.fate_unique hfate hfate')
    rw [Option.map_map, Option.map_map] at hsame ⊢
    exact hsame
  | declaration d =>
    obtain ⟨new, rfl, hanswer⟩ := h
    obtain ⟨new', rfl, hanswer'⟩ := h'
    cases hr.declaration rfl hanswer hanswer' with
    | ok hsame =>
      have hsame := congrArg (Option.map Node.declaration) hsame
      rw [Option.map_map, Option.map_map] at hsame ⊢
      exact hsame

/-! ## Runs meet fates -/

/-- The hooks answer as fated, and fail only where there is no fate. -/
theorem fated_keeps (ha : r.Allocates base) {nodes : List Node}
    (hnodes : ∀ node ∈ nodes, base.Holds node) :
    r.Keeps (r.fated base) {op | .operator op ∈ nodes} {d | .declaration d ∈ nodes}
      fun _ => ∃ node ∈ nodes, ¬ r.HasFate base node where
  mono_operator hw h := ⟨h.1, fun op' hop' => World.operators_subset hw (h.2 op' hop')⟩
  mono_declaration _ h := h
  report hs := hs
  keep {w s op} hs hop := by
    have hmem : op ∈ w.operators := World.operators_subset hs.1 (hnodes _ hop)
    refine (ha.keep hs.1 hs.2 hmem).with_exec.mono ?_ ?_
    · rintro answer s' ⟨⟨w', hw, hreal⟩, hanswer⟩
      have hcan : r.CanAnswer base (.keep op (.ok answer)) := ⟨w, s, hs.1, hs.2, hmem, hanswer⟩
      refine ⟨w', hw, ⟨hs.1.trans hw, hreal⟩, ?_⟩
      cases answer with
      | true => exact hcan
      | false => exact ⟨.refused hcan, by simp⟩
    · rintro e ⟨-, hanswer⟩
      refine ⟨_, hop, ?_⟩
      rintro ⟨_, _, new, -, hfate, -⟩
      have hcan : r.CanAnswer base (.keep op (.error e)) := ⟨w, s, hs.1, hs.2, hmem, hanswer⟩
      cases hfate with
      | refused hrefused => cases hr.keep rfl hcan hrefused
      | asked hkept => cases hr.keep rfl hcan hkept
  operator {w s op inputs} hs hop hkept hinputs := by
    have hmem : op ∈ w.operators := World.operators_subset hs.1 (hnodes _ hop)
    have hmem' : ∀ input ∈ inputs, input ∈ w.operators := fun input hinput => by
      obtain ⟨_, -, -, h⟩ := forall₂_exists_left hinputs hinput
      exact h input rfl
    refine (ha.operator hs.1 hs.2 hmem hmem').with_exec.mono ?_ ?_
    · rintro new s' ⟨⟨w', hw, hreal, hnew⟩, hanswer⟩
      obtain ⟨hlength, hzip⟩ := List.forall₂_iff_zip.mp hinputs
      exact ⟨w', hw, ⟨hs.1.trans hw, hreal⟩, ⟨.asked hkept hlength (fun _ _ h => (hzip h).1)
        ⟨w, s, hs.1, hs.2, hmem, hmem', hanswer⟩, hnew⟩, False.elim⟩
    · rintro e ⟨-, hanswer⟩
      refine ⟨_, hop, ?_⟩
      rintro ⟨_, _, new, -, hfate, -⟩
      obtain ⟨inputs', hinputs', hanswer'⟩ := hr.fate_of_kept hfate hkept
      have hsame : inputs.map Operator.unlabelled = inputs'.map Operator.unlabelled :=
        map_eq_of_forall₂ hinputs hinputs' fun _ _ _ h h' => Option.some.inj (hr.fate_unique h.1 h')
      cases hr.operator rfl hsame ⟨w, s, hs.1, hs.2, hmem, hmem', hanswer⟩ hanswer'
  declaration {w s d} hs hd := by
    have hmem : d ∈ w.declarations := World.declarations_subset hs.1 (hnodes _ hd)
    refine (ha.declaration hs.1 hs.2 hmem).with_exec.mono ?_ ?_
    · rintro new s' ⟨⟨w', hw, hreal, -⟩, hanswer⟩
      exact ⟨w', hw, ⟨hs.1.trans hw, hreal⟩, ⟨w, s, hs.1, hs.2, hmem, hanswer⟩⟩
    · rintro e ⟨-, hanswer⟩
      refine ⟨_, hd, ?_⟩
      rintro ⟨_, _, new, -, hanswer'⟩
      cases hr.declaration rfl ⟨w, s, hs.1, hs.2, hmem, hanswer⟩ hanswer'

variable (ha : r.Allocates base) {nodes : List Node} {s : Session σ} (hs : base.Real s.next)
  (hnodes : ∀ node ∈ nodes, base.Holds node) (hreads : AtEach Node.Reads nodes)

include ha hs hnodes hreads

/-- A kept operator that reads a dropped one has no fate, so missing inputs are no failure of their
own. -/
theorem wp_outcomes_fated :
    Job.wp (r.outcomes nodes) (fun os _ => ∃ w, List.Forall₂ ((r.fated base).node w) nodes os)
      (fun _ => ∃ node ∈ nodes, ¬ r.HasFate base node) (s.map .start) := by
  have hO : ∀ a, .operator a ∈ nodes → ∀ b, .operator b ∈ nodes → a.label = b.label → a = b :=
    fun a hmem b hmem' => hs.operators.one a (hnodes _ hmem) b (hnodes _ hmem')
  have hD : ∀ a, .declaration a ∈ nodes → ∀ b, .declaration b ∈ nodes → a.label = b.label → a = b :=
    fun a hmem b hmem' => hs.declarations.one a (hnodes _ hmem) b (hnodes _ hmem')
  refine ((hr.fated_keeps ha hnodes).wp_outcomes hO hD
    (Progress.inv_start ⟨le_refl base, hs⟩) ?_ ?_).imp ?_
  · intro node hnode
    cases node with
    | operator op =>
      refine ⟨?_, ?_, by simp [Node.declaration?]⟩
      · rintro _ ⟨rfl⟩
        exact hnode
      · rintro _ ⟨rfl⟩ input hinput a hmem
        exact hs.operators.one a (hnodes _ hmem) input (hs.inputs _ (hnodes _ hnode) input hinput)
    | declaration d =>
      refine ⟨by simp [Node.operator?], by simp [Node.operator?], ?_⟩
      rintro _ ⟨rfl⟩
      exact hnode
  · refine hreads.imp fun before node _ hnode hreads op hop w hkept input hinput hgone why => ?_
    obtain ⟨hgone, -⟩ := hgone (hreads op hop input hinput)
    cases node with
    | declaration d => cases hop
    | operator op' =>
      obtain rfl := Option.some.inj hop
      refine ⟨_, hnode, ?_⟩
      rintro ⟨_, _, new, -, hfate, -⟩
      obtain ⟨inputs', hinputs', -⟩ := hr.fate_of_kept hfate hkept
      obtain ⟨input', -, hinput'⟩ := forall₂_exists_right hinputs' hinput
      cases hr.fate_unique hgone hinput'
  · rintro os s' ⟨w, -, hos, -⟩
    exact ⟨w, hos⟩

/-- **Each node meets its fate.** -/
theorem fated_of_results {os : List (Option Node)} (h : r.results nodes s = .ok os) :
    ∃ w, List.Forall₂ ((r.fated base).node w) nodes os := by
  have hrun := hr.wp_outcomes_fated ha hs hnodes hreads
  rw [Job.wp] at hrun
  rw [results] at h
  rcases hexec : (r.outcomes nodes).exec (s.map .start) with ⟨outcome, s'⟩
  rw [hexec] at h hrun
  obtain rfl : outcome = .ok os := h
  exact hrun

/-- **A run succeeds exactly if all nodes have a fate.** -/
theorem exists_results_iff :
    (∃ os, r.results nodes s = .ok os) ↔ ∀ node ∈ nodes, r.HasFate base node := by
  constructor
  · rintro ⟨os, hos⟩ node hnode
    obtain ⟨w, hfates⟩ := hr.fated_of_results ha hs hnodes hreads hos
    obtain ⟨outcome, -, hfate⟩ := forall₂_exists_right hfates hnode
    exact ⟨w, outcome, hfate⟩
  · intro hsettled
    have hrun : Job.wp (r.outcomes nodes) _ (fun _ => False) (s.map .start) :=
      (hr.wp_outcomes_fated ha hs hnodes hreads).mono (fun _ _ h => h)
        fun e ⟨node, hnode, hunsettled⟩ => hunsettled (hsettled node hnode)
    obtain ⟨os, s', hexec, -⟩ := hrun.exists_ok
    exact ⟨os, congrArg Prod.fst hexec⟩

end RespectsStructure

end CircuitEdit

end FlowCircuit
