import FlowCircuit.Pass.Pipeline
import FlowCircuit.Proofs.Sharing
import FlowCircuit.Proofs.Liveness
import FlowCircuit.Proofs.Refold

/-!
# What changing functions leaves alone

A change of expressions that is lifted to circuits replaces a node only where it must: where its
function or its value came back as another node, or where an operator that it reads was replaced.
Nothing else is rebuilt (`Transforms.wp_editFunctions_kept`).  The operators that a replacement
reads are those which now stand where the old ones stood (`Circuit.Transformed.inputs_placed`).

For the evaluation of constants this can be said of the circuit alone: a node stays exactly when
nothing can be evaluated in its function or value, nor in the functions of the operators it depends
on (`ConstantFold.identical_iff_settled`).
-/

set_option autoImplicit false

namespace FlowCircuit

/-! ## Nodes that stay -/

/-- The operators have one function and the same inputs, as nodes. -/
def Operator.SameParts (a b : Operator) : Prop :=
  b.function.map Expr.label = a.function.map Expr.label ∧
    b.inputs.map Operator.label = a.inputs.map Operator.label

/-- The function or the value is one node, and so is each input. -/
def Node.SameParts : Node → Node → Prop
  | .operator a, .operator b => a.SameParts b
  | .declaration a, .declaration b => identical a.value b.value = true
  | _, _ => False

theorem Node.sameParts_refl (node : Node) : node.SameParts node := by
  cases node with
  | operator op => exact ⟨rfl, rfl⟩
  | declaration d => exact identical_iff.mpr rfl

/-- What became of a node is the node itself if it has the parts of the node, or its label. -/
structure Node.Kept (a b : Node) : Prop where
  of_sameParts : a.SameParts b → b = a
  of_identical : identical a b = true → b = a

namespace Node.Kept

variable {a b : Node}

theorem identical_iff_eq (h : a.Kept b) : identical a b = true ↔ b = a :=
  ⟨h.of_identical, fun heq => heq ▸ identical_iff.mpr rfl⟩

/-- A node stays exactly when its parts do. -/
theorem identical_iff_sameParts (h : a.Kept b) : identical a b = true ↔ a.SameParts b := by
  rw [h.identical_iff_eq]
  exact ⟨fun heq => heq ▸ a.sameParts_refl, h.of_sameParts⟩

end Node.Kept

/-! ## The lifted change -/

namespace CircuitEdit

variable {σ γ : Type} {S : Set Expr} {inv : γ → Session σ → Prop} {becomes : γ → Expr → Expr → Prop}
  {fail : Error → Prop} {transform : Expr → Run σ Expr} {c : Circuit}

/-- An operator is not replaced by one over the same parts. -/
theorem wp_operator_kept {op : Operator} {inputs : List Operator} {s : Session (Memo σ)} :
    Job.wp ((ofTransform transform).operator op inputs)
      (fun new _ => ∀ op' ∈ new, op.SameParts op' → op' = op) (fun _ => True) s := by
  rw [operator_ofTransform, Job.wp_bind]
  refine Job.wp_of_exec_ok fun function s₁ _ => ?_
  rw [assemble]
  split
  · rintro _ ⟨rfl⟩ -
    rfl
  · rename_i hdiffer
    rw [Job.wp_bind, Job.wp_make]
    split
    · rename_i new hnew
      obtain rfl := Operator.eq_of_withParts hnew
      rintro _ ⟨rfl⟩ ⟨hfunction, hinputs⟩
      refine absurd ?_ hdiffer
      rw [Bool.and_eq_true, decide_eq_true_eq, Operator.hasInputs, beq_iff_eq]
      exact ⟨hfunction, hinputs.symm⟩
    · trivial

/-- A declaration is not replaced by one of the same value. -/
theorem wp_declaration_kept {d : Declaration} {s : Session (Memo σ)} :
    Job.wp ((ofTransform transform).declaration d)
      (fun new _ => ∀ d' ∈ new, identical d.value d'.value = true → d' = d) (fun _ => True) s := by
  change Job.wp (_ >>= _) _ _ _
  rw [Job.wp_bind]
  refine Job.wp_of_exec_ok fun value s₁ _ => ?_
  split
  · rintro _ ⟨rfl⟩ -
    rfl
  · rename_i hdiffer
    rw [Job.wp_bind, Job.wp_fresh]
    rintro _ ⟨rfl⟩ hvalue
    exact absurd (identical_iff.mpr (identical_iff.mp hvalue).symm) hdiffer

/-- What may become of the nodes of `c`, none of them being replaced without need. -/
def kept (c : Circuit) (S : Set Expr) (inv : γ → Session σ → Prop)
    (becomes : γ → Expr → Expr → Prop) : Spec (γ × Set Operator × Set Declaration) (Memo σ) where
  inv := (transformed c S inv becomes).inv
  kept _ _ := True
  operator g op new := (transformed c S inv becomes).operator g op new ∧
    ∀ op' ∈ new, op.SameParts op' → op' = op
  declaration g d new := (transformed c S inv becomes).declaration g d new ∧
    ∀ d' ∈ new, identical d.value d'.value = true → d' = d

theorem transformed_of_kept {g : γ × Set Operator × Set Declaration} {node : Node}
    {new : Option Node} (h : (kept c S inv becomes).node g node new) :
    (transformed c S inv becomes).node g node new := by
  cases node with
  | operator op =>
    obtain ⟨new, rfl, h, -⟩ := h
    exact ⟨new, rfl, h⟩
  | declaration d =>
    obtain ⟨new, rfl, h, -⟩ := h
    exact ⟨new, rfl, h⟩

/-- Labels tell whether a node stayed, since all nodes there are have labels of their own. -/
theorem kept_of_node {g : γ × Set Operator × Set Declaration} {s : Session (Memo σ)}
    {node new : Node} (hs : (transformed c S inv becomes).inv g s) (hnode : node ∈ c.nodes)
    (h : (kept c S inv becomes).node g node (some new)) : node.Kept new := by
  cases new with
  | operator op' =>
    obtain ⟨op, rfl, ⟨_, ⟨rfl⟩, hmem, -⟩, hkept⟩ := Spec.node_operator h
    have hop : op ∈ g.2.1 := hs.2.operatorNodes (Or.inl (Circuit.mem_operators.mpr hnode))
    exact ⟨fun hparts => congrArg Node.operator (hkept op' rfl hparts), fun hid =>
      congrArg Node.operator (hs.2.operators.one _ hmem _ hop (identical_iff.mp hid).symm)⟩
  | declaration d' =>
    obtain ⟨d, rfl, ⟨_, ⟨rfl⟩, hmem, -⟩, hkept⟩ := Spec.node_declaration h
    have hd : d ∈ g.2.2 := hs.2.declarations_of d (Circuit.mem_declarations.mpr hnode)
    exact ⟨fun hparts => congrArg Node.declaration (hkept d' rfl hparts), fun hid =>
      congrArg Node.declaration (hs.2.declarations.one _ hmem _ hd (identical_iff.mp hid).symm)⟩

variable [Preorder γ]

theorem ofTransform_keeps_kept (ht : Transforms transform S inv becomes fail)
    (hS : ∀ f ∈ c.functions, f ∈ S) (hchecked : ∀ op ∈ c.operators, op.check = .ok ()) :
    (ofTransform transform).Keeps (kept c S inv becomes) {op | op ∈ c.operators}
      {d | d ∈ c.declarations} fail := by
  have hkeeps := ofTransform_keeps ht hS hchecked
  exact {
    mono_operator := fun hg h => ⟨hkeeps.mono_operator hg h.1, h.2⟩
    mono_declaration := fun hg h => ⟨hkeeps.mono_declaration hg h.1, h.2⟩
    report := hkeeps.report
    keep := fun hs _ => ⟨_, le_refl _, hs, trivial⟩
    operator := fun hs hop _ hinputs => by
      refine ((hkeeps.operator hs hop trivial (hinputs.imp fun _ _ h => h.1)).and
        wp_operator_kept).imp ?_
      rintro new s' ⟨⟨g', hg, hs', hop', hreads⟩, hkept⟩
      exact ⟨g', hg, hs', ⟨hop', hkept⟩, hreads⟩
    declaration := fun hs hd => by
      refine ((hkeeps.declaration hs hd).and wp_declaration_kept).imp ?_
      rintro new s' ⟨⟨g', hg, hs', hd'⟩, hkept⟩
      exact ⟨g', hg, hs', hd', hkept⟩ }

end CircuitEdit

/-- **A lifted change keeps every node that it can.** -/
theorem Transforms.wp_editFunctions_kept {σ γ : Type} [Preorder γ] {transform : Expr → Run σ Expr}
    {S : Set Expr} {inv : γ → Session σ → Prop} {becomes : γ → Expr → Expr → Prop}
    {fail : Error → Prop} {g : γ} {c : Circuit} {s : Session (Memo σ)}
    (ht : Transforms transform S inv becomes fail) (hS : ∀ f ∈ c.functions, f ∈ S)
    (hc : c.Made s.next) (hs : Memo.Inv S inv becomes g s) (hv : c.validate = .ok ()) :
    Job.wp (c.editFunctions transform) (fun c' _ => ∃ g', c.Transformed (becomes g') c' ∧
      List.Forall₂ Node.Kept c.nodes c'.nodes) fail s := by
  have hstock : CircuitEdit.Stock c c.operatorNodes {d | d ∈ c.declarations} s.next :=
    ⟨Set.Subset.rfl, hc.operators, fun _ h => h, hc.declarations⟩
  refine ((CircuitEdit.ofTransform_keeps_kept ht hS hc.checked).wp_apply_made hc (g := (g, _, _))
    ⟨hs, hstock⟩ (.inr ⟨Circuit.reads_of_validate hc.operators.one hv, ?_⟩)).imp ?_
  · rintro op - g' - input - ⟨⟨_, hnone, -⟩, -⟩
    cases hnone
  · rintro c' s' ⟨g', -, hs', hedited⟩
    have hnodes := hedited.forall₂_nodes fun node h =>
      CircuitEdit.not_transformed_none node (CircuitEdit.transformed_of_kept h)
    refine ⟨g'.1, ⟨hedited.name, ?_, hedited.reads trivial⟩, ?_⟩
    · exact hnodes.imp fun _ _ h => CircuitEdit.alike_of_transformed
        (CircuitEdit.transformed_of_kept h)
    · exact forall₂_imp_of_mem hnodes fun node hnode new _ h => CircuitEdit.kept_of_node hs' hnode h

/-! ## Places -/

namespace Circuit

variable {R : Expr → Expr → Prop} {c c' : Circuit}

/-- `b` stands in `c'` where `a` stands in `c`. -/
def Placed (c c' : Circuit) (a b : Operator) : Prop :=
  ∃ p : Nat, c.nodes[p]? = some (.operator a) ∧ c'.nodes[p]? = some (.operator b)

theorem Transformed.alike_at (h : c.Transformed R c') {p : Nat} {a b : Operator}
    (ha : c.nodes[p]? = some (.operator a)) (hb : c'.nodes[p]? = some (.operator b)) :
    a.Alike R b := by
  obtain ⟨node, hnode, halike⟩ := forall₂_getElem? h.nodes hb
  obtain rfl : .operator a = node := Option.some.inj (ha.symm.trans hnode)
  exact halike

/-- What an operator reads in the new circuit stands where what it reads in the old one stands,
before it. -/
theorem Transformed.inputs_placed (h : c.Transformed R c')
    (hids : (c.operators.map Operator.id).Nodup) (hreads : AtEach Node.Reads c.nodes) {p : Nat}
    {a b : Operator} (ha : c.nodes[p]? = some (.operator a))
    (hb : c'.nodes[p]? = some (.operator b)) :
    List.Forall₂ (fun i j => ∃ q < p, c.nodes[q]? = some (.operator i) ∧
      c'.nodes[q]? = some (.operator j)) a.inputs b.inputs := by
  refine forall₂_imp_of_mem (h.alike_at ha hb).inputs fun i hi j hj hij => ?_
  have hstands := h.reads.of_getElem? hb b rfl j hj
  obtain ⟨q, hq, hj'⟩ := List.mem_take_iff_getElem.mp hstands
  have hj'' : c'.nodes[q]? = some (.operator j) := by
    rw [List.getElem?_eq_getElem (by omega), hj']
  obtain ⟨node, hnode, halike⟩ := forall₂_getElem? h.nodes hj''
  -- the operator there has the number of `i`, and no other operator of the circuit has it
  cases node with
  | declaration d => exact halike.elim
  | operator i' =>
    have hi' : i' ∈ c.operators := mem_operators.mpr (List.mem_of_getElem? hnode)
    have hmem : i ∈ c.operators :=
      mem_operators_of_reads hreads (mem_operators.mpr (List.mem_of_getElem? ha)) hi
    have hid : i'.id = i.id := (Operator.Alike.id halike).symm.trans hij.id
    obtain rfl : i' = i := List.inj_on_of_nodup_map hids hi' hmem hid
    exact ⟨q, by omega, hnode, hj''⟩

end Circuit

/-- The nodes are of one sort and differ at most in their labels, in a function or a value of the
same type, and in their inputs. -/
def Node.Refitted : Node → Node → Prop
  | .operator a, .operator b => b.id = a.id ∧ b.kind = a.kind ∧ b.outputTy = a.outputTy ∧
      b.aggregate = a.aggregate ∧ Option.Rel (fun f f' => f'.ty = f.ty) a.function b.function
  | .declaration a, .declaration b => b.name = a.name ∧ b.value.ty = a.value.ty
  | _, _ => False

theorem Node.Alike.refitted {R : Expr → Expr → Prop} (hR : ∀ e e', R e e' → e'.ty = e.ty)
    {a b : Node} (h : a.Alike R b) : a.Refitted b := by
  cases a with
  | operator a =>
    cases b with
    | operator b =>
      cases h with
      | mk hid hkind houtputTy haggregate hfunction =>
        exact ⟨hid, hkind, houtputTy, haggregate, optionRel_imp hfunction fun e _ e' => hR e e'⟩
    | declaration b => exact h.elim
  | declaration a =>
    cases b with
    | operator b => exact h.elim
    | declaration b => exact ⟨h.1, hR _ _ h.2⟩

/-- `c'` is `c` with functions and values changed, and with no more new nodes than that takes. -/
structure Circuit.Refitted (c c' : Circuit) : Prop where
  name : c'.name = c.name
  nodes : List.Forall₂ Node.Refitted c.nodes c'.nodes
  /-- Operators in one place read operators in one place. -/
  inputs : ∀ a b, c.Placed c' a b → List.Forall₂ (c.Placed c') a.inputs b.inputs
  /-- A node stays exactly when its parts do. -/
  kept : List.Forall₂ (fun a b => identical a b = true ↔ a.SameParts b) c.nodes c'.nodes

theorem Circuit.Transformed.refitted {R : Expr → Expr → Prop} {c c' : Circuit} {next : Label}
    (h : c.Transformed R c') (hR : ∀ e e', R e e' → e'.ty = e.ty) (hc : c.Made next)
    (hv : c.validate = .ok ()) (hkept : List.Forall₂ Node.Kept c.nodes c'.nodes) :
    c.Refitted c' where
  name := h.name
  nodes := h.nodes.imp fun _ _ halike => halike.refitted hR
  inputs := by
    rintro a b ⟨p, ha, hb⟩
    refine (h.inputs_placed (validate_eq_ok_iff.mp hv).1 (reads_of_validate hc.operators.one hv) ha
      hb).imp ?_
    rintro i j ⟨q, -, hi, hj⟩
    exact ⟨q, hi, hj⟩
  kept := hkept.imp fun _ _ h => h.identical_iff_sameParts

/-! ## Evaluating constants -/

namespace ConstantFold

/-- Nothing can be evaluated in the function or value of the node, nor in what it depends on. -/
def Settled (c : Circuit) : Node → Prop
  | .operator op => ∀ x, c.Feeds x op → ∀ f ∈ x.function, Normal f
  | .declaration d => Normal d.value

/-- An expression is left as it is exactly when nothing can be evaluated in it. -/
theorem Folds.eq_iff_normal {e e' : Expr} (h : Folds e e') : e' = e ↔ Normal e :=
  ⟨fun heq => heq ▸ h.normal, h.eq_of_normal⟩

variable {c c' : Circuit}

/-- An operator is settled if its function is and the operators it reads are. -/
theorem settled_operator_iff {op : Operator} (hop : op ∈ c.operators) :
    Settled c (.operator op) ↔
      (∀ f ∈ op.function, Normal f) ∧ ∀ input ∈ op.inputs, Settled c (.operator input) := by
  constructor
  · intro h
    exact ⟨h op .refl, fun input hinput x hx => h x (hx.tail ⟨hop, hinput⟩)⟩
  · rintro ⟨hfunction, hinputs⟩ x hx
    rcases Relation.ReflTransGen.cases_tail hx with rfl | ⟨input, hx', -, hinput⟩
    · exact hfunction
    · exact hinputs input hinput x hx'

/-- By the place at which a node stands: operators read what stands before them. -/
theorem eq_iff_settled (h : c.Transformed Folds c') (hids : (c.operators.map Operator.id).Nodup)
    (hreads : AtEach Node.Reads c.nodes) (hkept : List.Forall₂ Node.Kept c.nodes c'.nodes)
    (p : Nat) : ∀ a b, c.nodes[p]? = some a → c'.nodes[p]? = some b → (b = a ↔ Settled c a) := by
  induction p using Nat.strong_induction_on with
  | _ p ih =>
    intro a b ha hb
    obtain ⟨_, ha', halike⟩ := forall₂_getElem? h.nodes hb
    obtain rfl := Option.some.inj (ha.symm.trans ha')
    obtain ⟨_, ha', hstays⟩ := forall₂_getElem? hkept hb
    obtain rfl := Option.some.inj (ha.symm.trans ha')
    cases b with
    | declaration d' =>
      cases a with
      | operator op => exact halike.elim
      | declaration d =>
        have hvalue : d'.value = d.value ↔ Normal d.value := halike.2.eq_iff_normal
        rw [Settled, ← hvalue]
        exact ⟨fun heq => congrArg Declaration.value (Node.declaration.inj heq),
          fun heq => hstays.of_sameParts (identical_iff.mpr (congrArg Expr.label heq).symm)⟩
    | operator op' =>
      cases a with
      | declaration d => exact halike.elim
      | operator op =>
        have hop : op ∈ c.operators := Circuit.mem_operators.mpr (List.mem_of_getElem? ha)
        have hfunction : op'.function = op.function ↔ ∀ f ∈ op.function, Normal f := by
          have hrel := Operator.Alike.function halike
          generalize op.function = f, op'.function = f' at hrel
          cases hrel with
          | none => simp
          | some hfolds => simpa using hfolds.eq_iff_normal
        have hinputs : op'.inputs = op.inputs ↔ ∀ input ∈ op.inputs,
            Settled c (.operator input) := by
          refine eq_iff_forall_mem ((h.inputs_placed hids hreads ha hb).imp ?_)
          rintro i j ⟨q, hq, hi, hj⟩
          rw [← ih q hq _ _ hi hj, Node.operator.injEq]
        rw [settled_operator_iff hop, ← hfunction, ← hinputs]
        constructor
        · intro heq
          obtain rfl := Node.operator.inj heq
          exact ⟨rfl, rfl⟩
        · rintro ⟨hf, hi⟩
          exact hstays.of_sameParts ⟨congrArg _ hf, congrArg _ hi⟩

/-- **A node stays exactly when nothing can be evaluated in it, nor in what it depends on.** -/
theorem identical_iff_settled (h : c.Transformed Folds c')
    (hids : (c.operators.map Operator.id).Nodup) (hreads : AtEach Node.Reads c.nodes)
    (hkept : List.Forall₂ Node.Kept c.nodes c'.nodes) :
    List.Forall₂ (fun a b => identical a b = true ↔ Settled c a) c.nodes c'.nodes := by
  refine List.forall₂_iff_get.mpr ⟨hkept.length_eq, fun p hp hp' => ?_⟩
  rw [(hkept.get hp hp').identical_iff_eq]
  exact eq_iff_settled h hids hreads hkept p _ _ (List.getElem?_eq_getElem hp)
    (List.getElem?_eq_getElem hp')

theorem wp_run_kept {s : Session Unit} {fail : Error → Prop} (hc : c.Made s.next)
    (hv : c.validate = .ok ()) :
    Job.wp (run c) (fun c' _ => c.Transformed Folds c' ∧
      List.Forall₂ Node.Kept c.nodes c'.nodes) fail s := by
  rw [run, Job.wp_bind, Job.wp_withState]
  refine ((edit_transforms hc.expressions fail).wp_editFunctions_kept (fun f => Expr.mem_nodes) hc
    (Memo.inv_start (Memo.inv_start ⟨Set.Subset.rfl, hc.expressions⟩)) hv).imp fun c' s' h => ?_
  obtain ⟨T, hc', hkept⟩ := h
  exact ⟨hc'.mono fun _ _ h => h.2, hkept⟩

end ConstantFold

theorem Dedup.wp_run_kept {c : Circuit} {s : Session Unit} {fail : Error → Prop}
    (hc : c.Made s.next) (hv : c.validate = .ok ()) :
    Job.wp (run c) (fun c' _ => c.Transformed (fun e e' => e.same e' = true) c' ∧
      List.Forall₂ Node.Kept c.nodes c'.nodes) fail s := by
  rw [run, Job.wp_bind, Job.wp_withState]
  refine ((edit_transforms hc.expressions fail).wp_editFunctions_kept (fun f => Expr.mem_nodes) hc
    (Memo.inv_start (Memo.inv_start (inv_start hc))) hv).imp fun c' s' h => ?_
  obtain ⟨g, hc', hkept⟩ := h
  exact ⟨hc'.mono fun _ _ h => h.2, hkept⟩

/-- **The passes on functions change no more than they must.**  On a valid circuit, evaluating
constants and sharing expressions give the nodes of the circuit in their places.  A node is of the
sort it was, with the same name, number, kind, output type and aggregate; its function or value has
the type it had, and its inputs are what now stands in the places of the old ones.  It is the old
node exactly when its function or value and all its inputs are; for the evaluation of constants,
exactly when there was nothing to evaluate in these and in all they depend on. -/
theorem Pass.changes_only_functions {pass : Pass} {c : Circuit} {s : Session Unit}
    (hpass : pass ≠ .deadCode) (hc : c.Made s.next) (hv : c.validate = .ok ()) :
    ∃ c' s', (pass.run c).exec s = (.ok c', s') ∧ c.Refitted c' ∧
      (pass = .constantFold →
        List.Forall₂ (fun a b => identical a b = true ↔
          ConstantFold.Settled c a) c.nodes c'.nodes) := by
  cases pass with
  | deadCode => exact absurd rfl hpass
  | constantFold =>
    have hrun : Job.wp (ConstantFold.run c) _ (fun _ => False) s := ConstantFold.wp_run_kept hc hv
    obtain ⟨c', s', hexec, htransformed, hkept⟩ := hrun.exists_ok
    refine ⟨c', s', hexec, htransformed.refitted (fun _ _ h => h.ty) hc hv hkept, fun _ => ?_⟩
    exact ConstantFold.identical_iff_settled htransformed (Circuit.validate_eq_ok_iff.mp hv).1
      (Circuit.reads_of_validate hc.operators.one hv) hkept
  | dedup =>
    have hrun : Job.wp (Dedup.run c) _ (fun _ => False) s := Dedup.wp_run_kept hc hv
    obtain ⟨c', s', hexec, htransformed, hkept⟩ := hrun.exists_ok
    refine ⟨c', s', hexec, htransformed.refitted ?_ hc hv hkept, fun h => by cases h⟩
    exact fun _ _ h => (Expr.same_iff_shape.mp h).1.symm

namespace Ripple

/-! An operator adds five and five to its input and is read by a sink; nothing else has anything to
evaluate. -/

open Sample ConstantFold

/-- A sum that can be folded. -/
def ten : Expr := ⟨3, .int32 false, .binary .add five₁ five₂⟩

/-- The function that adds ten. -/
def raise : Expr := function 5 ⟨4, .int32 false, .binary .add x ten⟩

/-- An operator that reads nothing that changes. -/
def aside : Operator := ⟨11, 2, .negate, stream, none, none, [source]⟩

/-- The operator whose function changes. -/
def raised : Operator := ⟨10, 1, .map, stream, some raise, none, [source]⟩

/-- A sink that reads what changes. -/
def out : Operator := ⟨12, 3, .sink "out", stream, none, none, [raised]⟩

/-- One operator changes by itself, one because of it, and the rest stay. -/
def circuit : Circuit :=
  ⟨"ripple", [.declaration ⟨6, "five", five₁⟩, .operator source, .operator aside, .operator raised,
    .operator out]⟩

theorem validate_circuit : circuit.validate = .ok () := by rfl

theorem operators_circuit : circuit.operators = [source, aside, raised, out] := rfl

theorem made_circuit : circuit.Made 13 := by
  refine Circuit.made_of_drawn
    (Heap.of_list (l := [x, five₁, five₂, ten, ⟨4, .int32 false, .binary .add x ten⟩, raise])
      ?_ ?_ ?_ ?_ ?_)
    (.of_list (l := circuit.nodes) (fun _ h => h) ?_ ?_) ?_ ?_
  · simp [Circuit.functions, circuit, Node.functions, source, aside, raised, out]
  · simp [Expr.children, Form.children, x, five₁, five₂, ten, raise, function]
  · decide
  · decide
  · simp only [List.forall_mem_cons]
    exact ⟨trivial, rfl, rfl, rfl, rfl, rfl, List.forall_mem_nil _⟩
  · decide
  · decide
  · simp [operators_circuit, source, aside, raised, out]
  · simp only [operators_circuit, List.forall_mem_cons]
    exact ⟨rfl, rfl, rfl, rfl, List.forall_mem_nil _⟩

theorem settled_five : Settled circuit (.declaration ⟨6, "five", five₁⟩) :=
  Expr.all_iff.mpr ⟨fun _ => rfl, List.forall_mem_nil _⟩

theorem settled_source : Settled circuit (.operator source) :=
  (settled_operator_iff (by simp [operators_circuit])).mpr ⟨by simp [source], by simp [source]⟩

theorem settled_aside : Settled circuit (.operator aside) :=
  (settled_operator_iff (by simp [operators_circuit])).mpr
    ⟨by simp [aside], by simpa [aside] using settled_source⟩

theorem not_settled_raised : ¬ Settled circuit (.operator raised) := by
  intro h
  have hten : ten.Within raise :=
    .child (List.mem_singleton.mpr rfl) (.child (by simp [Expr.children, Form.children]) .refl)
  have hnone : fold 0 ten = none := h raised .refl raise rfl ten hten 0
  rw [fold_of_evaluated (.binary rfl rfl rfl rfl rfl)] at hnone
  cases hnone

theorem not_settled_out : ¬ Settled circuit (.operator out) := by
  intro h
  have hout := (settled_operator_iff (by simp [operators_circuit])).mp h
  exact not_settled_raised (hout.2 raised (by simp [out]))

end Ripple

theorem Pass.changes_only_functions_ripple :
    Ripple.circuit.Made 13 ∧ Ripple.circuit.validate = .ok () ∧
      ∃ c' s', (Pass.constantFold.run Ripple.circuit).exec ⟨13, [], ()⟩ = (.ok c', s') ∧
        Ripple.circuit.Refitted c' ∧
        List.zipWith (fun a b => identical a b) Ripple.circuit.nodes c'.nodes =
          [true, true, true, false, false] := by
  obtain ⟨c', s', hrun, hrefitted, hsettled⟩ := Pass.changes_only_functions (s := ⟨13, [], ()⟩)
    (by decide : Pass.constantFold ≠ .deadCode) Ripple.made_circuit Ripple.validate_circuit
  refine ⟨Ripple.made_circuit, Ripple.validate_circuit, c', s', hrun, hrefitted, ?_⟩
  have hnodes := hsettled rfl
  simp only [Ripple.circuit, List.forall₂_cons_left_iff, List.forall₂_nil_left_iff] at hnodes
  obtain ⟨five, _, hfive, ⟨source, _, hsource, ⟨aside, _, haside, ⟨raised, _, hraised,
    ⟨out, _, hout, rfl, rfl⟩, rfl⟩, rfl⟩, rfl⟩, hnodes⟩ := hnodes
  simp [Ripple.circuit, hnodes, hfive.mpr Ripple.settled_five, hsource.mpr Ripple.settled_source,
    haside.mpr Ripple.settled_aside, mt hraised.mp Ripple.not_settled_raised,
    mt hout.mp Ripple.not_settled_out]

end FlowCircuit
