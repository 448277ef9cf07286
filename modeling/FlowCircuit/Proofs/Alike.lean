import FlowCircuit.Proofs.Liveness
import FlowCircuit.Proofs.Transform

/-!
# Circuits that are alike

`Node.Alike R` compares nodes in all but labels.  It passes through chains of changes
(`Node.Alike.trans`), it can be read backwards (`Node.Alike.symm`), and in circuits that are made
and well formed it may be assumed that all expressions it speaks of are well typed, those of the
operators that are read included (`Circuit.forall₂_alike_wellTyped`).

Which operators are live is a question about numbers.  Circuits whose nodes are alike one by one
have the same graph and the same sinks, so the same numbers are live (`Circuit.live_eq_of_alike`).
-/

set_option autoImplicit false

namespace FlowCircuit

variable {R S T : Expr → Expr → Prop}

/-! ## Operators -/

namespace Operator

/-- An operator is alike itself. -/
theorem alike_refl (hR : ∀ e, R e e) : ∀ op : Operator, op.Alike R op
  | ⟨_, _, _, _, function, _, inputs⟩ => by
    refine .of_forall₂ rfl rfl rfl rfl ?_ ?_
    · cases function with
      | none => exact .none
      | some f => exact .some (hR f)
    · exact List.forall₂_same.mpr fun input _ => alike_refl hR input

namespace Alike

variable {a b c : Operator}

/-- A relation between operators that passes from their inputs to them holds of operators that are
alike. -/
theorem induction {P : Operator → Operator → Prop}
    (mk : ∀ {a b : Operator}, b.id = a.id → b.kind = a.kind → b.outputTy = a.outputTy →
      b.aggregate = a.aggregate → Option.Rel R a.function b.function →
      List.Forall₂ P a.inputs b.inputs → P a b) (h : a.Alike R b) : P a b := by
  induction h with
  | mk hid hkind hty haggregate hfunction hlength _ ih =>
    exact mk hid hkind hty haggregate hfunction
      (List.forall₂_iff_zip.mpr ⟨hlength, fun h => ih _ _ h⟩)

theorem symm (h : a.Alike R b) : b.Alike (fun e e' => R e' e) a := by
  refine h.induction (P := fun a b => b.Alike (fun e e' => R e' e) a) ?_
  intro a b hid hkind hty haggregate hfunction hinputs
  refine .of_forall₂ hid.symm hkind.symm hty.symm haggregate.symm ?_ hinputs.flip
  generalize a.function = f, b.function = g at hfunction
  cases hfunction with
  | none => exact .none
  | some h => exact .some h

theorem trans (hT : ∀ e e' e'', R e e' → S e' e'' → T e e'') (h : a.Alike R b) (h' : b.Alike S c) :
    a.Alike T c := by
  refine h.induction (P := fun a b => ∀ c, b.Alike S c → a.Alike T c) ?_ c h'
  intro a b hid hkind hty haggregate hfunction hinputs c h'
  have hinputs' := h'.inputs
  cases h' with
  | mk hid' hkind' hty' haggregate' hfunction' =>
    refine .of_forall₂ (hid'.trans hid) (hkind'.trans hkind) (hty'.trans hty)
      (haggregate'.trans haggregate) ?_ ?_
    · generalize a.function = f, b.function = g, c.function = k at hfunction hfunction'
      cases hfunction with
      | none =>
        cases hfunction'
        exact .none
      | some h =>
        cases hfunction' with
        | some h' => exact .some (hT _ _ _ h h')
    · exact forall₂_trans_of_mem hinputs hinputs' fun _ _ _ k h h' => h k h'

/-- What holds of all functions of a list of operators, and of all that they read, may be used. -/
theorem of_closed {P : Expr → Prop} {as bs : List Operator} (h : a.Alike R b) (ha : a ∈ as)
    (hb : b ∈ bs) (has : ∀ op ∈ as, (∀ input ∈ op.inputs, input ∈ as) ∧ ∀ f ∈ op.function, P f)
    (hbs : ∀ op ∈ bs, (∀ input ∈ op.inputs, input ∈ bs) ∧ ∀ f ∈ op.function, P f) :
    a.Alike (fun e e' => P e ∧ P e' ∧ R e e') b := by
  refine h.induction (P := fun a b => a ∈ as → b ∈ bs →
    a.Alike (fun e e' => P e ∧ P e' ∧ R e e') b) ?_ ha hb
  intro a b hid hkind hty haggregate hfunction hinputs ha hb
  refine .of_forall₂ hid hkind hty haggregate ?_ ?_
  · have hfa := (has a ha).2
    have hfb := (hbs b hb).2
    generalize a.function = f, b.function = g at hfunction hfa hfb
    cases hfunction with
    | none => exact .none
    | some h => exact .some ⟨hfa _ rfl, hfb _ rfl, h⟩
  · exact forall₂_imp_of_mem hinputs fun i hi j hj h => h ((has a ha).1 i hi) ((hbs b hb).1 j hj)

end Alike

end Operator

/-! ## Nodes -/

namespace Node

theorem alike_refl (hR : ∀ e, R e e) (node : Node) : node.Alike R node := by
  cases node with
  | operator op => exact op.alike_refl hR
  | declaration d => exact ⟨rfl, hR _⟩

namespace Alike

variable {a b c : Node}

theorem symm (h : a.Alike R b) : b.Alike (fun e e' => R e' e) a := by
  cases a with
  | operator a =>
    cases b with
    | operator b => exact Operator.Alike.symm h
    | declaration b => exact h.elim
  | declaration a =>
    cases b with
    | operator b => exact h.elim
    | declaration b => exact ⟨h.1.symm, h.2⟩

theorem trans (hT : ∀ e e' e'', R e e' → S e' e'' → T e e'') (h : a.Alike R b) (h' : b.Alike S c) :
    a.Alike T c := by
  cases b with
  | operator b =>
    cases a with
    | declaration a => exact h.elim
    | operator a =>
      cases c with
      | declaration c => exact h'.elim
      | operator c => exact Operator.Alike.trans hT h h'
  | declaration b =>
    cases a with
    | operator a => exact h.elim
    | declaration a =>
      cases c with
      | operator c => exact h'.elim
      | declaration c => exact ⟨h'.1.trans h.1, hT _ _ _ h.2 h'.2⟩

end Alike

end Node

/-! ## Circuits -/

namespace Circuit

variable {c c' : Circuit}

/-- In a well-formed circuit that is made, operators read operators of the circuit, and functions
are well typed. -/
theorem Made.operators_closed {next : Label} (hc : c.Made next) (hv : c.validate = .ok ()) :
    ∀ op ∈ c.operators, (∀ input ∈ op.inputs, input ∈ c.operators) ∧
      ∀ f ∈ op.function, f.WellTyped := fun op hop =>
  ⟨hc.mem_operators_of_validate hv op hop, fun _ hf =>
    hc.expressions.wellTyped (Expr.mem_nodes (mem_functions_of_operator hop hf))⟩

theorem Made.wellTyped_value {next : Label} (hc : c.Made next) {d : Declaration}
    (hd : d ∈ c.declarations) : d.value.WellTyped :=
  hc.expressions.wellTyped (Expr.mem_nodes (mem_functions_of_declaration hd))

/-- The expressions of circuits that are made are well typed. -/
theorem forall₂_alike_wellTyped {next next' : Label} (hc : c.Made next) (hv : c.validate = .ok ())
    (hc' : c'.Made next') (hv' : c'.validate = .ok ()) {nodes nodes' : List Node}
    (hnodes : nodes ⊆ c.nodes) (hnodes' : nodes' ⊆ c'.nodes)
    (h : List.Forall₂ (Node.Alike R) nodes nodes') :
    List.Forall₂ (Node.Alike fun e e' => e.WellTyped ∧ e'.WellTyped ∧ R e e') nodes nodes' := by
  refine forall₂_imp_of_mem h fun a ha b hb hab => ?_
  cases a with
  | operator a =>
    cases b with
    | declaration b => exact hab.elim
    | operator b =>
      exact Operator.Alike.of_closed hab (mem_operators.mpr (hnodes ha))
        (mem_operators.mpr (hnodes' hb)) (hc.operators_closed hv) (hc'.operators_closed hv')
  | declaration a =>
    cases b with
    | operator b => exact hab.elim
    | declaration b =>
      exact ⟨hab.1, hc.wellTyped_value (mem_declarations.mpr (hnodes ha)),
        hc'.wellTyped_value (mem_declarations.mpr (hnodes' hb)), hab.2⟩

/-- The operators of circuits that are alike are alike. -/
theorem forall₂_operators (h : List.Forall₂ (Node.Alike R) c.nodes c'.nodes) :
    List.Forall₂ (Operator.Alike R) c.operators c'.operators := by
  refine List.rel_filterMap (fun a b hab => ?_) h
  cases a with
  | operator a =>
    cases b with
    | operator b => exact .some hab
    | declaration b => exact hab.elim
  | declaration a =>
    cases b with
    | operator b => exact hab.elim
    | declaration b => exact .none

theorem graph_eq_of_alike (h : List.Forall₂ (Node.Alike R) c.nodes c'.nodes) :
    c.graph = c'.graph := by
  have hoperators := forall₂_operators h
  have hids : c.operators.map Operator.id = c'.operators.map Operator.id :=
    forall₂_map_eq_iff.mp (hoperators.imp fun _ _ h => h.id.symm)
  have hedges : (c.operators.map fun op => op.inputs.map fun input => (input.id, op.id)) =
      c'.operators.map fun op => op.inputs.map fun input => (input.id, op.id) := by
    refine forall₂_map_eq_iff.mp (hoperators.imp fun a b h => ?_)
    refine forall₂_map_eq_iff.mp (h.inputs.imp fun i j hij => ?_)
    rw [hij.id, h.id]
  rw [graph, graph, hids, List.flatMap, List.flatMap, hedges]

theorem sinks_eq_of_alike (h : List.Forall₂ (Node.Alike R) c.nodes c'.nodes) :
    c.sinks.map Operator.id = c'.sinks.map Operator.id := by
  have hsinks : List.Forall₂ (Operator.Alike R) c.sinks c'.sinks := by
    refine List.rel_filter (fun a b hab => ?_) (forall₂_operators h)
    have hname : a.sinkName? = b.sinkName? := congrArg OpKind.sinkName? hab.kind.symm
    change a.sinkName?.isSome = true ↔ b.sinkName?.isSome = true
    rw [hname]
  exact forall₂_map_eq_iff.mp (hsinks.imp fun _ _ h => h.id.symm)

/-- **Circuits that are alike have the same live numbers.** -/
theorem live_eq_of_alike (h : List.Forall₂ (Node.Alike R) c.nodes c'.nodes) :
    DeadCode.live c c.graph = DeadCode.live c' c'.graph := by
  rw [DeadCode.live, DeadCode.live, graph_eq_of_alike h, sinks_eq_of_alike h]

end Circuit

end FlowCircuit
