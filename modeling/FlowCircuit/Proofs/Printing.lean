import FlowCircuit.Proofs.Same
import FlowCircuit.Proofs.Transform
import FlowCircuit.Visit.Print

/-!
# What is the same is printed the same

The text of an expression is made from its layer and the types and texts of its sub-expressions
(`Expr.text_eq_layerText`), so expressions that are the same have the same text.  A circuit is
printed line by line: a header, a line for each node, and a closing line (`Circuit.text_eq`).  So
circuits whose nodes agree one by one have the same text.
-/

set_option autoImplicit false

namespace FlowCircuit

/-! ## Expressions -/

namespace Expr

theorem rowTexts_eq_map (rows : List (Row Expr)) :
    rowTexts rows =
      rows.map fun row => text row.element ++ " => " ++ toString row.weight.toInt := by
  induction rows with
  | nil => rfl
  | cons row rows ih => simp [rowTexts, ih]

/-- The text of a node of type `ty`, from the types and texts of what stands below it. -/
def layerText (ty : Ty) : Form (Ty × String) → String
  | .literal value => value.source ty
  | .zset z => ZSet.textOf z.elementTy
      (z.rows.map fun row => row.element.2 ++ " => " ++ toString row.weight.toInt)
  | .tuple fields => Text.tupled (fields.map Prod.snd)
  | .borrow operand => "&" ++ operand.2
  | .var name => name
  | .field base index => base.2 ++ "." ++ toString index
  | .closure params body =>
    "move |" ++ Text.listed (params.map Parameter.text) ++ "| -> " ++ body.1.text
      ++ " \x7b " ++ body.2 ++ " \x7d"
  | .binary op left right => "(" ++ left.2 ++ " " ++ op.symbol ++ " " ++ right.2 ++ ")"

/-- The text of an expression is put together from one layer. -/
theorem text_eq_layerText (e : Expr) :
    e.text = layerText e.ty (e.form.map fun c => (c.ty, c.text)) := by
  rcases e with ⟨l, ty, form⟩
  cases form with
  | zset z => simp [text, layerText, Form.map, ZSet.map, rowTexts_eq_map, Function.comp_def]
  | tuple fields => simp [text, layerText, Form.map, texts_eq_map, Function.comp_def]
  | _ => simp [text, layerText, Form.map]

/-- **Expressions that are the same have the same text.** -/
theorem text_eq_of_same {a b : Expr} (hta : a.WellTyped) (htb : b.WellTyped)
    (h : a.same b = true) : a.text = b.text := by
  induction a using induction_children generalizing b with
  | node a ih =>
    obtain ⟨hty, hshape, hchildren⟩ := (same_iff hta htb).mp h
    have htexts : a.children.map (fun c => (c.ty, c.text)) =
        b.children.map fun c => (c.ty, c.text) := by
      refine forall₂_map_eq_iff.mp (forall₂_imp_of_mem hchildren fun x hx y hy hxy => ?_)
      rw [ih x hx (hta.child hx) (htb.child hy) hxy, (same_iff_shape.mp hxy).1]
    rw [text_eq_layerText, text_eq_layerText, hty, Form.map_eq_map_iff.mpr ⟨hshape, htexts⟩]

end Expr

/-! ## Nodes -/

/-- The node as a line of source. -/
def Node.text : Node → String
  | .declaration d => d.text
  | .operator op => op.text

/-- The text of an operator reads of its inputs only their numbers. -/
theorem Operator.receiver_eq (op : Operator) :
    op.receiver = ((op.inputs.map Operator.id).head?.map streamName).getD "circuit" := by
  rw [receiver]
  cases op.inputs <;> rfl

theorem Operator.arguments_eq (op : Operator) :
    op.arguments = (op.inputs.map Operator.id).tail.map streamName
      ++ op.kind.relation?.toList.map Text.quoted
      ++ op.aggregate.toList.map Aggregate.text
      ++ op.function.toList.map Expr.text := by
  rw [arguments, ← List.map_tail, List.map_map]
  rfl

/-- Operators that agree in all but labels, and whose functions have the same text, have the same
text. -/
theorem Operator.Alike.text {R : Expr → Expr → Prop} (hR : ∀ e e', R e e' → e.text = e'.text)
    {a b : Operator} (h : a.Alike R b) : a.text = b.text := by
  have hids : a.inputs.map Operator.id = b.inputs.map Operator.id :=
    forall₂_map_eq_iff.mp (h.inputs.imp fun _ _ h => h.id.symm)
  cases h with
  | mk hid hkind hty haggregate hfunction =>
    have hfunctions : a.function.toList.map Expr.text = b.function.toList.map Expr.text := by
      generalize a.function = f, b.function = g at hfunction
      cases hfunction with
      | none => rfl
      | some h => exact congrArg (fun text => [text]) (hR _ _ h)
    unfold Operator.text
    rw [receiver_eq, receiver_eq, arguments_eq, arguments_eq, hids, hfunctions, hid, hkind, hty,
      haggregate]

theorem Node.Alike.text {R : Expr → Expr → Prop}
    (hR : ∀ e e', R e e' → e.ty = e'.ty ∧ e.text = e'.text) {a b : Node} (h : a.Alike R b) :
    a.text = b.text := by
  cases a with
  | operator a =>
    cases b with
    | operator b => exact Operator.Alike.text (fun e e' h => (hR e e' h).2) h
    | declaration b => exact h.elim
  | declaration a =>
    cases b with
    | operator b => exact h.elim
    | declaration b =>
      obtain ⟨hname, hvalue⟩ := h
      obtain ⟨hty, htext⟩ := hR _ _ hvalue
      change a.text = b.text
      unfold Declaration.text Declaration.ty
      rw [hname, hty, htext]

/-! ## Circuits -/

/-- The lines of nodes in a circuit. -/
def Node.lines (nodes : List Node) : String :=
  String.join (nodes.map fun node => "    " ++ node.text ++ "\n")

theorem Node.lines_cons (node : Node) (nodes : List Node) :
    lines (node :: nodes) = "    " ++ node.text ++ "\n" ++ lines nodes := by
  simp [lines]

namespace Printer

theorem exec_walkNode {s : Session Printer} (hdepth : s.state.depth = 1) (node : Node) :
    (visitor.walkNode node).exec s = (.ok (), { s with state := s.state.line node.text }) := by
  cases node with
  | operator op => rfl
  | declaration d =>
    have hbegin : s.state.beginItem = s.state := if_neg (by rw [hdepth]; exact Nat.one_ne_zero)
    change (_, Session.mk s.next s.notices (s.state.beginItem.line d.text)) = _
    rw [hbegin]
    rfl

/-- The nodes of a circuit are printed one to a line. -/
theorem exec_walkNodes {s : Session Printer} (hdepth : s.state.depth = 1) (nodes : List Node) :
    (visitor.walkNodes nodes).exec s =
      (.ok (), { s with state := { s.state with text := s.state.text ++ Node.lines nodes } }) := by
  induction nodes generalizing s with
  | nil => simp [CircuitVisitor.walkNodes, Node.lines]
  | cons node nodes ih =>
    rw [CircuitVisitor.walkNodes, Job.exec_bind, exec_walkNode hdepth]
    have hrest := ih (s := ⟨s.next, s.notices, s.state.line node.text⟩) hdepth
    rw [Node.lines_cons]
    refine hrest.trans ?_
    simp [line, hdepth, String.append_assoc]

/-- Outside of any circuit, what is printed next is an item. -/
theorem beginItem_of_depth {p : Printer} (hdepth : p.depth = 0) :
    p.beginItem = ⟨if p.items = 0 then p.text else p.text ++ "\n", 0, p.items + 1⟩ := by
  rw [beginItem, if_pos hdepth, hdepth]

/-- Outside of any circuit, a circuit is printed as a header, its nodes and a closing line. -/
theorem exec_walkCircuit {s : Session Printer} (hdepth : s.state.depth = 0) (c : Circuit) :
    (visitor.walkCircuit c).exec s =
      (.ok (), { s with state := { s.state.beginItem with
        text := s.state.beginItem.text
          ++ (header c.name ++ "\n" ++ Node.lines c.nodes ++ "\x7d\n") } }) := by
  let opened : Printer := (s.state.beginItem.line (header c.name)).deepen
  have hopened : opened.depth = 1 := by
    simp [opened, line, deepen, beginItem_of_depth hdepth]
  have hnodes := exec_walkNodes (s := ⟨s.next, s.notices, opened⟩) hopened c.nodes
  rw [CircuitVisitor.walkCircuit, Flow.around, Job.exec_bind]
  change (visitor.walkNodes c.nodes >>= fun _ => visitor.leaveCircuit c).exec
    ⟨s.next, s.notices, opened⟩ = _
  rw [Job.exec_bind, hnodes]
  change (_, Session.mk s.next s.notices
    (line "\x7d" (rise { opened with text := opened.text ++ Node.lines c.nodes }))) = _
  simp [line, rise, opened, deepen, beginItem_of_depth hdepth, String.append_assoc]

end Printer

/-- **A circuit is printed line by line.** -/
theorem Circuit.text_eq (c : Circuit) :
    c.text = Printer.header c.name ++ "\n" ++ Node.lines c.nodes ++ "\x7d\n" := by
  rw [text, Printer.printed, Printer.exec_walkCircuit rfl]
  simp [Printer.start, Printer.beginItem]

/-- Circuits of one name whose nodes have the same texts have the same text. -/
theorem Circuit.text_eq_of_nodes {c c' : Circuit} (hname : c.name = c'.name)
    (hnodes : List.Forall₂ (fun node node' => node.text = node'.text) c.nodes c'.nodes) :
    c.text = c'.text := by
  have hlines : Node.lines c.nodes = Node.lines c'.nodes := by
    rw [Node.lines, Node.lines]
    refine congrArg String.join (forall₂_map_eq_iff.mp (hnodes.imp fun _ _ h => ?_))
    rw [h]
  rw [text_eq, text_eq, hname, hlines]

end FlowCircuit
