import FlowCircuit.Proofs.Printing
import FlowCircuit.Proofs.Traversal

/-!
# A file is printed item by item

One printer serves files and circuits, and two counters tell it where it is: how many circuits it is
in, and how many items it has begun outside of them.  Outside of any circuit, walking an item adds
the text that the item has by itself, behind a newline unless it is the first, and leaves the depth
as it was (`Printer.exec_walkItem`).  So the text of a file is that of its items with a newline
between each two.

A depth cannot be negative, and lowering it at zero would go unnoticed.  `Printer.visitorOr` prints
with a printer that does something else altogether when it is to leave a circuit and is in none.  No
walk can tell the two apart, so that never happens (`Printer.walkFile_visitorOr`).
-/

set_option autoImplicit false

namespace FlowCircuit

/-- The item as source text. -/
def FileItem.text : FileItem → String
  | .declaration d => d.text ++ "\n"
  | .circuit c => c.text

namespace Printer

/-! ## Items -/

/-- The printer behind another item. -/
def addItem (p : Printer) (item : FileItem) : Printer :=
  { p with
    text := (if p.items = 0 then p.text else p.text ++ "\n") ++ item.text, items := p.items + 1 }

/-- **Walking an item adds its text.** -/
theorem exec_walkItem {s : Session Printer} (hdepth : s.state.depth = 0) (item : FileItem) :
    (visitor.walkItem item).exec s = (.ok (), { s with state := s.state.addItem item }) := by
  cases item with
  | declaration d =>
    change (_, Session.mk s.next s.notices (s.state.beginItem.line d.text)) = _
    simp [line, addItem, FileItem.text, beginItem_of_depth hdepth, hdepth, String.append_assoc]
  | circuit c =>
    rw [CircuitVisitor.walkItem, exec_walkCircuit hdepth, ← Circuit.text_eq]
    simp [addItem, FileItem.text, beginItem_of_depth hdepth, hdepth]

theorem exec_walkItems {s : Session Printer} (hdepth : s.state.depth = 0) (items : List FileItem) :
    (visitor.walkItems items).exec s =
      (.ok (), { s with state := items.foldl addItem s.state }) := by
  induction items generalizing s with
  | nil => rfl
  | cons item items ih =>
    rw [CircuitVisitor.walkItems, Job.exec_bind, exec_walkItem hdepth]
    exact ih (s := ⟨s.next, s.notices, s.state.addItem item⟩) hdepth

theorem exec_walkFile {s : Session Printer} (hdepth : s.state.depth = 0) (f : File) :
    (visitor.walkFile f).exec s = (.ok (), { s with state := f.items.foldl addItem s.state }) := by
  rw [CircuitVisitor.walkFile, Flow.around, Job.exec_bind]
  change (visitor.walkItems f.items >>= fun _ => visitor.leaveFile f).exec s = _
  rw [Job.exec_bind, exec_walkItems hdepth]
  rfl

/-- What was printed before counts as one more item. -/
theorem text_foldl_addItem {p : Printer} (hitems : p.items ≠ 0) (items : List FileItem) :
    (items.foldl addItem p).text = "\n".intercalate (p.text :: items.map FileItem.text) := by
  induction items generalizing p with
  | nil => simp
  | cons item items ih =>
    have hadded : (p.addItem item).text = p.text ++ "\n" ++ item.text := by
      rw [addItem, if_neg hitems]
    rw [List.foldl_cons, ih (Nat.succ_ne_zero p.items), hadded, String.intercalate_cons_append,
      List.map_cons, String.intercalate_cons_cons]

theorem text_foldl_addItem_start (items : List FileItem) :
    (items.foldl addItem start).text = "\n".intercalate (items.map FileItem.text) := by
  cases items with
  | nil => rfl
  | cons item items =>
    have hadded : start.addItem item = ⟨item.text, 0, 1⟩ := by
      simp [addItem, start]
    rw [List.foldl_cons, hadded, text_foldl_addItem Nat.one_ne_zero, List.map_cons]

/-! ## The depth -/

/-- The visitor that prints, except that it does as `stray` says when it is to leave a circuit and
is in none. -/
def visitorOr (stray : Circuit → Run Printer Unit) : CircuitVisitor Printer :=
  { visitor with
    leaveCircuit := fun c => do
      let p ← Job.state
      if p.depth = 0 then stray c else visitor.leaveCircuit c }

variable (stray : Circuit → Run Printer Unit)

theorem exec_leaveCircuit_visitorOr {s : Session Printer} (hdepth : s.state.depth ≠ 0)
    (c : Circuit) :
    ((visitorOr stray).leaveCircuit c).exec s = (visitor.leaveCircuit c).exec s := by
  change (if s.state.depth = 0 then stray c else visitor.leaveCircuit c).exec s = _
  rw [if_neg hdepth]

theorem depth_beginItem (p : Printer) : p.beginItem.depth = p.depth := by
  rw [beginItem]
  split <;> rfl

/-- A node is printed at the depth it stands at. -/
theorem exists_exec_walkNode (s : Session Printer) (node : Node) :
    ∃ p : Printer, p.depth = s.state.depth ∧
      (visitor.walkNode node).exec s = (.ok (), { s with state := p }) := by
  cases node with
  | declaration d => exact ⟨s.state.beginItem.line d.text, depth_beginItem s.state, rfl⟩
  | operator op => exact ⟨s.state.line op.text, rfl, rfl⟩

theorem exists_exec_walkNodes (s : Session Printer) (nodes : List Node) :
    ∃ p : Printer, p.depth = s.state.depth ∧
      (visitor.walkNodes nodes).exec s = (.ok (), { s with state := p }) := by
  induction nodes generalizing s with
  | nil => exact ⟨s.state, rfl, rfl⟩
  | cons node nodes ih =>
    obtain ⟨p, hp, hnode⟩ := exists_exec_walkNode s node
    obtain ⟨q, hq, hnodes⟩ := ih ⟨s.next, s.notices, p⟩
    refine ⟨q, hq.trans hp, ?_⟩
    rw [CircuitVisitor.walkNodes, Job.exec_bind, hnode]
    exact hnodes

theorem walkNodes_visitorOr (nodes : List Node) :
    (visitorOr stray).walkNodes nodes = visitor.walkNodes nodes := by
  induction nodes with
  | nil => rfl
  | cons node nodes ih =>
    rw [CircuitVisitor.walkNodes, CircuitVisitor.walkNodes, ih]
    cases node <;> rfl

/-- A circuit is left at the depth it was entered to. -/
theorem walkCircuit_visitorOr (c : Circuit) :
    (visitorOr stray).walkCircuit c = visitor.walkCircuit c := by
  refine Job.eq_of_exec fun s => ?_
  let opened : Session Printer :=
    ⟨s.next, s.notices, (s.state.beginItem.line (header c.name)).deepen⟩
  -- from any depth: the circuit is entered first, and its nodes do not change the depth
  obtain ⟨p, hp, hnodes⟩ := exists_exec_walkNodes opened c.nodes
  have hdepth : p.depth ≠ 0 := by
    rw [hp]
    exact Nat.succ_ne_zero _
  change ((visitorOr stray).walkNodes c.nodes >>= fun _ =>
    (visitorOr stray).leaveCircuit c).exec opened =
    (visitor.walkNodes c.nodes >>= fun _ => visitor.leaveCircuit c).exec opened
  rw [walkNodes_visitorOr, Job.exec_bind, Job.exec_bind, hnodes]
  exact exec_leaveCircuit_visitorOr stray hdepth c

theorem walkItems_visitorOr (items : List FileItem) :
    (visitorOr stray).walkItems items = visitor.walkItems items := by
  induction items with
  | nil => rfl
  | cons item items ih =>
    rw [CircuitVisitor.walkItems, CircuitVisitor.walkItems, ih]
    cases item with
    | declaration d => rfl
    | circuit c => rw [CircuitVisitor.walkItem, CircuitVisitor.walkItem, walkCircuit_visitorOr]

/-- **The depth is lowered only where it was raised.** -/
theorem walkFile_visitorOr (f : File) : (visitorOr stray).walkFile f = visitor.walkFile f := by
  rw [CircuitVisitor.walkFile, walkItems_visitorOr]
  rfl

end Printer

/-- **A file is printed item by item.**  Printing a file succeeds, and its text is that of its items
with a newline between each two.  The text of a circuit is a header, then a line for each node in
order, indented by four blanks, and a closing line.  The printer never leaves a circuit at depth
zero: what it would do there makes no difference to any walk. -/
theorem File.printed_item_by_item (f : File) :
    ((Printer.visitor.walkFile f).exec ⟨0, [], Printer.start⟩).1 = .ok () ∧
    f.text = "\n".intercalate (f.items.map FileItem.text) ∧
    (∀ c : Circuit, ((Printer.visitor.walkCircuit c).exec ⟨0, [], Printer.start⟩).1 = .ok () ∧
      c.text = Printer.header c.name ++ "\n"
        ++ String.join (c.nodes.map fun node => "    " ++ node.text ++ "\n") ++ "\x7d\n") ∧
    ∀ stray : Circuit → Run Printer Unit,
      (Printer.visitorOr stray).walkFile f = Printer.visitor.walkFile f ∧
      ∀ c, (Printer.visitorOr stray).walkCircuit c = Printer.visitor.walkCircuit c := by
  have hrun := Printer.exec_walkFile (s := ⟨0, [], Printer.start⟩) rfl f
  refine ⟨by rw [hrun], ?_, fun c => ⟨?_, c.text_eq⟩, fun stray => ?_⟩
  · rw [text, Printer.printed, hrun]
    exact Printer.text_foldl_addItem_start f.items
  · rw [Printer.exec_walkCircuit rfl]
  · exact ⟨Printer.walkFile_visitorOr stray f, Printer.walkCircuit_visitorOr stray⟩

end FlowCircuit
