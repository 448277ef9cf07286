import FlowCircuit.Proofs.Fates

/-!
# A file and its items

Circuits of one file may share operators and declarations, with each other and with the top level,
and an edit of the file carries over what has become of them from one circuit to the next.  An edit
of a circuit alone starts with nothing on record.  The results are nevertheless the same up to
labels, for hooks that depend on structure only: what becomes of a node is its fate in either case.

`CircuitEdit.alone` edits one item of a file by itself: a circuit with `apply`, a declaration by
asking the hook.  `CircuitEdit.applyFile_item_by_item` compares it with `applyFile`.
-/

set_option autoImplicit false

namespace FlowCircuit

/-! ## Items up to labels -/

theorem map_unlabelled_survivors (os : List (Option Node)) :
    (survivors os).map Node.unlabelled = survivors (os.map (Option.map Node.unlabelled)) := by
  induction os with
  | nil => rfl
  | cons outcome os ih =>
    rw [List.map_cons, survivors_cons, survivors_cons, List.map_append, ih]
    cases outcome <;> rfl

/-- The structure of a refilled item is told by the structure of what it is filled with. -/
theorem FileItem.map_unlabelled_refill (item : FileItem) (os : List (Option Node)) :
    (item.refill os).map unlabelled =
      item.unlabelled.refill (os.map (Option.map Node.unlabelled)) := by
  cases item with
  | circuit c =>
    simp only [refill, unlabelled, Option.map_some, Circuit.refill, Circuit.unlabelled,
      map_unlabelled_survivors]
  | declaration d =>
    have hdeclaration : Node.declaration? ∘ Node.unlabelled =
        Option.map Declaration.unlabelled ∘ Node.declaration? := by
      funext node
      cases node <;> rfl
    simp only [refill, unlabelled, ← map_unlabelled_survivors, List.findSome?_map, hdeclaration,
      ← List.map_findSome?, Option.map_map]
    rfl

/-- Items in a row, each with inputs before their readers. -/
theorem reads_flatMap {items : List FileItem} (h : ∀ item ∈ items, AtEach Node.Reads item.nodes) :
    AtEach Node.Reads (items.flatMap FileItem.nodes) := by
  induction items with
  | nil => exact atEach_nil
  | cons item items ih =>
    obtain ⟨hitem, hitems⟩ := List.forall_mem_cons.mp h
    rw [List.flatMap_cons, atEach_append]
    refine ⟨hitem, (ih hitems).imp fun before node _ _ hreads op hop input hinput => ?_⟩
    exact List.mem_append_right _ (hreads op hop input hinput)

theorem exists_map_eq_ok_iff {ε α β : Type} {x : Except ε α} {f : α → β} :
    (∃ b, x.map f = .ok b) ↔ ∃ a, x = .ok a := by
  cases x <;> simp [Except.map]

theorem File.mem_circuits {f : File} {c : Circuit} : c ∈ f.circuits ↔ .circuit c ∈ f.items := by
  rw [circuits, List.mem_filterMap]
  constructor
  · rintro ⟨item, hitem, hc⟩
    cases item with
    | declaration d => cases hc
    | circuit c' =>
      obtain rfl := Option.some.inj hc
      exact hitem
  · exact fun h => ⟨_, h, rfl⟩

/-- In an item that exists, inputs stand before their readers if its circuit is valid. -/
theorem World.Real.reads_item {w : World} {next : Label} (hw : w.Real next) {item : FileItem}
    (hnodes : ∀ node ∈ item.nodes, w.Holds node)
    (hvalid : ∀ c, item = .circuit c → c.validate = .ok ()) : AtEach Node.Reads item.nodes := by
  cases item with
  | declaration d =>
    refine atEach_cons.mpr ⟨fun op hop => ?_, atEach_nil⟩
    cases hop
  | circuit c =>
    have hoperators : c.operatorNodes ⊆ w.operators := by
      rintro op (hop | ⟨reader, hreader, hop⟩)
      · exact hnodes _ (Circuit.mem_operators.mp hop)
      · exact hw.inputs reader (hnodes _ (Circuit.mem_operators.mp hreader)) op hop
    exact Circuit.reads_of_validate (hw.operators.subset hoperators).one (hvalid c rfl)

namespace CircuitEdit

variable {σ : Type} {r : CircuitEdit σ} {base : World}

/-- What becomes of an item by itself. -/
def alone (r : CircuitEdit σ) : FileItem → Run σ (Option FileItem)
  | .declaration d => Option.map .declaration <$> r.declaration d
  | .circuit c => (fun c' => some (.circuit c')) <$> r.apply c

/-- At the start nothing is on record, so the hook is asked. -/
theorem fst_exec_editDeclaration (r : CircuitEdit σ) (d : Declaration) (s : Session σ) :
    ((r.editDeclaration d).exec (s.map .start)).1 = ((r.declaration d).exec s).1 := by
  have hask : (Progress.ask (r.declaration d)).exec (s.map .start) =
      (((r.declaration d).exec s).1, ((r.declaration d).exec s).2.map .start) := rfl
  change ((Progress.ask (r.declaration d) >>= _).exec (s.map .start)).1 = _
  rw [Job.exec_bind, hask]
  rcases (r.declaration d).exec s with ⟨_ | _ | new, s'⟩ <;> rfl

/-- An item by itself is edited by editing its nodes from the start. -/
theorem fst_exec_alone (r : CircuitEdit σ) (item : FileItem) (s : Session σ) :
    ((r.alone item).exec s).1 = (r.results item.nodes s).map item.refill := by
  cases item with
  | circuit c =>
    rw [alone, Job.exec_map, fst_exec_apply, FileItem.nodes]
    cases r.results c.nodes s <;> rfl
  | declaration d =>
    calc ((r.alone (.declaration d)).exec s).1
        = ((r.editItem (.declaration d)).exec (s.map .start)).1 := by
          rw [alone, Job.exec_map, editItem, ← map_eq_pure_bind, Job.exec_map,
            fst_exec_editDeclaration]
      _ = (r.results _ s).map _ := by
          rw [editItem_eq, Job.exec_map]
          rfl

/-! ## The file and its items -/

section Compared

variable (hr : r.RespectsStructure base) {w : World}

include hr

/-- Nodes in a row have one fate each, up to labels. -/
theorem RespectsStructure.outcomes_unique {nodes : List Node} {os os' : List (Option Node)}
    {w' : World} (h : List.Forall₂ ((r.fated base).node w) nodes os)
    (h' : List.Forall₂ ((r.fated base).node w') nodes os') :
    os.map (Option.map Node.unlabelled) = os'.map (Option.map Node.unlabelled) :=
  map_eq_of_forall₂ h h' fun _ _ _ => hr.node_unique

/-- A file that is refilled as fated has the structure of its items, each refilled as fated. -/
theorem RespectsStructure.refillItems_unique {items : List FileItem} {os : List (Option Node)}
    (h : List.Forall₂ ((r.fated base).node w) (items.flatMap FileItem.nodes) os)
    {news : List (Option FileItem)}
    (hnews : List.Forall₂ (fun item new =>
      ∃ w os, List.Forall₂ ((r.fated base).node w) item.nodes os ∧ new = item.refill os)
      items news) :
    (File.refillItems items os).map FileItem.unlabelled =
      (news.flatMap Option.toList).map FileItem.unlabelled := by
  induction hnews generalizing os with
  | nil => rfl
  | @cons item new items news hnew _ ih =>
    obtain ⟨w', os', hos', rfl⟩ := hnew
    rw [List.flatMap_cons] at h
    have hfirst := List.forall₂_take item.nodes.length h
    have hrest := List.forall₂_drop item.nodes.length h
    rw [List.take_left] at hfirst
    rw [List.drop_left] at hrest
    have hitem : (item.refill (os.take item.nodes.length)).map FileItem.unlabelled =
        (item.refill os').map FileItem.unlabelled := by
      rw [FileItem.map_unlabelled_refill, FileItem.map_unlabelled_refill,
        hr.outcomes_unique hfirst hos']
    rw [File.refillItems, List.flatMap_cons, List.map_append, List.map_append, ih hrest,
      ← Option.toList_map, ← Option.toList_map, hitem]

end Compared

/-- **A file is edited as its items are.**  The hooks depend on structure only, and make nodes as
every job in a session does; the circuits of the file are valid, and may share nodes with each other
and with the top level.  Then the edit of the file succeeds exactly if that of every item by itself
does, in whatever session, and it gives what these give, in order and up to labels, less the
declarations that are dropped. -/
theorem applyFile_item_by_item (ha : r.Allocates base) (hr : r.RespectsStructure base) {f : File}
    (hnodes : ∀ node ∈ f.nodes, base.Holds node) (hvalid : ∀ c ∈ f.circuits, c.validate = .ok ())
    {s : Session σ} (hs : base.Real s.next) {t : FileItem → Session σ}
    (ht : ∀ item ∈ f.items, base.Real (t item).next) :
    ((∃ f', ((r.applyFile f).exec s).1 = .ok f') ↔
      ∀ item ∈ f.items, ∃ new, ((r.alone item).exec (t item)).1 = .ok new) ∧
    ∀ f', ((r.applyFile f).exec s).1 = .ok f' → ∃ news,
      List.Forall₂ (fun item new => ((r.alone item).exec (t item)).1 = .ok new) f.items news ∧
      f'.items.map FileItem.unlabelled = (news.flatMap Option.toList).map FileItem.unlabelled := by
  have hheld : ∀ item ∈ f.items, ∀ node ∈ item.nodes, base.Holds node :=
    fun item hitem node hnode => hnodes node (List.mem_flatMap.mpr ⟨item, hitem, hnode⟩)
  have hreads : ∀ item ∈ f.items, AtEach Node.Reads item.nodes := fun item hitem =>
    hs.reads_item (hheld item hitem) fun c hc => hvalid c (File.mem_circuits.mpr (hc ▸ hitem))
  have hone (item : FileItem) (hitem : item ∈ f.items) :=
    hr.exists_results_iff ha (ht item hitem) (hheld item hitem) (hreads item hitem)
  have hsuccess : (∃ f', ((r.applyFile f).exec s).1 = .ok f') ↔
      ∀ item ∈ f.items, ∃ new, ((r.alone item).exec (t item)).1 = .ok new := by
    simp only [fst_exec_applyFile, fst_exec_alone, exists_map_eq_ok_iff]
    calc (∃ os, r.results f.nodes s = .ok os)
        ↔ ∀ node ∈ f.nodes, r.HasFate base node :=
          hr.exists_results_iff ha hs hnodes (reads_flatMap hreads)
      _ ↔ ∀ item ∈ f.items, ∀ node ∈ item.nodes, r.HasFate base node := List.forall_mem_flatMap
      _ ↔ ∀ item ∈ f.items, ∃ os, r.results item.nodes (t item) = .ok os :=
          forall₂_congr fun item hitem => (hone item hitem).symm
  refine ⟨hsuccess, fun f' hrun => ?_⟩
  obtain ⟨news, hnews⟩ := forall₂_of_forall_exists (hsuccess.mp ⟨f', hrun⟩)
  refine ⟨news, hnews, ?_⟩
  rw [fst_exec_applyFile] at hrun
  obtain ⟨os, hos, rfl⟩ := map_eq_ok_iff.mp hrun
  obtain ⟨w, hfates⟩ := hr.fated_of_results ha hs hnodes (reads_flatMap hreads) hos
  refine hr.refillItems_unique hfates (forall₂_imp_of_mem hnews fun item hitem new _ hnew => ?_)
  rw [fst_exec_alone] at hnew
  obtain ⟨os', hos', hnew⟩ := map_eq_ok_iff.mp hnew
  obtain ⟨w', hfates'⟩ :=
    hr.fated_of_results ha (ht item hitem) (hheld item hitem) (hreads item hitem) hos'
  exact ⟨w', os', hfates', hnew.symm⟩

namespace Renewal

/-! Sources are made anew, and with them all that is read from them; negations are dropped, and so
are declarations of one name.  The circuits of the file share a source with what reads it and a
declaration, which also stands at the top level. -/

open Sample

variable {op op' new : Operator} {inputs inputs' : List Operator}

/-- An operator made again, whether it has inputs or not. -/
def renewed (label : Label) (op : Operator) (inputs : List Operator) : Except Error Operator :=
  if op.inputs.isEmpty then op.withInputs label inputs else op.rebuildWithInputs label inputs

/-- Drops negations and one declaration, and makes every other operator again. -/
def edit : CircuitEdit Unit where
  keep op := pure (op.kind != .negate)
  operator op inputs := some <$> Job.make fun label => renewed label op inputs
  declaration d := pure (if d.name = "a" then none else some d)

theorem of_renewed {label : Label} (h : renewed label op inputs = .ok new) :
    new = op ∨ new = ⟨label, op.id, op.kind, op.outputTy, op.function, op.aggregate, inputs⟩ ∧
      new.check = .ok () := by
  rw [renewed, Operator.rebuildWithInputs] at h
  split at h
  · exact Or.inr (Operator.of_build_eq_ok h)
  · split at h
    · exact Or.inl (Except.ok.inj h).symm
    · exact Or.inr (Operator.of_build_eq_ok h)

/-- Renewing looks at labels, but not so that it would show in the structure. -/
theorem renewed_agree {w : World} {next : Label} (hw : w.Real next) (hop : op ∈ w.operators)
    (hinputs : ∀ input ∈ inputs, input ∈ w.operators) (label : Label) :
    Agree (fun new new' => new.unlabelled = new'.unlabelled) (renewed label op inputs)
      (op.withInputs label inputs) := by
  rw [renewed]
  split
  · exact Operator.withInputs_agree rfl rfl label label
  · exact Operator.rebuildWithInputs_agree (hw.checked op hop)
      (hw.operators.eq_of_labels (hw.inputs op hop) hinputs) label label

theorem edit_allocates (base : World) : edit.Allocates base where
  keep {w s op} _ hw _ := ⟨w, le_refl w, hw⟩
  operator {w s op inputs} _ hw hop hinputs := by
    change Job.wp (some <$> Job.make _) _ _ _
    rw [map_eq_pure_bind, Job.wp_bind, Job.wp_make]
    split
    · rename_i new hnew
      rcases of_renewed hnew with rfl | ⟨hparts, hcheck⟩
      · exact ⟨w, le_refl w, hw.mono (Nat.le_succ _), by simpa using hop⟩
      · refine ⟨w.insertOperator new, w.le_insertOperator new, ?_, ?_⟩
        · subst hparts
          exact hw.insertOperator rfl hinputs (hw.function op hop) (hw.aggregate op hop) hcheck
        · rintro _ ⟨rfl⟩
          exact Set.mem_insert _ _
    · trivial
  declaration {w s d} _ hw hd := by
    refine ⟨w, le_refl w, hw, fun d' hd' => ?_⟩
    split at hd'
    · cases hd'
    · obtain rfl := Option.some.inj hd'
      exact hd

theorem edit_respectsStructure (base : World) : edit.RespectsStructure base where
  keep {op op' a a'} hop := by
    rintro ⟨w, s, -, -, -, rfl⟩ ⟨w', s', -, -, -, rfl⟩
    have hkind : op.kind = op'.kind := by
      rw [← Operator.kind_unlabelled, hop, Operator.kind_unlabelled]
    exact .ok (congrArg (· != OpKind.negate) hkind)
  operator {op op' inputs inputs' a a'} hop hinputs := by
    rintro ⟨w, s, -, hw, hmem, hall, rfl⟩ ⟨w', s', -, hw', hmem', hall', rfl⟩
    have hsame : Agree (fun new new' => new.unlabelled = new'.unlabelled) (renewed s.next op inputs)
        (renewed s'.next op' inputs') :=
      (renewed_agree hw hmem hall s.next).trans ((Operator.withInputs_agree hop hinputs _ _).trans
        (renewed_agree hw' hmem' hall' s'.next).symm fun _ _ _ h h' => h.trans h'.symm)
        fun _ _ _ h h' => h.trans h'
    change Agree _ ((some <$> Job.make _).exec s).1 ((some <$> Job.make _).exec s').1
    rw [Job.exec_map, Job.exec_map]
    change Agree _ ((renewed s.next op inputs).map some) ((renewed s'.next op' inputs').map some)
    generalize renewed s.next op inputs = x, renewed s'.next op' inputs' = y at hsame ⊢
    cases hsame with
    | ok h => exact .ok (congrArg some h)
    | error e e' => exact .error e e'
  declaration {d d' a a'} hd := by
    rintro ⟨w, s, -, -, -, rfl⟩ ⟨w', s', -, -, -, rfl⟩
    have hname : d.unlabelled.name = d'.unlabelled.name := by rw [hd]
    change d.name = d'.name at hname
    refine .ok ?_
    rw [hname]
    split
    · rfl
    · exact congrArg some hd

/-- The nodes of the sample circuit. -/
def world : World :=
  ⟨circuit.exprNodes, ∅, {op | op ∈ circuit.operators}, {d | d ∈ circuit.declarations}⟩

theorem real_world : world.Real 15 where
  exprs := made_circuit.expressions
  aggregates := ⟨by simp [world], by simp [world]⟩
  operators := made_circuit.operators.subset fun _ => Or.inl
  declarations := made_circuit.declarations
  children := by simp [world]
  inputs := made_circuit.mem_operators_of_validate validate_circuit
  function op hop f hf := Expr.mem_nodes (Circuit.mem_functions_of_operator hop hf)
  aggregate := by simp [world, operators_circuit, source, left, idle, right, total, sink]
  value d hd := Expr.mem_nodes (Circuit.mem_functions_of_declaration hd)
  checked := made_circuit.checked

/-- A file whose second circuit shares nodes with the first. -/
def file : File :=
  ⟨[.declaration ⟨7, "a", five₁⟩, .circuit circuit, .declaration ⟨8, "b", five₂⟩,
    .circuit
      ⟨"part", [.declaration ⟨7, "a", five₁⟩, .operator source, .operator left, .operator idle]⟩]⟩

theorem holds_file : ∀ node ∈ file.nodes, world.Holds node := by
  simp [File.nodes, file, FileItem.nodes, circuit, World.Holds, world, Circuit.operators,
    Circuit.declarations, Node.operator?, Node.declaration?]

theorem validate_file : ∀ c ∈ file.circuits, c.validate = .ok () := by
  rintro c hc
  rw [File.mem_circuits] at hc
  simp only [file, List.mem_cons, reduceCtorEq, FileItem.circuit.injEq, List.not_mem_nil, or_false,
    false_or] at hc
  rcases hc with rfl | rfl
  · exact validate_circuit
  · rfl

theorem length_items :
    (((edit.applyFile file).exec ⟨15, [], ()⟩).1.toOption.map fun f' => f'.items.length) =
      some 3 := by
  decide +kernel

end Renewal

open Renewal

/-- The file and its items, from different labels on. -/
theorem applyFile_item_by_item_renewal :
    (edit.Allocates world ∧ edit.RespectsStructure world ∧ (∀ node ∈ file.nodes, world.Holds node) ∧
      (∀ c ∈ file.circuits, c.validate = .ok ()) ∧ world.Real 15 ∧ world.Real 40) ∧
    ∃ f' news, ((edit.applyFile file).exec ⟨15, [], ()⟩).1 = .ok f' ∧ f'.items.length = 3 ∧
      List.Forall₂ (fun item new => ((edit.alone item).exec ⟨40, [], ()⟩).1 = .ok new)
        file.items news ∧
      f'.items.map FileItem.unlabelled = (news.flatMap Option.toList).map FileItem.unlabelled := by
  have hreal : world.Real 40 := real_world.mono (by decide)
  refine ⟨⟨edit_allocates world, edit_respectsStructure world, holds_file, validate_file,
    real_world, hreal⟩, ?_⟩
  have hcompared := (applyFile_item_by_item (edit_allocates world) (edit_respectsStructure world)
    holds_file validate_file (s := ⟨15, [], ()⟩) real_world (t := fun _ => ⟨40, [], ()⟩)
    fun _ _ => hreal).2
  have hlength := length_items
  cases hrun : ((edit.applyFile file).exec ⟨15, [], ()⟩).1 with
  | error e =>
    rw [hrun] at hlength
    cases hlength
  | ok f' =>
    rw [hrun] at hlength
    obtain ⟨news, hnews, hitems⟩ := hcompared f' hrun
    exact ⟨f', news, rfl, Option.some.inj hlength, hnews, hitems⟩

end CircuitEdit

end FlowCircuit
