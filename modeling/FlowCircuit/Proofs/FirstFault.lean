import FlowCircuit.Proofs.Made

/-!
# The first fault of a circuit

`Circuit.validate` looks operators up by number in a table that it fills as it goes.  What it
decides is about nodes and places: whether each operator reads only operators that stand before it,
the very nodes, under a number of its own (`Circuit.validate_decides`).  Nothing is assumed of the
circuit but that labels tell its operators apart: a node may be listed twice, two operators may be
copies of each other, and an input may stand later in the list or nowhere.

When the answer is no, the first operator that breaks a rule is the one that is reported.  Its
inputs are looked at before its number, and of its inputs the first that is none of the operators
before it is the one that is named: as undefined when none of those has its number, and as a stale
copy when one has (`Circuit.Fault`).
-/

set_option autoImplicit false

namespace FlowCircuit.Circuit

/-! ## Faults -/

/-- The operators that stand in a place before `i`. -/
def operatorsBefore (c : Circuit) (i : Nat) : Set Operator :=
  {op | ∃ j < i, c.nodes[j]? = some (.operator op)}

/-- The input is one of the operators `before`, the very node. -/
def Known (before : Set Operator) (input : Operator) : Prop :=
  ∃ known ∈ before, identical known input = true

/-- The operator breaks a rule: one of the operators `before` has its number, or it reads something
that is none of them. -/
def Faulty (before : Set Operator) (op : Operator) : Prop :=
  (∃ known ∈ before, known.id = op.id) ∨ ∃ input ∈ op.inputs, ¬ Known before input

/-- What is reported of an operator that breaks a rule. -/
inductive Fault (circuit : String) (before : Set Operator) (op : Operator) : Violation → Prop
  /-- The first input that is none of the operators before has a number that none of them has. -/
  | undefinedInput {good rest : List Operator} {input : Operator}
    (hinputs : op.inputs = good ++ input :: rest) (hgood : ∀ x ∈ good, Known before x)
    (hid : ∀ known ∈ before, known.id ≠ input.id) :
    Fault circuit before op (.undefinedInput op.id input.id circuit)
  /-- The first input that is none of the operators before has the number of one of them. -/
  | staleInput {good rest : List Operator} {input : Operator}
    (hinputs : op.inputs = good ++ input :: rest) (hgood : ∀ x ∈ good, Known before x)
    (hid : ∃ known ∈ before, known.id = input.id) (hinput : ¬ Known before input) :
    Fault circuit before op (.staleInput op.id input.id circuit)
  /-- The inputs are in order, and the number is taken. -/
  | duplicateId (hinputs : ∀ x ∈ op.inputs, Known before x)
    (hid : ∃ known ∈ before, known.id = op.id) :
    Fault circuit before op (.duplicateId op.id circuit)

variable {name : String} {before rest : List Operator} {op input : Operator} {e : Error}

/-- What is reported is so. -/
theorem Fault.faulty {S : Set Operator} {violation : Violation} (h : Fault name S op violation)
    (hlabels : ∀ known ∈ S, ∀ input ∈ op.inputs, known.label = input.label → known.id = input.id) :
    Faulty S op := by
  cases h with
  | @undefinedInput good rest input hinputs _ hid =>
    have hinput : input ∈ op.inputs := by simp [hinputs]
    refine .inr ⟨input, hinput, ?_⟩
    rintro ⟨known, hknown, hsame⟩
    exact hid known hknown (hlabels known hknown input hinput (identical_iff.mp hsame))
  | @staleInput good rest input hinputs _ _ hother => exact .inr ⟨input, by simp [hinputs], hother⟩
  | duplicateId _ hid => exact .inl hid

/-! ## One operator -/

/-- An input that is refused is none of the operators before. -/
theorem checkInput_eq_error (hids : (before.map Operator.id).Nodup)
    (hlabels : ∀ known ∈ before, known.label = input.label → known.id = input.id)
    (h : checkInput name before op input = .error e) :
    (∀ known ∈ before, known.id ≠ input.id) ∧ e = .violation (.undefinedInput op.id input.id name) ∨
      (∃ known ∈ before, known.id = input.id) ∧ ¬ Known {known | known ∈ before} input ∧
        e = .violation (.staleInput op.id input.id name) := by
  rw [checkInput] at h
  cases hfind : before.find? fun known => known.id = input.id with
  | none =>
    rw [hfind] at h
    exact .inl ⟨by simpa using hfind, (Except.error.inj h).symm⟩
  | some known =>
    have hmem : known ∈ before := List.mem_of_find?_eq_some hfind
    have hid : known.id = input.id := by simpa using List.find?_some hfind
    simp only [hfind] at h
    split at h
    · cases h
    · rename_i hother
      refine .inr ⟨⟨known, hmem, hid⟩, ?_, (Except.error.inj h).symm⟩
      -- an operator that is the input has its number, and only `known` has that
      rintro ⟨found, hfound, hsame⟩
      have hid' : found.id = input.id := hlabels found hfound (identical_iff.mp hsame)
      obtain rfl : found = known := List.inj_on_of_nodup_map hids hfound hmem (hid'.trans hid.symm)
      exact hother hsame

/-- An input that is accepted is one of the operators before. -/
theorem known_of_checkInput (hids : (before.map Operator.id).Nodup)
    (h : checkInput name before op input = .ok ()) : Known {known | known ∈ before} input := by
  obtain ⟨known, hknown, -, hlabel⟩ := (checkInput_eq_ok_iff hids).mp h
  exact ⟨known, hknown, identical_iff.mpr hlabel⟩

/-- Labels tell whether an operator reads only operators before it. -/
theorem readsFrom_iff
    (hlabels : ∀ known ∈ before, ∀ input ∈ op.inputs, known.label = input.label →
      known.id = input.id) :
    ReadsFrom before op ↔ ∀ input ∈ op.inputs, Known {known | known ∈ before} input := by
  refine forall₂_congr fun input hinput => exists_congr fun known =>
    and_congr_right fun hknown => ?_
  rw [identical_iff]
  exact ⟨And.right, fun h => ⟨hlabels known hknown input hinput h, h⟩⟩

/-- A list of checks fails with the first check that does. -/
theorem forM_eq_error {ε α : Type} {f : α → Except ε Unit} {xs : List α} {e : ε}
    (h : xs.forM f = .error e) :
    ∃ good x rest, xs = good ++ x :: rest ∧ (∀ y ∈ good, f y = .ok ()) ∧ f x = .error e := by
  induction xs with
  | nil => cases h
  | cons x xs ih =>
    rw [List.forM] at h
    cases hx : f x with
    | error e' =>
      rw [hx] at h
      exact ⟨[], x, xs, rfl, List.forall_mem_nil _, hx.trans h⟩
    | ok =>
      rw [hx] at h
      obtain ⟨good, y, rest, rfl, hgood, hy⟩ := ih h
      exact ⟨x :: good, y, rest, rfl, List.forall_mem_cons.mpr ⟨hx, hgood⟩, hy⟩

/-- One step of the check that fails: the operator is at fault, or one of those that are left is. -/
theorem checkOperators_cons_eq_error (hids : (before.map Operator.id).Nodup)
    (hlabels : ∀ known ∈ before, ∀ input ∈ op.inputs, known.label = input.label →
      known.id = input.id)
    (h : checkOperators name before (op :: rest) = .error e) :
    (∃ violation, e = .violation violation ∧ Fault name {known | known ∈ before} op violation) ∨
      ¬ Faulty {known | known ∈ before} op ∧ op.id ∉ before.map Operator.id ∧
        checkOperators name (op :: before) rest = .error e := by
  rw [checkOperators] at h
  cases hinputs : op.inputs.forM (checkInput name before op) with
  | error e' =>
    rw [hinputs] at h
    obtain rfl : e' = e := Except.error.inj h
    obtain ⟨good, input, after, hsplit, hgood, herror⟩ := forM_eq_error hinputs
    have hknown : ∀ x ∈ good, Known {known | known ∈ before} x := fun x hx =>
      known_of_checkInput hids (hgood x hx)
    have hlabels' : ∀ known ∈ before, known.label = input.label → known.id = input.id :=
      fun known hmem => hlabels known hmem input (by simp [hsplit])
    rcases checkInput_eq_error hids hlabels' herror with ⟨hid, rfl⟩ | ⟨hid, hother, rfl⟩
    · exact .inl ⟨_, rfl, .undefinedInput hsplit hknown hid⟩
    · exact .inl ⟨_, rfl, .staleInput hsplit hknown hid hother⟩
  | ok =>
    have hknown : ∀ x ∈ op.inputs, Known {known | known ∈ before} x := fun x hx =>
      known_of_checkInput hids (forM_eq_ok_iff.mp hinputs x hx)
    simp only [hinputs, bind, Except.bind] at h
    split at h
    · rename_i hany
      have hid : ∃ known ∈ before, known.id = op.id := by simpa using hany
      exact .inl ⟨_, (Except.error.inj h).symm, .duplicateId hknown hid⟩
    · rename_i hany
      have hid : ∀ known ∈ before, known.id ≠ op.id := by simpa using hany
      refine .inr ⟨?_, by simpa using hid, h⟩
      rintro (⟨known, hmem, heq⟩ | ⟨input, hinput, hother⟩)
      · exact hid known hmem heq
      · exact hother (hknown input hinput)

/-! ## The run -/

/-- The check of the operators that are left fails with the first that is at fault, given the ones
that were passed. -/
theorem checkOperators_eq_error (hids : (before.map Operator.id).Nodup)
    (hlabels : ∀ known ∈ before ++ rest, ∀ op ∈ rest, ∀ input ∈ op.inputs,
      known.label = input.label → known.id = input.id)
    (h : checkOperators name before rest = .error e) :
    ∃ passed op after violation, rest = passed ++ op :: after ∧ e = .violation violation ∧
      AtEach (fun passed op => ¬ Faulty {known | known ∈ before ∨ known ∈ passed} op) passed ∧
      Fault name {known | known ∈ before ∨ known ∈ passed} op violation := by
  induction rest generalizing before with
  | nil => cases h
  | cons op rest ih =>
    have hnone : {known | known ∈ before ∨ known ∈ ([] : List Operator)} =
        {known | known ∈ before} := by
      simp
    have hop : ∀ known ∈ before, ∀ input ∈ op.inputs, known.label = input.label →
        known.id = input.id :=
      fun known hknown => hlabels known (List.mem_append_left _ hknown) op List.mem_cons_self
    rcases checkOperators_cons_eq_error hids hop h with ⟨violation, rfl, hfault⟩ |
      ⟨hgood, hid, hrest⟩
    · exact ⟨[], op, rest, violation, rfl, rfl, atEach_nil, hnone ▸ hfault⟩
    · have hlabels' : ∀ known ∈ op :: before ++ rest, ∀ op' ∈ rest, ∀ input ∈ op'.inputs,
          known.label = input.label → known.id = input.id := fun known hknown op' hop' =>
        hlabels known (List.perm_middle.mem_iff.mpr hknown) op' (List.mem_cons_of_mem _ hop')
      have hids' : ((op :: before).map Operator.id).Nodup := List.nodup_cons.mpr ⟨hid, hids⟩
      obtain ⟨passed, op', after, violation, rfl, rfl, hpassed, hfault⟩ := ih hids' hlabels' hrest
      have hmove (xs : List Operator) : {known | known ∈ op :: before ∨ known ∈ xs} =
          {known | known ∈ before ∨ known ∈ op :: xs} := by
        ext known
        simp [or_assoc, or_left_comm]
      refine ⟨op :: passed, op', after, violation, rfl, rfl, atEach_cons.mpr ⟨hnone ▸ hgood, ?_⟩,
        hmove passed ▸ hfault⟩
      exact hpassed.imp fun earlier x _ _ hx => hmove earlier ▸ hx

/-! ## Places -/

variable {c : Circuit} {next : Label}

theorem operatorsBefore_eq (c : Circuit) (i : Nat) :
    c.operatorsBefore i = {op | op ∈ (c.nodes.take i).filterMap Node.operator?} := by
  ext op
  have hmem : op ∈ (c.nodes.take i).filterMap Node.operator? ↔ .operator op ∈ c.nodes.take i :=
    mem_operators (c := ⟨c.name, c.nodes.take i⟩)
  rw [Set.mem_ofPred_eq, hmem, List.mem_iff_getElem?]
  constructor
  · rintro ⟨j, hj, hop⟩
    exact ⟨j, by rwa [List.getElem?_take_of_lt hj]⟩
  · rintro ⟨j, hop⟩
    rw [List.getElem?_take] at hop
    split at hop
    case isTrue hj => exact ⟨j, hj, hop⟩
    case isFalse => cases hop

/-- What holds at each operator holds in each place where an operator stands. -/
theorem atEach_operators_iff {P : List Operator → Operator → Prop} :
    AtEach P c.operators ↔ ∀ i op, c.nodes[i]? = some (.operator op) →
      P ((c.nodes.take i).filterMap Node.operator?) op := by
  rw [operators, atEach_filterMap]
  constructor
  · intro h i op hop
    exact h.of_getElem? hop op rfl
  · rintro h before node after hnodes op hop
    cases node with
    | declaration => cases hop
    | operator op' =>
      obtain rfl : op' = op := by simpa [Node.operator?] using hop
      simpa [hnodes] using h before.length op' (by simp [hnodes])

/-- An operator stands in a place, behind the operators before it. -/
theorem exists_place {passed after : List Operator} (h : c.operators = passed ++ op :: after) :
    ∃ i, c.nodes[i]? = some (.operator op) ∧
      (c.nodes.take i).filterMap Node.operator? = passed := by
  obtain ⟨nodes₁, nodes₂, hnodes, rfl, h₂⟩ := List.filterMap_eq_append_iff.mp h
  obtain ⟨others, node, nodes₃, rfl, hothers, hnode, -⟩ := List.filterMap_eq_cons_iff.mp h₂
  cases node with
  | declaration => cases hnode
  | operator op' =>
    obtain rfl : op' = op := by simpa [Node.operator?] using hnode
    refine ⟨(nodes₁ ++ others).length, ?_, ?_⟩
    · simp [hnodes, ← List.append_assoc]
    · have htake : c.nodes.take (nodes₁ ++ others).length = nodes₁ ++ others := by
        rw [hnodes, ← List.append_assoc, List.take_left']
        rfl
      rw [htake, List.filterMap_append, List.filterMap_eq_nil_iff.mpr hothers, List.append_nil]

theorem mem_operators_of_take {i : Nat} (h : op ∈ (c.nodes.take i).filterMap Node.operator?) :
    op ∈ c.operators :=
  ((List.take_sublist i c.nodes).filterMap _).subset h

/-! ## The whole circuit -/

section Drawn

variable (hc : Drawn c.operatorNodes next)

include hc

/-- An operator that is an input, as a node, has its number. -/
theorem id_eq_of_label : ∀ known ∈ c.operators, ∀ op ∈ c.operators, ∀ input ∈ op.inputs,
    known.label = input.label → known.id = input.id :=
  fun known hknown op hop input hinput hlabel =>
    congrArg Operator.id (hc.one known (.inl hknown) input (.inr ⟨op, hop, hinput⟩) hlabel)

/-- Well-formedness in terms of nodes and places. -/
theorem validate_eq_ok_iff_known :
    c.validate = .ok () ↔ (c.operators.map Operator.id).Nodup ∧
      ∀ i op, c.nodes[i]? = some (.operator op) →
        ∀ input ∈ op.inputs, Known (c.operatorsBefore i) input := by
  rw [validate_eq_ok_iff, atEach_operators_iff]
  refine and_congr_right fun _ => forall₃_congr fun i op hplace => ?_
  have hop : op ∈ c.operators := mem_operators.mpr (List.mem_of_getElem? hplace)
  rw [operatorsBefore_eq]
  exact readsFrom_iff fun known hknown =>
    id_eq_of_label hc known (mem_operators_of_take hknown) op hop

/-- A check that fails reports the first operator that breaks a rule. -/
theorem exists_fault_of_validate {e : Error} (h : c.validate = .error e) :
    ∃ i op violation, c.nodes[i]? = some (.operator op) ∧ Faulty (c.operatorsBefore i) op ∧
      (∀ j < i, ∀ other, c.nodes[j]? = some (.operator other) →
        ¬ Faulty (c.operatorsBefore j) other) ∧
      Fault c.name (c.operatorsBefore i) op violation ∧ e = .violation violation := by
  have hids : (([] : List Operator).map Operator.id).Nodup := List.nodup_nil
  obtain ⟨passed, op, after, violation, hsplit, rfl, hpassed, hfault⟩ :=
    checkOperators_eq_error hids (id_eq_of_label hc) h
  obtain ⟨i, hplace, rfl⟩ := exists_place hsplit
  have hop : op ∈ c.operators := mem_operators.mpr (List.mem_of_getElem? hplace)
  have hbefore (xs : List Operator) : {known | known ∈ [] ∨ known ∈ xs} = {known | known ∈ xs} := by
    simp
  rw [hbefore, ← operatorsBefore_eq] at hfault
  refine ⟨i, op, violation, hplace, hfault.faulty ?_, fun j hj other hother => ?_, hfault, rfl⟩
  · rw [operatorsBefore_eq]
    exact fun known hknown => id_eq_of_label hc known (mem_operators_of_take hknown) op hop
  · have hfirst := (atEach_operators_iff (c := ⟨c.name, c.nodes.take i⟩)).mp hpassed j other
    rw [operatorsBefore_eq, ← hbefore]
    simpa [List.take_take, Nat.min_eq_left hj.le, hj] using hfirst (by simpa [hj] using hother)

end Drawn

/-- **What the check decides.**  A circuit is found well formed exactly when the numbers of its
operators are pairwise distinct and every input of the operator in place `i` is, as a node, an
operator in a place before `i`.  Otherwise the check fails with what there is to report of the first
operator that breaks one of these rules. -/
theorem validate_decides (hc : Drawn c.operatorNodes next) :
    (c.validate = .ok () ↔ (c.operators.map Operator.id).Nodup ∧
      ∀ i op, c.nodes[i]? = some (.operator op) → ∀ input ∈ op.inputs,
        Known (c.operatorsBefore i) input) ∧
    (c.validate ≠ .ok () → ∃ i op violation, c.nodes[i]? = some (.operator op) ∧
      Faulty (c.operatorsBefore i) op ∧
      (∀ j < i, ∀ other, c.nodes[j]? = some (.operator other) →
        ¬ Faulty (c.operatorsBefore j) other) ∧
      Fault c.name (c.operatorsBefore i) op violation ∧
        c.validate = .error (.violation violation)) := by
  refine ⟨validate_eq_ok_iff_known hc, fun hinvalid => ?_⟩
  cases hvalidate : c.validate with
  | ok => exact absurd hvalidate hinvalid
  | error e =>
    obtain ⟨i, op, violation, hplace, hfaulty, hfirst, hfault, rfl⟩ :=
      exists_fault_of_validate hc hvalidate
    exact ⟨i, op, violation, hplace, hfaulty, hfirst, hfault, rfl⟩

namespace Copies

/-! An operator adds up a source and a copy of the source that is not in the circuit, and the source
is listed again behind it. -/

/-- The source once more, as a node of its own. -/
def copy : Operator := { Sample.source with label := 10 }

/-- A sum that reads the source and its copy. -/
def total : Operator := ⟨11, 1, .sum, Sample.stream, none, none, [Sample.source, copy]⟩

/-- The source is listed twice, and its copy is not listed. -/
def circuit : Circuit :=
  ⟨"copies", [.operator Sample.source, .operator total, .operator Sample.source]⟩

theorem operators_circuit : circuit.operators = [Sample.source, total, Sample.source] := rfl

theorem drawn_operatorNodes : Drawn circuit.operatorNodes 12 := by
  refine .of_list (l := [Sample.source, copy, total]) ?_ (by decide) (by decide)
  rintro op (hop | ⟨reader, hreader, hop⟩)
  · rw [operators_circuit] at hop
    grind
  · rw [operators_circuit] at hreader
    grind [total, Sample.source]

theorem validate_circuit : circuit.validate = .error (.violation (.staleInput 1 0 "copies")) := rfl

end Copies

theorem validate_decides_copies :
    Drawn Copies.circuit.operatorNodes 12 ∧ Copies.circuit.validate ≠ .ok () ∧
      ∃ i op violation, Copies.circuit.nodes[i]? = some (.operator op) ∧
        Faulty (Copies.circuit.operatorsBefore i) op ∧
        (∀ j < i, ∀ other, Copies.circuit.nodes[j]? = some (.operator other) →
          ¬ Faulty (Copies.circuit.operatorsBefore j) other) ∧
        Fault "copies" (Copies.circuit.operatorsBefore i) op violation ∧
        Copies.circuit.validate = .error (.violation violation) := by
  have hinvalid : Copies.circuit.validate ≠ .ok () := by
    rw [Copies.validate_circuit]
    simp
  exact ⟨Copies.drawn_operatorNodes, hinvalid,
    (validate_decides Copies.drawn_operatorNodes).2 hinvalid⟩

end FlowCircuit.Circuit
