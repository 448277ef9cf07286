import FlowCircuit.Proofs.Labels
import FlowCircuit.Proofs.Lists
import Mathlib.Data.List.Nodup

/-!
# What it means for a circuit to be well formed

`Circuit.validate` goes through the operators once and reports the first thing it finds.  When it
finds nothing, two things hold that can be said without a pass through the list: no number occurs
twice, and every operator reads only operators before it (`Circuit.validate_eq_ok_iff`).
-/

set_option autoImplicit false

namespace FlowCircuit

/-- The operators that the node reads, if it reads any, are among `nodes`. -/
def Node.Reads (nodes : List Node) (node : Node) : Prop :=
  ∀ op ∈ node.operator?, ∀ input ∈ op.inputs, .operator input ∈ nodes

namespace Circuit

/-- Every input of `op` is found by number and label among the operators before it. -/
def ReadsFrom (before : List Operator) (op : Operator) : Prop :=
  ∀ input ∈ op.inputs, ∃ known ∈ before, known.id = input.id ∧ known.label = input.label

/-- Where numbers are distinct, finding an operator by number is finding *the* operator. -/
theorem checkInput_eq_ok_iff {name : String} {before : List Operator} {op input : Operator}
    (hids : (before.map Operator.id).Nodup) :
    checkInput name before op input = .ok () ↔
      ∃ known ∈ before, known.id = input.id ∧ known.label = input.label := by
  rw [checkInput]
  cases hfind : before.find? fun known => known.id = input.id with
  | none =>
    have hnone : ∀ known ∈ before, known.id ≠ input.id := by simpa using hfind
    refine iff_of_false nofun ?_
    rintro ⟨known, hknown, hid, -⟩
    exact hnone known hknown hid
  | some known =>
    have hmem : known ∈ before := List.mem_of_find?_eq_some hfind
    have hid : known.id = input.id := by simpa using List.find?_some hfind
    have hlabel : (∃ known ∈ before, known.id = input.id ∧ known.label = input.label) ↔
        identical known input = true := by
      refine ⟨?_, fun h => ⟨known, hmem, hid, identical_iff.mp h⟩⟩
      rintro ⟨other, hother, hid', hlabel⟩
      have hsame : other = known :=
        List.inj_on_of_nodup_map hids hother hmem (hid'.trans hid.symm)
      exact identical_iff.mpr (hsame ▸ hlabel)
    rw [hlabel]
    split <;> simp_all

theorem forM_eq_ok_iff {ε α : Type} {f : α → Except ε Unit} {xs : List α} :
    xs.forM f = .ok () ↔ ∀ x ∈ xs, f x = .ok () := by
  induction xs with
  | nil => simp [pure, Except.pure]
  | cons x xs ih =>
    rw [List.forM, List.forall_mem_cons, ← ih]
    cases f x <;> simp [bind, Except.bind]

/-- One step of the check. -/
theorem checkOperators_cons_eq_ok_iff {name : String} {before rest : List Operator}
    {op : Operator} :
    checkOperators name before (op :: rest) = .ok () ↔
      (∀ input ∈ op.inputs, checkInput name before op input = .ok ()) ∧
        op.id ∉ before.map Operator.id ∧ checkOperators name (op :: before) rest = .ok () := by
  rw [checkOperators, ← forM_eq_ok_iff]
  cases op.inputs.forM (checkInput name before op) with
  | error e => simp [bind, Except.bind]
  | ok =>
    by_cases hid : op.id ∈ before.map Operator.id
    · have hany : (before.any fun known => known.id = op.id) = true := by simpa using hid
      simp [hany, hid, bind, Except.bind, throw, throwThe, MonadExceptOf.throw]
    · have hany : (before.any fun known => known.id = op.id) = false := by simpa using hid
      simp [hany, hid, bind, Except.bind]

/-- The check of the operators that are left, given the ones that were passed, the latest first. -/
theorem checkOperators_eq_ok_iff {name : String} {before rest : List Operator}
    (hids : (before.map Operator.id).Nodup) :
    checkOperators name before rest = .ok () ↔
      ((before.reverse ++ rest).map Operator.id).Nodup ∧
        AtEach (fun passed => ReadsFrom (before.reverse ++ passed)) rest := by
  induction rest generalizing before with
  | nil =>
    refine iff_of_true rfl ⟨?_, atEach_nil⟩
    rwa [List.append_nil, List.map_reverse, List.nodup_reverse]
  | cons op rest ih =>
    have hreads : (∀ input ∈ op.inputs, checkInput name before op input = .ok ()) ↔
        ReadsFrom (before.reverse ++ []) op := by
      simp [ReadsFrom, checkInput_eq_ok_iff hids]
    rw [checkOperators_cons_eq_ok_iff, atEach_cons, hreads]
    by_cases hid : op.id ∈ before.map Operator.id
    · refine iff_of_false (fun h => h.2.1 hid) fun h => ?_
      rw [List.map_append, List.nodup_append] at h
      exact h.1.2.2 op.id (by simpa using hid) op.id (by simp) rfl
    · have hids' : ((op :: before).map Operator.id).Nodup := List.nodup_cons.mpr ⟨hid, hids⟩
      rw [ih hids']
      simp [hid, and_left_comm]

/-- **A circuit is well formed** exactly when no number occurs twice and every operator reads only
operators before it. -/
theorem validate_eq_ok_iff {c : Circuit} :
    c.validate = .ok () ↔ (c.operators.map Operator.id).Nodup ∧ AtEach ReadsFrom c.operators :=
  checkOperators_eq_ok_iff List.nodup_nil

/-- A circuit whose operators read what stands before them is well formed, as long as no number
occurs twice. -/
theorem validate_eq_ok_of_reads {c : Circuit} (hids : (c.operators.map Operator.id).Nodup)
    (h : AtEach Node.Reads c.nodes) : c.validate = .ok () := by
  refine validate_eq_ok_iff.mpr ⟨hids, atEach_filterMap.mpr (h.imp fun before node _ _ hnode => ?_)⟩
  intro op hop input hinput
  exact ⟨input, List.mem_filterMap.mpr ⟨_, hnode op hop input hinput, rfl⟩, rfl, rfl⟩

theorem mem_operators {c : Circuit} {op : Operator} :
    op ∈ c.operators ↔ .operator op ∈ c.nodes := by
  simp only [operators, List.mem_filterMap]
  constructor
  · rintro ⟨node, hnode, hop⟩
    cases node with
    | declaration => cases hop
    | operator op' =>
      obtain rfl : op' = op := by simpa [Node.operator?] using hop
      exact hnode
  · exact fun h => ⟨.operator op, h, rfl⟩

/-- A circuit whose operators read only what stands before them has the inputs of its operators. -/
theorem mem_operators_of_reads {c : Circuit} (h : AtEach Node.Reads c.nodes) {op input : Operator}
    (hop : op ∈ c.operators) (hinput : input ∈ op.inputs) : input ∈ c.operators := by
  obtain ⟨before, after, hnodes⟩ := List.append_of_mem (mem_operators.mp hop)
  rw [mem_operators, hnodes]
  exact List.mem_append_left _ (h before _ after hnodes op rfl input hinput)

end Circuit

end FlowCircuit
