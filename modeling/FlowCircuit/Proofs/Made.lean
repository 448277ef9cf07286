import FlowCircuit.Proofs.Heap
import FlowCircuit.Proofs.Validity

/-!
# Circuits that are made

Expressions, operators and declarations exist only through checked constructors, which draw a new
label for each.  `Circuit.Made c next` is what that gives for the nodes of a circuit when `next` is
the next unused label: the nodes of its functions and declaration values are a heap, no two
operators or declarations share a label, and every operator keeps the rules of its kind.  It says
nothing about the circuit as a whole, which may be ill formed in every way.

The rules of a kind look at little.  An operator keeps them when its function is replaced by one of
the same type, a Z-set by a Z-set, and its inputs by ones of the same types
(`Operator.check_of_parts`).
-/

set_option autoImplicit false

namespace FlowCircuit

/-! ## The nodes of a circuit -/

/-- The function of an operator, or the value of a declaration. -/
def Node.functions : Node → List Expr
  | .declaration d => [d.value]
  | .operator op => op.function.toList

namespace Circuit

variable {c : Circuit}

/-- The functions of the operators and the values of the declarations, in order. -/
def functions (c : Circuit) : List Expr := c.nodes.flatMap Node.functions

/-- The expression nodes that can be reached from functions and declaration values. -/
def exprNodes (c : Circuit) : Set Expr := Expr.nodes c.functions

/-- The operators of the circuit, and what they read. -/
def operatorNodes (c : Circuit) : Set Operator :=
  {op | op ∈ c.operators ∨ ∃ reader ∈ c.operators, op ∈ reader.inputs}

/-- All parts of the circuit come from checked constructors. -/
structure Made (c : Circuit) (next : Label) : Prop where
  expressions : Heap c.exprNodes next
  operators : Drawn c.operatorNodes next
  declarations : Drawn {d | d ∈ c.declarations} next
  checked : ∀ op ∈ c.operators, op.check = .ok ()

theorem mem_declarations {d : Declaration} : d ∈ c.declarations ↔ .declaration d ∈ c.nodes := by
  simp only [declarations, List.mem_filterMap]
  constructor
  · rintro ⟨node, hnode, hd⟩
    cases node with
    | operator => cases hd
    | declaration d' =>
      obtain rfl : d' = d := by simpa [Node.declaration?] using hd
      exact hnode
  · exact fun h => ⟨.declaration d, h, rfl⟩

theorem mem_functions_of_operator {op : Operator} (hop : op ∈ c.operators) {f : Expr}
    (hf : op.function = some f) : f ∈ c.functions :=
  List.mem_flatMap.mpr ⟨_, mem_operators.mp hop, by simp [Node.functions, hf]⟩

theorem mem_functions_of_declaration {d : Declaration} (hd : d ∈ c.declarations) :
    d.value ∈ c.functions :=
  List.mem_flatMap.mpr ⟨_, mem_declarations.mp hd, by simp [Node.functions]⟩

/-- Taking nodes away leaves a circuit that is made. -/
theorem Made.of_subset {c' : Circuit} {next next' : Label} (hc : c.Made next)
    (hnodes : c'.nodes ⊆ c.nodes) (hle : next ≤ next') : c'.Made next' := by
  have hoperators : ∀ op ∈ c'.operators, op ∈ c.operators := fun op hop =>
    mem_operators.mpr (hnodes (mem_operators.mp hop))
  have hfunctions : ∀ f ∈ c'.functions, f ∈ c.exprNodes := fun f hf => by
    obtain ⟨node, hnode, hf⟩ := List.mem_flatMap.mp hf
    exact Expr.mem_nodes (List.mem_flatMap.mpr ⟨node, hnodes hnode, hf⟩)
  refine ⟨?_, ?_, ?_, fun op hop => hc.checked op (hoperators op hop)⟩
  · exact (hc.expressions.mono hle).restrict
      (Expr.nodes_subset hc.expressions.closed hfunctions) (Expr.nodes_closed _)
  · refine (hc.operators.mono hle).subset ?_
    rintro op (hop | ⟨reader, hreader, hop⟩)
    · exact Or.inl (hoperators op hop)
    · exact Or.inr ⟨reader, hoperators reader hreader, hop⟩
  · exact (hc.declarations.mono hle).subset fun d hd =>
      mem_declarations.mpr (hnodes (mem_declarations.mp hd))

/-- In a well-formed circuit the inputs of an operator stand before it, contents and all. -/
theorem reads_of_validate
    (hone : ∀ a ∈ c.operatorNodes, ∀ b ∈ c.operatorNodes, a.label = b.label → a = b)
    (hv : c.validate = .ok ()) : AtEach Node.Reads c.nodes := by
  have hreads := atEach_filterMap.mp (validate_eq_ok_iff.mp hv).2
  refine hreads.imp fun before node hbefore hnode h op hop input hinput => ?_
  obtain ⟨known, hknown, -, hlabel⟩ := h op hop input hinput
  obtain ⟨node', hnode', hop'⟩ := List.mem_filterMap.mp hknown
  have hknown' : known ∈ c.operators := List.mem_filterMap.mpr ⟨node', hbefore hnode', hop'⟩
  have hop'' : op ∈ c.operators := List.mem_filterMap.mpr ⟨node, hnode, hop⟩
  have hsame : known = input :=
    hone _ (Or.inl hknown') _ (Or.inr ⟨op, hop'', hinput⟩) hlabel
  cases node' with
  | declaration => cases hop'
  | operator op' =>
    obtain rfl : op' = known := by simpa [Node.operator?] using hop'
    exact hsame ▸ hnode'

theorem Made.mem_operators_of_validate {next : Label} (hc : c.Made next)
    (hv : c.validate = .ok ()) :
    ∀ op ∈ c.operators, ∀ input ∈ op.inputs, input ∈ c.operators := fun _ hop _ hinput =>
  mem_operators_of_reads (reads_of_validate hc.operators.one hv) hop hinput

end Circuit

/-! ## Rules of a kind -/

namespace Operator

variable {op new : Operator}

/-- A check followed by others. -/
theorem guard_eq_ok_iff {ε : Type} {broken : Bool} {e : ε} {rest : Unit → Except ε Unit} :
    (if broken = true then throw e >>= rest else rest ()) = .ok () ↔
      broken = false ∧ rest () = .ok () := by
  cases broken <;> simp [bind, Except.bind, throw, throwThe, MonadExceptOf.throw]

/-- The last rule: a kind that preserves types has inputs of the type of its output. -/
theorem inputTypes_eq_ok_iff :
    (if op.kind.preservesType = true then
      match op.inputs.find? fun input => !input.outputTy.same op.outputTy with
      | some input =>
        throw (.mismatch (.operatorInput input.id op.kind op.id) op.outputTy input.outputTy)
      | none => pure ()
    else pure () : Except Error Unit) = .ok () ↔
      (op.kind.preservesType = true → ∀ input ∈ op.inputs, input.outputTy = op.outputTy) := by
  split
  · rename_i hpreserves
    split
    · rename_i input hfind
      have hne : input.outputTy ≠ op.outputTy := fun heq => by
        simpa [heq, Ty.same_refl] using List.find?_some hfind
      have hmem : input ∈ op.inputs := List.mem_of_find?_eq_some hfind
      refine iff_of_false ?_ fun h => hne (h hpreserves input hmem)
      simp [throw, throwThe, MonadExceptOf.throw]
    · rename_i hfind
      exact iff_of_true rfl fun _ => by simpa using hfind
  · rename_i hpreserves
    exact iff_of_true rfl fun h => absurd h hpreserves

theorem check_eq_ok_iff :
    op.check = .ok () ↔ (!op.kind.arity.accepts op.inputs.length) = false ∧
      (op.kind.needsFunction && op.function.isNone) = false ∧
      (op.aggregate.isSome && !op.kind.isAggregate) = false ∧
      (op.kind.isAggregate && op.aggregate.isNone && op.function.isNone) = false ∧
      (∀ f ∈ op.function, checkFunction op.id op.kind op.outputTy f = .ok ()) ∧
      (op.kind.preservesType = true → ∀ input ∈ op.inputs, input.outputTy = op.outputTy) := by
  rw [check]
  simp only [guard_eq_ok_iff]
  refine and_congr_right fun _ => and_congr_right fun _ => and_congr_right fun _ =>
    and_congr_right fun _ => ?_
  cases op.function with
  | none => exact inputTypes_eq_ok_iff.trans (by simp)
  | some f =>
    simp only [Option.mem_some, forall_eq']
    cases checkFunction op.id op.kind op.outputTy f with
    | error e => simp [bind, Except.bind]
    | ok => exact inputTypes_eq_ok_iff.trans (by simp)

/-- An operator that keeps the rules is made. -/
theorem build_eq_ok {label : Label} {id : OpId} {kind : OpKind} {outputTy : Ty}
    {function : Option Expr} {aggregate : Option Aggregate} {inputs : List Operator}
    (h : check ⟨label, id, kind, outputTy, function, aggregate, inputs⟩ = .ok ()) :
    build label id kind outputTy function aggregate inputs =
      .ok ⟨label, id, kind, outputTy, function, aggregate, inputs⟩ := by
  rw [build, h]
  rfl

/-- An operator that is made has the parts it is made from, and keeps the rules. -/
theorem of_build_eq_ok {label : Label} {id : OpId} {kind : OpKind} {outputTy : Ty}
    {function : Option Expr} {aggregate : Option Aggregate} {inputs : List Operator}
    (h : build label id kind outputTy function aggregate inputs = .ok op) :
    op = ⟨label, id, kind, outputTy, function, aggregate, inputs⟩ ∧ op.check = .ok () := by
  rw [build] at h
  cases hcheck : check ⟨label, id, kind, outputTy, function, aggregate, inputs⟩ with
  | error e =>
    rw [hcheck] at h
    cases h
  | ok =>
    rw [hcheck] at h
    cases h
    exact ⟨rfl, hcheck⟩

/-- A replacement has the parts it is made from. -/
theorem eq_of_withParts {label : Label} {op op' : Operator} {function : Option Expr}
    {aggregate : Option Aggregate} {inputs : List Operator}
    (h : op.withParts label function aggregate inputs = .ok op') :
    op' = ⟨label, op.id, op.kind, op.outputTy, function, aggregate, inputs⟩ :=
  (of_build_eq_ok h).1

/-- A function of the same type that is a Z-set whenever the other is serves the same operators. -/
theorem checkFunction_of_parts {id id' : OpId} {kind : OpKind} {ty : Ty} {f f' : Expr}
    (hty : f'.ty = f.ty) (hz : f.zset?.isSome → f'.zset?.isSome)
    (h : checkFunction id kind ty f = .ok ()) : checkFunction id' kind ty f' = .ok () := by
  cases kind with
  | constant =>
    simp only [checkFunction] at h
    split at h
    · cases h
    · rename_i hsome
      have hz' : f'.zset?.isNone = false := by
        simpa using hz (by simpa [Option.isSome_iff_ne_none] using hsome)
      simp only [checkFunction, hz', hty]
      split at h
      · cases h
      · simp_all
  | filter =>
    simp only [checkFunction] at h
    split at h
    · simp_all [checkFunction]
    · cases h
  | _ => rfl

/-- **The rules of a kind look only at types.** -/
theorem check_of_parts (h : op.check = .ok ()) (hkind : new.kind = op.kind)
    (hty : new.outputTy = op.outputTy) (haggregate : new.aggregate = op.aggregate)
    (hfunction : Option.Rel (fun f f' => f'.ty = f.ty ∧ (f.zset?.isSome → f'.zset?.isSome))
      op.function new.function)
    (hinputs : new.inputs.map outputTy = op.inputs.map outputTy) : new.check = .ok () := by
  have hlength : new.inputs.length = op.inputs.length := by simpa using congrArg List.length hinputs
  have hnone : new.function.isNone = op.function.isNone := by
    generalize op.function = f, new.function = f' at hfunction
    cases hfunction <;> rfl
  obtain ⟨h₁, h₂, h₃, h₄, h₅, h₆⟩ := check_eq_ok_iff.mp h
  refine check_eq_ok_iff.mpr ⟨?_, ?_, ?_, ?_, ?_, ?_⟩
  · rwa [hkind, hlength]
  · rwa [hkind, hnone]
  · rwa [hkind, haggregate]
  · rwa [hkind, haggregate, hnone]
  · generalize hf : op.function = f, hf' : new.function = f' at hfunction
    rw [hkind, hty]
    cases hfunction with
    | none => simp
    | some hpart =>
      rintro _ ⟨rfl⟩
      exact checkFunction_of_parts hpart.1 hpart.2 (h₅ _ hf)
  · intro hpreserves input hinput
    rw [hkind] at hpreserves
    have hmem : input.outputTy ∈ op.inputs.map outputTy := hinputs ▸ List.mem_map_of_mem hinput
    obtain ⟨old, hold, heq⟩ := List.mem_map.mp hmem
    rw [← heq, hty, h₆ hpreserves old hold]

end Operator

/-- A circuit is made if its nodes have labels of their own and its operators read only each
other. -/
theorem Circuit.made_of_drawn {c : Circuit} {next : Label} (hexprs : Heap c.exprNodes next)
    (hnodes : Drawn {node | node ∈ c.nodes} next)
    (hinputs : ∀ op ∈ c.operators, ∀ input ∈ op.inputs, input ∈ c.operators)
    (hchecked : ∀ op ∈ c.operators, op.check = .ok ()) : c.Made next := by
  have hone : ∀ a ∈ c.nodes, ∀ b ∈ c.nodes, a.label = b.label → a = b := hnodes.one
  have hused : ∀ a ∈ c.nodes, a.label < next := hnodes.used
  have hoperator : ∀ op ∈ c.operatorNodes, .operator op ∈ c.nodes := by
    rintro op (hop | ⟨reader, hreader, hop⟩)
    · exact mem_operators.mp hop
    · exact mem_operators.mp (hinputs reader hreader op hop)
  have hdeclaration : ∀ d ∈ c.declarations, .declaration d ∈ c.nodes := fun d => mem_declarations.mp
  refine ⟨hexprs, ⟨fun a ha b hb hab => ?_, fun a ha => hused _ (hoperator a ha)⟩,
    ⟨fun a ha b hb hab => ?_, fun a ha => hused _ (hdeclaration a ha)⟩, hchecked⟩
  · exact Node.operator.inj (hone _ (hoperator a ha) _ (hoperator b hb) hab)
  · exact Node.declaration.inj (hone _ (hdeclaration a ha) _ (hdeclaration b hb) hab)

/-! ## A circuit that is made

Two operators add five to their input, each with a closure of its own, and their results are added
up for a sink.  One of them is also read by an operator that nobody reads, and the two fives are
declared twice. -/

namespace Sample

/-- A variable. -/
def x : Expr := ⟨0, .int32 false, .var "x"⟩

/-- A number. -/
def five₁ : Expr := ⟨1, .int32 false, .literal (.integer 5)⟩

/-- The same number as another node. -/
def five₂ : Expr := ⟨2, .int32 false, .literal (.integer 5)⟩

/-- A sum over the first number. -/
def sum₁ : Expr := ⟨3, .int32 false, .binary .add x five₁⟩

/-- The same sum over the second number. -/
def sum₂ : Expr := ⟨4, .int32 false, .binary .add x five₂⟩

/-- A function of `x`. -/
def function (label : Label) (body : Expr) : Expr :=
  ⟨label, .functionOf [.int32 false] (.int32 false), .closure [⟨"x", .int32 false⟩] body⟩

/-- The expression nodes of the circuit. -/
def exprs : List Expr := [x, five₁, five₂, sum₁, sum₂, function 5 sum₁, function 6 sum₂]

/-- The type of all streams in the circuit. -/
def stream : Ty := .zsetOf (.int32 false) .defaultWeight

/-- Where the numbers come from. -/
def source : Operator := ⟨9, 0, .source "in", stream, none, none, []⟩

/-- Applies the first function. -/
def left : Operator := ⟨10, 1, .map, stream, some (function 5 sum₁), none, [source]⟩

/-- Is read by nothing. -/
def idle : Operator := ⟨11, 2, .negate, stream, none, none, [left]⟩

/-- Applies the second function, which is the same. -/
def right : Operator := ⟨12, 3, .map, stream, some (function 6 sum₂), none, [source]⟩

/-- Joins both sides. -/
def total : Operator := ⟨13, 4, .sum, stream, none, none, [left, right]⟩

/-- Where the numbers go. -/
def sink : Operator := ⟨14, 5, .sink "out", stream, none, none, [total]⟩

/-- Two declarations, and a diamond of operators with one to the side. -/
def circuit : Circuit :=
  ⟨"sample", [.declaration ⟨7, "a", five₁⟩, .operator source, .operator left, .operator idle,
    .declaration ⟨8, "b", five₂⟩, .operator right, .operator total, .operator sink]⟩

theorem validate_circuit : circuit.validate = .ok () := by rfl

theorem operators_circuit : circuit.operators = [source, left, idle, right, total, sink] := rfl

theorem made_circuit : circuit.Made 15 := by
  refine Circuit.made_of_drawn (Heap.of_list (l := exprs) ?_ ?_ ?_ ?_ ?_)
    (.of_list (l := circuit.nodes) (fun _ h => h) ?_ ?_) ?_ ?_
  · simp [Circuit.functions, circuit, Node.functions, source, left, idle, right, total, sink, exprs]
  · simp [exprs, Expr.children, Form.children, x, five₁, five₂, sum₁, sum₂, function]
  · decide
  · decide
  · simp only [exprs, List.forall_mem_cons]
    exact ⟨trivial, rfl, rfl, rfl, rfl, rfl, rfl, List.forall_mem_nil _⟩
  · decide
  · decide
  · simp [operators_circuit, source, left, idle, right, total, sink]
  · simp only [operators_circuit, List.forall_mem_cons]
    exact ⟨rfl, rfl, rfl, rfl, rfl, rfl, List.forall_mem_nil _⟩

end Sample

end FlowCircuit
