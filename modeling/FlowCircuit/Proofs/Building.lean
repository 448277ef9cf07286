import FlowCircuit.Circuit.Builder
import FlowCircuit.Proofs.Job
import FlowCircuit.Proofs.Made

/-!
# Circuits that come from a builder

A program calls a builder as it likes, with operators that earlier calls returned, and some of its
calls are refused.  `Builder.Ran name log s` says that the calls in `log` gave the outcomes in `log`
and led to the session `s`.  Between two calls the program may do other things, and draw labels for
them.

What one call can do is said once (`Call.done`): it is refused and leaves the builder as it was, or
it appends the node it returns.  So the finished circuit has the returned nodes in the order of the
calls, its operators are numbered from zero upwards, and it is well formed
(`Ran.finish_wellFormed`).  If the expressions that were handed in come from checked constructors,
then all parts of the circuit do (`Ran.made`).
-/

set_option autoImplicit false

namespace FlowCircuit

/-- The parts of the operator, apart from its label and its number. -/
def Operator.ConsistsOf (op : Operator) (kind : OpKind) (outputTy : Ty) (function : Option Expr)
    (aggregate : Option Aggregate) (inputs : List Operator) : Prop :=
  op.kind = kind ∧ op.outputTy = outputTy ∧ op.function = function ∧ op.aggregate = aggregate ∧
    op.inputs = inputs

namespace Builder

/-! ## Calls -/

/-- A call on a builder. -/
inductive Call where
  | addOperator (kind : OpKind) (outputTy : Ty) (function : Option Expr)
      (aggregate : Option Aggregate) (inputs : List Operator)
  | addDeclaration (name : String) (value : Expr)
  | source (name : String) (rowTy : Ty)
  | constant (data : ZSet Expr)
  | map (input : Operator) (function : Expr)
  | filter (input : Operator) (predicate : Expr)
  | sink (name : String) (input : Operator)

namespace Call

/-- The call, with the node it appends as its result. -/
def run : Call → Run Builder Node
  | .addOperator kind outputTy function aggregate inputs =>
    .operator <$> Builder.addOperator kind outputTy function aggregate inputs
  | .addDeclaration name value => .declaration <$> Builder.addDeclaration name value
  | .source name rowTy => .operator <$> Builder.source name rowTy
  | .constant data => .operator <$> Builder.constant data
  | .map input function => .operator <$> Builder.map input function
  | .filter input predicate => .operator <$> Builder.filter input predicate
  | .sink name input => .operator <$> Builder.sink name input

/-- The operators that are handed in. -/
def inputs : Call → List Operator
  | .addOperator _ _ _ _ inputs => inputs
  | .addDeclaration .. | .source .. | .constant .. => []
  | .map input _ | .filter input _ | .sink _ input => [input]

/-- Whether the call asks for an operator. -/
def isOperator : Call → Bool
  | .addDeclaration .. => false
  | _ => true

/-- The node is the one that the call asks for. -/
def Asks : Call → Node → Prop
  | .addOperator kind outputTy function aggregate inputs, .operator op =>
    op.ConsistsOf kind outputTy function aggregate inputs
  | .addDeclaration name value, .declaration d => d.name = name ∧ d.value = value
  | .source name rowTy, .operator op =>
    op.ConsistsOf (.source name) (Ty.zsetOf rowTy Ty.defaultWeight) none none []
  | .constant data, .operator op =>
    ∃ label, op.ConsistsOf .constant data.ty (some (Expr.zset label data)) none []
  | .map input function, .operator op =>
    ∃ params rowTy, function.ty.signature? = some (params, rowTy) ∧
      op.ConsistsOf .map
        (Ty.zsetOf rowTy ((input.outputTy.zset?.map Prod.snd).getD Ty.defaultWeight))
        (some function) none [input]
  | .filter input predicate, .operator op =>
    op.ConsistsOf .filter input.outputTy (some predicate) none [input]
  | .sink name input, .operator op => op.ConsistsOf (.sink name) input.outputTy none none [input]
  | _, _ => False

theorem Asks.isOperator_eq {call : Call} {node : Node} (h : call.Asks node) :
    call.isOperator = node.operator?.isSome := by
  cases node with
  | declaration =>
    cases call with
    | addDeclaration => rfl
    | _ => exact h.elim
  | operator =>
    cases call with
    | addDeclaration => exact h.elim
    | _ => rfl

theorem Asks.inputs_eq {call : Call} {op : Operator} (h : call.Asks (.operator op)) :
    op.inputs = call.inputs := by
  cases call with
  | addDeclaration => exact h.elim
  | addOperator => exact h.2.2.2.2
  | source => exact h.2.2.2.2
  | constant =>
    obtain ⟨_, h⟩ := h
    exact h.2.2.2.2
  | map =>
    obtain ⟨_, _, _, h⟩ := h
    exact h.2.2.2.2
  | filter => exact h.2.2.2.2
  | sink => exact h.2.2.2.2

/-- What a call can do: it is refused and changes nothing, or it appends the node it asks for, which
is made with a new label. -/
inductive Done (call : Call) (s : Session Builder) : Except Error Node → Session Builder → Prop
  | refused (e : Error) {next : Label} (hnext : s.next ≤ next) :
    Done call s (.error e) ⟨next, s.notices, s.state⟩
  | declared {d : Declaration} {next : Label} (hasks : call.Asks (.declaration d))
      (hlabel : s.next ≤ d.label) (hnext : next = d.label + 1) :
    Done call s (.ok (.declaration d))
      ⟨next, s.notices, { s.state with nodes := .declaration d :: s.state.nodes }⟩
  | added {op : Operator} {next : Label} (hasks : call.Asks (.operator op))
      (hid : op.id = s.state.nextId) (hcheck : op.check = .ok ()) (hlabel : s.next ≤ op.label)
      (hnext : next = op.label + 1) :
    Done call s (.ok (.operator op)) ⟨next, s.notices,
      { s.state with nodes := .operator op :: s.state.nodes, nextId := s.state.nextId + 1 }⟩

variable {call : Call} {s : Session Builder}

/-- All operators are appended in one way; a label may have been drawn for what they are made of. -/
theorem done_addOperator {kind : OpKind} {outputTy : Ty} {function : Option Expr}
    {aggregate : Option Aggregate} {inputs : List Operator} {next : Label} (hnext : s.next ≤ next)
    (hasks : ∀ op : Operator, op.ConsistsOf kind outputTy function aggregate inputs →
      call.Asks (.operator op)) :
    Job.ends (Node.operator <$> Builder.addOperator kind outputTy function aggregate inputs)
      (Done call s) { s with next := next } := by
  simp only [Job.ends, Builder.addOperator, Job.exec_map, Job.exec_bind, Job.state, Job.make,
    Job.fresh, Job.ofExcept, Job.update, Job.exec_of]
  cases hbuild : Operator.build next s.state.nextId kind outputTy function aggregate inputs with
  | error e => exact .refused e (hnext.trans (Nat.le_succ next))
  | ok op =>
    obtain ⟨rfl, hcheck⟩ := Operator.of_build_eq_ok hbuild
    exact .added (hasks _ ⟨rfl, rfl, rfl, rfl, rfl⟩) rfl hcheck hnext rfl

/-- **What a call does.** -/
theorem done (call : Call) (s : Session Builder) : Job.ends call.run (Done call s) s := by
  cases call with
  | addOperator kind outputTy function aggregate inputs =>
    exact done_addOperator (le_refl s.next) fun op h => h
  | addDeclaration name value => exact .declared ⟨rfl, rfl⟩ (le_refl s.next) rfl
  | source name rowTy => exact done_addOperator (le_refl s.next) fun op h => h
  | constant data =>
    rw [run, Builder.constant, map_bind, Job.ends_bind]
    exact done_addOperator (Nat.le_succ s.next) fun op h => ⟨s.next, h⟩
  | map input function =>
    rw [run, Builder.map]
    split
    · exact .refused _ (le_refl s.next)
    · rename_i params rowTy hsignature
      exact done_addOperator (le_refl s.next) fun op h => ⟨params, rowTy, hsignature, h⟩
  | filter input predicate => exact done_addOperator (le_refl s.next) fun op h => h
  | sink name input => exact done_addOperator (le_refl s.next) fun op h => h

/-- What a call returns is what it asks for. -/
theorem asks_of_exec {node : Node} {s' : Session Builder} (h : call.run.exec s = (.ok node, s')) :
    call.Asks node := by
  have hdone := call.done s
  rw [Job.ends, h] at hdone
  cases hdone with
  | declared hasks => exact hasks
  | added hasks => exact hasks

end Call

/-! ## Programs -/

/-- Calls and their outcomes, in order. -/
abbrev Log := List (Call × Except Error Node)

namespace Log

/-- What the calls returned that were not refused. -/
def returned (log : Log) : List Node := log.filterMap fun entry => entry.2.toOption

/-- How many operators were asked for with success. -/
def operatorCalls (log : Log) : Nat := log.countP fun entry => entry.1.isOperator && entry.2.isOk

end Log

/-- A program that starts a builder called `name` has made the calls in `log`, and has come to the
session `s`.  The operators it hands in were returned before. -/
inductive Ran (name : String) : Log → Session Builder → Prop
  | start (next : Label) (notices : List Notice) : Ran name [] ⟨next, notices, .start name⟩
  | apart {log : Log} {s : Session Builder} (h : Ran name log s) {next : Label}
      (hle : s.next ≤ next) (notices : List Notice) : Ran name log ⟨next, notices, s.state⟩
  | call {log : Log} {s : Session Builder} (h : Ran name log s) (call : Call)
      (hinputs : ∀ input ∈ call.inputs, .operator input ∈ log.returned) :
    Ran name (log ++ [(call, (call.run.exec s).1)]) (call.run.exec s).2

/-- What holds after every call. -/
structure Inv (name : String) (log : Log) (s : Session Builder) : Prop where
  name : s.state.name = name
  nodes : s.state.finish.nodes = log.returned
  count : s.state.nextId = log.operatorCalls
  asked : ∀ entry ∈ log, ∀ node, entry.2 = .ok node → entry.1.Asks node
  ids : s.state.finish.operators.map Operator.id = List.range s.state.nextId
  reads : AtEach Node.Reads s.state.finish.nodes
  drawn : Drawn {node | node ∈ s.state.finish.nodes} s.next
  checked : ∀ op ∈ s.state.finish.operators, op.check = .ok ()

variable {name : String} {log : Log} {s : Session Builder}

theorem inv_start (next : Label) (notices : List Notice) :
    Inv name [] ⟨next, notices, .start name⟩ where
  name := rfl
  nodes := rfl
  count := rfl
  asked := List.forall_mem_nil _
  ids := rfl
  reads := atEach_nil
  drawn := ⟨fun _ h => absurd h List.not_mem_nil, fun _ h => absurd h List.not_mem_nil⟩
  checked := List.forall_mem_nil _

namespace Inv

/-- Labels may be drawn for other things. -/
theorem apart (h : Inv name log s) {next : Label} (hle : s.next ≤ next) (notices : List Notice) :
    Inv name log ⟨next, notices, s.state⟩ :=
  ⟨h.name, h.nodes, h.count, h.asked, h.ids, h.reads, h.drawn.mono hle, h.checked⟩

/-- A call that is refused leaves no trace in the circuit. -/
theorem refused (h : Inv name log s) (call : Call) (e : Error) :
    Inv name (log ++ [(call, .error e)]) s where
  name := h.name
  nodes := by simp [h.nodes, Log.returned, Except.toOption]
  count := by simp [h.count, Log.operatorCalls, Except.isOk, Except.toBool]
  asked := by
    refine List.forall_mem_append.mpr ⟨h.asked, List.forall_mem_singleton.mpr fun node hnode => ?_⟩
    cases hnode
  ids := h.ids
  reads := h.reads
  drawn := h.drawn
  checked := h.checked

/-- The operators after one more node. -/
theorem operators_finish (b : Builder) (node : Node) (nextId : OpId) :
    (finish ⟨b.name, node :: b.nodes, nextId⟩).operators =
      b.finish.operators ++ node.operator?.toList := by
  rw [Circuit.operators, finish, List.reverse_cons, List.filterMap_append]
  cases node <;> rfl

/-- A node that was asked for is appended, with the next number if it is an operator. -/
theorem append (h : Inv name log s) {call : Call} {node : Node} (hasks : call.Asks node)
    (hid : ∀ op ∈ node.operator?, op.id = s.state.nextId)
    (hcheck : ∀ op ∈ node.operator?, op.check = .ok ()) (hreads : node.Reads s.state.finish.nodes)
    (hlabel : s.next ≤ node.label) :
    Inv name (log ++ [(call, .ok node)]) ⟨node.label + 1, s.notices,
      ⟨s.state.name, node :: s.state.nodes, s.state.nextId + node.operator?.toList.length⟩⟩ where
  name := h.name
  nodes := by simpa [Log.returned, Except.toOption, finish] using h.nodes
  count := by
    rw [h.count]
    cases node <;> simp [Log.operatorCalls, hasks.isOperator_eq, Node.operator?, Except.isOk,
      Except.toBool]
  asked := by
    refine List.forall_mem_append.mpr ⟨h.asked, List.forall_mem_singleton.mpr ?_⟩
    rintro _ ⟨rfl⟩
    exact hasks
  ids := by
    rw [operators_finish, List.map_append, h.ids]
    cases node with
    | declaration d => exact List.append_nil _
    | operator op => rw [List.range_add, Node.operator?, ← hid op rfl]; rfl
  reads := by
    simp only [finish, List.reverse_cons]
    exact atEach_append_singleton.mpr ⟨h.reads, hreads⟩
  drawn := by
    refine ((h.drawn.mono hlabel).insert rfl).subset fun node' hnode' => ?_
    simpa [finish, or_comm] using hnode'
  checked := by
    rw [operators_finish]
    exact List.forall_mem_append.mpr ⟨h.checked, fun op hop => hcheck op (Option.mem_toList.mp hop)⟩

/-- **Every call keeps what holds.** -/
theorem call (h : Inv name log s) (call : Call)
    (hinputs : ∀ input ∈ call.inputs, .operator input ∈ log.returned) :
    Inv name (log ++ [(call, (call.run.exec s).1)]) (call.run.exec s).2 := by
  have hdone := call.done s
  rw [Job.ends] at hdone
  generalize (call.run.exec s).1 = outcome, (call.run.exec s).2 = s' at hdone
  cases hdone with
  | refused e hnext => exact (h.refused call e).apart hnext s.notices
  | declared hasks hlabel hnext =>
    subst hnext
    exact h.append hasks (fun _ h => by cases h) (fun _ h => by cases h)
      (fun _ h => by cases h) hlabel
  | added hasks hid hcheck hlabel hnext =>
    subst hnext
    refine h.append hasks ?_ ?_ ?_ hlabel
    · rintro _ ⟨rfl⟩
      exact hid
    · rintro _ ⟨rfl⟩
      exact hcheck
    · rintro _ ⟨rfl⟩ input hinput
      rw [h.nodes]
      exact hinputs input (hasks.inputs_eq ▸ hinput)

end Inv

namespace Ran

theorem inv (h : Ran name log s) : Inv name log s := by
  induction h with
  | start next notices => exact inv_start next notices
  | apart _ hle notices ih => exact ih.apart hle notices
  | call _ call hinputs ih => exact ih.call call hinputs

/-- **The circuit is made of checked parts** if the expressions that were handed in are. -/
theorem made (h : Ran name log s) (hheap : Heap s.state.finish.exprNodes s.next) :
    s.state.finish.Made s.next := by
  have hinv := h.inv
  have hinputs : ∀ op ∈ s.state.finish.operators, ∀ input ∈ op.inputs,
      input ∈ s.state.finish.operators := fun _ hop _ hinput =>
    Circuit.mem_operators_of_reads hinv.reads hop hinput
  exact Circuit.made_of_drawn hheap hinv.drawn hinputs hinv.checked

/-- **A builder gives well-formed circuits.**  The finished circuit has what was asked for with
success, in the order of the calls; its operators are numbered from zero upwards; and a call that is
refused leaves the builder as it was. -/
theorem finish_wellFormed (h : Ran name log s) :
    s.state.finish.validate = .ok () ∧ s.state.finish.name = name ∧
      s.state.finish.nodes = log.returned ∧
      (∀ entry ∈ log, ∀ node, entry.2 = .ok node → entry.1.Asks node) ∧
      s.state.finish.operators.map Operator.id = List.range log.operatorCalls ∧
      ∀ (call : Call) (e : Error) (s' : Session Builder), call.run.exec s = (.error e, s') →
        s'.state = s.state := by
  have hinv := h.inv
  have hids := hinv.ids
  refine ⟨?_, hinv.name, hinv.nodes, hinv.asked, hinv.count ▸ hids, fun call e s' hrun => ?_⟩
  · exact Circuit.validate_eq_ok_of_reads (hids ▸ List.nodup_range) hinv.reads
  · have hdone := call.done s
    rw [Job.ends, hrun] at hdone
    cases hdone with
    | refused => rfl

end Ran

namespace Refusal

/-! A source, a function that is no closure, a declaration and a sink: the second call is
refused. -/

/-- What a builder makes of the call for a source. -/
def source : Operator := ⟨15, 0, .source "in", Sample.stream, none, none, []⟩

/-- A log of one call. -/
def sourceLog : Log := [(.source "in" (.int32 false), .ok (.operator source))]

theorem ran_source : Ran "refusal" sourceLog ⟨16, [], ⟨"refusal", [.operator source], 1⟩⟩ :=
  .call (.start 15 []) (.source "in" (.int32 false)) (List.forall_mem_nil _)

theorem exists_ran : ∃ log s, Ran "refusal" log s ∧ log.operatorCalls = 2 ∧
    log.map (fun entry => entry.2.isOk) = [true, false, true, true] := by
  have hinput : .operator source ∈ sourceLog.returned := List.mem_singleton.mpr rfl
  refine ⟨_, _, ((ran_source.call (.map source Sample.five₁) ?_).call
    (.addDeclaration "five" Sample.five₁) (List.forall_mem_nil _)).call (.sink "out" source) ?_,
    rfl, rfl⟩
  · exact List.forall_mem_singleton.mpr hinput
  · simp [Call.inputs, Log.returned, sourceLog, Except.toOption]

end Refusal

theorem Ran.finish_wellFormed_refusal :
    ∃ log s, Ran "refusal" log s ∧ log.map (fun entry => entry.2.isOk) = [true, false, true, true] ∧
      s.state.finish.validate = .ok () ∧ s.state.finish.operators.map Operator.id = [0, 1] := by
  obtain ⟨log, s, hran, hcalls, hoks⟩ := Refusal.exists_ran
  obtain ⟨hvalid, -, -, -, hids, -⟩ := hran.finish_wellFormed
  exact ⟨log, s, hran, hoks, hvalid, by rw [hids, hcalls]; rfl⟩

end Builder

end FlowCircuit
