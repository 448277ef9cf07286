import FlowCircuit.Circuit.Sharing
import FlowCircuit.Proofs.Job
import FlowCircuit.Visit.Trace

/-!
# The calls of a walk

A walk is a recursion over four sorts of things, but seen from the visitor it is a sequence of
calls.  `Circuit.calls` is that sequence for a visitor that never skips or fails: the parts of each
node in turn, and for each part the call on entering it, the calls for the parts below it, and the
call on leaving it.

Skipping a part leaves out the calls that follow, up to the one on leaving the part; how many these
are can be read off the part (`Visitor.Call.hides`).  So the walk can be played from the sequence,
with a counter of calls to leave out in the place of the recursion (`Visitor.walkCircuit_eq_play`),
and what a walk does to an arbitrary visitor follows by induction along a list
(`Playing.ends_play`).

The calls an arbitrary visitor gets are written down by watching it; that changes nothing else.
-/

set_option autoImplicit false

namespace FlowCircuit

/-! ## The full sequence -/

theorem Ty.sizeOf_child {t c : Ty} (h : c ∈ t.children) : sizeOf c < sizeOf t := by
  cases t with
  | scalar => cases h
  | tuple fs n =>
    have hmem := List.sizeOf_lt_of_mem (show c ∈ fs from h)
    rw [tuple.sizeOf_spec]
    omega
  | ref t m n =>
    obtain rfl := List.mem_singleton.mp h
    rw [ref.sizeOf_spec]
    omega
  | zset e w n =>
    rw [zset.sizeOf_spec]
    simp only [children, List.mem_cons, List.not_mem_nil, or_false] at h
    rcases h with rfl | rfl <;> omega
  | function ps r n =>
    rw [function.sizeOf_spec]
    rcases List.mem_append.mp h with hmem | hmem
    · have := List.sizeOf_lt_of_mem hmem
      omega
    · obtain rfl := List.mem_singleton.mp hmem
      omega

theorem Expr.sizeOf_child {e c : Expr} (h : c ∈ e.children) : sizeOf c < sizeOf e := by
  rcases e with ⟨l, t, form⟩
  rw [Expr.mk.sizeOf_spec]
  cases form with
  | literal | var => cases h
  | zset z =>
    obtain ⟨row, hrow, rfl⟩ := List.mem_map.mp h
    have hrow := List.sizeOf_lt_of_mem hrow
    rw [Form.zset.sizeOf_spec, ZSet.mk.sizeOf_spec]
    rw [Row.mk.sizeOf_spec] at hrow
    omega
  | tuple fs =>
    have hmem := List.sizeOf_lt_of_mem (show c ∈ fs from h)
    rw [Form.tuple.sizeOf_spec]
    omega
  | borrow a =>
    obtain rfl := List.mem_singleton.mp h
    rw [Form.borrow.sizeOf_spec]
    omega
  | field a i =>
    obtain rfl := List.mem_singleton.mp h
    rw [Form.field.sizeOf_spec]
    omega
  | closure ps a =>
    obtain rfl := List.mem_singleton.mp h
    rw [Form.closure.sizeOf_spec]
    omega
  | binary o a b =>
    rw [Form.binary.sizeOf_spec]
    simp only [children, Form.children, List.mem_cons, List.not_mem_nil, or_false] at h
    rcases h with rfl | rfl <;> omega

theorem Aggregate.sizeOf_child {a : Aggregate} {c : Expr} (h : c ∈ a.children) :
    sizeOf c < sizeOf a := by
  obtain ⟨accumulator, hmem, hc⟩ := List.mem_flatMap.mp h
  have hchild : sizeOf c < sizeOf accumulator := by
    simp only [Accumulator.children, List.mem_append, List.mem_cons, List.not_mem_nil, or_false,
      Option.mem_toList] at hc
    rw [Accumulator.mk.sizeOf_spec]
    rcases hc with ((rfl | rfl) | hpost) | rfl
    · omega
    · omega
    · rw [hpost, Option.some.sizeOf_spec]
      omega
    · omega
  rw [Aggregate.mk.sizeOf_spec]
  rcases List.mem_cons.mp hmem with rfl | hrest
  · omega
  · have := List.sizeOf_lt_of_mem hrest
    omega

namespace Visitor

/-- What a visitor visits. -/
inductive Part where
  | ty (t : Ty)
  | expr (e : Expr)
  | aggregate (a : Aggregate)

namespace Part

/-- What is visited between entering and leaving, in order. -/
def below : Part → List Part
  | .ty t => t.children.map .ty
  | .expr e => .ty e.ty :: e.children.map .expr
  | .aggregate a => a.children.map .expr

/-- The call before a part. -/
def entering : Part → Call
  | .ty t => .enterTy t
  | .expr e => .enterExpr e
  | .aggregate a => .enterAggregate a

/-- The call after a part. -/
def leaving : Part → Call
  | .ty t => .leaveTy t
  | .expr e => .leaveExpr e
  | .aggregate a => .leaveAggregate a

theorem entering_inj {p q : Part} (h : p.entering = q.entering) : p = q := by
  cases p <;> cases q <;> cases h <;> rfl

theorem leaving_ne_entering (p q : Part) : p.leaving ≠ q.entering := by
  intro h
  cases p <;> cases q <;> cases h

theorem sizeOf_below {p q : Part} (h : q ∈ p.below) : sizeOf q < sizeOf p := by
  cases p with
  | ty t =>
    obtain ⟨c, hc, rfl⟩ := List.mem_map.mp h
    have := Ty.sizeOf_child hc
    rw [ty.sizeOf_spec, ty.sizeOf_spec]
    omega
  | expr e =>
    rw [expr.sizeOf_spec]
    rcases List.mem_cons.mp h with rfl | hmem
    · rcases e with ⟨l, t, form⟩
      simp only [ty.sizeOf_spec, Expr.mk.sizeOf_spec]
      omega
    · obtain ⟨c, hc, rfl⟩ := List.mem_map.mp hmem
      have := Expr.sizeOf_child hc
      rw [expr.sizeOf_spec]
      omega
  | aggregate a =>
    obtain ⟨c, hc, rfl⟩ := List.mem_map.mp h
    have := Aggregate.sizeOf_child hc
    rw [expr.sizeOf_spec, aggregate.sizeOf_spec]
    omega

/-- The calls for a part and all that is below it, depth first. -/
def calls (p : Part) : List Call :=
  p.entering :: p.below.attach.flatMap (fun ⟨q, _⟩ => q.calls) ++ [p.leaving]
termination_by sizeOf p
decreasing_by exact sizeOf_below ‹_›

theorem calls_eq (p : Part) : p.calls = p.entering :: p.below.flatMap calls ++ [p.leaving] := by
  rw [calls, List.flatMap_subtype (g := calls) fun _ _ => rfl, List.unattach_attach]

/-- A property that passes from the parts below a part to the part holds of every part. -/
theorem induction_below {P : Part → Prop} (part : ∀ p, (∀ q ∈ p.below, P q) → P p) (p : Part) :
    P p := by
  induction p using calls.induct with
  | case1 p ih => exact part p ih

end Part

/-- How many calls are left out when a call is answered by skipping. -/
def Call.hides : Call → Nat
  | .enterTy t => (Part.ty t).calls.length - 1
  | .enterExpr e => (Part.expr e).calls.length - 1
  | .enterAggregate a => (Part.aggregate a).calls.length - 1
  | .leaveTy _ | .leaveExpr _ | .leaveAggregate _ => 0

theorem Part.hides_entering (p : Part) :
    p.entering.hides = (p.below.flatMap calls ++ [p.leaving]).length := by
  have h : p.entering.hides = p.calls.length - 1 := by cases p <;> rfl
  rw [h, p.calls_eq]
  rfl

/-- Calls in which each entering of a part is matched by a leaving of it, and the pairs are
nested. -/
inductive Nested : List Call → Prop
  | nil : Nested []
  | around (p : Part) {inner rest : List Call} (hinner : Nested inner) (hrest : Nested rest) :
    Nested (p.entering :: inner ++ p.leaving :: rest)

theorem Nested.append {a b : List Call} (ha : Nested a) (hb : Nested b) : Nested (a ++ b) := by
  induction ha with
  | nil => exact hb
  | around p hinner _ _ ih =>
    rw [List.append_assoc, List.cons_append]
    exact .around p hinner ih

/-- What holds of the calls for each part holds of those for several, if it passes to appended
sequences. -/
theorem of_flatMap_calls {P : List Call → Prop} (nil : P [])
    (append : ∀ {a b}, P a → P b → P (a ++ b)) {ps : List Part} (h : ∀ p ∈ ps, P p.calls) :
    P (ps.flatMap Part.calls) := by
  induction ps with
  | nil => exact nil
  | cons p ps ih =>
    rw [List.flatMap_cons]
    exact append (h p List.mem_cons_self) (ih fun q hq => h q (List.mem_cons_of_mem p hq))

theorem Part.nested_calls (p : Part) : Nested p.calls := by
  induction p using Part.induction_below with
  | part p ih =>
    rw [p.calls_eq]
    exact .around p (of_flatMap_calls .nil .append ih) .nil

/-- Where a part is entered, all calls for the part follow. -/
def Whole (calls : List Call) : Prop :=
  ∀ i (p : Part), calls[i]? = some p.entering → ∃ rest, calls.drop i = p.calls ++ rest

theorem Whole.append {a b : List Call} (ha : Whole a) (hb : Whole b) : Whole (a ++ b) := by
  intro i p hi
  rcases Nat.lt_or_ge i a.length with hlt | hge
  · rw [List.getElem?_append_left hlt] at hi
    obtain ⟨rest, hrest⟩ := ha i p hi
    exact ⟨rest ++ b, by rw [List.drop_append_of_le_length (Nat.le_of_lt hlt), hrest,
      List.append_assoc]⟩
  · rw [List.getElem?_append_right hge] at hi
    obtain ⟨rest, hrest⟩ := hb _ p hi
    exact ⟨rest, by rw [List.drop_append, List.drop_eq_nil_of_le hge, List.nil_append, hrest]⟩

theorem whole_nil : Whole [] := fun _ _ h => by simp at h

theorem whole_leaving (p : Part) : Whole [p.leaving] := by
  intro i q hi
  have hmem := List.mem_of_getElem? hi
  exact absurd (List.mem_singleton.mp hmem).symm (p.leaving_ne_entering q)

theorem Part.whole_calls (p : Part) : Whole p.calls := by
  induction p using Part.induction_below with
  | part p ih =>
    intro i q hi
    cases i with
    | zero =>
      rw [p.calls_eq] at hi
      obtain rfl := entering_inj (Option.some.inj hi)
      exact ⟨[], by rw [List.drop_zero, List.append_nil]⟩
    | succ i =>
      rw [p.calls_eq] at hi ⊢
      exact ((of_flatMap_calls whole_nil .append ih).append (whole_leaving p)) i q hi

end Visitor

/-- What is visited at a node: the aggregate and then the function of an operator, or the value of a
declaration. -/
def Node.parts : Node → List Visitor.Part
  | .declaration d => [.expr d.value]
  | .operator op => op.aggregate.toList.map .aggregate ++ op.function.toList.map .expr

/-- The parts of a circuit that are visited, in the order of its nodes. -/
def Circuit.parts (c : Circuit) : List Visitor.Part := c.nodes.flatMap Node.parts

/-- The calls for all parts of a circuit. -/
def Circuit.calls (c : Circuit) : List Visitor.Call := c.parts.flatMap Visitor.Part.calls

/-! ## Playing a sequence of calls -/

namespace Playing

variable {κ σ : Type}

/-- Makes the calls of a sequence one after another, leaving out the first `n`.  A call that is
answered by skipping makes the calls that it hides be left out. -/
def play (hides : κ → Nat) (ask : κ → Run σ Flow) : Nat → List κ → Run σ Unit
  | _, [] => pure ()
  | n + 1, _ :: calls => play hides ask n calls
  | 0, call :: calls => do
    match ← ask call with
    | .skip => play hides ask (hides call) calls
    | .descend => play hides ask 0 calls

variable {hides : κ → Nat} {ask : κ → Run σ Flow}

theorem play_append (hidden calls : List κ) :
    play hides ask hidden.length (hidden ++ calls) = play hides ask 0 calls := by
  induction hidden with
  | nil => rfl
  | cons call hidden ih => exact ih

end Playing

namespace Visitor

variable {σ : Type} (v : Visitor σ)

/-- The hook for entering a part. -/
def enter : Part → Run σ Flow
  | .ty t => v.enterTy t
  | .expr e => v.enterExpr e
  | .aggregate a => v.enterAggregate a

/-- The hook for leaving a part. -/
def leave : Part → Run σ Unit
  | .ty t => v.leaveTy t
  | .expr e => v.leaveExpr e
  | .aggregate a => v.leaveAggregate a

/-- The walk over a part. -/
def walk : Part → Run σ Unit
  | .ty t => v.walkTy t
  | .expr e => v.walkExpr e
  | .aggregate a => v.walkAggregate a

/-- Makes a call. -/
def ask : Call → Run σ Flow
  | .enterTy t => v.enterTy t
  | .leaveTy t => do v.leaveTy t; return .descend
  | .enterExpr e => v.enterExpr e
  | .leaveExpr e => do v.leaveExpr e; return .descend
  | .enterAggregate a => v.enterAggregate a
  | .leaveAggregate a => do v.leaveAggregate a; return .descend

theorem ask_entering (p : Part) : v.ask p.entering = v.enter p := by cases p <;> rfl

theorem ask_leaving (p : Part) : v.ask p.leaving = do v.leave p; return .descend := by
  cases p <;> rfl

theorem walkTys_eq (ts : List Ty) : v.walkTys ts = forM (ts.map Part.ty) v.walk := by
  induction ts with
  | nil => rfl
  | cons t ts ih => rw [walkTys, ih, List.map_cons, List.forM_cons]; rfl

theorem walkExprs_eq (es : List Expr) : v.walkExprs es = forM (es.map Part.expr) v.walk := by
  induction es with
  | nil => rfl
  | cons e es ih => rw [walkExprs, ih, List.map_cons, List.forM_cons]; rfl

/-- The walk of a part in terms of the parts below it. -/
theorem walk_eq (p : Part) :
    v.walk p = Flow.around (v.enter p) (forM p.below v.walk) (v.leave p) := by
  cases p with
  | ty t => cases t <;> simp [walk, walkTy, enter, leave, Part.below, Ty.children, walkTys_eq]
  | expr e =>
    rw [walk, walkExpr_eq, walkNode, walkExprs_eq]
    rfl
  | aggregate a =>
    rw [walk, walkAggregate, walkExprs_eq]
    rfl

theorem walkAttached_eq (op : Operator) :
    v.walkAttached op = forM (Node.operator op).parts v.walk := by
  rw [walkAttached, Node.parts, List.forM_append]
  cases op.aggregate <;> cases op.function <;> simp [walk]

theorem walkNode_onCircuit (node : Node) : v.onCircuit.walkNode node = forM node.parts v.walk := by
  cases node with
  | declaration d =>
    simp [CircuitVisitor.walkNode, CircuitVisitor.walkDeclaration, onCircuit, Flow.around,
      Node.parts, walk]
  | operator op =>
    simp [CircuitVisitor.walkNode, CircuitVisitor.walkOperator, onCircuit, Flow.around,
      walkAttached_eq]

theorem walkNodes_onCircuit (nodes : List Node) :
    v.onCircuit.walkNodes nodes = forM (nodes.flatMap Node.parts) v.walk := by
  induction nodes with
  | nil => rfl
  | cons node nodes ih =>
    rw [CircuitVisitor.walkNodes, ih, walkNode_onCircuit, List.flatMap_cons, List.forM_append]

/-- The walk of a circuit is the walk of its parts. -/
theorem walkCircuit_eq (c : Circuit) : v.walkCircuit c = forM c.parts v.walk := by
  rw [walkCircuit, CircuitVisitor.walkCircuit, walkNodes_onCircuit]
  simp [Flow.around, onCircuit, Circuit.parts]

open Playing (play)

theorem play_flatMap {ps : List Part} {calls : List Call}
    (h : ∀ p ∈ ps, ∀ calls, play Call.hides v.ask 0 (p.calls ++ calls) =
      v.walk p >>= fun _ => play Call.hides v.ask 0 calls) :
    play Call.hides v.ask 0 (ps.flatMap Part.calls ++ calls) =
      forM ps v.walk >>= fun _ => play Call.hides v.ask 0 calls := by
  induction ps with
  | nil => simp
  | cons p ps ih =>
    rw [List.flatMap_cons, List.append_assoc, h p List.mem_cons_self,
      ih fun q hq => h q (List.mem_cons_of_mem p hq), List.forM_cons, bind_assoc]

/-- **Playing the calls for a part is walking it.** -/
theorem play_calls (p : Part) (calls : List Call) :
    play Call.hides v.ask 0 (p.calls ++ calls) =
      v.walk p >>= fun _ => play Call.hides v.ask 0 calls := by
  induction p using Part.induction_below generalizing calls with
  | part p ih =>
    rw [p.calls_eq, walk_eq, List.cons_append, List.cons_append, play, ask_entering, Flow.around,
      bind_assoc]
    congr 1
    funext flow
    cases flow with
    | skip =>
      rw [p.hides_entering, Playing.play_append, pure_bind]
    | descend =>
      rw [List.append_assoc, v.play_flatMap ih, bind_assoc]
      simp [play, ask_leaving]

/-- **A walk is played from its sequence of calls.** -/
theorem walkCircuit_eq_play (c : Circuit) : v.walkCircuit c = play Call.hides v.ask 0 c.calls := by
  have h : play Call.hides v.ask 0 (c.calls ++ []) = _ := v.play_flatMap fun p _ => v.play_calls p
  rw [List.append_nil, play, bind_pure_unit] at h
  rw [walkCircuit_eq, h]

end Visitor

/-! ## What a visitor is asked -/

theorem Job.eq_of_exec {ε σ α : Type} {job job' : Job ε σ α} (h : ∀ s, job.exec s = job'.exec s) :
    job = job' := funext h

/-- What an answer on entering a part comes to. -/
def Reply.ofEntering : Except Error Flow → Reply
  | .ok .descend => .proceed
  | .ok .skip => .skip
  | .error e => .fail e

/-- What an answer on leaving a part comes to. -/
def Reply.ofLeaving : Except Error Unit → Reply
  | .ok () => .proceed
  | .error e => .fail e

namespace Playing

variable {κ σ α : Type}

/-- Makes a call and writes it down with what the answer comes to. -/
def logged (call : κ) (reply : Except Error α → Reply) (hook : Run σ α) :
    Run (Watched (κ × Reply) σ) α :=
  Watched.ask (fun answer => (call, reply answer)) hook

/-- `answers` is what was answered at each place of a sequence when it was played, `none` where no
call was made, and `outcome` is how it ended. -/
inductive Played (hides : κ → Nat) : Nat → List κ → List (Option Reply) → Except Error Unit → Prop
  | done (n : Nat) : Played hides n [] [] (.ok ())
  | hidden {n : Nat} {call : κ} {calls : List κ} {answers : List (Option Reply)}
      {outcome : Except Error Unit} (rest : Played hides n calls answers outcome) :
    Played hides (n + 1) (call :: calls) (none :: answers) outcome
  | proceed {call : κ} {calls : List κ} {answers : List (Option Reply)}
      {outcome : Except Error Unit} (rest : Played hides 0 calls answers outcome) :
    Played hides 0 (call :: calls) (some .proceed :: answers) outcome
  | skip {call : κ} {calls : List κ} {answers : List (Option Reply)} {outcome : Except Error Unit}
      (rest : Played hides (hides call) calls answers outcome) :
    Played hides 0 (call :: calls) (some .skip :: answers) outcome
  | fail (call : κ) (calls : List κ) (e : Error) :
    Played hides 0 (call :: calls) (some (.fail e) :: List.replicate calls.length none) (.error e)

/-- The calls that were made, with their answers. -/
def answered (calls : List κ) (answers : List (Option Reply)) : List (κ × Reply) :=
  (calls.zip answers).filterMap fun x => x.2.map fun answer => (x.1, answer)

/-- The call at place `k` is left out by one that was answered by skipping. -/
def Skipped (hides : κ → Nat) (calls : List κ) (answers : List (Option Reply)) (k : Nat) : Prop :=
  ∃ i call, calls[i]? = some call ∧ answers[i]? = some (some .skip) ∧ i < k ∧ k ≤ i + hides call

/-- A call before place `k` failed. -/
def Failed (answers : List (Option Reply)) (k : Nat) : Prop :=
  ∃ i e, answers[i]? = some (some (.fail e)) ∧ i < k

variable {hides : κ → Nat} {ask : κ → Run σ Flow} {n k : Nat} {call : κ} {calls : List κ}
  {answer : Option Reply} {answers : List (Option Reply)} {outcome : Except Error Unit}

@[simp]
theorem answered_nil : answered ([] : List κ) answers = [] := rfl

@[simp]
theorem answered_cons_none : answered (call :: calls) (none :: answers) = answered calls answers :=
  rfl

@[simp]
theorem answered_cons_some (reply : Reply) :
    answered (call :: calls) (some reply :: answers) =
      (call, reply) :: answered calls answers := rfl

theorem answered_replicate_none (calls : List κ) :
    answered calls (List.replicate calls.length none) = [] := by
  induction calls with
  | nil => rfl
  | cons call calls ih => exact ih

theorem not_skipped_zero : ¬Skipped hides calls answers 0 := by
  rintro ⟨i, _, _, _, h, _⟩
  exact Nat.not_lt_zero i h

theorem not_failed_zero : ¬Failed answers 0 := by
  rintro ⟨i, _, _, h⟩
  exact Nat.not_lt_zero i h

theorem skipped_cons : Skipped hides (call :: calls) (answer :: answers) (k + 1) ↔
    answer = some .skip ∧ k < hides call ∨ Skipped hides calls answers k := by
  constructor
  · rintro ⟨i, call', hcall, hanswer, hlt, hle⟩
    cases i with
    | zero =>
      obtain rfl := Option.some.inj hcall
      exact Or.inl ⟨Option.some.inj hanswer, by omega⟩
    | succ i => exact Or.inr ⟨i, call', hcall, hanswer, by omega, by omega⟩
  · rintro (⟨rfl, hlt⟩ | ⟨i, call', hcall, hanswer, hlt, hle⟩)
    · exact ⟨0, call, rfl, rfl, by omega, by omega⟩
    · exact ⟨i + 1, call', hcall, hanswer, by omega, by omega⟩

theorem failed_cons : Failed (answer :: answers) (k + 1) ↔
    (∃ e, answer = some (.fail e)) ∨ Failed answers k := by
  constructor
  · rintro ⟨i, e, hanswer, hlt⟩
    cases i with
    | zero => exact Or.inl ⟨e, Option.some.inj hanswer⟩
    | succ i => exact Or.inr ⟨i, e, hanswer, by omega⟩
  · rintro (⟨e, rfl⟩ | ⟨i, e, hanswer, hlt⟩)
    · exact ⟨0, e, rfl, by omega⟩
    · exact ⟨i + 1, e, hanswer, by omega⟩

namespace Played

theorem length_eq (h : Played hides n calls answers outcome) : answers.length = calls.length := by
  induction h with
  | done => rfl
  | hidden _ ih | proceed _ ih | skip _ ih => exact congrArg Nat.succ ih
  | fail => simp

/-- A call is left out because of a skip or a failure before it, and for no other reason. -/
theorem left_out_iff (h : Played hides n calls answers outcome) (hk : k < calls.length) :
    answers[k]? = some none ↔ k < n ∨ Skipped hides calls answers k ∨ Failed answers k := by
  induction h generalizing k with
  | done => exact absurd hk (Nat.not_lt_zero k)
  | hidden _ ih =>
    cases k with
    | zero => simp
    | succ k =>
      rw [skipped_cons, failed_cons, List.getElem?_cons_succ, ih (Nat.lt_of_succ_lt_succ hk)]
      simp
  | proceed _ ih =>
    cases k with
    | zero => simp [not_skipped_zero, not_failed_zero]
    | succ k =>
      rw [skipped_cons, failed_cons, List.getElem?_cons_succ, ih (Nat.lt_of_succ_lt_succ hk)]
      simp
  | skip _ ih =>
    cases k with
    | zero => simp [not_skipped_zero, not_failed_zero]
    | succ k =>
      rw [skipped_cons, failed_cons, List.getElem?_cons_succ, ih (Nat.lt_of_succ_lt_succ hk)]
      simp [or_assoc]
  | fail call calls e =>
    cases k with
    | zero => simp [not_skipped_zero, not_failed_zero]
    | succ k =>
      rw [skipped_cons, failed_cons]
      simpa [List.getElem?_replicate] using hk

/-- A play that ends well has seen no failure, and one that fails ends with the call that failed. -/
theorem outcome_eq (h : Played hides n calls answers outcome) :
    (outcome = .ok () ∧ ∀ entry ∈ answered calls answers, ∀ e, entry.2 ≠ .fail e) ∨
      ∃ init call e, outcome = .error e ∧ answered calls answers = init ++ [(call, .fail e)] ∧
        ∀ entry ∈ init, ∀ e', entry.2 ≠ .fail e' := by
  induction h with
  | done => exact Or.inl ⟨rfl, by simp⟩
  | hidden _ ih => exact ih
  | proceed _ ih | skip _ ih =>
    rcases ih with ⟨hok, hnone⟩ | ⟨init, last, e, herror, hlog, hnone⟩
    · exact Or.inl ⟨hok, by simpa using hnone⟩
    · exact Or.inr ⟨_ :: init, last, e, herror, by rw [answered_cons_some, hlog]; rfl,
        by simpa using hnone⟩
  | fail call calls e =>
    refine Or.inr ⟨[], call, e, rfl, ?_, by simp⟩
    rw [answered_cons_some, answered_replicate_none, List.nil_append]

/-- When every answer is to go on, all calls are made. -/
theorem answered_of_proceed (h : Played hides n calls answers outcome) (hn : n = 0)
    (hproceed : ∀ entry ∈ answered calls answers, entry.2 = .proceed) :
    (answered calls answers).map Prod.fst = calls ∧ outcome = .ok () := by
  induction h with
  | done => exact ⟨rfl, rfl⟩
  | hidden => cases hn
  | proceed _ ih =>
    rw [answered_cons_some, List.forall_mem_cons] at hproceed
    obtain ⟨hcalls, hok⟩ := ih rfl hproceed.2
    exact ⟨congrArg _ hcalls, hok⟩
  | skip | fail =>
    rw [answered_cons_some, List.forall_mem_cons] at hproceed
    cases hproceed.1

end Played

/-- **The log of a play** is what was answered at the places of the sequence. -/
theorem ends_play (s : Session (Watched (κ × Reply) σ)) :
    Job.ends (play hides (fun call => logged call Reply.ofEntering (ask call)) n calls)
      (fun outcome s' => ∃ answers, Played hides n calls answers outcome ∧
        s'.state.log.reverse = s.state.log.reverse ++ answered calls answers) s := by
  induction calls generalizing n s with
  | nil => exact ⟨[], .done n, by rw [answered_nil, List.append_nil]; rfl⟩
  | cons call calls ih =>
    cases n with
    | succ n =>
      refine (ih s).imp fun outcome s' h => ?_
      obtain ⟨answers, hplayed, hlog⟩ := h
      exact ⟨none :: answers, .hidden hplayed, hlog⟩
    | zero =>
      rw [play, Job.ends_bind]
      refine Watched.ends_ask fun answer s₁ hlog₁ => ?_
      rw [← List.reverse_inj, List.reverse_cons] at hlog₁
      cases answer with
      | error e =>
        refine ⟨_, .fail call calls e, ?_⟩
        rw [answered_cons_some, answered_replicate_none]
        exact hlog₁
      | ok flow =>
        cases flow with
        | skip =>
          refine (ih s₁).imp fun outcome s' h => ?_
          obtain ⟨answers, hplayed, hlog⟩ := h
          exact ⟨_, .skip hplayed, by rw [hlog, hlog₁, List.append_assoc]; rfl⟩
        | descend =>
          refine (ih s₁).imp fun outcome s' h => ?_
          obtain ⟨answers, hplayed, hlog⟩ := h
          exact ⟨_, .proceed hplayed, by rw [hlog, hlog₁, List.append_assoc]; rfl⟩

theorem refines_play {τ : Type} {f : σ → τ} {ask₀ : κ → Run τ Flow}
    (h : ∀ call, Job.Refines f (ask call) (ask₀ call)) (n : Nat) (calls : List κ) :
    Job.Refines f (play hides ask n calls) (play hides ask₀ n calls) := by
  induction calls generalizing n with
  | nil => exact .pure ()
  | cons call calls ih =>
    cases n with
    | succ n => exact ih n
    | zero =>
      refine (h call).bind fun flow => ?_
      cases flow with
      | skip => exact ih _
      | descend => exact ih 0

end Playing

namespace Visitor

open Playing (play logged answered Skipped Failed)

variable {σ : Type} (v : Visitor σ)

/-- The visitor with hooks that write down the calls they get. -/
def watched : Visitor (Watched (Call × Reply) σ) where
  enterTy t := logged (.enterTy t) Reply.ofEntering (v.enterTy t)
  leaveTy t := logged (.leaveTy t) Reply.ofLeaving (v.leaveTy t)
  enterExpr e := logged (.enterExpr e) Reply.ofEntering (v.enterExpr e)
  leaveExpr e := logged (.leaveExpr e) Reply.ofLeaving (v.leaveExpr e)
  enterAggregate a := logged (.enterAggregate a) Reply.ofEntering (v.enterAggregate a)
  leaveAggregate a := logged (.leaveAggregate a) Reply.ofLeaving (v.leaveAggregate a)

/-- The calls the visitor gets on its walk over a circuit, in order, with its answers. -/
def log (c : Circuit) (s : Session σ) : List (Call × Reply) :=
  ((v.watched.walkCircuit c).exec (s.map .start)).2.state.log.reverse

theorem ask_leaving_watched (call : Call) (hook : Run σ Unit) :
    (do logged call Reply.ofLeaving hook; return .descend : Run (Watched (Call × Reply) σ) Flow) =
      logged call Reply.ofEntering (do hook; return .descend) := by
  refine Job.eq_of_exec fun s => ?_
  rw [Job.exec_bind]
  simp only [logged, Watched.ask, Job.exec_of, Job.exec_bind]
  rcases hook.exec (s.map Watched.hooks) with ⟨answer, t⟩
  cases answer <;> rfl

theorem ask_watched (call : Call) :
    v.watched.ask call = logged call Reply.ofEntering (v.ask call) := by
  cases call with
  | enterTy | enterExpr | enterAggregate => rfl
  | leaveTy | leaveExpr | leaveAggregate => exact ask_leaving_watched _ _

/-- Watching a visitor changes nothing. -/
theorem refines_walkCircuit (c : Circuit) :
    Job.Refines Watched.hooks (v.watched.walkCircuit c) (v.walkCircuit c) := by
  rw [walkCircuit_eq_play, walkCircuit_eq_play]
  refine Playing.refines_play (fun call => ?_) 0 c.calls
  rw [ask_watched]
  exact Watched.refines_ask _ _

/-- What the visitor answers to the calls of the full sequence. -/
theorem exists_played (c : Circuit) (s : Session σ) :
    ∃ answers, Playing.Played Call.hides 0 c.calls answers ((v.walkCircuit c).exec s).1 ∧
      v.log c s = answered c.calls answers := by
  have hask : v.watched.ask = fun call => logged call Reply.ofEntering (v.ask call) :=
    funext v.ask_watched
  have hends : Job.ends (play Call.hides (fun call => logged call Reply.ofEntering (v.ask call)) 0
    c.calls) _ (s.map .start) := Playing.ends_play _
  rw [← hask, ← walkCircuit_eq_play] at hends
  obtain ⟨answers, hplayed, hlog⟩ := hends
  have houtcome : ((v.walkCircuit c).exec s).1 =
      ((v.watched.walkCircuit c).exec (s.map .start)).1 :=
    congrArg Prod.fst (v.refines_walkCircuit c (s.map .start))
  rw [houtcome]
  exact ⟨answers, hplayed, hlog⟩

/-- **The contract of a walk**, for any visitor.  The full sequence of calls goes through the nodes
in order, depth first; in it each entering of a part is matched by a leaving of the part, nested,
and the calls for the part stand between the two.  What the visitor is asked is written down by
watching it, which changes nothing.  There is an answer for each place of the full sequence, or none
where no call was made, such that the log consists of the calls answered, in order; a call is left
out exactly if it is one of those for a part that was skipped, other than the call that skipped it,
or if a call before it failed.  When all answers are to go on, the log is the full sequence and the
walk succeeds.  It fails exactly if a call fails; the log then ends with that call, and the walk
with its error. -/
theorem traversal_contract (c : Circuit) (s : Session σ) :
    Nested c.calls ∧ Whole c.calls ∧
    Job.Refines Watched.hooks (v.watched.walkCircuit c) (v.walkCircuit c) ∧
    (∃ answers : List (Option Reply), answers.length = c.calls.length ∧
      v.log c s = answered c.calls answers ∧
      ∀ k < c.calls.length,
        answers[k]? = some none ↔ Skipped Call.hides c.calls answers k ∨ Failed answers k) ∧
    ((∀ entry ∈ v.log c s, entry.2 = .proceed) →
      (v.log c s).map Prod.fst = c.calls ∧ ((v.walkCircuit c).exec s).1 = .ok ()) ∧
    (((v.walkCircuit c).exec s).1 = .ok () ∧ (∀ entry ∈ v.log c s, ∀ e, entry.2 ≠ .fail e) ∨
      ∃ init call e, ((v.walkCircuit c).exec s).1 = .error e ∧
        v.log c s = init ++ [(call, .fail e)] ∧
        ∀ entry ∈ init, ∀ e', entry.2 ≠ .fail e') := by
  obtain ⟨answers, hplayed, hlog⟩ := v.exists_played c s
  rw [hlog]
  refine ⟨of_flatMap_calls .nil .append fun p _ => p.nested_calls,
    of_flatMap_calls whole_nil .append fun p _ => p.whole_calls, v.refines_walkCircuit c,
    ⟨answers, hplayed.length_eq, rfl, fun k hk => ?_⟩, hplayed.answered_of_proceed rfl,
    hplayed.outcome_eq⟩
  rw [hplayed.left_out_iff hk]
  simp

end Visitor

end FlowCircuit
