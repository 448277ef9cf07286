import FlowCircuit.Circuit.Basic
import FlowCircuit.Circuit.Statistics

/-!
# Sessions

Walks and changes of circuits draw labels for the nodes they make, report what they do, and may
fail.  A `Session` is what they thread: the next unused label, the notices so far, and the state of
whatever hooks the caller has supplied.  A `Job` is a computation in a session.  When a job fails,
the session it reached is kept: labels stay used, notices stay reported, and the hooks keep what
they have learned.

Notices are values; `Notice.level` and `Notice.text` say how grave one is and how it reads.
-/

set_option autoImplicit false

namespace FlowCircuit

/-- How grave a notice is. -/
inductive Level where
  | warn
  | info
  | debug
  | trace
deriving DecidableEq

namespace Level

/-- Graver levels have smaller ranks. -/
def rank : Level → Nat
  | .warn => 0
  | .info => 1
  | .debug => 2
  | .trace => 3

/-- Whether a notice of level `l` is reported to a reader who asked for `threshold`. -/
def reported (threshold l : Level) : Bool := decide (l.rank ≤ threshold.rank)

end Level

/-- Something worth telling about a run. -/
inductive Notice where
  -- changes of circuits
  | removedOperator (edit : String) (id : OpId)
  | replacedOperator (edit : String) (id : OpId)
  | removedDeclaration (edit name : String)
  | operatorsReplaced (edit : String) (replaced total : Nat) (circuit : String)
  -- passes
  | noSinks (circuit : String) (operators : Nat)
  | operatorsLive (pass : String) (live total : Nat) (circuit : String)
  | folded (pass : String) (before after : Expr)
  | expressionsFolded (pass : String) (count : Nat) (circuit : String)
  | merged (pass : String) (duplicate : Expr)
  | duplicatesMerged (pass : String) (canonical merged : Nat) (circuit : String)
  -- the pipeline
  | passStarted (pass circuit : String)
  | passFinished (level : Level) (pass : String) (before after : Statistics)
  | optionsLoaded (path : String) (passes : List String)

namespace Notice

/-- How important a notice is. -/
def level : Notice → Level
  | .removedOperator .. | .replacedOperator .. | .removedDeclaration .. => .trace
  | .operatorsReplaced .. => .debug
  | .noSinks .. => .warn
  | .operatorsLive .. => .debug
  | .folded .. | .merged .. => .trace
  | .expressionsFolded .. | .duplicatesMerged .. => .debug
  | .passStarted .. => .debug
  | .passFinished level .. => level
  | .optionsLoaded .. => .debug

/-- The notice as it is logged. -/
def text : Notice → String
  | .removedOperator edit id => s!"{edit}: removed {streamName id}"
  | .replacedOperator edit id => s!"{edit}: replaced {streamName id}"
  | .removedDeclaration edit name => s!"{edit}: removed declaration {name}"
  | .operatorsReplaced edit replaced total circuit =>
    s!"{edit}: {replaced} of {total} operators replaced in circuit '{circuit}'"
  | .noSinks circuit operators =>
    s!"Circuit '{circuit}' has no sinks; removing all {operators} operators"
  | .operatorsLive pass live total circuit =>
    s!"{pass}: {live} of {total} operators live in circuit '{circuit}'"
  | .folded pass before after => s!"{pass}: {before} => {after}"
  | .expressionsFolded pass count circuit =>
    s!"{pass}: folded {count} expressions in circuit '{circuit}'"
  | .merged pass duplicate => s!"{pass}: merged {duplicate}"
  | .duplicatesMerged pass canonical count circuit =>
    s!"{pass}: {canonical} canonical expressions, {count} duplicates merged in circuit '{circuit}'"
  | .passStarted pass circuit => s!"Running pass '{pass}' on circuit '{circuit}'"
  | .passFinished _ pass before after => s!"Pass '{pass}': {before.text} -> {after.text}"
  | .optionsLoaded path passes =>
    s!"Loaded compiler options from {path}: passes [{Text.listed passes}]"

end Notice

/-- What a run threads. -/
structure Session (σ : Type) where
  /-- The next unused label. -/
  next : Label
  /-- Notices, the latest first. -/
  notices : List Notice
  /-- The state of the caller's hooks. -/
  state : σ

/-- A computation in a session that may fail with an `ε`. -/
abbrev Job (ε σ : Type) := ExceptT ε (StateM (Session σ))

/-- A computation that fails with an error about circuits. -/
abbrev Run (σ : Type) := Job Error σ

namespace Job

variable {ε ε' σ τ α : Type}

/-- Runs the job from a session; gives the outcome and the session it reached. -/
def exec (job : Job ε σ α) (s : Session σ) : Except ε α × Session σ := (job.run).run s

/-- The job that does what `f` says. -/
def of (f : Session σ → Except ε α × Session σ) : Job ε σ α := ExceptT.mk f

/-- An outcome that needs no session. -/
def ofExcept (outcome : Except ε α) : Job ε σ α := of fun s => (outcome, s)

/-- Draws an unused label. -/
def fresh : Job ε σ Label := of fun s => (.ok s.next, { s with next := s.next + 1 })

/-- Reports a notice. -/
def report (notice : Notice) : Job ε σ Unit :=
  of fun s => (.ok (), { s with notices := notice :: s.notices })

/-- The state of the hooks. -/
def state : Job ε σ σ := of fun s => (.ok s.state, s)

/-- Changes the state of the hooks. -/
def update (f : σ → σ) : Job ε σ Unit := of fun s => (.ok (), { s with state := f s.state })

/-- Makes a node with an unused label. -/
def make (build : Label → Except ε α) : Job ε σ α := do
  let label ← fresh
  ofExcept (build label)

/-- Runs a job on a part of the state; what it does to that part is kept also when it fails. -/
def onPart (get : σ → τ) (set : σ → τ → σ) (job : Job ε τ α) : Job ε σ α :=
  of fun s =>
    let (outcome, s') := job.exec ⟨s.next, s.notices, get s.state⟩
    (outcome, ⟨s'.next, s'.notices, set s.state s'.state⟩)

/-- Runs a job on a state of its own, and gives the state it ends in beside the result. -/
def withState (init : τ) (job : Job ε τ α) : Job ε σ (α × τ) :=
  of fun s =>
    let (outcome, s') := job.exec ⟨s.next, s.notices, init⟩
    (outcome.map fun a => (a, s'.state), ⟨s'.next, s'.notices, s.state⟩)

/-- Renames the failure. -/
def mapError (f : ε → ε') (job : Job ε σ α) : Job ε' σ α :=
  of fun s =>
    let (outcome, s') := job.exec s
    (outcome.mapError f, s')

/-! ## How jobs run -/

@[simp]
theorem exec_of (f : Session σ → Except ε α × Session σ) (s : Session σ) :
    (of f : Job ε σ α).exec s = f s := rfl

@[simp]
theorem exec_pure (a : α) (s : Session σ) : (pure a : Job ε σ α).exec s = (.ok a, s) := rfl

@[simp]
theorem exec_throw (e : ε) (s : Session σ) : (throw e : Job ε σ α).exec s = (.error e, s) := rfl

/-- A job followed by another: a failure of the first is the outcome of both. -/
theorem exec_bind {β : Type} (job : Job ε σ α) (next : α → Job ε σ β) (s : Session σ) :
    (job >>= next).exec s =
      match job.exec s with
      | (.ok a, s') => (next a).exec s'
      | (.error e, s') => (.error e, s') := by
  change ExceptT.bindCont next (job.exec s).1 (job.exec s).2 = _
  rcases job.exec s with ⟨outcome, s'⟩
  cases outcome <;> rfl

end Job

end FlowCircuit
