import FlowCircuit.Session
import Mathlib.Data.List.Forall2

/-!
# What a job can end in

Every change of a circuit is a `Job`: it threads a session and may fail.  This file says what a job
does without running it.  `Job.wp job post fail s` holds when the job, started in `s`, ends in a
result and a session that `post` accepts, or in an error that `fail` accepts.

Two choices of `fail` are used throughout.  With `fun _ => False` the statement is *total*: the job
succeeds (`wp.exists_ok`).  With `fun _ => True` it is *partial*: it speaks only of the runs that
succeed (`wp.of_exec_ok`).  Proofs are written once, for any `fail`, wherever the same argument
serves both.

There is one rule for each way of building a job, so a proof follows the text of the job and never
looks at how sessions are threaded.

What is true of the session a job fails in is said with `Job.ends`, which has the same rules.
`Job.Keeps` is for invariants: what a job does to them does not depend on whether it fails.  Two
jobs on different states are compared with `Job.Refines`.  The state `Watched` keeps a list of what
it was asked, which shows how often a job puts a question and what it hears.
-/

set_option autoImplicit false

/-- The session with another state. -/
def FlowCircuit.Session.map {σ τ : Type} (f : σ → τ) (s : FlowCircuit.Session σ) :
    FlowCircuit.Session τ := ⟨s.next, s.notices, f s.state⟩

namespace FlowCircuit.Job

variable {ε ε' σ τ α β : Type}

/-- The job ends in a result and a session that `post` accepts, or in an error that `fail`
accepts. -/
def wp (job : Job ε σ α) (post : α → Session σ → Prop) (fail : ε → Prop) (s : Session σ) : Prop :=
  match job.exec s with
  | (.ok a, s') => post a s'
  | (.error e, _) => fail e

variable {post : α → Session σ → Prop} {fail : ε → Prop} {s : Session σ}

/-! ## From runs and to runs -/

theorem wp.of_exec_ok {job : Job ε σ α} (h : wp job post fail s) {a : α} {s' : Session σ}
    (hrun : job.exec s = (.ok a, s')) : post a s' := by
  rw [wp, hrun] at h
  exact h

/-- What holds of every run that succeeds. -/
theorem wp_of_exec_ok {job : Job ε σ α} (h : ∀ a s', job.exec s = (.ok a, s') → post a s') :
    wp job post (fun _ => True) s := by
  rw [wp]
  rcases hrun : job.exec s with ⟨outcome, s'⟩
  cases outcome with
  | ok a => exact h a s' hrun
  | error e => trivial

/-- A job whose result is known. -/
theorem wp_of_outcome {job : Job ε σ α} {a : α} (h : (job.exec s).1 = .ok a)
    (hpost : ∀ s', post a s') : wp job post fail s := by
  rw [wp]
  rcases hrun : job.exec s with ⟨outcome, s'⟩
  rw [hrun] at h
  cases h
  exact hpost s'

/-- A job that is not allowed to fail succeeds. -/
theorem wp.exists_ok {job : Job ε σ α} (h : wp job post (fun _ => False) s) :
    ∃ a s', job.exec s = (.ok a, s') ∧ post a s' := by
  rw [wp] at h
  rcases hrun : job.exec s with ⟨outcome, s'⟩
  rw [hrun] at h
  cases outcome with
  | ok a => exact ⟨a, s', rfl, h⟩
  | error e => exact h.elim

/-- A job that was seen to succeed has a result. -/
theorem exists_of_isOk {job : Job ε σ α} (h : (job.exec s).1.isOk = true) :
    ∃ a s', job.exec s = (.ok a, s') := by
  rcases hrun : job.exec s with ⟨outcome, s'⟩
  rw [hrun] at h
  cases outcome with
  | ok a => exact ⟨a, s', rfl⟩
  | error e => cases h

/-- More results and more errors may be accepted. -/
theorem wp.mono {job : Job ε σ α} {post' : α → Session σ → Prop} {fail' : ε → Prop}
    (h : wp job post fail s) (hpost : ∀ a s', post a s' → post' a s')
    (hfail : ∀ e, fail e → fail' e) : wp job post' fail' s := by
  rw [wp] at h ⊢
  rcases hrun : job.exec s with ⟨outcome, s'⟩
  rw [hrun] at h
  cases outcome with
  | ok a => exact hpost a s' h
  | error e => exact hfail e h

/-- More results may be accepted. -/
theorem wp.imp {job : Job ε σ α} {post' : α → Session σ → Prop} (h : wp job post fail s)
    (hpost : ∀ a s', post a s' → post' a s') : wp job post' fail s :=
  h.mono hpost fun _ he => he

/-- What is known of the results, and that they are the results. -/
theorem wp.with_exec {job : Job ε σ α} (h : wp job post fail s) :
    wp job (fun a s' => post a s' ∧ (job.exec s).1 = .ok a)
      (fun e => fail e ∧ (job.exec s).1 = .error e) s := by
  rw [wp] at h ⊢
  rcases hrun : job.exec s with ⟨outcome, s'⟩
  rw [hrun] at h
  cases outcome <;> exact ⟨h, rfl⟩

/-- What is known of all runs, and what is known of those that succeed. -/
theorem wp.and {job : Job ε σ α} {post' : α → Session σ → Prop} (h : wp job post fail s)
    (h' : wp job post' (fun _ => True) s) : wp job (fun a s' => post a s' ∧ post' a s') fail s := by
  rw [wp] at h h' ⊢
  rcases hrun : job.exec s with ⟨outcome, s'⟩
  rw [hrun] at h h'
  cases outcome with
  | ok a => exact ⟨h, h'⟩
  | error e => exact h

/-! ## One rule for each way of building a job -/

theorem wp_of {f : Session σ → Except ε α × Session σ} :
    wp (of f) post fail s ↔
      match f s with
      | (.ok a, s') => post a s'
      | (.error e, _) => fail e := Iff.rfl

@[simp]
theorem wp_pure {a : α} : wp (pure a) post fail s ↔ post a s := Iff.rfl

@[simp]
theorem wp_throw {e : ε} : wp (throw e) post fail s ↔ fail e := Iff.rfl

@[simp]
theorem wp_bind {job : Job ε σ β} {next : β → Job ε σ α} :
    wp (job >>= next) post fail s ↔ wp job (fun b => wp (next b) post fail) fail s := by
  rw [wp, wp, exec_bind]
  rcases job.exec s with ⟨outcome, s'⟩
  cases outcome <;> exact Iff.rfl

theorem wp_ofExcept {outcome : Except ε α} :
    wp (ofExcept outcome) post fail s ↔
      match outcome with
      | .ok a => post a s
      | .error e => fail e := by
  cases outcome <;> exact Iff.rfl

@[simp]
theorem wp_fresh {post : Label → Session σ → Prop} :
    wp fresh post fail s ↔ post s.next { s with next := s.next + 1 } := Iff.rfl

@[simp]
theorem wp_report {notice : Notice} {post : Unit → Session σ → Prop} :
    wp (report notice) post fail s ↔ post () { s with notices := notice :: s.notices } := Iff.rfl

@[simp]
theorem wp_state {post : σ → Session σ → Prop} : wp state post fail s ↔ post s.state s := Iff.rfl

@[simp]
theorem wp_update {f : σ → σ} {post : Unit → Session σ → Prop} :
    wp (update f) post fail s ↔ post () { s with state := f s.state } := Iff.rfl

theorem wp_make {build : Label → Except ε α} :
    wp (make build) post fail s ↔
      match build s.next with
      | .ok a => post a { s with next := s.next + 1 }
      | .error e => fail e := by
  rw [make, wp_bind, wp_fresh, wp_ofExcept]

/-- A node that can be made is made. -/
theorem wp_make_ok {build : Label → Except ε α} {a : α} (h : build s.next = .ok a)
    (hpost : post a { s with next := s.next + 1 }) : wp (make build) post fail s := by
  rw [wp_make, h]
  exact hpost

/-- A job on a part of the state leaves the rest of it alone. -/
theorem wp_onPart {get : σ → τ} {set : σ → τ → σ} {job : Job ε τ α} :
    wp (onPart get set job) post fail s ↔
      wp job (fun a t => post a ⟨t.next, t.notices, set s.state t.state⟩) fail
        ⟨s.next, s.notices, get s.state⟩ := by
  rw [onPart, wp_of, wp]
  rcases job.exec ⟨s.next, s.notices, get s.state⟩ with ⟨outcome, t⟩
  cases outcome <;> exact Iff.rfl

theorem wp_withState {init : τ} {job : Job ε τ α} {post : α × τ → Session σ → Prop} :
    wp (withState init job) post fail s ↔
      wp job (fun a t => post (a, t.state) ⟨t.next, t.notices, s.state⟩) fail
        ⟨s.next, s.notices, init⟩ := by
  rw [withState, wp_of, wp]
  rcases job.exec ⟨s.next, s.notices, init⟩ with ⟨outcome, t⟩
  cases outcome <;> exact Iff.rfl

theorem wp_mapError {f : ε' → ε} {job : Job ε' σ α} :
    wp (mapError f job) post fail s ↔ wp job post (fun e => fail (f e)) s := by
  rw [mapError, wp_of, wp]
  rcases job.exec s with ⟨outcome, t⟩
  cases outcome <;> exact Iff.rfl

/-! ## Lists -/

/-- A job for each element of a list, none of which changes the session. -/
theorem wp_mapM_of_still {f : β → Job ε σ α} {R : β → α → Prop} {bs : List β}
    (h : ∀ b ∈ bs, wp (f b) (fun a s' => R b a ∧ s' = s) fail s) :
    wp (bs.mapM f) (fun as s' => List.Forall₂ R bs as ∧ s' = s) fail s := by
  induction bs with
  | nil => simp
  | cons b bs ih =>
    rw [List.mapM_cons, wp_bind]
    refine (h b List.mem_cons_self).imp fun a s' ha => ?_
    obtain ⟨hR, rfl⟩ := ha
    rw [wp_bind]
    refine (ih fun b' hb' => h b' (List.mem_cons_of_mem _ hb')).imp fun as s'' has => ?_
    obtain ⟨hall, rfl⟩ := has
    exact ⟨.cons hR hall, rfl⟩

/-! ## Runs that may fail

`wp` says nothing about the session in which a job fails. -/

theorem exec_map (f : β → α) (job : Job ε σ β) (s : Session σ) :
    (f <$> job).exec s = ((job.exec s).1.map f, (job.exec s).2) := by
  rw [map_eq_pure_bind, exec_bind]
  rcases job.exec s with ⟨outcome, s'⟩
  cases outcome <;> rfl

/-- The job ends in an outcome and a session that `post` accepts. -/
def ends (job : Job ε σ α) (post : Except ε α → Session σ → Prop) (s : Session σ) : Prop :=
  post (job.exec s).1 (job.exec s).2

section Ends

variable {post : Except ε α → Session σ → Prop} {s : Session σ}

theorem ends.imp {job : Job ε σ α} {post' : Except ε α → Session σ → Prop} (h : ends job post s)
    (hpost : ∀ outcome s', post outcome s' → post' outcome s') : ends job post' s :=
  hpost _ _ h

theorem ends_bind {job : Job ε σ β} {next : β → Job ε σ α} :
    ends (job >>= next) post s ↔ ends job (fun outcome s' =>
      match outcome with
      | .ok b => ends (next b) post s'
      | .error e => post (.error e) s') s := by
  rw [ends, ends, exec_bind]
  rcases job.exec s with ⟨outcome, s'⟩
  cases outcome <;> exact Iff.rfl

theorem ends_state_bind {next : σ → Job ε σ α} :
    ends (state >>= next) post s ↔ ends (next s.state) post s := ends_bind

end Ends

/-! ## What jobs keep -/

/-- Whatever comes of the job, it leaves the state as `J` says if it found it so; and if there is a
result, it is as `Q` says. -/
def Keeps (job : Job ε σ α) (J : σ → Prop) (Q : α → Prop) : Prop :=
  ∀ s, J s.state → J (job.exec s).2.state ∧ ∀ a, (job.exec s).1 = .ok a → Q a

namespace Keeps

variable {J : σ → Prop} {K : τ → Prop} {Q : α → Prop}

theorem pure {a : α} (h : Q a) : Keeps (Pure.pure a : Job ε σ α) J Q := fun _ hs =>
  ⟨hs, fun _ ha => Except.ok.inj ha ▸ h⟩

theorem bind {job : Job ε σ β} {next : β → Job ε σ α} {R : β → Prop} (hjob : Keeps job J R)
    (hnext : ∀ b, R b → Keeps (next b) J Q) : Keeps (job >>= next) J Q := by
  intro s hs
  obtain ⟨hs', hresult⟩ := hjob s hs
  rw [exec_bind]
  rcases hrun : job.exec s with ⟨outcome, s'⟩
  rw [hrun] at hs' hresult
  cases outcome with
  | ok b => exact hnext b (hresult b rfl) s' hs'
  | error e => exact ⟨hs', fun _ h => by cases h⟩

theorem state : Keeps (Job.state : Job ε σ σ) J J := fun _ hs =>
  ⟨hs, fun _ ha => Except.ok.inj ha ▸ hs⟩

theorem update {f : σ → σ} (h : ∀ x, J x → J (f x)) :
    Keeps (Job.update f : Job ε σ Unit) J fun _ => True := fun s hs =>
  ⟨h s.state hs, fun _ _ => trivial⟩

theorem report {notice : Notice} : Keeps (Job.report notice : Job ε σ Unit) J fun _ => True :=
  fun _ hs => ⟨hs, fun _ _ => trivial⟩

theorem fresh : Keeps (Job.fresh : Job ε σ Label) J fun _ => True := fun _ hs =>
  ⟨hs, fun _ _ => trivial⟩

theorem make {build : Label → Except ε α} (h : ∀ label a, build label = .ok a → Q a) :
    Keeps (Job.make build) J Q :=
  fresh.bind fun label _ _ hs => ⟨hs, fun a ha => h label a ha⟩

theorem wp {job : Job ε σ α} (h : Keeps job J Q) {s : Session σ} (hs : J s.state) :
    wp job (fun a _ => Q a) (fun _ => True) s :=
  wp_of_exec_ok fun a s' hrun => (h s hs).2 a (by rw [hrun])

theorem throw {e : ε} : Keeps (throw e : Job ε σ α) J Q := fun _ hs => ⟨hs, fun _ h => by cases h⟩

/-- The same for each of several jobs. -/
theorem mapM {as : List β} {f : β → Job ε σ α} (h : ∀ b ∈ as, Keeps (f b) J Q) :
    Keeps (as.mapM f) J fun results => ∀ a ∈ results, Q a := by
  induction as with
  | nil => exact .pure (List.forall_mem_nil _)
  | cons b bs ih =>
    obtain ⟨hb, hbs⟩ := List.forall_mem_cons.mp h
    rw [List.mapM_cons]
    refine hb.bind fun a ha => (ih hbs).bind fun results hresults => .pure ?_
    exact List.forall_mem_cons.mpr ⟨ha, hresults⟩

/-- A job on a part of the state. -/
theorem onPart {get : σ → τ} {set : σ → τ → σ} {job : Job ε τ α} (h : Keeps job K Q)
    (hget : ∀ x, J x → K (get x)) (hset : ∀ x y, J x → K y → J (set x y)) :
    Keeps (Job.onPart get set job) J Q := fun s hs => by
  obtain ⟨hs', hresult⟩ := h ⟨s.next, s.notices, get s.state⟩ (hget _ hs)
  exact ⟨hset _ _ hs hs', hresult⟩

end Keeps

/-! ## Jobs that see a part of the state -/

/-- `job` does on a state what `job₀` does on the part `f` of it. -/
def Refines (f : σ → τ) (job : Job ε σ α) (job₀ : Job ε τ α) : Prop :=
  ∀ s, job₀.exec (s.map f) = ((job.exec s).1, (job.exec s).2.map f)

namespace Refines

variable {f : σ → τ}

theorem pure (a : α) : Refines f (Pure.pure a : Job ε σ α) (Pure.pure a) := fun _ => rfl

theorem throw (e : ε) : Refines f (throw e : Job ε σ α) (throw e) := fun _ => rfl

theorem report (notice : Notice) :
    Refines f (Job.report notice : Job ε σ Unit) (Job.report notice) := fun _ => rfl

theorem update {g : σ → σ} {g₀ : τ → τ} (h : ∀ p, g₀ (f p) = f (g p)) :
    Refines f (Job.update g : Job ε σ Unit) (Job.update g₀) := by
  intro s
  exact congrArg (fun p => (Except.ok (), Session.mk s.next s.notices p)) (h s.state)

theorem bind {job : Job ε σ α} {job₀ : Job ε τ α} {next : α → Job ε σ β} {next₀ : α → Job ε τ β}
    (hjob : Refines f job job₀) (hnext : ∀ a, Refines f (next a) (next₀ a)) :
    Refines f (job >>= next) (job₀ >>= next₀) := by
  intro s
  rw [exec_bind, exec_bind, hjob s]
  rcases job.exec s with ⟨outcome, s'⟩
  cases outcome with
  | ok a => exact hnext a s'
  | error e => rfl

/-- A job that looks at the state looks only at the part. -/
theorem state_bind {next : σ → Job ε σ α} {next₀ : τ → Job ε τ α}
    (h : ∀ p, Refines f (next p) (next₀ (f p))) :
    Refines f (Job.state >>= next) (Job.state >>= next₀) := fun s => by
  rw [exec_bind, exec_bind]
  exact h s.state s

/-- Jobs on parts of states that correspond. -/
theorem onPart {σ' τ' : Type} {f' : σ' → τ'} {get : σ → σ'} {set : σ → σ' → σ} {get₀ : τ → τ'}
    {set₀ : τ → τ' → τ} {job : Job ε σ' α} {job₀ : Job ε τ' α} (h : Refines f' job job₀)
    (hget : ∀ x, get₀ (f x) = f' (get x)) (hset : ∀ x y, set₀ (f x) (f' y) = f (set x y)) :
    Refines f (Job.onPart get set job) (Job.onPart get₀ set₀ job₀) := by
  intro s
  have hrun := h ⟨s.next, s.notices, get s.state⟩
  simp only [Session.map] at hrun
  simp only [Job.onPart, exec_of, Session.map, hget, hset, hrun]

theorem mapM {g : β → Job ε σ α} {g₀ : β → Job ε τ α} (h : ∀ b, Refines f (g b) (g₀ b))
    (bs : List β) : Refines f (bs.mapM g) (bs.mapM g₀) := by
  induction bs with
  | nil => exact Refines.pure []
  | cons b bs ih =>
    rw [List.mapM_cons, List.mapM_cons]
    exact (h b).bind fun a => ih.bind fun as => Refines.pure (a :: as)

end Refines

end FlowCircuit.Job

/-! ## Watching -/

namespace FlowCircuit

/-- A state, with what was written down about the questions put to it, the latest first. -/
structure Watched (ι σ : Type) where
  hooks : σ
  log : List ι

namespace Watched

variable {ε ι σ α : Type}

/-- Before the first question nothing is written down. -/
def start (hooks : σ) : Watched ι σ := ⟨hooks, []⟩

/-- Puts a question and writes it down with its answer, also an answer that is a failure. -/
def ask (entry : Except ε α → ι) (question : Job ε σ α) : Job ε (Watched ι σ) α :=
  Job.of fun s =>
    let (answer, s') := question.exec (s.map hooks)
    (answer, s'.map fun hooks => ⟨hooks, entry answer :: s.state.log⟩)

/-- Writing down changes nothing. -/
theorem refines_ask (entry : Except ε α → ι) (question : Job ε σ α) :
    Job.Refines hooks (ask entry question) question := fun _ => rfl

theorem ends_ask {entry : Except ε α → ι} {question : Job ε σ α}
    {post : Except ε α → Session (Watched ι σ) → Prop} {s : Session (Watched ι σ)}
    (h : ∀ answer s', s'.state.log = entry answer :: s.state.log → post answer s') :
    Job.ends (ask entry question) post s := h _ _ rfl

end Watched

end FlowCircuit
