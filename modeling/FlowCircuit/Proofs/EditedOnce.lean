import FlowCircuit.Proofs.Meaning
import FlowCircuit.Proofs.PlainEdit
import FlowCircuit.Proofs.Refold

/-!
# Each node is edited once

An edit deals with a node at the first place where it meets it, and at every other place takes what
it remembers.  To say so of a whole run, also of one that fails, the run is done once more with a
log (`ExprEdit.logged`): what became of the node at each place that was reached, and each time the
second hook was asked.  The run with the log is the run without it, hooks and memory included
(`ExprEdit.refines_logged`).

The log of a run has one result for each node and asks the second hook at most once for each node.
What carries this is that the memory never forgets: everything in the log is remembered, except for
the node whose second hook is being asked, and that one is not below itself.
-/

set_option autoImplicit false

namespace FlowCircuit

/-! ## No node is below itself -/

theorem Expr.not_within_child {e c : Expr} (hc : c ∈ e.children) : ¬e.Within c := by
  induction e using induction_children generalizing c with
  | node e ih =>
    intro h
    -- A child `d` of `c` that is above `e` would be above `c` as well.
    rcases within_iff.mp h with rfl | ⟨d, hd, hed⟩
    · exact ih e hc hc .refl
    · exact ih c hc hd ((within_of_mem_children hc).trans hed)

/-! ## Recursions compared -/

theorem Expr.refines_bottomUp {σ τ β : Type} {f : σ → τ} {node : Expr → Run σ (List β) → Run σ β}
    {node₀ : Expr → Run τ (List β) → Run τ β}
    (h : ∀ e below below₀, Job.Refines f below below₀ →
      Job.Refines f (node e below) (node₀ e below₀))
    (e : Expr) : Job.Refines f (e.bottomUp node) (e.bottomUp node₀) := by
  induction e using induction_children with
  | node e ih =>
    rw [bottomUp_eq, bottomUp_eq]
    refine h e _ _ ?_
    generalize e.children = cs at ih
    induction cs with
    | nil => exact .pure []
    | cons c cs ihcs =>
      rw [bottomUpAll, bottomUpAll]
      refine (ih c List.mem_cons_self).bind fun new => ?_
      exact (ihcs fun c hc => ih c (List.mem_cons_of_mem _ hc)).bind fun rest => .pure (new :: rest)

namespace ExprEdit

variable {σ : Type} (r : ExprEdit σ)

/-- The edit is the recursion that asks the memory at each node. -/
theorem apply_eq_bottomUp (e : Expr) : r.apply e = e.bottomUp r.applyNode := by
  induction e using Expr.induction_children with
  | node e ih =>
    rw [apply_eq, Expr.bottomUp_eq]
    congr 1
    generalize e.children = cs at ih
    induction cs with
    | nil => rfl
    | cons c cs ihcs =>
      rw [applyAll, Expr.bottomUpAll, ih c List.mem_cons_self,
        ihcs fun c hc => ih c (List.mem_cons_of_mem _ hc)]

/-! ## The run with a log -/

/-- What happens in an edit. -/
inductive Event where
  /-- The second hook is asked about what a node was rebuilt to. -/
  | asked (e rebuilt : Expr)
  /-- A place that holds a node has been dealt with. -/
  | became (e result : Expr)

/-- The state of an edit, and what has happened, the latest first. -/
structure Logged (σ : Type) where
  memo : Memo σ
  log : List Event

namespace Logged

/-- At first nothing is logged. -/
def start (hooks : σ) : Logged σ := ⟨.start hooks, []⟩

/-- Writes an event into the log. -/
def note (event : Event) : Run (Logged σ) Unit :=
  Job.update fun l => { l with log := event :: l.log }

/-- Asks a hook. -/
def ask {α : Type} (hook : Run σ α) : Run (Logged σ) α :=
  Job.onPart Logged.memo (fun l memo => { l with memo }) (Memo.ask hook)

/-- What became of `e` before, or else what `compute` makes of it now. -/
def remember (e : Expr) (compute : Run (Logged σ) Expr) : Run (Logged σ) Expr := do
  let l ← Job.state
  match l.memo.done.get? e with
  | some result =>
    note (.became e result)
    return result
  | none =>
    let result ← compute
    Job.update fun l =>
      ⟨{ l.memo with done := l.memo.done.insert e result }, .became e result :: l.log⟩
    return result

end Logged

/-- What becomes of a node that has not been met. -/
def compute (e : Expr) (below : Run (Logged σ) (List Expr)) : Run (Logged σ) Expr := do
  match ← Logged.ask (r.before e) with
  | some replacement => return replacement
  | none =>
    let children ← below
    let rebuilt ← rebuild e children
    Logged.note (.asked e rebuilt)
    Logged.ask (r.after rebuilt)

/-- The edit with a log. -/
def logged (e : Expr) : Run (Logged σ) Expr :=
  e.bottomUp fun e below => Logged.remember e (r.compute e below)

/-- What happens in an edit of `e`, the latest first. -/
def log (e : Expr) (s : Session σ) : List Event :=
  ((r.logged e).exec (s.map Logged.start)).2.state.log

theorem refines_ask {α : Type} (hook : Run σ α) :
    Job.Refines Logged.memo (Logged.ask hook) (Memo.ask hook) := fun _ => rfl

theorem refines_rebuild {τ τ₀ : Type} (f : τ → τ₀) (e : Expr) (cs : List Expr) :
    Job.Refines f (rebuild e cs) (rebuild e cs) := by
  rw [rebuild, rebuild]
  split
  · exact .pure e
  · exact fun _ => rfl

/-- Writing something down changes nothing else. -/
theorem refines_note_bind {α : Type} (event : Event) {job : Run (Logged σ) α}
    {job₀ : Run (Memo σ) α} (h : Job.Refines Logged.memo job job₀) :
    Job.Refines Logged.memo (Logged.note event >>= fun _ => job) job₀ := fun s =>
  h { s with state := { s.state with log := event :: s.state.log } }

/-- **The run with the log is the run.** -/
theorem refines_logged (e : Expr) : Job.Refines Logged.memo (r.logged e) (r.apply e) := by
  rw [apply_eq_bottomUp]
  refine Expr.refines_bottomUp (fun e below below₀ hbelow => ?_) e
  rw [Logged.remember, applyNode, Memo.remember]
  refine .state_bind fun l => ?_
  cases hget : l.memo.done.get? e with
  | some result => exact refines_note_bind _ (.pure result)
  | none =>
    dsimp only
    refine .bind ?_ fun result => ?_
    · rw [compute]
      refine (refines_ask (r.before e)).bind fun found => ?_
      cases found with
      | some replacement => exact .pure replacement
      | none =>
        refine hbelow.bind fun children => ?_
        refine (refines_rebuild Logged.memo e children).bind fun rebuilt => ?_
        exact refines_note_bind _ (refines_ask (r.after rebuilt))
    · exact Job.Refines.bind (.update fun _ => rfl) fun _ => .pure result

/-! ## What is in a log -/

/-- One node becomes one node, wherever it stands. -/
def OneResult (log : List Event) : Prop :=
  ∀ a b x y, .became a x ∈ log → .became b y ∈ log → a.label = b.label → x = y

/-- The nodes for which the second hook was asked. -/
def askedLabels (log : List Event) : List Label :=
  log.filterMap fun
    | .asked e _ => some e.label
    | .became _ _ => none

theorem mem_askedLabels {log : List Event} {l : Label} :
    l ∈ askedLabels log ↔ ∃ e x, .asked e x ∈ log ∧ e.label = l := by
  rw [askedLabels, List.mem_filterMap]
  constructor
  · rintro ⟨event, hmem, h⟩
    cases event with
    | asked e x => exact ⟨e, x, hmem, Option.some.inj h⟩
    | became => cases h
  · rintro ⟨e, x, hmem, rfl⟩
    exact ⟨_, hmem, rfl⟩

/-- The log is remembered; only for the nodes in `pending` the second hook may have been asked
without there being a result. -/
structure Kept (pending : Set Label) (l : Logged σ) : Prop where
  became : ∀ a x, .became a x ∈ l.log → l.memo.done.get? a = some x
  asked : ∀ a x, .asked a x ∈ l.log → a.label ∈ pending ∨ l.memo.done.get? a ≠ none
  once : (askedLabels l.log).Nodup

namespace Kept

variable {pending : Set Label} {l : Logged σ}

theorem oneResult (h : Kept pending l) : OneResult l.log := by
  intro a b x y ha hb hlabel
  have hx := h.became a x ha
  rw [Replacements.get?_congr hlabel, h.became b y hb] at hx
  exact (Option.some.inj hx).symm

theorem start (hooks : σ) : Kept ∅ (Logged.start hooks) :=
  ⟨fun _ _ h => (by cases h), fun _ _ h => (by cases h), .nil⟩

/-- A place with a node that has been dealt with. -/
theorem again (h : Kept pending l) {e x : Expr} (hget : l.memo.done.get? e = some x) :
    Kept pending { l with log := .became e x :: l.log } := by
  refine ⟨fun a y hmem => ?_, fun a y hmem => ?_, h.once⟩
  · rcases List.mem_cons.mp hmem with heq | hmem
    · cases heq
      exact hget
    · exact h.became a y hmem
  · rcases List.mem_cons.mp hmem with heq | hmem
    · cases heq
    · exact h.asked a y hmem

/-- The second hook is asked for a node that has not been dealt with. -/
theorem ask (h : Kept ∅ l) {e : Expr} (rebuilt : Expr) (hget : l.memo.done.get? e = none) :
    Kept {e.label} { l with log := .asked e rebuilt :: l.log } := by
  refine ⟨fun a y hmem => ?_, fun a y hmem => ?_, ?_⟩
  · rcases List.mem_cons.mp hmem with heq | hmem
    · cases heq
    · exact h.became a y hmem
  · rcases List.mem_cons.mp hmem with heq | hmem
    · cases heq
      exact .inl rfl
    · exact .inr ((h.asked a y hmem).resolve_left fun h => h)
  · refine List.nodup_cons.mpr ⟨fun hmem => ?_, h.once⟩
    obtain ⟨a, x, hasked, hlabel⟩ := mem_askedLabels.mp hmem
    refine (h.asked a x hasked).resolve_left (fun h => h) ?_
    rw [Replacements.get?_congr hlabel]
    exact hget

/-- A node is dealt with. -/
theorem settle {e : Expr} (h : Kept {e.label} l) (x : Expr) (hget : l.memo.done.get? e = none) :
    Kept ∅ ⟨{ l.memo with done := l.memo.done.insert e x }, .became e x :: l.log⟩ := by
  have hgetInsert (a : Expr) : (l.memo.done.insert e x).get? a =
      if e.label = a.label then some x else l.memo.done.get? a := Replacements.get?_insert
  refine ⟨fun a y hmem => ?_, fun a y hmem => ?_, h.once⟩
  · rcases List.mem_cons.mp hmem with heq | hmem
    · cases heq
      dsimp only
      rw [hgetInsert, if_pos rfl]
    · have hold := h.became a y hmem
      have hne : e.label ≠ a.label := fun hlabel => by
        rw [← Replacements.get?_congr hlabel, hget] at hold
        cases hold
      dsimp only
      rw [hgetInsert, if_neg hne, hold]
  · rcases List.mem_cons.mp hmem with heq | hmem
    · cases heq
    · refine .inr ?_
      dsimp only
      rw [hgetInsert]
      split
      · exact Option.some_ne_none x
      case isFalse hne => exact (h.asked a y hmem).resolve_left fun h => hne h.symm

theorem mono (h : Kept ∅ l) : Kept pending l :=
  ⟨h.became, fun a x hmem => .inr ((h.asked a x hmem).resolve_left fun h => h), h.once⟩

/-- Only memory and log matter. -/
theorem of_eq {l' : Logged σ} (h : Kept pending l) (hdone : l'.memo.done = l.memo.done)
    (hlog : l'.log = l.log) : Kept pending l' := by
  refine ⟨fun a x hmem => ?_, fun a x hmem => ?_, ?_⟩
  · rw [hdone]
    exact h.became a x (hlog ▸ hmem)
  · rw [hdone]
    exact h.asked a x (hlog ▸ hmem)
  · rw [hlog]
    exact h.once

end Kept

/-! ## What a run writes -/

/-- How a run ends that deals with the nodes in `inside`: everything in the log is remembered, and
nothing was remembered for other nodes.  When it fails, the second hook may have failed for the last
node. -/
def Ended {α : Type} (inside : Set Label) (l : Logged σ) (outcome : Except Error α)
    (l' : Logged σ) : Prop :=
  match outcome with
  | .ok _ => Kept ∅ l' ∧ ∀ d : Expr, d.label ∉ inside → l'.memo.done.get? d = l.memo.done.get? d
  | .error _ => ∃ pending, Kept pending l'

theorem Ended.kept {α : Type} {inside : Set Label} {l l' : Logged σ} {outcome : Except Error α}
    (h : Ended inside l outcome l') : ∃ pending, Kept pending l' := by
  cases outcome with
  | ok a => exact ⟨∅, h.1⟩
  | error err => exact h

variable {s : Session (Logged σ)}

theorem ends_ask {α : Type} (hook : Run σ α) :
    Job.ends (Logged.ask hook) (fun _ s' => s'.state.memo.done = s.state.memo.done ∧
      s'.state.log = s.state.log) s := ⟨rfl, rfl⟩

theorem ends_note_bind {α : Type} {event : Event} {next : Unit → Run (Logged σ) α}
    {post : Except Error α → Session (Logged σ) → Prop} :
    Job.ends (Logged.note event >>= next) post s ↔
      Job.ends (next ()) post { s with state := { s.state with log := event :: s.state.log } } :=
  Job.ends_bind

theorem ends_rebuild (e : Expr) (cs : List Expr) :
    Job.ends (rebuild e cs) (fun _ s' => s'.state = s.state) s := by
  rw [rebuild]
  split <;> rfl

/-- Dealing with a node that is not among the ones below it. -/
theorem ends_compute {e : Expr} {inside : Set Label} (he : e.label ∉ inside) (hs : Kept ∅ s.state)
    (hget : s.state.memo.done.get? e = none) {below : Run (Logged σ) (List Expr)}
    (hbelow : ∀ {s : Session (Logged σ)}, Kept ∅ s.state →
      Job.ends below (fun outcome s' => Ended inside s.state outcome s'.state) s) :
    Job.ends (r.compute e below) (fun outcome s' =>
      match outcome with
      | .ok _ => Kept {e.label} s'.state ∧ s'.state.memo.done.get? e = none ∧
          ∀ d : Expr, d.label ∉ inside → s'.state.memo.done.get? d = s.state.memo.done.get? d
      | .error _ => ∃ pending, Kept pending s'.state) s := by
  rw [compute, Job.ends_bind]
  refine (ends_ask (r.before e)).imp fun found s₁ h₁ => ?_
  obtain ⟨hdone₁, hlog₁⟩ := h₁
  have hs₁ := hs.of_eq hdone₁ hlog₁
  cases found with
  | error err => exact ⟨_, hs₁⟩
  | ok found =>
    cases found with
    | some replacement =>
      refine ⟨hs₁.mono, ?_, fun d _ => ?_⟩
      · rw [← hget]
        exact congrArg (Replacements.get? · e) hdone₁
      · exact congrArg (Replacements.get? · d) hdone₁
    | none =>
      dsimp only
      rw [Job.ends_bind]
      refine (hbelow hs₁).imp fun children s₂ h₂ => ?_
      cases children with
      | error err => exact h₂
      | ok children =>
        obtain ⟨hs₂, hrest₂⟩ := h₂
        dsimp only
        rw [Job.ends_bind]
        refine (ends_rebuild e children).imp fun rebuilt s₃ h₃ => ?_
        have hs₃ : Kept ∅ s₃.state := h₃ ▸ hs₂
        have hget₃ : s₃.state.memo.done.get? e = none := by rw [h₃, hrest₂ e he, hdone₁, hget]
        cases rebuilt with
        | error err => exact ⟨_, hs₃⟩
        | ok rebuilt =>
          dsimp only
          rw [ends_note_bind]
          refine (ends_ask (r.after rebuilt)).imp fun last s₄ h₄ => ?_
          obtain ⟨hdone₄, hlog₄⟩ := h₄
          have hs₄ := (hs₃.ask rebuilt hget₃).of_eq hdone₄ hlog₄
          cases last with
          | error err => exact ⟨_, hs₄⟩
          | ok last =>
            refine ⟨hs₄, ?_, fun d hd => ?_⟩
            · rw [hdone₄]
              exact hget₃
            · rw [hdone₄, ← hdone₁, ← hrest₂ d hd, ← h₃]

/-- One place of an expression. -/
theorem ends_remember {e : Expr} {inside : Set Label} (he : e.label ∉ inside) (hs : Kept ∅ s.state)
    {below : Run (Logged σ) (List Expr)}
    (hbelow : ∀ {s : Session (Logged σ)}, Kept ∅ s.state →
      Job.ends below (fun outcome s' => Ended inside s.state outcome s'.state) s) :
    Job.ends (Logged.remember e (r.compute e below)) (fun outcome s' =>
      Ended (insert e.label inside) s.state outcome s'.state ∧
        ∀ x, outcome = .ok x → .became e x ∈ s'.state.log) s := by
  rw [Logged.remember, Job.ends_state_bind]
  cases hget : s.state.memo.done.get? e with
  | some result =>
    refine ⟨⟨hs.again hget, fun d _ => rfl⟩, fun x hx => ?_⟩
    cases hx
    exact List.mem_cons_self
  | none =>
    dsimp only
    rw [Job.ends_bind]
    refine (r.ends_compute he hs hget hbelow).imp fun outcome s₁ h₁ => ?_
    cases outcome with
    | error err => exact ⟨h₁, fun x hx => by cases hx⟩
    | ok result =>
      obtain ⟨hs₁, hget₁, hrest₁⟩ := h₁
      refine ⟨⟨hs₁.settle result hget₁, fun d hd => ?_⟩, fun x hx => ?_⟩
      · obtain ⟨hne, hout⟩ := not_or.mp hd
        rw [← hrest₁ d hout]
        refine Replacements.get?_insert.trans (if_neg fun heq => hne heq.symm)
      · cases hx
        exact List.mem_cons_self

/-- The labels of the nodes of an expression. -/
def labels (e : Expr) : Set Label := {l | ∃ d : Expr, d.Within e ∧ d.label = l}

/-- Several expressions, one after another. -/
theorem ends_loggedAll {node : Expr → Run (Logged σ) (List Expr) → Run (Logged σ) Expr}
    {cs : List Expr} (h : ∀ c ∈ cs, ∀ {s : Session (Logged σ)}, Kept ∅ s.state →
      Job.ends (c.bottomUp node) (fun outcome s' => Ended (labels c) s.state outcome s'.state) s)
    (hs : Kept ∅ s.state) :
    Job.ends (Expr.bottomUpAll node cs)
      (fun outcome s' => Ended {l | ∃ c ∈ cs, l ∈ labels c} s.state outcome s'.state) s := by
  induction cs generalizing s with
  | nil => exact ⟨hs, fun d _ => rfl⟩
  | cons c cs ih =>
    rw [Expr.bottomUpAll, Job.ends_bind]
    refine (h c List.mem_cons_self hs).imp fun new s₁ h₁ => ?_
    cases new with
    | error err => exact h₁
    | ok new =>
      obtain ⟨hs₁, hrest₁⟩ := h₁
      dsimp only
      rw [Job.ends_bind]
      refine (ih (fun c hc => h c (List.mem_cons_of_mem _ hc)) hs₁).imp fun rest s₂ h₂ => ?_
      cases rest with
      | error err => exact h₂
      | ok rest =>
        obtain ⟨hs₂, hrest₂⟩ := h₂
        refine ⟨hs₂, fun d hd => ?_⟩
        have hc : d.label ∉ labels c := fun hmem => hd ⟨c, List.mem_cons_self, hmem⟩
        have hcs : d.label ∉ {l | ∃ c ∈ cs, l ∈ labels c} := by
          rintro ⟨c', hc', hmem⟩
          exact hd ⟨c', List.mem_cons_of_mem _ hc', hmem⟩
        exact (hrest₂ d hcs).trans (hrest₁ d hc)

/-- **A run remembers all that it writes down.** -/
theorem ends_logged {e : Expr}
    (hone : ∀ a b : Expr, a.Within e → b.Within e → a.label = b.label → a = b)
    (hs : Kept ∅ s.state) :
    Job.ends (r.logged e) (fun outcome s' => Ended (labels e) s.state outcome s'.state ∧
      ∀ x, outcome = .ok x → .became e x ∈ s'.state.log) s := by
  induction e using Expr.induction_children generalizing s with
  | node e ih =>
    have habove : e.label ∉ {l | ∃ c ∈ e.children, l ∈ labels c} := by
      rintro ⟨c, hc, d, hd, hlabel⟩
      have hde : d = e := hone d e (hd.trans (Expr.within_of_mem_children hc)) .refl hlabel
      exact Expr.not_within_child hc (hde ▸ hd)
    have hlabels : labels e = insert e.label {l | ∃ c ∈ e.children, l ∈ labels c} := by
      ext l
      constructor
      · rintro ⟨d, hd, rfl⟩
        rcases Expr.within_iff.mp hd with rfl | ⟨c, hc, hdc⟩
        · exact .inl rfl
        · exact .inr ⟨c, hc, d, hdc, rfl⟩
      · rintro (rfl | ⟨c, hc, d, hd, rfl⟩)
        · exact ⟨e, .refl, rfl⟩
        · exact ⟨d, hd.trans (Expr.within_of_mem_children hc), rfl⟩
    rw [logged, Expr.bottomUp_eq, hlabels]
    refine r.ends_remember habove hs fun hs' => ends_loggedAll (fun c hc {s} hs => ?_) hs'
    have hsub {d : Expr} (hd : d.Within c) : d.Within e := hd.trans (Expr.within_of_mem_children hc)
    exact (ih c hc (fun a b ha hb => hone a b (hsub ha) (hsub hb)) hs).imp fun _ _ h => h.1

/-! ## Hooks that change nothing -/

section Still

variable {S : Set Expr} {s : Session (Memo σ)}

/-- What is remembered of a node in `S` is the node. -/
def Still (S : Set Expr) (memo : Memo σ) : Prop := ∀ a ∈ S, ∀ x ∈ memo.done.get? a, x = a

theorem wp_remember_still (hone : ∀ a ∈ S, ∀ b ∈ S, a.label = b.label → a = b) {e : Expr}
    (he : e ∈ S) (hs : Still S s.state) {compute : Run (Memo σ) Expr} {fail : Error → Prop}
    (hcompute : Job.wp compute (fun e' s' => e' = e ∧ Still S s'.state) fail s) :
    Job.wp (Memo.remember e compute) (fun e' s' => e' = e ∧ Still S s'.state) fail s := by
  rw [Memo.remember, Job.wp_bind, Job.wp_state]
  cases hget : s.state.done.get? e with
  | some e' => exact ⟨hs e he e' hget, hs⟩
  | none =>
    dsimp only
    rw [Job.wp_bind]
    refine hcompute.imp fun e' s' h => ?_
    obtain ⟨rfl, hs'⟩ := h
    rw [Job.wp_bind, Job.wp_update]
    refine ⟨rfl, fun a ha x hx => ?_⟩
    have hget' : (s'.state.done.insert e' e').get? a = some x := hx
    rw [Replacements.get?_insert] at hget'
    split at hget'
    case isTrue hlabel =>
      cases hget'
      exact hone e' he a ha hlabel
    case isFalse => exact hs' a ha x hget'

theorem wp_applyAll_still {es : List Expr} {fail : Error → Prop}
    (h : ∀ e ∈ es, ∀ {s : Session (Memo σ)}, Still S s.state →
      Job.wp (r.apply e) (fun e' s' => e' = e ∧ Still S s'.state) fail s) (hs : Still S s.state) :
    Job.wp (r.applyAll es) (fun es' s' => es' = es ∧ Still S s'.state) fail s := by
  induction es generalizing s with
  | nil => exact ⟨rfl, hs⟩
  | cons e es ih =>
    rw [applyAll, Job.wp_bind]
    refine (h e List.mem_cons_self hs).imp fun e' s₁ h₁ => ?_
    obtain ⟨rfl, hs₁⟩ := h₁
    rw [Job.wp_bind]
    refine (ih (fun d hd => h d (List.mem_cons_of_mem _ hd)) hs₁).imp fun es' s₂ h₂ => ?_
    obtain ⟨rfl, hs₂⟩ := h₂
    exact ⟨rfl, hs₂⟩

theorem wp_apply_still (hbefore : ∀ e s, ((r.before e).exec s).1 = .ok none)
    (hafter : ∀ e s, ((r.after e).exec s).1 = .ok e)
    (hone : ∀ a ∈ S, ∀ b ∈ S, a.label = b.label → a = b)
    (hclosed : ∀ e ∈ S, ∀ c ∈ e.children, c ∈ S) {e : Expr} (he : e ∈ S) (hs : Still S s.state)
    {fail : Error → Prop} : Job.wp (r.apply e) (fun e' s' => e' = e ∧ Still S s'.state) fail s := by
  induction e using Expr.induction_children generalizing s with
  | node e ih =>
    rw [apply_eq, applyNode]
    refine wp_remember_still hone he hs ?_
    rw [Job.wp_bind, Memo.wp_ask]
    refine Job.wp_of_outcome (hbefore e _) fun t => ?_
    dsimp only
    rw [Job.wp_bind]
    have hbelow := r.wp_applyAll_still (s := ⟨t.next, t.notices, { s.state with hooks := t.state }⟩)
      (fun c hc => ih c hc (hclosed e he c hc)) hs
    refine hbelow.imp fun cs s₁ h₁ => ?_
    obtain ⟨rfl, hs₁⟩ := h₁
    rw [rebuild, if_pos rfl, Job.wp_bind, Job.wp_pure, Memo.wp_ask]
    exact Job.wp_of_outcome (hafter e _) fun t => ⟨rfl, hs₁⟩

end Still

end ExprEdit

/-! ## Evaluating constants -/

namespace ConstantFold

theorem outcome_after (e : Expr) (s : Session Nat) :
    ((edit.after e).exec s).1 = .ok ((fold s.next e).getD e) := by
  have h : Job.wp (edit.after e) (fun e' _ => e' = (fold s.next e).getD e) (fun _ => False) s := by
    change Job.wp (Job.fresh >>= _) _ _ _
    rw [Job.wp_bind, Job.wp_fresh]
    cases fold s.next e <;> rfl
  obtain ⟨e', s', hexec, rfl⟩ := h.exists_ok
  rw [hexec]

theorem edit_allocates (base : Set Expr) : edit.Allocates base where
  before _ hS _ := ⟨_, Set.Subset.rfl, le_refl _, hS, fun _ h => by cases h⟩
  after _ hS he := by
    refine (wp_after hS he).imp fun e' s' h => ?_
    obtain ⟨S', hSS', hnext, hS', he', -⟩ := h
    exact ⟨S', hSS', hnext, hS', he'⟩

theorem edit_respectsSame : edit.RespectsSame where
  before _ _ _ _ _ := .ok .none
  after s t _ _ hsame := by
    rw [outcome_after, outcome_after]
    exact .ok (same_getD_fold hsame s.next t.next)

end ConstantFold

/-! ## Memory is an optimisation -/

namespace ExprEdit

open ConstantFold

/-- **Memory is an optimisation.**  Where the answers of the hooks depend on nothing but the
expression they are asked about, the edit and the plain edit, which remembers nothing and rebuilds
every node at every place, both fail or both give the same.

And whatever the hooks are, of an expression in which a label belongs to one node: its run can be
followed with a log, in which each node has one result, the expression as a whole the result of the
run, and the second hook is asked at most once for each node.  Hooks that change nothing leave the
very node. -/
theorem memory_is_optimisation {σ : Type} (r : ExprEdit σ) :
    (∀ base, r.Allocates base → r.RespectsSame →
      ∀ (S T : Set Expr) (s t : Session σ) (e u : Expr), Heap S s.next → base ⊆ S → e ∈ S →
        Heap T t.next → base ⊆ T → u ∈ T → e.same u = true →
        Agree (fun x y => x.same y = true) ((r.apply e).exec (s.map Memo.start)).1
          ((r.plain u).exec t).1) ∧
    ∀ e : Expr, (∀ a b : Expr, a.Within e → b.Within e → a.label = b.label → a = b) →
      Job.Refines Logged.memo (r.logged e) (r.apply e) ∧ ∀ s : Session σ,
        OneResult (r.log e s) ∧ (askedLabels (r.log e s)).Nodup ∧
        (∀ x, ((r.apply e).exec (s.map Memo.start)).1 = .ok x → .became e x ∈ r.log e s) ∧
        ((∀ a s, ((r.before a).exec s).1 = .ok none) → (∀ a s, ((r.after a).exec s).1 = .ok a) →
          ((r.apply e).exec (s.map Memo.start)).1 = .ok e) := by
  refine ⟨?_, fun e hone => ⟨r.refines_logged e, fun s => ?_⟩⟩
  · intro base halloc hpure S T s t e u hS hbase he hT hbase' hu hsame
    exact agree_plain halloc hpure hS hbase he hT hbase' hu hsame
  · have hrun := r.ends_logged hone (s := s.map Logged.start) (.start s.state)
    obtain ⟨hended, hroot⟩ := hrun
    obtain ⟨pending, hkept⟩ := hended.kept
    refine ⟨hkept.oneResult, hkept.once, fun x hx => hroot x ?_, fun hbefore hafter => ?_⟩
    · have hexec := r.refines_logged e (s.map Logged.start)
      exact (congrArg Prod.fst hexec).symm.trans hx
    · have hstart : Still {d | d.Within e} (s.map Memo.start).state := fun a _ x hx => by cases hx
      obtain ⟨e', s', hexec, rfl, -⟩ := Job.wp.exists_ok <|
        r.wp_apply_still hbefore hafter (fun a ha b hb => hone a b ha hb)
          (fun d hd c hc => (Expr.within_of_mem_children hc).trans hd) .refl hstart
      rw [hexec]

/-- Of `(&(x + x, x)).0 < x`, in which `x` stands at four places: evaluating constants gives what it
gives without memory, and asks at most once about `x`. -/
theorem memory_is_optimisation_sharedByte :
    edit.Allocates ∅ ∧ edit.RespectsSame ∧ Heap (Expr.nodes [SharedByte.test, SharedByte.sum]) 6 ∧
      Agree (fun x y => x.same y = true)
        ((edit.apply SharedByte.test).exec ⟨6, [], Memo.start 0⟩).1
        ((edit.plain SharedByte.test).exec ⟨6, [], 0⟩).1 ∧
      (askedLabels (edit.log SharedByte.test ⟨6, [], 0⟩)).Nodup ∧
      (((⟨fun _ => pure none, fun e => pure e⟩ : ExprEdit Unit).apply SharedByte.test).exec
        ⟨6, [], Memo.start ()⟩).1 = .ok SharedByte.test := by
  have hheap := SharedByte.heap
  have htest : SharedByte.test ∈ Expr.nodes [SharedByte.test, SharedByte.sum] :=
    ⟨_, List.mem_cons_self, .refl⟩
  have hone (a b : Expr) (ha : a.Within SharedByte.test) (hb : b.Within SharedByte.test) :
      a.label = b.label → a = b :=
    hheap.one a ⟨_, List.mem_cons_self, ha⟩ b ⟨_, List.mem_cons_self, hb⟩
  obtain ⟨hagree, hlog⟩ := memory_is_optimisation edit
  obtain ⟨-, hstill⟩ :=
    memory_is_optimisation (⟨fun _ => pure none, fun e => pure e⟩ : ExprEdit Unit)
  refine ⟨edit_allocates ∅, edit_respectsSame, hheap, ?_, ?_, ?_⟩
  · exact hagree ∅ (edit_allocates ∅) edit_respectsSame _ _ ⟨6, [], 0⟩ ⟨6, [], 0⟩
      _ _ hheap (Set.empty_subset _) htest hheap (Set.empty_subset _) htest (Expr.same_refl _)
  · exact ((hlog _ hone).2 ⟨6, [], 0⟩).2.1
  · exact ((hstill _ hone).2 ⟨6, [], ()⟩).2.2.2 (fun _ _ => rfl) fun _ _ => rfl

end ExprEdit

end FlowCircuit
