import FlowCircuit.Proofs.ExprEdit
import FlowCircuit.Proofs.Rebuilding
import Mathlib.Data.Set.BooleanAlgebra
import Mathlib.Order.CompletePartialOrder

/-!
# An edit without its memory

An edit of expressions remembers what became of each node, and keeps a node whose sub-expressions
came back as they were.  `ExprEdit.plain` does neither: it asks about a node at every place where it
stands, and rebuilds it every time.  For hooks whose answers depend on nothing but the expression
they are asked about, and that only up to `Expr.same`, the two agree: both fail, or both give the
same expression (`agree_plain`).

What is remembered for a node was found in one session, and the plain edit comes to the node in
another one, perhaps many times.  So the invariant of the edit speaks of all sessions:
`Mirrors e outcome` says that the plain edit ends as `outcome` does from every session and for every
expression that is the same as `e`.  The edit establishes it for each node it leaves, also for the
one at which it fails.
-/

set_option autoImplicit false

namespace FlowCircuit

/-! ## Recursion from the leaves -/

namespace Expr

section BottomUp

variable {m : Type → Type} [Monad m] {β : Type} (node : Expr → m (List β) → m β)

mutual

/-- What `node` makes of an expression; it is given what is made of the sub-expressions of a
node. -/
def bottomUp : Expr → m β
  | ⟨l, t, .literal x⟩ => node ⟨l, t, .literal x⟩ (pure [])
  | ⟨l, t, .zset ⟨e, w, n, rows⟩⟩ => node ⟨l, t, .zset ⟨e, w, n, rows⟩⟩ (bottomUpRows rows)
  | ⟨l, t, .tuple fs⟩ => node ⟨l, t, .tuple fs⟩ (bottomUpAll fs)
  | ⟨l, t, .borrow a⟩ => node ⟨l, t, .borrow a⟩ (do return [← bottomUp a])
  | ⟨l, t, .var x⟩ => node ⟨l, t, .var x⟩ (pure [])
  | ⟨l, t, .field a i⟩ => node ⟨l, t, .field a i⟩ (do return [← bottomUp a])
  | ⟨l, t, .closure ps a⟩ => node ⟨l, t, .closure ps a⟩ (do return [← bottomUp a])
  | ⟨l, t, .binary o a b⟩ => node ⟨l, t, .binary o a b⟩ (do return [← bottomUp a, ← bottomUp b])

/-- Several expressions, in order. -/
def bottomUpAll : List Expr → m (List β)
  | [] => pure []
  | e :: es => do
    let new ← bottomUp e
    let rest ← bottomUpAll es
    return new :: rest

/-- The elements of rows, in order. -/
def bottomUpRows : List (Row Expr) → m (List β)
  | [] => pure []
  | ⟨_, e, _⟩ :: rows => do
    let new ← bottomUp e
    let rest ← bottomUpRows rows
    return new :: rest

end

theorem bottomUpRows_eq (rows : List (Row Expr)) :
    bottomUpRows node rows = bottomUpAll node (rows.map Row.element) := by
  induction rows with
  | nil => rfl
  | cons row rows ih => simp [bottomUpRows, bottomUpAll, ih]

theorem bottomUp_eq [LawfulMonad m] (e : Expr) :
    bottomUp node e = node e (bottomUpAll node e.children) := by
  rcases e with ⟨l, t, form⟩
  cases form <;>
    simp [bottomUp, bottomUpAll, children, Form.children, ZSet.elements, bottomUpRows_eq]

end BottomUp

end Expr

namespace ExprEdit

variable {σ : Type} (r : ExprEdit σ)

/-- What becomes of one node when nothing is remembered and nothing is kept. -/
def plainNode (e : Expr) (below : Run σ (List Expr)) : Run σ Expr := do
  match ← r.before e with
  | some replacement => return replacement
  | none =>
    let children ← below
    let rebuilt ← Job.make fun label => e.withChildren label children
    r.after rebuilt

/-- The edit without its memory. -/
def plain (e : Expr) : Run σ Expr := e.bottomUp r.plainNode

theorem plain_eq (e : Expr) :
    r.plain e = r.plainNode e (Expr.bottomUpAll r.plainNode e.children) :=
  Expr.bottomUp_eq r.plainNode e

/-! ## Hooks -/

/-- Hooks make nodes as everything else does: with labels that are not in use, over nodes that there
are.  They may hold on to the nodes in `base`. -/
structure Allocates (base : Set Expr) : Prop where
  before : ∀ {S : Set Expr} {s : Session σ} {e : Expr}, base ⊆ S → Heap S s.next → e ∈ S →
    Job.wp (r.before e) (fun found s' => ∃ S', S ⊆ S' ∧ s.next ≤ s'.next ∧ Heap S' s'.next ∧
      ∀ x ∈ found, x ∈ S') (fun _ => True) s
  after : ∀ {S : Set Expr} {s : Session σ} {e : Expr}, base ⊆ S → Heap S s.next → e ∈ S →
    Job.wp (r.after e) (fun x s' => ∃ S', S ⊆ S' ∧ s.next ≤ s'.next ∧ Heap S' s'.next ∧ x ∈ S')
      (fun _ => True) s

/-- Hooks are pure and respect `same`: asked about expressions that are the same, in whatever
sessions, they give answers that are the same, or fail for both. -/
structure RespectsSame : Prop where
  before : ∀ {a b : Expr} (s t : Session σ), a.WellTyped → b.WellTyped → a.same b = true →
    Agree (Option.Rel fun x y => x.same y = true) ((r.before a).exec s).1 ((r.before b).exec t).1
  after : ∀ {a b : Expr} (s t : Session σ), a.WellTyped → b.WellTyped → a.same b = true →
    Agree (fun x y => x.same y = true) ((r.after a).exec s).1 ((r.after b).exec t).1

end ExprEdit

/-! ## Runs that end as another one did -/

section Follows

variable {σ α α' β β' : Type} {R : α → β → Prop} {R' : α' → β' → Prop} {mem : Set Expr → β → Prop}
  {mem' : Set Expr → β' → Prop} {T : Set Expr} {t : Session σ} {job : Run σ β}

/-- The job ends as `outcome` says: both are errors, or the results are related.  It starts among
the nodes in `T`, and its result is over the nodes there are when it ends. -/
def Follows (outcome : Except Error α) (mem : Set Expr → β → Prop) (R : α → β → Prop)
    (job : Run σ β) (T : Set Expr) (t : Session σ) : Prop :=
  Job.wp job (fun b t' => (∃ T', T ⊆ T' ∧ Heap T' t'.next ∧ mem T' b) ∧
    ∃ a, outcome = .ok a ∧ R a b) (fun _ => ∃ e, outcome = .error e) t

theorem Follows.agree {outcome : Except Error α} (h : Follows outcome mem R job T t) :
    Agree R outcome (job.exec t).1 := by
  rw [Follows, Job.wp] at h
  rcases hrun : job.exec t with ⟨reached, t'⟩
  rw [hrun] at h
  cases reached with
  | ok b =>
    obtain ⟨-, a, rfl, hab⟩ := h
    exact .ok hab
  | error e' =>
    obtain ⟨e, rfl⟩ := h
    exact .error e e'

theorem Follows.pure {a : α} {b : β} (hT : Heap T t.next) (hb : mem T b) (hab : R a b) :
    Follows (.ok a) mem R (Pure.pure b : Run σ β) T t :=
  ⟨⟨T, Set.Subset.rfl, hT, hb⟩, a, rfl, hab⟩

theorem Follows.bind {x : Except Error α} {f : α → Except Error α'} {next : β → Run σ β'}
    (h : Follows x mem R job T t)
    (hnext : ∀ {a b T' t'}, x = .ok a → T ⊆ T' → Heap T' t'.next → mem T' b → R a b →
      Follows (f a) mem' R' (next b) T' t') : Follows (x.bind f) mem' R' (job >>= next) T t := by
  rw [Follows, Job.wp_bind]
  refine h.mono (fun b t' hb => ?_) fun _ he => ?_
  · obtain ⟨⟨T', hTT', hT', hmem⟩, a, rfl, hab⟩ := hb
    refine (hnext rfl hTT' hT' hmem hab).imp fun b' t'' hb' => ?_
    obtain ⟨⟨T'', hTT'', hT'', hmem'⟩, hresult⟩ := hb'
    exact ⟨⟨T'', hTT'.trans hTT'', hT'', hmem'⟩, hresult⟩
  · obtain ⟨e, rfl⟩ := he
    exact ⟨e, rfl⟩

/-- A job whose outcome is known to agree. -/
theorem follows_of_agree {outcome : Except Error α}
    (h : Job.wp job (fun b t' => ∃ T', T ⊆ T' ∧ Heap T' t'.next ∧ mem T' b) (fun _ => True) t)
    (hagree : Agree R outcome (job.exec t).1) : Follows outcome mem R job T t := by
  rw [Follows, Job.wp]
  rw [Job.wp] at h
  rcases hrun : job.exec t with ⟨reached, t'⟩
  rw [hrun] at h hagree
  cases hagree with
  | ok hab => exact ⟨h, _, rfl, hab⟩
  | error e e' => exact ⟨e, rfl⟩

end Follows

namespace ExprEdit

variable {σ : Type} {r : ExprEdit σ} {base : Set Expr}

/-- The plain edit ends as `outcome` does, from every session and for everything that is the same as
`e`. -/
def Mirrors (r : ExprEdit σ) (base : Set Expr) (e : Expr) (outcome : Except Error Expr) : Prop :=
  ∀ ⦃T : Set Expr⦄ ⦃t : Session σ⦄ ⦃u : Expr⦄, base ⊆ T → Heap T t.next → u ∈ T → e.same u = true →
    Follows outcome (fun T' p => p ∈ T') (fun x p => x.same p = true) (r.plain u) T t

/-- The same for several expressions. -/
def MirrorsAll (r : ExprEdit σ) (base : Set Expr) (es : List Expr)
    (outcome : Except Error (List Expr)) : Prop :=
  ∀ ⦃T : Set Expr⦄ ⦃t : Session σ⦄ ⦃us : List Expr⦄, base ⊆ T → Heap T t.next → (∀ u ∈ us, u ∈ T) →
    List.Forall₂ (fun e u => e.same u = true) es us →
    Follows outcome (fun T' ps => ∀ p ∈ ps, p ∈ T') (List.Forall₂ fun x p => x.same p = true)
      (Expr.bottomUpAll r.plainNode us) T t

theorem mirrorsAll_nil : MirrorsAll r base [] (.ok []) := by
  intro T t us _ hT _ hus
  cases hus
  exact .pure hT (List.forall_mem_nil _) .nil

theorem mirrorsAll_cons {e : Expr} {es : List Expr} {first : Except Error Expr}
    {rest : Except Error (List Expr)} (hfirst : r.Mirrors base e first)
    (hrest : ∀ x, first = .ok x → r.MirrorsAll base es rest) :
    r.MirrorsAll base (e :: es) (first.bind fun x => rest.bind fun xs => .ok (x :: xs)) := by
  intro T t us hbase hT hus hsame
  cases hsame with
  | @cons _ u _ us hu husame =>
    obtain ⟨hmem, hmems⟩ := List.forall_mem_cons.mp hus
    rw [Expr.bottomUpAll]
    refine (hfirst hbase hT hmem hu).bind fun {x p T₁ t₁} hx hTT₁ hT₁ hp hxp => ?_
    refine (hrest x hx (hbase.trans hTT₁) hT₁ (fun u hu => hTT₁ (hmems u hu)) husame).bind
      fun {xs ps T₂ t₂} _ hTT₂ hT₂ hps hxps => ?_
    exact .pure hT₂ (List.forall_mem_cons.mpr ⟨hTT₂ hp, hps⟩) (.cons hxp hxps)

theorem mirrorsAll_of_forall₂ {es xs : List Expr}
    (h : List.Forall₂ (fun e x => r.Mirrors base e (.ok x)) es xs) :
    r.MirrorsAll base es (.ok xs) := by
  induction h with
  | nil => exact mirrorsAll_nil
  | cons he _ ih => exact mirrorsAll_cons he fun _ _ => ih

/-- Rebuilding a node with the next label. -/
theorem follows_make {T : Set Expr} {t : Session σ} {u : Expr} {ds : List Expr}
    {outcome : Except Error Expr} (hT : Heap T t.next) (hu : u ∈ T) (hds : ∀ d ∈ ds, d ∈ T)
    (h : Agree (fun x y => x.same y = true) outcome (u.withChildren t.next ds)) :
    Follows outcome (fun T' p => p ∈ T') (fun x p => x.same p = true)
      (Job.make fun label => u.withChildren label ds) T t := by
  rw [Follows, Job.wp_make]
  cases hbuild : u.withChildren t.next ds with
  | ok p =>
    rw [hbuild] at h
    cases h with
    | ok hxp => exact ⟨hT.withChildren hu hds hbuild, _, rfl, hxp⟩
  | error e' =>
    rw [hbuild] at h
    cases h with
    | error e => exact ⟨e, rfl⟩

/-- What the edit keeps: the nodes that there are, the ones that are edited and the ones the hooks
hold among them. -/
def Nodes (base S g : Set Expr) (s : Session σ) : Prop := base ⊆ g ∧ S ⊆ g ∧ Heap g s.next

/-- The edit made `e'` of `e`, as the plain edit would. -/
def Became (r : ExprEdit σ) (base g : Set Expr) (e e' : Expr) : Prop :=
  e' ∈ g ∧ r.Mirrors base e (.ok e')

theorem Became.mono {g g' : Set Expr} (hg : g ⊆ g') {e e' : Expr} (h : Became r base g e e') :
    Became r base g' e e' :=
  ⟨hg h.1, h.2⟩

/-- What an edit does when it rebuilds agrees with what rebuilding gives, also when the node is
kept. -/
theorem wp_rebuild_agree {g : Set Expr} {s : Session σ} {e : Expr} {cs : List Expr}
    (hg : Heap g s.next) (he : e ∈ g) (hcs : ∀ c ∈ cs, c ∈ g) :
    Job.wp (rebuild e cs) (fun e₁ s' => ∃ g', g ⊆ g' ∧ s.next ≤ s'.next ∧ Heap g' s'.next ∧
        e₁ ∈ g' ∧ Agree (fun x y => x.same y = true) (.ok e₁) (e.withChildren s.next cs))
      (fun err => e.withChildren s.next cs = .error err) s := by
  rw [rebuild]
  split
  case isTrue hlabels =>
    obtain rfl : e.children = cs := hg.eq_of_labels (hg.closed e he) hcs hlabels
    obtain ⟨e', hself, hsame⟩ := Expr.withChildren_self (hg.typed e he) s.next
    refine ⟨g, Set.Subset.rfl, le_refl _, hg, he, ?_⟩
    rw [hself]
    exact .ok (Expr.same_symm hsame)
  case isFalse =>
    rw [Job.wp_make]
    cases hbuild : e.withChildren s.next cs with
    | ok e₁ =>
      obtain ⟨g', hgg', hg', he₁⟩ := hg.withChildren he hcs hbuild
      exact ⟨g', hgg', Nat.le_succ _, hg', he₁, .ok (Expr.same_refl e₁)⟩
    | error err => rfl

/-- Expressions that are each left as the plain edit would leave them. -/
theorem wp_applyAll_mirrors {S g : Set Expr} {s : Session (Memo σ)} {es : List Expr}
    (h : ∀ e ∈ es, ∀ {g : Set Expr} {s : Session (Memo σ)},
      Memo.Inv S (Nodes base S) (Became r base) g s →
      Job.wp (r.apply e) (Memo.Result S (Nodes base S) (Became r base) g s.next e)
        (fun err => r.Mirrors base e (.error err)) s)
    (hs : Memo.Inv S (Nodes base S) (Became r base) g s) :
    Job.wp (r.applyAll es) (fun es' s' => ∃ g', g ≤ g' ∧ s.next ≤ s'.next ∧
        Memo.Inv S (Nodes base S) (Became r base) g' s' ∧ List.Forall₂ (Became r base g') es es')
      (fun err => r.MirrorsAll base es (.error err)) s := by
  induction es generalizing g s with
  | nil =>
    rw [applyAll, Job.wp_pure]
    exact ⟨g, le_refl g, le_refl _, hs, .nil⟩
  | cons e es ih =>
    rw [applyAll, Job.wp_bind]
    refine (h e List.mem_cons_self hs).mono (fun e' s₁ h₁ => ?_) fun err herr => ?_
    · obtain ⟨g₁, hg₁, hn₁, hs₁, he'⟩ := h₁
      rw [Job.wp_bind]
      refine (ih (fun x hx => h x (List.mem_cons_of_mem _ hx)) hs₁).mono (fun es' s₂ h₂ => ?_)
        fun err herr => mirrorsAll_cons he'.2 fun _ _ => herr
      obtain ⟨g₂, hg₂, hn₂, hs₂, hes'⟩ := h₂
      exact ⟨g₂, hg₁.trans hg₂, hn₁.trans hn₂, hs₂, .cons (he'.mono hg₂) hes'⟩
    · have hnone (x : Expr) (h : (.error err : Except Error Expr) = .ok x) :
          r.MirrorsAll base es (.error err) := by cases h
      exact mirrorsAll_cons herr hnone

section Hooks

variable (halloc : r.Allocates base) (hpure : r.RespectsSame)

include halloc hpure

theorem follows_before {T : Set Expr} {t : Session σ} {e u : Expr} (s : Session σ)
    (he : e.WellTyped) (hbase : base ⊆ T) (hT : Heap T t.next) (hu : u ∈ T) (h : e.same u = true) :
    Follows ((r.before e).exec s).1 (fun T' found => ∀ x ∈ found, x ∈ T')
      (Option.Rel fun x y => x.same y = true) (r.before u) T t := by
  refine follows_of_agree ((halloc.before hbase hT hu).imp fun found t' h => ?_)
    (hpure.before s t he (hT.wellTyped hu) h)
  obtain ⟨T', hTT', -, hT', hmem⟩ := h
  exact ⟨T', hTT', hT', hmem⟩

theorem follows_after {T : Set Expr} {t : Session σ} {e u : Expr} (s : Session σ) (he : e.WellTyped)
    (hbase : base ⊆ T) (hT : Heap T t.next) (hu : u ∈ T) (h : e.same u = true) :
    Follows ((r.after e).exec s).1 (fun T' x => x ∈ T') (fun x y => x.same y = true)
      (r.after u) T t := by
  refine follows_of_agree ((halloc.after hbase hT hu).imp fun x t' h => ?_)
    (hpure.after s t he (hT.wellTyped hu) h)
  obtain ⟨T', hTT', -, hT', hmem⟩ := h
  exact ⟨T', hTT', hT', hmem⟩

/-- What comes of a node, from what came of asking `before`, of the sub-expressions, of rebuilding
and of asking `after`.  Where one of them fails, nothing has to be known about those behind it. -/
theorem mirrors_node (found : Except Error (Option Expr)) (below : Except Error (List Expr))
    (rebuilt last : Except Error Expr) (label : Label) {e : Expr} {s : Session σ} (he : e.WellTyped)
    (hfound : ((r.before e).exec s).1 = found)
    (hbelow : found = .ok none → r.MirrorsAll base e.children below)
    (hrebuilt : ∀ cs, found = .ok none → below = .ok cs →
      Agree (fun x y => x.same y = true) rebuilt (e.withChildren label cs))
    (hlast : ∀ x, found = .ok none → rebuilt = .ok x →
      x.WellTyped ∧ ∃ s', ((r.after x).exec s').1 = last) :
    r.Mirrors base e (found.bind fun
      | some x => .ok x
      | none => below.bind fun _ => rebuilt.bind fun _ => last) := by
  intro T t u hbase hT hu hsame
  have hchildren := ((Expr.same_iff he (hT.wellTyped hu)).mp hsame).2.2
  rw [plain_eq, plainNode, ← hfound]
  refine (follows_before halloc hpure s he hbase hT hu hsame).bind
    fun {x y T₁ t₁} hx hTT₁ hT₁ hy hxy => ?_
  rw [hfound] at hx
  cases hxy with
  | some hxy => exact .pure hT₁ (hy _ rfl) hxy
  | none =>
    have hmems : ∀ c ∈ u.children, c ∈ T₁ := fun c hc => hTT₁ (hT.closed u hu c hc)
    refine (hbelow hx (hbase.trans hTT₁) hT₁ hmems hchildren).bind
      fun {cs ds T₂ t₂} hcs hTT₂ hT₂ hds hcds => ?_
    have hagree := (hrebuilt cs hx hcs).trans
      (Expr.withChildren_agree hsame hcds label t₂.next) fun _ _ _ => Expr.same_trans
    refine (follows_make hT₂ (hTT₂ (hTT₁ hu)) hds hagree).bind
      fun {x₁ y₁ T₃ t₃} hx₁ hTT₃ hT₃ hy₁ hxy₁ => ?_
    obtain ⟨hx₁', s', hs'⟩ := hlast x₁ hx hx₁
    rw [← hs']
    exact follows_after halloc hpure s' hx₁'
      (hbase.trans (hTT₁.trans (hTT₂.trans hTT₃))) hT₃ hy₁ hxy₁

/-! ## The edit -/

variable {S g : Set Expr} {s : Session (Memo σ)}

/-- The second half of what is done with a node, when its sub-expressions have been edited. -/
theorem wp_finish {e : Expr} (he : e ∈ S) {s₀ : Session σ}
    (hanswer : ((r.before e).exec s₀).1 = .ok none)
    (hs : Memo.Inv S (Nodes base S) (Became r base) g s) {cs : List Expr}
    (hcs : List.Forall₂ (Became r base g) e.children cs) :
    Job.wp (do let rebuilt ← rebuild e cs; Memo.ask (r.after rebuilt))
      (Memo.Result S (Nodes base S) (Became r base) g s.next e)
      (fun err => r.Mirrors base e (.error err)) s := by
  obtain ⟨hbase, hSg, hg⟩ := hs.hooks
  have hwell := hg.wellTyped (hSg he)
  have hchildren := mirrorsAll_of_forall₂ (hcs.imp fun _ _ h => h.2)
  have hmems : ∀ c ∈ cs, c ∈ g := fun c hc => by
    obtain ⟨_, -, h⟩ := forall₂_exists_left hcs hc
    exact h.1
  rw [Job.wp_bind, rebuild_eq_ask, Memo.wp_ask]
  refine (wp_rebuild_agree hg (hSg he) hmems).mono (fun e₁ t h => ?_) fun err h => ?_
  · obtain ⟨g₁, hg₁, hn₁, hheap₁, he₁, hagree⟩ := h
    have hrebuilt (ds : List Expr) (heq : (.ok cs : Except Error (List Expr)) = .ok ds) :
        Agree (fun x y => x.same y = true) (.ok e₁) (e.withChildren s.next ds) :=
      Except.ok.inj heq ▸ hagree
    rw [Memo.wp_ask]
    refine (halloc.after (hbase.trans hg₁) hheap₁ he₁).with_exec.mono
      (fun e' t' h => ?_) fun err h => ?_
    · obtain ⟨⟨g₂, hg₂, hn₂, hheap₂, he'⟩, hlast⟩ := h
      have hgg₂ := hg₁.trans hg₂
      refine ⟨g₂, hgg₂, hn₁.trans hn₂, hs.mono (fun _ _ => Became.mono hgg₂)
        ⟨hbase.trans hgg₂, hSg.trans hgg₂, hheap₂⟩, he', ?_⟩
      exact mirrors_node halloc hpure (.ok none) (.ok cs) (.ok e₁) (.ok e') s.next hwell hanswer
        (fun _ => hchildren) (fun ds _ => hrebuilt ds)
        fun _ _ heq => Except.ok.inj heq ▸ ⟨hheap₁.wellTyped he₁, _, hlast⟩
    · exact mirrors_node halloc hpure (.ok none) (.ok cs) (.ok e₁) (.error err) s.next hwell hanswer
        (fun _ => hchildren) (fun ds _ => hrebuilt ds)
        fun _ _ heq => Except.ok.inj heq ▸ ⟨hheap₁.wellTyped he₁, _, h.2⟩
  · refine mirrors_node halloc hpure (.ok none) (.ok cs) (.error err) (.ok e) s.next hwell hanswer
      (fun _ => hchildren) (fun ds _ heq => ?_) (fun _ _ h => by cases h)
    rw [← Except.ok.inj heq, h]
    exact .error err err

/-- **The edit leaves every node as the plain edit would**, and fails at a node where that would
fail. -/
theorem wp_applyNode_mirrors {e : Expr} (he : e ∈ S)
    (hs : Memo.Inv S (Nodes base S) (Became r base) g s) {below : Run (Memo σ) (List Expr)}
    (hbelow : ∀ {g : Set Expr} {s : Session (Memo σ)},
      Memo.Inv S (Nodes base S) (Became r base) g s →
      Job.wp below (fun cs s' => ∃ g', g ≤ g' ∧ s.next ≤ s'.next ∧
        Memo.Inv S (Nodes base S) (Became r base) g' s' ∧
        List.Forall₂ (Became r base g') e.children cs)
        (fun err => r.MirrorsAll base e.children (.error err)) s) :
    Job.wp (r.applyNode e below) (Memo.Result S (Nodes base S) (Became r base) g s.next e)
      (fun err => r.Mirrors base e (.error err)) s := by
  obtain ⟨hbase, hSg, hg⟩ := hs.hooks
  have hwell := hg.wellTyped (hSg he)
  refine Memo.wp_remember (fun a ha b hb => hg.one a (hSg ha) b (hSg hb)) he hs ?_
  rw [Job.wp_bind, Memo.wp_ask]
  refine (halloc.before hbase hg (hSg he)).with_exec.mono (fun found t h => ?_) fun err h => ?_
  · obtain ⟨⟨g₁, hg₁, hn₁, ht, hfound⟩, hanswer⟩ := h
    have hs₁ := hs.mono (fun _ _ => Became.mono hg₁) ⟨hbase.trans hg₁, hSg.trans hg₁, ht⟩
    cases found with
    | some e' =>
      refine ⟨g₁, hg₁, hn₁, hs₁, hfound e' rfl, ?_⟩
      exact mirrors_node halloc hpure (.ok (some e')) (.ok []) (.ok e) (.ok e) s.next hwell hanswer
        (fun h => by cases h) (fun _ h => by cases h) (fun _ h => by cases h)
    | none =>
      rw [Job.wp_bind]
      refine (hbelow hs₁).mono (fun cs s₂ h => ?_) fun err h => ?_
      · obtain ⟨g₂, hg₂, hn₂, hs₂, hcs⟩ := h
        refine (wp_finish halloc hpure he hanswer hs₂ hcs).imp fun e' s₃ h => ?_
        obtain ⟨g₃, hg₃, hn₃, hs₃, hbecame⟩ := h
        exact ⟨g₃, hg₁.trans (hg₂.trans hg₃), hn₁.trans (hn₂.trans hn₃), hs₃, hbecame⟩
      · exact mirrors_node halloc hpure (.ok none) (.error err) (.error err) (.ok e) s.next hwell
          hanswer (fun _ => h) (fun _ _ h => by cases h) (fun _ _ h => by cases h)
  · exact mirrors_node halloc hpure (.error err) (.ok []) (.ok e) (.ok e) s.next hwell h.2
      (fun h => by cases h) (fun _ h => by cases h) (fun _ h => by cases h)

theorem wp_apply_mirrors (hclosed : ∀ e ∈ S, ∀ c ∈ e.children, c ∈ S) {e : Expr} (he : e ∈ S)
    (hs : Memo.Inv S (Nodes base S) (Became r base) g s) :
    Job.wp (r.apply e) (Memo.Result S (Nodes base S) (Became r base) g s.next e)
      (fun err => r.Mirrors base e (.error err)) s := by
  induction e using Expr.induction_children generalizing g s with
  | node e ih =>
    rw [apply_eq]
    refine wp_applyNode_mirrors halloc hpure he hs fun hs' => ?_
    exact wp_applyAll_mirrors (fun c hc => ih c hc (hclosed e he c hc)) hs'

/-- **Memory changes nothing.**  The edit and the plain edit, of expressions that are the same and
from any two sessions, both fail or both give the same. -/
theorem agree_plain {T : Set Expr} {s t : Session σ} {e u : Expr} (hS : Heap S s.next)
    (hbase : base ⊆ S) (he : e ∈ S) (hT : Heap T t.next) (hbase' : base ⊆ T) (hu : u ∈ T)
    (hsame : e.same u = true) :
    Agree (fun x y => x.same y = true) ((r.apply e).exec (s.map Memo.start)).1
      ((r.plain u).exec t).1 := by
  have hstart : Memo.Inv S (Nodes base S) (Became r base) S (s.map Memo.start) :=
    Memo.inv_start ⟨hbase, Set.Subset.rfl, hS⟩
  have hrun := wp_apply_mirrors halloc hpure hS.closed he hstart
  rw [Job.wp] at hrun
  rcases hexec : (r.apply e).exec (s.map Memo.start) with ⟨outcome, s'⟩
  rw [hexec] at hrun
  cases outcome with
  | ok e' =>
    obtain ⟨_, -, -, -, -, hmirrors⟩ := hrun
    exact (hmirrors hbase' hT hu hsame).agree
  | error err => exact (hrun hbase' hT hu hsame).agree

end Hooks

end ExprEdit

end FlowCircuit
