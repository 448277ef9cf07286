import Mathlib.Data.Set.Card
import FlowCircuit.Proofs.MergeCounts
import FlowCircuit.Proofs.Pipeline
import FlowCircuit.Proofs.Traversal
import FlowCircuit.Visit.Count

/-!
# Passes and the size of a circuit

The statistics of a circuit are what a visitor counts that never skips and never fails, so they can
be read off the full sequence of calls (`Statistics.counts_tally`): the visits are the enterings of
expressions, and the labels met are those of the expressions entered, each once.

A pass that removes nodes leaves a part of the sequence.  A pass that changes functions keeps the
parts in their places; the number of visits is then a matter of the single expression, where
evaluating constants can only lower it (`ConstantFold.Folds.length_visited_le`) and sharing keeps it
(`Expr.length_visited_of_same`).

Distinct nodes are another matter: a fold makes new literals and rebuilds the nodes above them.  But
each node of the circuit is dealt with once, and dealing with it adds at most one node to those that
the results are made of (`ConstantFold.Counted`).
-/

set_option autoImplicit false

namespace FlowCircuit

open Visitor (Call Part)

/-! ## What is entered -/

/-- The expression that is entered. -/
def Visitor.Call.expr? : Call → Option Expr
  | .enterExpr e => some e
  | _ => none

/-- The aggregate that is entered. -/
def Visitor.Call.aggregate? : Call → Option Aggregate
  | .enterAggregate a => some a
  | _ => none

namespace Visitor.Part

/-- What is told by the calls on entering comes from the part and from the parts below it. -/
theorem filterMap_calls {β : Type} {f : Call → Option β} (hf : ∀ p : Part, f p.leaving = none)
    (p : Part) :
    p.calls.filterMap f =
      (f p.entering).toList ++ p.below.flatMap fun q => q.calls.filterMap f := by
  rw [p.calls_eq, List.filterMap_append, List.filterMap_flatMap.symm]
  cases hp : f p.entering <;> simp [hp, hf]

/-- The expressions entered at a part and below it, once for each path. -/
def visited (p : Part) : List Expr := p.calls.filterMap Call.expr?

theorem visited_eq (p : Part) : p.visited = p.entering.expr?.toList ++ p.below.flatMap visited :=
  filterMap_calls (by intro p; cases p <;> rfl) p

theorem visited_ty (t : Ty) : (ty t).visited = [] := by
  generalize hp : ty t = p
  induction p using induction_below generalizing t with
  | part p ih =>
    subst hp
    rw [visited_eq]
    exact List.flatMap_eq_nil_iff.mpr fun q hq => by
      obtain ⟨c, -, rfl⟩ := List.mem_map.mp hq
      exact ih _ hq c rfl

end Visitor.Part

/-- The nodes of an expression, once for each path. -/
def Expr.visited (e : Expr) : List Expr := (Part.expr e).visited

theorem Expr.visited_eq (e : Expr) : e.visited = e :: e.children.flatMap visited := by
  rw [visited, Part.visited_eq, Part.below, List.flatMap_cons, Part.visited_ty, List.flatMap_map]
  rfl

theorem Expr.length_visited (e : Expr) :
    e.visited.length = (e.children.flatMap visited).length + 1 := by
  rw [visited_eq, List.length_cons]

theorem Expr.mem_visited {d e : Expr} : d ∈ e.visited ↔ d.Within e := by
  induction e using induction_children with
  | node e ih =>
    rw [visited_eq, List.mem_cons, List.mem_flatMap, within_iff]
    exact or_congr_right (exists_congr fun c => and_congr_right fun hc => ih c hc)

/-- Below an expression there are no aggregates. -/
theorem Visitor.Part.filterMap_aggregate? (p : Part) :
    p.calls.filterMap Call.aggregate? = p.entering.aggregate?.toList := by
  induction p using induction_below with
  | part p ih =>
    rw [filterMap_calls (by intro p; cases p <;> rfl) p, List.append_right_eq_self,
      List.flatMap_eq_nil_iff]
    intro q hq
    rw [ih q hq]
    cases p with
    | ty t =>
      obtain ⟨c, -, rfl⟩ := List.mem_map.mp hq
      rfl
    | expr e =>
      rcases List.mem_cons.mp hq with rfl | hmem
      · rfl
      · obtain ⟨c, -, rfl⟩ := List.mem_map.mp hmem
        rfl
    | aggregate a =>
      obtain ⟨c, -, rfl⟩ := List.mem_map.mp hq
      rfl

/-- The expressions of a circuit, once for each path. -/
def Circuit.visited (c : Circuit) : List Expr := c.parts.flatMap Part.visited

theorem Circuit.filterMap_expr? (c : Circuit) : c.calls.filterMap Call.expr? = c.visited := by
  rw [calls, List.filterMap_flatMap]
  rfl

theorem Circuit.filterMap_aggregate? (c : Circuit) :
    c.calls.filterMap Call.aggregate? = c.parts.filterMap fun p => p.entering.aggregate? := by
  rw [calls, List.filterMap_flatMap, List.filterMap_eq_flatMap_toList]
  exact List.flatMap_congr fun p _ => p.filterMap_aggregate?

/-! ## Counting along the sequence -/

namespace Tally

/-- What a call does to the counts. -/
def count (t : Tally) : Call → Tally
  | .enterExpr e => t.visit e
  | .enterAggregate _ => { t with aggregates := t.aggregates + 1 }
  | _ => t

/-- The counts after some expressions and a number of aggregates have been entered. -/
structure Counts (visited : List Expr) (aggregates : Nat) (t : Tally) : Prop where
  visits : t.visits = visited.length
  aggregates : t.aggregates = aggregates
  nodup : t.met.Nodup
  met : ∀ label, label ∈ t.met ↔ label ∈ visited.map Expr.label

namespace Counts

variable {visited : List Expr} {n : Nat} {t : Tally}

theorem start : Tally.start.Counts [] 0 := ⟨rfl, rfl, List.nodup_nil, fun _ => Iff.rfl⟩

theorem visit (h : t.Counts visited n) (e : Expr) : (t.visit e).Counts (visited ++ [e]) n where
  visits := by rw [List.length_append, ← h.visits]; rfl
  aggregates := h.aggregates
  nodup := by
    rw [Tally.visit]
    split
    · exact h.nodup
    · rename_i hnew
      exact List.nodup_cons.mpr ⟨by simpa using hnew, h.nodup⟩
  met label := by
    rw [Tally.visit, List.map_append, List.mem_append, ← h.met label]
    split
    · rename_i hold
      have hmem : e.label ∈ t.met := by simpa using hold
      refine ⟨Or.inl, fun hlabel => hlabel.elim id fun heq => ?_⟩
      rwa [List.mem_singleton.mp heq]
    · rw [List.mem_cons, or_comm]
      simp

/-- The counts along a sequence of calls. -/
theorem foldl (h : t.Counts visited n) (calls : List Call) :
    (calls.foldl count t).Counts (visited ++ calls.filterMap Call.expr?)
      (n + (calls.filterMap Call.aggregate?).length) := by
  induction calls generalizing t visited n with
  | nil => simpa using h
  | cons call calls ih =>
    cases call with
    | enterExpr e =>
      have hstep := ih (h.visit e)
      rwa [List.append_assoc] at hstep
    | enterAggregate a =>
      have hstep := ih (t := { t with aggregates := t.aggregates + 1 })
        ⟨h.visits, congrArg Nat.succ h.aggregates, h.nodup, h.met⟩
      rwa [Nat.succ_add_eq_add_succ] at hstep
    | enterTy | leaveTy | leaveExpr | leaveAggregate => exact ih h

end Counts

/-- A call on the counting visitor counts and goes on. -/
theorem ask_counter (call : Call) :
    counter.ask call = do Job.update fun t => t.count call; return .descend := by
  cases call <;> rfl

end Tally

theorem Playing.exec_play_of_update {κ σ : Type} {hides : κ → Nat} {ask : κ → Run σ Flow}
    {f : σ → κ → σ} (h : ∀ call, ask call = do Job.update fun x => f x call; return .descend)
    (calls : List κ) (s : Session σ) :
    (play hides ask 0 calls).exec s = (.ok (), { s with state := calls.foldl f s.state }) := by
  induction calls generalizing s with
  | nil => rfl
  | cons call calls ih =>
    rw [play, h, bind_assoc, Job.exec_bind]
    exact ih { s with state := f s.state call }

/-- The counts of a circuit. -/
theorem Statistics.counts_tally (c : Circuit) :
    ((Tally.counter.walkCircuit c).exec ⟨0, [], Tally.start⟩).2.state.Counts c.visited
      (c.parts.filterMap fun p => p.entering.aggregate?).length := by
  rw [Visitor.walkCircuit_eq_play, Playing.exec_play_of_update Tally.ask_counter]
  have h := Tally.Counts.start.foldl c.calls
  rwa [c.filterMap_expr?, c.filterMap_aggregate?, List.nil_append, Nat.zero_add] at h

namespace Statistics

theorem visits_ofCircuit (c : Circuit) : (ofCircuit c).visits = c.visited.length :=
  (counts_tally c).visits

theorem aggregates_ofCircuit (c : Circuit) :
    (ofCircuit c).aggregates = (c.parts.filterMap fun p => p.entering.aggregate?).length :=
  (counts_tally c).aggregates

theorem distinct_ofCircuit (c : Circuit) :
    ((ofCircuit c).distinct : ℕ∞) = (Expr.label '' {e | e ∈ c.visited}).encard := by
  have hcounts := counts_tally c
  have hset :
      {label | label ∈ ((Tally.counter.walkCircuit c).exec ⟨0, [], Tally.start⟩).2.state.met} =
        Expr.label '' {e | e ∈ c.visited} := by
    ext label
    exact (hcounts.met label).trans List.mem_map
  rw [← hset, encard_setOf_mem hcounts.nodup]
  rfl

/-- A distinct node has been visited. -/
theorem distinct_le_visits (c : Circuit) : (ofCircuit c).distinct ≤ (ofCircuit c).visits := by
  have hcounts := counts_tally c
  have hle := List.Nodup.length_le_of_subset hcounts.nodup fun label h => (hcounts.met label).mp h
  rw [List.length_map] at hle
  rw [visits_ofCircuit]
  exact hle

end Statistics

/-! ## Removing nodes -/

/-- Without some of its nodes a circuit is smaller in every respect. -/
theorem Statistics.ofCircuit_le_of_sublist {c c' : Circuit} (h : c'.nodes.Sublist c.nodes) :
    (ofCircuit c').operators ≤ (ofCircuit c).operators ∧
      (ofCircuit c').declarations ≤ (ofCircuit c).declarations ∧
      (ofCircuit c').aggregates ≤ (ofCircuit c).aggregates ∧
      (ofCircuit c').visits ≤ (ofCircuit c).visits ∧
      (ofCircuit c').distinct ≤ (ofCircuit c).distinct := by
  have hparts : c'.parts.Sublist c.parts := h.flatMap Node.parts
  have hvisited : c'.visited.Sublist c.visited := hparts.flatMap Part.visited
  refine ⟨(h.filterMap _).length_le, (h.filterMap _).length_le, ?_, ?_, ?_⟩
  · rw [aggregates_ofCircuit, aggregates_ofCircuit]
    exact (hparts.filterMap _).length_le
  · rw [visits_ofCircuit, visits_ofCircuit]
    exact hvisited.length_le
  · have hle : ((ofCircuit c').distinct : ℕ∞) ≤ (ofCircuit c).distinct := by
      rw [distinct_ofCircuit, distinct_ofCircuit]
      exact Set.encard_le_encard (Set.image_mono fun e he => hvisited.subset he)
    exact Nat.cast_le.mp hle

/-! ## Changing functions -/

/-- The parts are one aggregate, or expressions between which `R` holds. -/
inductive Visitor.Part.Alike (R : Expr → Expr → Prop) : Part → Part → Prop
  | aggregate (a : Aggregate) : Alike R (.aggregate a) (.aggregate a)
  | expr {e e' : Expr} (h : R e e') : Alike R (.expr e) (.expr e')

theorem Node.Alike.parts {R : Expr → Expr → Prop} {a b : Node} (h : a.Alike R b) :
    List.Forall₂ (Part.Alike R) a.parts b.parts := by
  have hfunctions :
      List.Forall₂ (Part.Alike R) (a.functions.map .expr) (b.functions.map .expr) := by
    rw [List.forall₂_map_left_iff, List.forall₂_map_right_iff]
    exact h.functions.imp fun _ _ => .expr
  cases a with
  | declaration a =>
    cases b with
    | declaration b => exact hfunctions
    | operator b => exact h.elim
  | operator a =>
    cases b with
    | declaration b => exact h.elim
    | operator b =>
      rw [Node.parts, Node.parts, Operator.Alike.aggregate h]
      refine List.rel_append ?_ hfunctions
      exact List.forall₂_map_left_iff.mpr (List.forall₂_map_right_iff.mpr
        (List.forall₂_same.mpr fun x _ => .aggregate x))

theorem length_flatMap_le {α β γ δ : Type} {f : α → List γ} {g : β → List δ} {as : List α}
    {bs : List β} (h : List.Forall₂ (fun a b => (g b).length ≤ (f a).length) as bs) :
    (bs.flatMap g).length ≤ (as.flatMap f).length := by
  induction h with
  | nil => exact Nat.le_refl 0
  | cons hab _ ih =>
    rw [List.flatMap_cons, List.flatMap_cons, List.length_append, List.length_append]
    exact Nat.add_le_add hab ih

theorem length_flatMap_eq {α β γ δ : Type} {f : α → List γ} {g : β → List δ} {as : List α}
    {bs : List β} (h : List.Forall₂ (fun a b => (g b).length = (f a).length) as bs) :
    (bs.flatMap g).length = (as.flatMap f).length :=
  Nat.le_antisymm (length_flatMap_le (h.imp fun _ _ => Nat.le_of_eq))
    (length_flatMap_le (h.flip.imp fun _ _ heq => Nat.le_of_eq heq.symm))

theorem Circuit.mem_functions_of_parts {c : Circuit} {e : Expr} (h : Part.expr e ∈ c.parts) :
    e ∈ c.functions := by
  obtain ⟨node, hnode, hmem⟩ := List.mem_flatMap.mp h
  refine List.mem_flatMap.mpr ⟨node, hnode, ?_⟩
  cases node with
  | declaration d =>
    cases List.mem_singleton.mp hmem
    exact List.mem_singleton.mpr rfl
  | operator op => simpa [Node.parts, Node.functions] using hmem

namespace Circuit.Transformed

variable {R : Expr → Expr → Prop} {c c' : Circuit}

theorem parts (h : c.Transformed R c') : List.Forall₂ (Part.Alike R) c.parts c'.parts :=
  List.rel_flatMap h.nodes fun _ _ => Node.Alike.parts

theorem operators_eq (h : c.Transformed R c') :
    (Statistics.ofCircuit c').operators = (Statistics.ofCircuit c).operators :=
  (forall₂_operators h.nodes).length_eq.symm

theorem declarations_eq (h : c.Transformed R c') :
    (Statistics.ofCircuit c').declarations = (Statistics.ofCircuit c).declarations := by
  have hdeclarations : List.Forall₂ (fun _ _ => True) c.declarations c'.declarations := by
    refine List.rel_filterMap (fun a b hab => ?_) h.nodes
    cases a <;> cases b
    · exact .some trivial
    · exact hab.elim
    · exact hab.elim
    · exact .none
  exact hdeclarations.length_eq.symm

theorem aggregates_eq (h : c.Transformed R c') :
    (Statistics.ofCircuit c').aggregates = (Statistics.ofCircuit c).aggregates := by
  have haggregates : List.Forall₂ Eq (c.parts.filterMap fun p => p.entering.aggregate?)
      (c'.parts.filterMap fun p => p.entering.aggregate?) := by
    refine List.rel_filterMap (fun p q hpq => ?_) h.parts
    cases hpq with
    | aggregate a => exact .some rfl
    | expr => exact .none
  rw [Statistics.aggregates_ofCircuit, Statistics.aggregates_ofCircuit]
  exact haggregates.length_eq.symm

/-- What holds between the numbers of visits to functions holds between those to parts. -/
theorem forall₂_visited {P : Nat → Nat → Prop} (h : c.Transformed R c') (hrefl : ∀ n, P n n)
    (hR : ∀ f ∈ c.functions, ∀ f' ∈ c'.functions, R f f' → P f.visited.length f'.visited.length) :
    List.Forall₂ (fun p q => P p.visited.length q.visited.length) c.parts c'.parts := by
  refine forall₂_imp_of_mem h.parts fun p hp q hq hpq => ?_
  cases hpq with
  | aggregate a => exact hrefl _
  | expr hff' => exact hR _ (mem_functions_of_parts hp) _ (mem_functions_of_parts hq) hff'

theorem visits_le (h : c.Transformed R c')
    (hR : ∀ f ∈ c.functions, ∀ f' ∈ c'.functions, R f f' → f'.visited.length ≤ f.visited.length) :
    (Statistics.ofCircuit c').visits ≤ (Statistics.ofCircuit c).visits := by
  rw [Statistics.visits_ofCircuit, Statistics.visits_ofCircuit]
  exact length_flatMap_le (h.forall₂_visited (P := fun m n => n ≤ m) Nat.le_refl hR)

theorem visits_eq (h : c.Transformed R c')
    (hR : ∀ f ∈ c.functions, ∀ f' ∈ c'.functions, R f f' → f'.visited.length = f.visited.length) :
    (Statistics.ofCircuit c').visits = (Statistics.ofCircuit c).visits := by
  rw [Statistics.visits_ofCircuit, Statistics.visits_ofCircuit]
  exact length_flatMap_eq (h.forall₂_visited (P := fun m n => n = m) (fun _ => rfl) hR)

end Circuit.Transformed

theorem Circuit.parts_of_no_aggregate {c : Circuit} (h : ∀ op ∈ c.operators, op.aggregate = none) :
    c.parts = c.functions.map .expr := by
  rw [functions, List.map_flatMap]
  refine List.flatMap_congr fun node hnode => ?_
  cases node with
  | declaration d => rfl
  | operator op =>
    rw [Node.parts, h op (mem_operators.mpr hnode)]
    rfl

/-- In a circuit without aggregates the distinct nodes are those of functions and declaration
values. -/
theorem Statistics.distinct_of_no_aggregate {c : Circuit} {next : Label} (hc : c.Made next)
    (h : ∀ op ∈ c.operators, op.aggregate = none) :
    ((ofCircuit c).distinct : ℕ∞) = c.exprNodes.encard := by
  have hvisited : {e | e ∈ c.visited} = c.exprNodes := by
    ext d
    rw [Circuit.visited, Circuit.parts_of_no_aggregate h, List.flatMap_map]
    refine List.mem_flatMap.trans (exists_congr fun f => and_congr_right fun _ => ?_)
    exact Expr.mem_visited
  have hlabels : Set.InjOn Expr.label c.exprNodes := fun a ha b hb => hc.expressions.one a ha b hb
  rw [distinct_ofCircuit, hvisited, hlabels.encard_image]

theorem Circuit.Transformed.no_aggregate {R : Expr → Expr → Prop} {c c' : Circuit}
    (h : c.Transformed R c') (hnone : ∀ op ∈ c.operators, op.aggregate = none) :
    ∀ op' ∈ c'.operators, op'.aggregate = none := by
  intro op' hop'
  obtain ⟨op, hop, hab⟩ := forall₂_exists_left (forall₂_operators h.nodes) hop'
  rw [hab.aggregate, hnone op hop]

/-! ## Evaluating constants -/

theorem Expr.Within.length_visited_le {d e : Expr} (h : d.Within e) :
    d.visited.length ≤ e.visited.length := by
  induction h with
  | refl => exact Nat.le_refl _
  | @child c e hc _ ih =>
    rw [length_visited e]
    have hchild := (List.sublist_flatten_of_mem (List.mem_map_of_mem (f := visited) hc)).length_le
    rw [← List.flatMap_def] at hchild
    omega

namespace ConstantFold

/-- An evaluated expression has no more nodes, whichever way they are shared. -/
theorem Folds.length_visited_le {e e' : Expr} (h : Folds e e') :
    e'.visited.length ≤ e.visited.length := by
  refine h.induction (P := fun e e' => e'.visited.length ≤ e.visited.length)
    fun {e e₁ cs} label _ ih hbuilt => ?_
  have hrebuilt : e₁.visited.length ≤ e.visited.length := by
    rw [e₁.length_visited, e.length_visited, hbuilt.children]
    exact Nat.succ_le_succ (length_flatMap_le ih)
  refine getD_fold (P := fun e' => e'.visited.length ≤ e.visited.length) hrebuilt fun e' he' => ?_
  rcases he'.new_or_within with ⟨value, -, rfl⟩ | hwithin
  · rw [Expr.length_visited, e.length_visited]
    exact Nat.succ_le_succ (Nat.zero_le _)
  · exact hwithin.length_visited_le.trans hrebuilt

/-- The heap, and in it the nodes that results are made of: no more than have been dealt with. -/
structure Counted (S : Set Expr) (g : (Set Expr × Set Expr) × Set Expr) (s : Session Nat) :
    Prop where
  subset : S ⊆ g.1.1
  heap : Heap g.1.1 s.next
  results : g.1.2 ⊆ g.1.1
  closed : ∀ e ∈ g.1.2, ∀ c ∈ e.children, c ∈ g.1.2
  count : g.1.2.encard ≤ g.2.encard

/-- What becomes of an expression, with the nodes of results as the second index. -/
def Becomes (g : Set Expr × Set Expr) (e e' : Expr) : Prop := e' ∈ g.2 ∧ Folds e e'

/-- The sub-expressions of a result are sub-expressions of results before it. -/
theorem children_of_fold {R : Set Expr} {e e₁ : Expr} {cs : List Expr} {label : Label}
    (hclosed : ∀ e ∈ R, ∀ c ∈ e.children, c ∈ R) (hcs : ∀ c ∈ cs, c ∈ R)
    (hbuilt : e.Rebuilt cs e₁) : ∀ c ∈ ((fold label e₁).getD e₁).children, c ∈ R := by
  have hrebuilt : ∀ c ∈ e₁.children, c ∈ R := hbuilt.children ▸ hcs
  refine getD_fold (P := fun e' => ∀ c ∈ e'.children, c ∈ R) hrebuilt fun e' he' => ?_
  rcases he'.new_or_within with ⟨value, -, rfl⟩ | hwithin
  · exact List.forall_mem_nil _
  · rcases Expr.within_iff.mp hwithin with rfl | ⟨c, hc, hwithin⟩
    · exact hrebuilt
    · exact hclosed e' (hwithin.mem_of_closed hclosed (hrebuilt c hc))

/-- The step of the run: one more node has been dealt with, and there is at most one more node of
results. -/
theorem edit_keepsOnce (S : Set Expr) (fail : Error → Prop) :
    edit.KeepsOnce S (Counted S) Becomes fail where
  mono hg h := ⟨hg.2 h.1, h.2⟩
  before _ := rfl
  after := by
    rintro ⟨T, R⟩ P s e cs hs he hnew hcs
    have hmem : ∀ c ∈ cs, c ∈ R := fun c hc => by
      obtain ⟨_, _, h, _⟩ := forall₂_exists_left hcs hc
      exact h
    refine (wp_rebuild_after hs.heap (hs.subset he)
      (hcs.imp fun _ _ h => ⟨hs.results h.1, h.2⟩)).imp fun e' s' h => ?_
    obtain ⟨T', hTT', hnext, hT', he', e₁, label, hbuilt, heq⟩ := h
    have hchildren : ∀ c ∈ e'.children, c ∈ R := heq ▸ children_of_fold hs.closed hmem hbuilt
    have hfolds : Folds e e' := heq ▸ .of_forall₂ label (hcs.imp fun _ _ h => h.2) hbuilt
    refine ⟨(T', insert e' R), ⟨hTT', Set.subset_insert e' R⟩, hnext,
      ⟨hs.subset.trans hTT', hT', ?_, ?_, ?_⟩, Set.mem_insert e' R, hfolds⟩
    · exact Set.insert_subset he' (hs.results.trans hTT')
    · rintro x (rfl | hx) c hc
      · exact Or.inr (hchildren c hc)
      · exact Or.inr (hs.closed x hx c hc)
    · rw [Set.encard_insert_of_notMem hnew]
      exact (Set.encard_insert_le R e').trans (add_le_add_left hs.count 1)

theorem edit_transforms_once {S : Set Expr} {next : Label} (hS : Heap S next)
    (fail : Error → Prop) :
    Transforms edit.apply S (Memo.Processed S (Counted S) Becomes) (Dealt Becomes) fail := by
  refine (edit_keepsOnce S fail).transforms hS.closed hS.one ?_ ?_ ?_ ?_
  · exact fun hs hle => ⟨hs.subset, hs.heap.mono hle, hs.results, hs.closed, hs.count⟩
  · exact fun hs => ⟨_, hs.subset, hs.heap, fun _ _ _ h => hs.results h.1⟩
  · exact fun h => h.2.ty
  · exact fun he h => h.2.isSome_zset? (hS.wellTyped he)

/-- The run, with the number of nodes. -/
theorem wp_run_counted {c : Circuit} {s : Session Unit} {fail : Error → Prop} (hc : c.Made s.next)
    (hfail : (∀ e, fail e) ∨ c.validate = .ok ()) :
    Job.wp (run c) (fun c' s' => c.Transformed Folds c' ∧ c'.Made s'.next ∧
      c'.exprNodes.encard ≤ c.exprNodes.encard) fail s := by
  rw [run, Job.wp_bind, Job.wp_withState]
  have hstart : Counted c.exprNodes ((c.exprNodes, ∅), ∅) ⟨s.next, s.notices, 0⟩ :=
    ⟨Set.Subset.rfl, hc.expressions, Set.empty_subset _,
      fun _ h => absurd h (Set.notMem_empty _), le_refl _⟩
  refine ((edit_transforms_once hc.expressions fail).wp_editFunctions_once hc hstart hfail).imp
    fun c' s' h => ?_
  obtain ⟨⟨T, R⟩, hs', hc', hmade⟩ := h
  have hsubset : c'.exprNodes ⊆ R := Expr.nodes_subset hs'.closed fun f hf => by
    obtain ⟨_, _, h, _⟩ := forall₂_exists_left (Circuit.forall₂_functions hc'.nodes) hf
    exact h
  exact ⟨hc'.mono fun _ _ h => h.2, hmade, (Set.encard_le_encard hsubset).trans hs'.count⟩

end ConstantFold

/-! ## Sharing -/

/-- Expressions that are the same have as many nodes, counted along paths. -/
theorem Expr.length_visited_of_same {a b : Expr} (ha : a.WellTyped) (hb : b.WellTyped)
    (h : a.same b = true) : b.visited.length = a.visited.length := by
  induction a using induction_children generalizing b with
  | node a ih =>
    obtain ⟨-, -, hchildren⟩ := (same_iff ha hb).mp h
    have hlength :
        List.Forall₂ (fun x y => y.visited.length = x.visited.length) a.children b.children :=
      forall₂_imp_of_mem hchildren fun x hx y hy hxy => ih x hx (ha.child hx) (hb.child hy) hxy
    rw [a.length_visited, b.length_visited, length_flatMap_eq hlength]

/-! ## The passes -/

/-- Where there are no aggregates, the distinct nodes are counted by the nodes of functions. -/
theorem Circuit.Transformed.distinct_le {R : Expr → Expr → Prop} {c c' : Circuit}
    {next next' : Label} (h : c.Transformed R c') (hc : c.Made next) (hc' : c'.Made next')
    (hnodes : c'.exprNodes.encard ≤ c.exprNodes.encard)
    (hnone : ∀ op ∈ c.operators, op.aggregate = none) :
    (Statistics.ofCircuit c').distinct ≤ (Statistics.ofCircuit c).distinct := by
  have hle : ((Statistics.ofCircuit c').distinct : ℕ∞) ≤ (Statistics.ofCircuit c).distinct := by
    rw [Statistics.distinct_of_no_aggregate hc' (h.no_aggregate hnone),
      Statistics.distinct_of_no_aggregate hc hnone]
    exact hnodes
  exact Nat.cast_le.mp hle

/-- Sharing, with the number of nodes. -/
theorem Dedup.wp_run_shared {c : Circuit} {s : Session Unit} {fail : Error → Prop}
    (hc : c.Made s.next) (hv : c.validate = .ok ()) :
    Job.wp (run c) (fun c' s' => c.Transformed (fun e e' => e.same e' = true) c' ∧ c'.Made s'.next ∧
      c'.exprNodes.encard ≤ c.exprNodes.encard) fail s := by
  refine ((wp_run hc (Or.inr hv)).and (wp_run_counted hc (Or.inl fun _ => trivial))).imp ?_
  rintro c' s' ⟨⟨hc', hmade, -⟩, -, canonical, merged, _, -, hresult, hcircuit⟩
  refine ⟨hc', hmade, ?_⟩
  rw [hresult, hcircuit]
  exact le_self_add

/-- **Counts move one way only.**  In every circuit there are at most as many distinct nodes as
visits.  A pass succeeds on a valid circuit, and increases none of the numbers of operators,
declarations, aggregates and visits.  Evaluating constants and sharing keep operators, declarations
and aggregates, and sharing keeps the visits.  Where no operator has an aggregate, no pass increases
the number of distinct nodes. -/
theorem Pass.statistics_one_way :
    (∀ c : Circuit, (Statistics.ofCircuit c).distinct ≤ (Statistics.ofCircuit c).visits) ∧
    ∀ (pass : Pass) (c : Circuit) (s : Session Unit), c.Made s.next → c.validate = .ok () →
      ∃ c' s', (pass.run c).exec s = (.ok c', s') ∧
        (Statistics.ofCircuit c').operators ≤ (Statistics.ofCircuit c).operators ∧
        (Statistics.ofCircuit c').declarations ≤ (Statistics.ofCircuit c).declarations ∧
        (Statistics.ofCircuit c').aggregates ≤ (Statistics.ofCircuit c).aggregates ∧
        (Statistics.ofCircuit c').visits ≤ (Statistics.ofCircuit c).visits ∧
        (pass = .constantFold ∨ pass = .dedup →
          (Statistics.ofCircuit c').operators = (Statistics.ofCircuit c).operators ∧
          (Statistics.ofCircuit c').declarations = (Statistics.ofCircuit c).declarations ∧
          (Statistics.ofCircuit c').aggregates = (Statistics.ofCircuit c).aggregates) ∧
        (pass = .dedup → (Statistics.ofCircuit c').visits = (Statistics.ofCircuit c).visits) ∧
        ((∀ op ∈ c.operators, op.aggregate = none) →
          (Statistics.ofCircuit c').distinct ≤ (Statistics.ofCircuit c).distinct) := by
  refine ⟨Statistics.distinct_le_visits, fun pass c s hc hv => ?_⟩
  cases pass with
  | deadCode =>
    have htotal : Job.wp (DeadCode.run c) _ (fun _ => False) s := DeadCode.wp_run hc (Or.inr hv)
    obtain ⟨c', s', hrun, -, g, -, hpruned⟩ := htotal.exists_ok
    have hnodes : c'.nodes.Sublist c.nodes := hpruned.nodes ▸ List.filter_sublist
    obtain ⟨hoperators, hdeclarations, haggregates, hvisits, hdistinct⟩ :=
      Statistics.ofCircuit_le_of_sublist hnodes
    exact ⟨c', s', hrun, hoperators, hdeclarations, haggregates, hvisits, by simp, by simp,
      fun _ => hdistinct⟩
  | constantFold =>
    have htotal : Job.wp (ConstantFold.run c) _ (fun _ => False) s :=
      ConstantFold.wp_run_counted hc (Or.inr hv)
    obtain ⟨c', s', hrun, hc', hmade, hnodes⟩ := htotal.exists_ok
    exact ⟨c', s', hrun, hc'.operators_eq.le, hc'.declarations_eq.le, hc'.aggregates_eq.le,
      hc'.visits_le fun _ _ _ _ h => h.length_visited_le,
      fun _ => ⟨hc'.operators_eq, hc'.declarations_eq, hc'.aggregates_eq⟩, by simp,
      hc'.distinct_le hc hmade hnodes⟩
  | dedup =>
    have htotal : Job.wp (Dedup.run c) _ (fun _ => False) s := Dedup.wp_run_shared hc hv
    obtain ⟨c', s', hrun, hc', hmade, hnodes⟩ := htotal.exists_ok
    have hvisits : (Statistics.ofCircuit c').visits = (Statistics.ofCircuit c).visits :=
      hc'.visits_eq fun f hf f' hf' => Expr.length_visited_of_same
        (hc.expressions.wellTyped (Expr.mem_nodes hf))
        (hmade.expressions.wellTyped (Expr.mem_nodes hf'))
    exact ⟨c', s', hrun, hc'.operators_eq.le, hc'.declarations_eq.le, hc'.aggregates_eq.le,
      hvisits.le,
      fun _ => ⟨hc'.operators_eq, hc'.declarations_eq, hc'.aggregates_eq⟩, fun _ => hvisits,
      hc'.distinct_le hc hmade hnodes⟩

theorem Pass.statistics_one_way_sample :
    Sample.circuit.Made 15 ∧ Sample.circuit.validate = .ok () ∧
      (∀ op ∈ Sample.circuit.operators, op.aggregate = none) ∧
      ∃ c' s', (Pass.dedup.run Sample.circuit).exec ⟨15, [], ()⟩ = (.ok c', s') ∧
        (Statistics.ofCircuit c').visits = (Statistics.ofCircuit Sample.circuit).visits ∧
        (Statistics.ofCircuit c').distinct ≤ (Statistics.ofCircuit Sample.circuit).distinct := by
  have hnone : ∀ op ∈ Sample.circuit.operators, op.aggregate = none := by
    simp [Sample.operators_circuit, Sample.source, Sample.left, Sample.idle, Sample.right,
      Sample.total, Sample.sink]
  obtain ⟨c', s', hrun, -, -, -, -, -, hvisits, hdistinct⟩ :=
    Pass.statistics_one_way.2 .dedup Sample.circuit
      ⟨15, [], ()⟩ Sample.made_circuit Sample.validate_circuit
  exact ⟨Sample.made_circuit, Sample.validate_circuit, hnone, c', s', hrun, hvisits rfl,
    hdistinct hnone⟩

end FlowCircuit
