import FlowCircuit.Proofs.CircuitEdit
import FlowCircuit.Proofs.ExprEdit

/-!
# Changing the functions of a circuit

A change of expressions is lifted to circuits by applying it to every function and every declaration
value.  What comes out is a circuit of the same nodes in the same places: `Node.Alike R` compares
two nodes in all but labels, with `R` between their functions, and an operator is alike another only
if the operators they read are.

`Transforms` is what a change of expressions has to promise, and `Transforms.wp_editFunctions` what
the lifted change then does.  It fails only where an operator reads something that does not stand
before it: no rule of a kind can be broken by a change that keeps types.
-/

set_option autoImplicit false

namespace FlowCircuit

/-! ## Nodes that are alike -/

/-- The operators agree in all but labels, with `R` between their functions. -/
inductive Operator.Alike (R : Expr → Expr → Prop) : Operator → Operator → Prop
  | mk {a b : Operator} (hid : b.id = a.id) (hkind : b.kind = a.kind)
      (houtputTy : b.outputTy = a.outputTy) (haggregate : b.aggregate = a.aggregate)
      (hfunction : Option.Rel R a.function b.function) (hlength : a.inputs.length = b.inputs.length)
      (hinputs : ∀ i j, (i, j) ∈ a.inputs.zip b.inputs → Alike R i j) : Alike R a b

namespace Operator.Alike

variable {R R' : Expr → Expr → Prop} {a b : Operator}

theorem id (h : Operator.Alike R a b) : b.id = a.id := by
  cases h with
  | mk hid => exact hid

theorem outputTy (h : Operator.Alike R a b) : b.outputTy = a.outputTy := by
  cases h with
  | mk _ _ houtputTy => exact houtputTy

theorem function (h : Operator.Alike R a b) : Option.Rel R a.function b.function := by
  cases h with
  | mk _ _ _ _ hfunction => exact hfunction

theorem kind (h : Operator.Alike R a b) : b.kind = a.kind := by
  cases h with
  | mk _ hkind => exact hkind

theorem aggregate (h : Operator.Alike R a b) : b.aggregate = a.aggregate := by
  cases h with
  | mk _ _ _ haggregate => exact haggregate

theorem inputs (h : Operator.Alike R a b) :
    List.Forall₂ (Operator.Alike R) a.inputs b.inputs := by
  cases h with
  | mk _ _ _ _ _ hlength hinputs =>
    exact List.forall₂_iff_zip.mpr ⟨hlength, fun h => hinputs _ _ h⟩

theorem of_forall₂ (hid : b.id = a.id) (hkind : b.kind = a.kind)
    (houtputTy : b.outputTy = a.outputTy) (haggregate : b.aggregate = a.aggregate)
    (hfunction : Option.Rel R a.function b.function)
    (hinputs : List.Forall₂ (Operator.Alike R) a.inputs b.inputs) : Operator.Alike R a b :=
  .mk hid hkind houtputTy haggregate hfunction hinputs.length_eq
    fun _ _ h => (List.forall₂_iff_zip.mp hinputs).2 h

theorem mono (hR : ∀ e e', R e e' → R' e e') (h : Operator.Alike R a b) :
    Operator.Alike R' a b := by
  induction h with
  | mk hid hkind hty haggregate hfunction hlength _ ih =>
    exact .mk hid hkind hty haggregate (optionRel_imp hfunction fun e _ => hR e) hlength ih

end Operator.Alike

/-- The nodes agree in all but labels, with `R` between functions and between declaration values. -/
def Node.Alike (R : Expr → Expr → Prop) : Node → Node → Prop
  | .operator a, .operator b => a.Alike R b
  | .declaration a, .declaration b => b.name = a.name ∧ R a.value b.value
  | _, _ => False

theorem Node.Alike.functions {R : Expr → Expr → Prop} {a b : Node} (h : a.Alike R b) :
    List.Forall₂ R a.functions b.functions := by
  cases a with
  | operator a =>
    cases b with
    | operator b =>
      have hfunction := Operator.Alike.function h
      simp only [Node.functions]
      generalize a.function = f, b.function = f' at hfunction
      cases hfunction with
      | none => exact .nil
      | some h => exact .cons h .nil
    | declaration b => exact h.elim
  | declaration a =>
    cases b with
    | operator b => exact h.elim
    | declaration b => exact .cons h.2 .nil

/-- `c'` has the nodes of `c`, all in their places, and its operators read each other. -/
structure Circuit.Transformed (R : Expr → Expr → Prop) (c c' : Circuit) : Prop where
  name : c'.name = c.name
  nodes : List.Forall₂ (Node.Alike R) c.nodes c'.nodes
  reads : AtEach Node.Reads c'.nodes

theorem Node.Alike.mono {R R' : Expr → Expr → Prop} (hR : ∀ e e', R e e' → R' e e') {a b : Node}
    (h : a.Alike R b) : a.Alike R' b := by
  cases a with
  | operator a =>
    cases b with
    | operator b => exact Operator.Alike.mono hR h
    | declaration b => exact h.elim
  | declaration a =>
    cases b with
    | operator b => exact h.elim
    | declaration b => exact ⟨h.1, hR _ _ h.2⟩

theorem Circuit.Transformed.mono {R R' : Expr → Expr → Prop} (hR : ∀ e e', R e e' → R' e e')
    {c c' : Circuit} (h : c.Transformed R c') : c.Transformed R' c' :=
  ⟨h.name, h.nodes.imp fun _ _ => Node.Alike.mono hR, h.reads⟩

/-- Functions and declaration values are related one by one. -/
theorem Circuit.forall₂_functions {R : Expr → Expr → Prop} {c c' : Circuit}
    (h : List.Forall₂ (Node.Alike R) c.nodes c'.nodes) :
    List.Forall₂ R c.functions c'.functions :=
  List.rel_flatMap h fun _ _ => Node.Alike.functions

/-! ## Changes of expressions -/

variable {σ γ : Type} [Preorder γ]

/-- The change gives each expression in `S` one that it becomes, with the type it had, and a Z-set
for a Z-set; all there is stays a heap, whatever labels are drawn in between. -/
structure Transforms (transform : Expr → Run σ Expr) (S : Set Expr) (inv : γ → Session σ → Prop)
    (becomes : γ → Expr → Expr → Prop) (fail : Error → Prop) : Prop where
  mono : ∀ {g g' : γ} {e e' : Expr}, g ≤ g' → becomes g e e' → becomes g' e e'
  apart : ∀ {g : γ} {s : Session σ} {next : Label} {notices : List Notice}, inv g s →
    s.next ≤ next → inv g ⟨next, notices, s.state⟩
  heap : ∀ {g : γ} {s : Session σ}, inv g s → ∃ T, S ⊆ T ∧ Heap T s.next ∧
    ∀ e ∈ S, ∀ e', becomes g e e' → e' ∈ T
  ty : ∀ {g : γ} {e e' : Expr}, becomes g e e' → e'.ty = e.ty
  zset : ∀ {g : γ} {e e' : Expr}, e ∈ S → becomes g e e' → e.zset?.isSome → e'.zset?.isSome
  run : ∀ {g : γ} {s : Session σ} {e : Expr}, inv g s → e ∈ S →
    Job.wp (transform e) (fun e' s' => ∃ g', g ≤ g' ∧ s.next ≤ s'.next ∧ inv g' s' ∧
      becomes g' e e') fail s

variable {S : Set Expr} {inv : γ → Session σ → Prop} {becomes : γ → Expr → Expr → Prop}
  {fail : Error → Prop}

namespace Transforms

variable {transform : Expr → Run σ Expr} {g : γ} {s : Session (Memo σ)}

/-- A function that was met before has become what it became then. -/
theorem wp_remember (ht : Transforms transform S inv becomes fail) {f : Expr} (hf : f ∈ S)
    (hs : Memo.Inv S inv becomes g s) :
    Job.wp (Memo.remember f (Memo.ask (transform f))) (Memo.Result S inv becomes g s.next f) fail
      s := by
  obtain ⟨T, hST, hT, -⟩ := ht.heap hs.hooks
  refine Memo.wp_remember (fun a ha b hb => hT.one a (hST ha) b (hST hb)) hf hs ?_
  rw [Memo.wp_ask]
  refine (ht.run hs.hooks hf).imp fun f' t h => ?_
  obtain ⟨g', hg, hnext, ht', hbecomes⟩ := h
  exact ⟨g', hg, hnext, hs.mono (fun _ _ => ht.mono hg) ht', hbecomes⟩

/-- What an expression became is the expression itself if it has its label. -/
theorem eq_of_label (ht : Transforms transform S inv becomes fail) {t : Session σ} (hs : inv g t)
    {e e' : Expr} (he : e ∈ S) (h : becomes g e e') (hlabel : e'.label = e.label) : e' = e := by
  obtain ⟨T, hST, hT, hmem⟩ := ht.heap hs
  exact hT.one _ (hmem e he e' h) _ (hST he) hlabel

/-- Labels may be drawn, and notices reported, between two changes. -/
theorem memo_apart (ht : Transforms transform S inv becomes fail)
    (hs : Memo.Inv S inv becomes g s) {next : Label} (hle : s.next ≤ next) (notices : List Notice) :
    Memo.Inv S inv becomes g ⟨next, notices, s.state⟩ :=
  ⟨ht.apart hs.hooks hle, hs.done⟩

/-- What a function became is the function itself if it has its label. -/
theorem function_eq_of_label (ht : Transforms transform S inv becomes fail) {t : Session σ}
    (hs : inv g t) {f f' : Option Expr} (hf : ∀ e ∈ f, e ∈ S) (h : Option.Rel (becomes g) f f')
    (hlabel : f'.map Expr.label = f.map Expr.label) : f' = f := by
  cases h with
  | none => rfl
  | some h => rw [ht.eq_of_label hs (hf _ rfl) h (by simpa using hlabel)]

end Transforms

/-! ## The lifted change -/

namespace CircuitEdit

/-- What becomes of an expression at one of its places. -/
def site (transform : Expr → Run σ Expr) (e : Expr) : Run (Memo σ) Expr :=
  Memo.remember e (Memo.ask (transform e))

/-- The operator over a function and inputs: itself when they are the ones it has, by their
labels. -/
def assemble (op : Operator) (inputs : List Operator) (function : Option Expr) :
    Run (Memo σ) (Option Operator) :=
  if function.map Expr.label = op.function.map Expr.label && op.hasInputs inputs then
    return some op
  else do
    let new ← Job.make fun label => op.withParts label function op.aggregate inputs
    return some new

theorem operator_ofTransform (transform : Expr → Run σ Expr) (op : Operator)
    (inputs : List Operator) :
    (ofTransform transform).operator op inputs =
      op.function.mapM (site transform) >>= assemble op inputs := by
  unfold ofTransform
  dsimp only
  cases hfunction : op.function with
  | none => simp [assemble, hfunction]
  | some f => simp [assemble, site, hfunction]

/-- All operators and all declarations there are, those of `c` among them. -/
structure Stock (c : Circuit) (operators : Set Operator) (declarations : Set Declaration)
    (next : Label) : Prop where
  operatorNodes : c.operatorNodes ⊆ operators
  operators : Drawn operators next
  declarations_of : ∀ d ∈ c.declarations, d ∈ declarations
  declarations : Drawn declarations next

theorem Stock.mono {c : Circuit} {T : Set Operator} {E : Set Declaration} {next next' : Label}
    (h : Stock c T E next) (hle : next ≤ next') : Stock c T E next' :=
  ⟨h.operatorNodes, h.operators.mono hle, h.declarations_of, h.declarations.mono hle⟩

theorem Stock.insert_operator {c : Circuit} {T : Set Operator} {E : Set Declaration} {next : Label}
    (h : Stock c T E next) {op : Operator} (hl : op.label = next) :
    Stock c (insert op T) E (next + 1) :=
  ⟨h.operatorNodes.trans (Set.subset_insert op T), h.operators.insert hl, h.declarations_of,
    h.declarations.mono (Nat.le_succ next)⟩

theorem Stock.insert_declaration {c : Circuit} {T : Set Operator} {E : Set Declaration}
    {next : Label} (h : Stock c T E next) {d : Declaration} (hl : d.label = next) :
    Stock c T (insert d E) (next + 1) :=
  ⟨h.operatorNodes, h.operators.mono (Nat.le_succ next),
    fun d hd => Or.inr (h.declarations_of d hd), h.declarations.insert hl⟩

/-- What may become of the nodes of `c` when functions become what `becomes` says. -/
def transformed (c : Circuit) (S : Set Expr) (inv : γ → Session σ → Prop)
    (becomes : γ → Expr → Expr → Prop) :
    Spec (γ × Set Operator × Set Declaration) (Memo σ) where
  inv g s := Memo.Inv S inv becomes g.1 s ∧ Stock c g.2.1 g.2.2 s.next
  kept _ _ := True
  operator g op new := ∃ op' ∈ new, op' ∈ g.2.1 ∧ op.Alike (becomes g.1) op' ∧ op'.check = .ok ()
  declaration g d new := ∃ d' ∈ new, d' ∈ g.2.2 ∧ d'.name = d.name ∧ becomes g.1 d.value d'.value

variable {transform : Expr → Run σ Expr} {c : Circuit}

variable {g : γ × Set Operator × Set Declaration} {s : Session (Memo σ)} {op : Operator}
  {inputs : List Operator}

/-- An operator is put together from a function and inputs that became of its own: itself when they
are the ones it has. -/
theorem wp_assemble (ht : Transforms transform S inv becomes fail)
    (hS : ∀ f ∈ c.functions, f ∈ S) (hchecked : ∀ op ∈ c.operators, op.check = .ok ())
    (hs : (transformed c S inv becomes).inv g s) (hop : op ∈ c.operators)
    (hinputs : List.Forall₂ (fun input new =>
      (transformed c S inv becomes).operator g input (some new)) op.inputs inputs)
    {function : Option Expr} (hfunction : Option.Rel (becomes g.1) op.function function) :
    Job.wp (assemble op inputs function) (fun new s' => ∃ g', g ≤ g' ∧
      (transformed c S inv becomes).inv g' s' ∧ (transformed c S inv becomes).operator g' op new ∧
      ∀ op' ∈ new, op'.inputs = inputs) fail s := by
  obtain ⟨g, T, E⟩ := g
  obtain ⟨hmemo, hstock⟩ := hs
  have hf : ∀ f ∈ op.function, f ∈ S := fun f hf =>
    hS f (Circuit.mem_functions_of_operator hop hf)
  have hnew : ∀ input ∈ inputs, input ∈ T := fun input hinput => by
    obtain ⟨_, _, _, ⟨rfl⟩, h, _⟩ := forall₂_exists_left hinputs hinput
    exact h
  have halike : List.Forall₂ (Operator.Alike (becomes g)) op.inputs inputs :=
    hinputs.imp fun _ _ h => by
      obtain ⟨_, ⟨rfl⟩, -, h, -⟩ := h
      exact h
  -- labels tell whether anything was replaced, since all parts are among the nodes that exist
  rw [assemble]
  split
  · rename_i hsame
    simp only [Bool.and_eq_true, decide_eq_true_eq, Operator.hasInputs, beq_iff_eq] at hsame
    obtain rfl : function = op.function :=
      ht.function_eq_of_label hmemo.hooks hf hfunction hsame.1
    obtain rfl : op.inputs = inputs := hstock.operators.eq_of_labels
      (fun input hinput => hstock.operatorNodes (Or.inr ⟨op, hop, hinput⟩)) hnew hsame.2
    exact ⟨(g, T, E), le_refl _, ⟨hmemo, hstock⟩, ⟨op, rfl, hstock.operatorNodes (Or.inl hop),
      .of_forall₂ rfl rfl rfl rfl hfunction halike, hchecked op hop⟩, by simp⟩
  · let new : Operator := ⟨s.next, op.id, op.kind, op.outputTy, function, op.aggregate, inputs⟩
    have hcheck : new.check = .ok () := by
      refine Operator.check_of_parts (hchecked op hop) rfl rfl rfl ?_ ?_
      · exact optionRel_imp hfunction fun f hf' f' h => ⟨ht.ty h, ht.zset (hf f hf') h⟩
      · exact (forall₂_map_eq_iff.mp (halike.imp fun _ _ h => h.outputTy.symm)).symm
    rw [Job.wp_bind]
    refine Job.wp_make_ok (Operator.build_eq_ok hcheck) ?_
    refine ⟨(g, insert new T, E), ⟨le_refl g, Set.subset_insert new T, le_refl E⟩,
      ⟨ht.memo_apart hmemo (Nat.le_succ _) _, hstock.insert_operator rfl⟩,
      ⟨new, rfl, Set.mem_insert new T, .of_forall₂ rfl rfl rfl rfl hfunction halike, hcheck⟩, ?_⟩
    rintro _ ⟨rfl⟩
    rfl

/-- An operator comes out alike, over the inputs it is given. -/
theorem wp_transform_operator (ht : Transforms transform S inv becomes fail)
    (hS : ∀ f ∈ c.functions, f ∈ S) (hchecked : ∀ op ∈ c.operators, op.check = .ok ())
    (hs : (transformed c S inv becomes).inv g s) (hop : op ∈ c.operators)
    (hinputs : List.Forall₂ (fun input new =>
      (transformed c S inv becomes).operator g input (some new)) op.inputs inputs) :
    Job.wp ((ofTransform transform).operator op inputs) (fun new s' => ∃ g', g ≤ g' ∧
      (transformed c S inv becomes).inv g' s' ∧ (transformed c S inv becomes).operator g' op new ∧
      ∀ op' ∈ new, op'.inputs = inputs) fail s := by
  rw [operator_ofTransform, Job.wp_bind]
  cases hfunction : op.function with
  | none => exact wp_assemble ht hS hchecked hs hop hinputs (by rw [hfunction]; exact .none)
  | some f =>
    rw [Option.mapM_some, map_eq_pure_bind, Job.wp_bind, site]
    refine (ht.wp_remember (hS f (Circuit.mem_functions_of_operator hop hfunction)) hs.1).imp
      fun f' s₁ h => ?_
    obtain ⟨g₁, hg₁, hnext, hmemo, hbecomes⟩ := h
    have hinputs₁ : List.Forall₂ (fun input new => (transformed c S inv becomes).operator
        (g₁, g.2) input (some new)) op.inputs inputs :=
      hinputs.imp fun _ _ ⟨op', hnew, hmem, halike, hcheck⟩ =>
        ⟨op', hnew, hmem, halike.mono fun _ _ => ht.mono hg₁, hcheck⟩
    refine (wp_assemble ht hS hchecked (g := (g₁, g.2)) ⟨hmemo, hs.2.mono hnext⟩ hop hinputs₁
      (by rw [hfunction]; exact .some hbecomes)).imp fun new s₂ h => ?_
    obtain ⟨g₂, hg₂, h⟩ := h
    exact ⟨g₂, ⟨hg₁.trans hg₂.1, hg₂.2⟩, h⟩

/-- A declaration keeps its name. -/
theorem wp_transform_declaration (ht : Transforms transform S inv becomes fail)
    (hS : ∀ f ∈ c.functions, f ∈ S) (hs : (transformed c S inv becomes).inv g s) {d : Declaration}
    (hd : d ∈ c.declarations) :
    Job.wp ((ofTransform transform).declaration d) (fun new s' => ∃ g', g ≤ g' ∧
      (transformed c S inv becomes).inv g' s' ∧ (transformed c S inv becomes).declaration g' d new)
      fail s := by
  have hvalue : d.value ∈ S := hS _ (Circuit.mem_functions_of_declaration hd)
  obtain ⟨g, T, E⟩ := g
  obtain ⟨hmemo, hstock⟩ := hs
  change Job.wp (_ >>= _) _ _ _
  rw [Job.wp_bind]
  refine (ht.wp_remember hvalue hmemo).imp fun value s₁ h => ?_
  obtain ⟨g₁, hg₁, hnext, hmemo₁, hbecomes⟩ := h
  have hstock₁ := hstock.mono hnext
  split
  · rename_i hid
    obtain rfl := ht.eq_of_label hmemo₁.hooks hvalue hbecomes (identical_iff.mp hid)
    exact ⟨(g₁, T, E), ⟨hg₁, le_refl _⟩, ⟨hmemo₁, hstock₁⟩, d, rfl,
      hstock.declarations_of d hd, rfl, hbecomes⟩
  · let new : Declaration := ⟨s₁.next, d.name, value⟩
    exact ⟨(g₁, T, insert new E), ⟨hg₁, le_refl T, Set.subset_insert new E⟩,
      ⟨ht.memo_apart hmemo₁ (Nat.le_succ _) _, hstock₁.insert_declaration rfl⟩, new, rfl,
      Set.mem_insert new E, rfl, hbecomes⟩

theorem ofTransform_keeps (ht : Transforms transform S inv becomes fail)
    (hS : ∀ f ∈ c.functions, f ∈ S) (hchecked : ∀ op ∈ c.operators, op.check = .ok ()) :
    (ofTransform transform).Keeps (transformed c S inv becomes) {op | op ∈ c.operators}
      {d | d ∈ c.declarations} fail where
  mono_operator hg := fun ⟨op', hnew, hmem, halike, hcheck⟩ =>
    ⟨op', hnew, hg.2.1 hmem, halike.mono fun _ _ => ht.mono hg.1, hcheck⟩
  mono_declaration hg := fun ⟨d', hnew, hmem, hname, hbecomes⟩ =>
    ⟨d', hnew, hg.2.2 hmem, hname, ht.mono hg.1 hbecomes⟩
  report hs := ⟨ht.memo_apart hs.1 (le_refl _) _, hs.2⟩
  keep hs _ := ⟨_, le_refl _, hs, trivial⟩
  operator hs hop _ hinputs := (wp_transform_operator ht hS hchecked hs hop hinputs).imp
    fun _ _ ⟨g', hg, hs', hop', hreads⟩ => ⟨g', hg, hs', hop', fun _ => hreads⟩
  declaration hs hd := wp_transform_declaration ht hS hs hd

omit [Preorder γ] in
/-- Nothing is dropped. -/
theorem not_transformed_none (node : Node) : ¬ (transformed c S inv becomes).node g node none := by
  cases node with
  | operator op =>
    rintro ⟨new, hnone, op', hop', -⟩
    cases new <;> simp_all
  | declaration d =>
    rintro ⟨new, hnone, d', hd', -⟩
    cases new <;> simp_all

omit [Preorder γ] in
theorem alike_of_transformed {node new : Node}
    (h : (transformed c S inv becomes).node g node (some new)) : node.Alike (becomes g.1) new := by
  cases new with
  | operator op =>
    obtain ⟨op', rfl, _, ⟨rfl⟩, -, halike, -⟩ := Spec.node_operator h
    exact halike
  | declaration d =>
    obtain ⟨d', rfl, _, ⟨rfl⟩, -, hname, hbecomes⟩ := Spec.node_declaration h
    exact ⟨hname, hbecomes⟩

/-- The parts of the result are made as well. -/
theorem made_of_transformed (ht : Transforms transform S inv becomes fail)
    (hS : ∀ f ∈ c.functions, f ∈ S) (hs : (transformed c S inv becomes).inv g s) {c' : Circuit}
    (h : (transformed c S inv becomes).Edited g c c') : c'.Made s.next := by
  have hnodes := h.forall₂_nodes not_transformed_none
  have hoperator : ∀ op ∈ c'.operators, op ∈ g.2.1 ∧ op.check = .ok () := fun op hop => by
    obtain ⟨node, -, hnode⟩ := forall₂_exists_left hnodes (Circuit.mem_operators.mp hop)
    obtain ⟨_, -, _, ⟨rfl⟩, hmem, -, hcheck⟩ := Spec.node_operator hnode
    exact ⟨hmem, hcheck⟩
  have hdeclaration : ∀ d ∈ c'.declarations, d ∈ g.2.2 := fun d hd => by
    obtain ⟨node, -, hnode⟩ := forall₂_exists_left hnodes (Circuit.mem_declarations.mp hd)
    obtain ⟨_, -, _, ⟨rfl⟩, hmem, -⟩ := Spec.node_declaration hnode
    exact hmem
  obtain ⟨T, -, hT, hbecomes⟩ := ht.heap hs.1.hooks
  have hfunctions : ∀ f ∈ c'.functions, f ∈ T := fun f hf => by
    have hall := Circuit.forall₂_functions (hnodes.imp fun _ _ => alike_of_transformed)
    obtain ⟨f', hf', h'⟩ := forall₂_exists_left hall hf
    exact hbecomes f' (hS f' hf') f h'
  refine ⟨?_, ?_, ?_, fun op hop => (hoperator op hop).2⟩
  · exact hT.restrict (Expr.nodes_subset hT.closed hfunctions) (Expr.nodes_closed _)
  · refine hs.2.operators.subset ?_
    rintro op (hop | ⟨reader, hreader, hop⟩)
    · exact (hoperator op hop).1
    · exact (hoperator op (Circuit.mem_operators_of_reads (h.reads trivial) hreader hop)).1
  · exact hs.2.declarations.subset hdeclaration

end CircuitEdit

/-- **The functions of a circuit become what the change makes of them**, and nothing else becomes of
the circuit.  The change has to be total only where the circuit is well formed. -/
theorem Transforms.wp_editFunctions {transform : Expr → Run σ Expr} {g : γ} {c : Circuit}
    {s : Session (Memo σ)} (ht : Transforms transform S inv becomes fail)
    (hS : ∀ f ∈ c.functions, f ∈ S) (hc : c.Made s.next) (hs : Memo.Inv S inv becomes g s)
    (hfail : (∀ e, fail e) ∨ c.validate = .ok ()) :
    Job.wp (c.editFunctions transform) (fun c' s' => ∃ g', g ≤ g' ∧ Memo.Inv S inv becomes g' s' ∧
      c.Transformed (becomes g') c' ∧ c'.Made s'.next) fail s := by
  have hstock : CircuitEdit.Stock c c.operatorNodes {d | d ∈ c.declarations} s.next :=
    ⟨Set.Subset.rfl, hc.operators, fun _ h => h, hc.declarations⟩
  refine ((CircuitEdit.ofTransform_keeps ht hS hc.checked).wp_apply_made hc (g := (g, _, _))
    ⟨hs, hstock⟩ ?_).imp ?_
  · refine hfail.imp_right fun hv => ⟨Circuit.reads_of_validate hc.operators.one hv, ?_⟩
    rintro op - g' - input - ⟨_, hnone, -⟩
    cases hnone
  · rintro c' s' ⟨g', hg, hs', hedited⟩
    exact ⟨g'.1, hg.1, hs'.1, ⟨hedited.name, (hedited.forall₂_nodes
      CircuitEdit.not_transformed_none).imp fun _ _ => CircuitEdit.alike_of_transformed,
      hedited.reads trivial⟩, CircuitEdit.made_of_transformed ht hS hs' hedited⟩

/-- An edit of expressions, started afresh, is a change of expressions. -/
theorem ExprEdit.Keeps.transforms {r : ExprEdit σ} (hr : r.Keeps S inv becomes fail)
    (hclosed : ∀ e ∈ S, ∀ c ∈ e.children, c ∈ S)
    (hone : ∀ a ∈ S, ∀ b ∈ S, a.label = b.label → a = b)
    (apart : ∀ {g : γ} {s : Session σ} {next : Label} {notices : List Notice}, inv g s →
      s.next ≤ next → inv g ⟨next, notices, s.state⟩)
    (heap : ∀ {g : γ} {s : Session σ}, inv g s → ∃ T, S ⊆ T ∧ Heap T s.next ∧
      ∀ e ∈ S, ∀ e', becomes g e e' → e' ∈ T)
    (ty : ∀ {g : γ} {e e' : Expr}, becomes g e e' → e'.ty = e.ty)
    (zset : ∀ {g : γ} {e e' : Expr}, e ∈ S → becomes g e e' → e.zset?.isSome → e'.zset?.isSome) :
    Transforms r.apply S (Memo.Inv S inv becomes) becomes fail where
  mono := hr.mono
  apart hs hle := ⟨apart hs.hooks hle, hs.done⟩
  heap hs := heap hs.hooks
  ty := ty
  zset := zset
  run hs he := hr.wp_apply hone hclosed he hs

end FlowCircuit
