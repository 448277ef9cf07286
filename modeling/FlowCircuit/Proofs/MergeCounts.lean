import Mathlib.Data.Set.Card
import FlowCircuit.Proofs.Processed
import FlowCircuit.Proofs.Rebuilding
import FlowCircuit.Proofs.Sharing

/-!
# The counters of the sharing pass

The pass ends by reporting how many canonical nodes it holds and how many nodes it merged into them.
Each node of the circuit is looked up once, and a look-up does one of two things: it finds another
node, which counts as a merge, or it adds a node to the table (`Dedup.wp_table`).  It never finds
the node that is looked up: that node is either new or still to be dealt with, and the table holds
no node of the circuit that is still to be dealt with.  So the two counters together count the nodes
dealt with (`Dedup.Table.Counts`), and in the end those are all nodes of the circuit.

A canonical node may have been made for a parent that was then merged itself.  It is in the result
all the same: it is the same as a node of the circuit, whose replacement is canonical and the same,
so it is that replacement (`Dedup.exprNodes_eq`).
-/

set_option autoImplicit false

namespace FlowCircuit

theorem encard_setOf_mem {α : Type} {l : List α} (h : l.Nodup) : {a | a ∈ l}.encard = l.length := by
  induction l with
  | nil => simp
  | cons a l ih =>
    obtain ⟨hnew, hl⟩ := List.nodup_cons.mp h
    have hsplit : {x | x ∈ a :: l} = insert a {x | x ∈ l} := by
      ext x
      exact List.mem_cons
    have hnotMem : a ∉ {x | x ∈ l} := hnew
    rw [hsplit, Set.encard_insert_of_notMem hnotMem, ih hl, List.length_cons, Nat.cast_add,
      Nat.cast_one]

/-- Rebuilding gives the node itself or a new one. -/
theorem wp_rebuild_label {σ : Type} {s : Session σ} (e : Expr) (cs : List Expr) :
    Job.wp (ExprEdit.rebuild e cs) (fun e₁ s₁ => s₁.state = s.state ∧ (e₁ = e ∨ e₁.label = s.next))
      (fun _ => True) s := by
  rw [ExprEdit.rebuild]
  split
  · exact ⟨rfl, Or.inl rfl⟩
  · rw [Job.wp_make]
    cases hmade : e.withChildren s.next cs with
    | error => trivial
    | ok e₁ => exact ⟨rfl, (Expr.parts_of_withChildren hmade).imp_right And.left⟩

namespace Dedup

/-- **One look-up** merges a node or adds it to the table, provided that the table does not hold the
node that is looked up. -/
theorem wp_table {s : Session Table} {e : Expr} (cs : List Expr) (hfiled : s.state.Filed)
    (hused : ∀ known ∈ s.state.canonical, known.label < s.next)
    (hother : ∀ known ∈ s.state.canonical, known.label ≠ e.label) :
    Job.wp (ExprEdit.rebuild e cs >>= edit.after) (fun e' s' =>
        s'.state = { s.state with merged := s.state.merged + 1 } ∨
        s'.state = s.state.file e' ∧
          e' ∉ s.state.canonical ∧ (e' = e ∨ e'.label = s.next))
      (fun _ => True) s := by
  rw [Job.wp_bind]
  refine (wp_rebuild_label e cs).imp fun e₁ s₁ h => ?_
  obtain ⟨hstate, hfrom⟩ := h
  change Job.wp (Job.state >>= _) _ _ _
  rw [Job.wp_bind, Job.wp_state, hstate]
  split
  · rename_i known hfind
    have hknown : known ∈ s.state.canonical :=
      Table.mem_canonical_of_mem_bucket (List.mem_of_find?_eq_some hfind)
    have hne : identical known e₁ ≠ true := fun hid => by
      have hlabel := identical_iff.mp hid
      rcases hfrom with rfl | hnext
      · exact hother known hknown hlabel
      · exact Nat.ne_of_lt (hused known hknown) (hlabel.trans hnext)
    rw [if_pos (by simpa using hne)]
    exact Or.inl (by rw [← hstate])
  · rename_i hfind
    refine Or.inr ⟨by rw [← hstate], fun hmem => ?_, hfrom⟩
    exact List.find?_eq_none.mp hfind e₁ (hfiled.mem_bucket hmem rfl rfl)
      (Expr.shallowSame_iff.mpr (Or.inl rfl))

/-- The counters after the nodes of `P` have been looked up. -/
structure Table.Counts (S P : Set Expr) (t : Table) : Prop where
  nodup : t.canonical.Nodup
  dealt : ∀ known ∈ t.canonical, known ∈ S → known ∈ P
  source : ∀ known ∈ t.canonical, ∃ e ∈ S, e.same known = true
  count : P.encard = t.canonical.length + t.merged

namespace Table.Counts

variable {S P : Set Expr} {t : Table} {e : Expr}

theorem start (S : Set Expr) : Table.start.Counts S ∅ where
  nodup := List.nodup_nil
  dealt _ h := absurd h List.not_mem_nil
  source _ h := absurd h List.not_mem_nil
  count := by simp [Table.start, Table.canonical]

theorem merge (h : t.Counts S P) (he : e ∉ P) :
    { t with merged := t.merged + 1 }.Counts S (insert e P) where
  nodup := h.nodup
  dealt known hknown hS := Set.mem_insert_of_mem e (h.dealt known hknown hS)
  source := h.source
  count := by
    rw [Set.encard_insert_of_notMem he, h.count, Nat.cast_add, Nat.cast_one, add_assoc]
    rfl

theorem add {e' : Expr} (h : t.Counts S P) (he : e ∈ S) (hP : e ∉ P) (hnew : e' ∉ t.canonical)
    (hfrom : e' ∈ S → e' = e) (hsame : e.same e' = true) :
    (t.file e').Counts S (insert e P) where
  nodup := (t.canonical_file e').nodup_iff.mpr (List.nodup_cons.mpr ⟨hnew, h.nodup⟩)
  dealt known hknown hS := by
    rcases Table.mem_canonical_file.mp hknown with rfl | hold
    · exact Or.inl (hfrom hS)
    · exact Or.inr (h.dealt known hold hS)
  source known hknown := by
    rcases Table.mem_canonical_file.mp hknown with rfl | hold
    · exact ⟨e, he, hsame⟩
    · exact h.source known hold
  count := by
    rw [Set.encard_insert_of_notMem hP, h.count, (t.canonical_file e').length_eq, List.length_cons,
      Nat.cast_add, Nat.cast_one, add_right_comm]
    rfl

end Table.Counts

/-- What holds between two nodes, with the nodes dealt with as the second index. -/
structure Counted (S : Set Expr) (g : (Set Expr × Set Expr) × Set Expr) (s : Session Table) : Prop
    extends Inv S g.1 s where
  counts : s.state.Counts S g.2

/-- The step of the run: the two counters together grow by one. -/
theorem edit_keepsOnce (S : Set Expr) (fail : Error → Prop) :
    edit.KeepsOnce S (Counted S) Becomes fail where
  mono hg h := (edit_keeps S fail).mono hg h
  before _ := rfl
  after := by
    rintro ⟨T, K⟩ P s e cs hs he hnew hcs
    have hmem : ∀ known ∈ s.state.canonical, known ∈ T := fun known hknown =>
      hs.canonical.subset ((hs.table known).mpr hknown)
    have hother : ∀ known ∈ s.state.canonical, known.label ≠ e.label :=
      fun known hknown hlabel => by
        obtain rfl : known = e := hs.heap.one known (hmem known hknown) e (hs.subset he) hlabel
        exact hnew (hs.counts.dealt known hknown he)
    refine (((edit_keeps S fail).after hs.toInv he hcs).and
      (wp_table cs hs.filed
        (fun known hknown => hs.heap.used known (hmem known hknown)) hother)).imp ?_
    rintro e' s' ⟨⟨g', hg, hnext, hs', hbecomes⟩, htable⟩
    refine ⟨g', hg, hnext, ⟨hs', ?_⟩, hbecomes⟩
    rcases htable with hmerged | ⟨hadded, hfresh, hfrom⟩
    · rw [hmerged]
      exact hs.counts.merge hnew
    · rw [hadded]
      refine hs.counts.add he hnew hfresh (fun h => hfrom.resolve_right fun hlabel => ?_) hbecomes.2
      exact Nat.ne_of_lt (hs.heap.used e' (hs.subset h)) hlabel

theorem edit_transforms_once {S : Set Expr} {next : Label} (hS : Heap S next)
    (fail : Error → Prop) :
    Transforms edit.apply S (Memo.Processed S (Counted S) Becomes) (Dealt Becomes) fail := by
  refine (edit_keepsOnce S fail).transforms hS.closed hS.one ?_ ?_ ?_ ?_
  · exact fun hs hle => ⟨⟨hs.subset, hs.heap.mono hle, hs.canonical, hs.table, hs.filed⟩, hs.counts⟩
  · exact fun hs => ⟨_, hs.subset, hs.heap, fun _ _ _ h => hs.canonical.subset h.1⟩
  · exact fun h => (Expr.same_iff_shape.mp h.2).1.symm
  · exact fun _ h => Expr.isSome_zset?_of_same h.2

/-- The nodes of the result are the canonical ones, if each of these is the same as a node of the
circuit. -/
theorem exprNodes_eq {c c' : Circuit} {K T : Set Expr} {next : Label} (hT : Heap T next)
    (hK : Canonical K T) (hsource : ∀ known ∈ K, ∃ e ∈ c.exprNodes, e.same known = true)
    (htyped : ∀ f ∈ c.functions, f.WellTyped) (hc' : c.Transformed (Becomes (T, K)) c') :
    c'.exprNodes = K := by
  have hfunctions := Circuit.forall₂_functions hc'.nodes
  have hcanonical : ∀ f' ∈ c'.functions, f' ∈ K := fun f' hf' => by
    obtain ⟨_, _, h, _⟩ := forall₂_exists_left hfunctions hf'
    exact h
  have hsubset : c'.exprNodes ⊆ K := Expr.nodes_subset hK.closed hcanonical
  refine Set.Subset.antisymm hsubset fun known hknown => ?_
  obtain ⟨e, he, hsame⟩ := hsource known hknown
  obtain ⟨e', he', hsame'⟩ := Expr.exists_same_of_mem_nodes htyped
    (fun f' hf' => hT.wellTyped (hK.subset (hcanonical f' hf')))
    (hfunctions.imp fun _ _ h => h.2) he
  obtain rfl : known = e' := hK.eq_of_same hT hknown (hsubset he')
    (Expr.same_trans (Expr.same_symm hsame) hsame')
  exact he'

/-- The run with its counters. -/
theorem wp_run_counted {c : Circuit} {s : Session Unit} {fail : Error → Prop} (hc : c.Made s.next)
    (hfail : (∀ e, fail e) ∨ c.validate = .ok ()) :
    Job.wp (run c) (fun c' s' =>
      c'.Made s'.next ∧ ∃ (canonical merged : Nat) (before : List Notice),
        s'.notices = .duplicatesMerged name canonical merged c.name :: before ∧
        c'.exprNodes.encard = canonical ∧ c.exprNodes.encard = canonical + merged) fail s := by
  rw [run, Job.wp_bind, Job.wp_withState]
  refine ((edit_transforms_once hc.expressions fail).wp_editFunctions_once hc
    ⟨inv_start hc, .start _⟩ hfail).imp fun c' s' h => ?_
  obtain ⟨⟨T, K⟩, hs', hc', hmade⟩ := h
  have hK : K = {e | e ∈ s'.state.hooks.hooks.canonical} := Set.ext hs'.table
  have hnodes : c'.exprNodes = K := exprNodes_eq hs'.heap hs'.canonical
    (fun known hknown => hs'.counts.source known ((hs'.table known).mp hknown))
    (fun f hf => hc.expressions.wellTyped (Expr.mem_nodes hf)) hc'
  have hsize := s'.state.hooks.hooks.size_eq
  refine ⟨hmade, _, _, s'.notices, rfl, ?_, ?_⟩
  · rw [hnodes, hK, hsize]
    exact encard_setOf_mem hs'.counts.nodup
  · rw [hsize]
    exact hs'.counts.count

/-- **The counters are exact.**  Whenever the pass succeeds, the last thing it reports are its two
counters: the number of canonical nodes is the number of expression nodes in the functions and
declaration values of the result, and together with the number of nodes merged it is the number of
those in the circuit.  Nodes are counted by their labels, shared ones once. -/
theorem counters_exact {c : Circuit} {s : Session Unit} (hc : c.Made s.next) :
    ∀ c' s', (run c).exec s = (.ok c', s') →
      ∃ (canonical merged : Nat) (before : List Notice),
        s'.notices = .duplicatesMerged name canonical merged c.name :: before ∧
        (Expr.label '' c'.exprNodes).encard = canonical ∧
        (Expr.label '' c.exprNodes).encard = canonical + merged := by
  intro c' s' hrun
  have hpartial : Job.wp (run c) _ (fun _ => True) s := wp_run_counted hc (Or.inl fun _ => trivial)
  obtain ⟨hmade, canonical, merged, before, hnotices, hresult, hcircuit⟩ := hpartial.of_exec_ok hrun
  have hlabels : Set.InjOn Expr.label c.exprNodes := fun a ha b hb => hc.expressions.one a ha b hb
  have hlabels' : Set.InjOn Expr.label c'.exprNodes :=
    fun a ha b hb => hmade.expressions.one a ha b hb
  refine ⟨canonical, merged, before, hnotices, ?_, ?_⟩
  · rw [hlabels'.encard_image, hresult]
  · rw [hlabels.encard_image, hcircuit]

theorem counters_exact_sample :
    Sample.circuit.Made 15 ∧ ∃ c' s', (run Sample.circuit).exec ⟨15, [], ()⟩ = (.ok c', s') ∧
      ∃ (canonical merged : Nat) (before : List Notice),
        s'.notices = .duplicatesMerged name canonical merged "sample" :: before ∧
        (Expr.label '' c'.exprNodes).encard = canonical ∧
        (Expr.label '' Sample.circuit.exprNodes).encard = canonical + merged := by
  have hok : ((run Sample.circuit).exec ⟨15, [], ()⟩).1.isOk = true := by decide +kernel
  obtain ⟨c', s', hrun⟩ := Job.exists_of_isOk hok
  exact ⟨Sample.made_circuit, c', s', hrun,
    counters_exact (s := ⟨15, [], ()⟩) Sample.made_circuit c' s' hrun⟩

end Dedup

end FlowCircuit
