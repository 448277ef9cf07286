import Mathlib.Data.Set.Card
import FlowCircuit.Pass.Dedup
import FlowCircuit.Proofs.Same
import FlowCircuit.Proofs.Transform

/-!
# Sharing equal expressions leaves nothing to share

The pass compares nodes only shallowly: two nodes are merged when they have the same type and
payload over the very same sub-expressions.  That this finds all there is to find rests on the table
of canonical nodes.  The table holds the sub-expressions of its members, and no two members are
shallowly the same (`Dedup.Canonical`); from the leaves up, members that are the same at all depths
are then one node (`Dedup.Canonical.eq_of_same`).  Only one bucket of the table is searched, but a
member that is like the node is in it (`Dedup.Table.Filed.mem_bucket`).  Every expression is
replaced by a member that is the same, so the nodes of the result are as many as there are different
nodes in the circuit (`Dedup.maximal_sharing`).
-/

set_option autoImplicit false

namespace FlowCircuit

theorem Form.alike_refl (form : Form Label) : form.alike form = true := by
  cases form <;> exact beq_self_eq_true _

theorem Form.alike_comm (a b : Form Label) : a.alike b = b.alike a := by
  cases a <;> cases b <;> exact BEq.comm

namespace Expr

theorem shallowSame_iff {a b : Expr} :
    a.shallowSame b = true ↔
      a.label = b.label ∨ a.ty = b.ty ∧ a.outline.alike b.outline = true := by
  rw [shallowSame, Bool.or_eq_true, Bool.and_eq_true, Ty.same_iff, identical_iff]
  exact Iff.rfl

theorem shallowSame_symm {a b : Expr} (h : a.shallowSame b = true) : b.shallowSame a = true := by
  rw [shallowSame_iff, Form.alike_comm] at h
  exact shallowSame_iff.mpr (h.imp Eq.symm (And.imp_left Eq.symm))

/-- The same payload over the same sub-expressions is enough. -/
theorem shallowSame_of_shape {a b : Expr} (hty : a.ty = b.ty) (hshape : a.shape = b.shape)
    (hlabels : a.children.map label = b.children.map label) : a.shallowSame b = true := by
  refine shallowSame_iff.mpr (.inr ⟨hty, ?_⟩)
  rw [outline_eq_iff.mpr ⟨hshape, hlabels⟩]
  exact Form.alike_refl _

/-- In a heap it is also necessary.  The keys in a Z-set are those of its elements, and its type is
that of the expression, so nothing is missed by not comparing them. -/
theorem outline_eq_of_alike {T : Set Expr} {next : Label} (hT : Heap T next) {a b : Expr}
    (ha : a ∈ T) (hb : b ∈ T) (hty : a.ty = b.ty) (h : a.outline.alike b.outline = true) :
    a.outline = b.outline := by
  have hta := hT.typed a ha
  have htb := hT.typed b hb
  have hca := hT.closed a ha
  have hcb := hT.closed b hb
  rcases a with ⟨la, ta, form⟩
  rcases b with ⟨lb, tb, form'⟩
  cases form with
  | zset z =>
    cases form' with
    | zset w =>
      obtain ⟨rfl, hz⟩ := hta
      obtain ⟨rfl, hw⟩ := htb
      obtain ⟨helement, hweight, hnullable⟩ := Ty.zset.inj hty
      have hrows : List.Forall₂ (fun r s : Row Expr =>
          r.element.label = s.element.label ∧ r.weight = s.weight) z.rows w.rows := by
        have hentries : (z.map label).entries = (w.map label).entries := eq_of_beq h
        simp only [ZSet.entries, ZSet.map, List.map_map] at hentries
        exact (forall₂_map_eq_iff.mpr hentries).imp fun r s hrs => Prod.mk.inj hrs
      refine congrArg Form.zset ((ZSet.mk.injEq ..).mpr ⟨helement, hweight, hnullable, ?_⟩)
      refine forall₂_map_eq_iff.mp (forall₂_imp_of_mem hrows fun r hr s hs hrs => ?_)
      have helements : r.element = s.element := hT.one _ (hca _ (List.mem_map_of_mem hr)) _
        (hcb _ (List.mem_map_of_mem hs)) hrs.1
      have hkeys : r.key = s.key := by
        refine Except.ok.inj ((hz.keyed r hr).symm.trans ?_)
        rw [helements]
        exact hw.keyed s hs
      rw [hkeys, helements, hrs.2]
    | _ => cases h
  | _ => exact eq_of_beq h

/-- Shallow comparison in a heap is deep comparison. -/
theorem same_of_shallowSame {T : Set Expr} {next : Label} (hT : Heap T next) {a b : Expr}
    (ha : a ∈ T) (hb : b ∈ T) (h : a.shallowSame b = true) : a.same b = true := by
  rcases shallowSame_iff.mp h with hlabel | ⟨hty, halike⟩
  · rw [hT.one a ha b hb hlabel]
    exact same_refl b
  · obtain ⟨hshape, hlabels⟩ := outline_eq_iff.mp (outline_eq_of_alike hT ha hb hty halike)
    have hchildren : a.children = b.children :=
      hT.eq_of_labels (hT.closed a ha) (hT.closed b hb) hlabels
    refine same_iff_shape.mpr ⟨hty, hshape, fun _ => ?_⟩
    rw [hchildren]
    exact List.forall₂_same.mpr fun c _ => same_refl c

/-! ## Classes of nodes that are the same -/

/-- Expressions that are the same have the same nodes, up to being the same. -/
theorem exists_same_of_within {a b d : Expr} (ha : a.WellTyped) (hb : b.WellTyped)
    (h : a.same b = true) (hd : d.Within a) : ∃ d', d'.Within b ∧ d.same d' = true := by
  induction hd generalizing b with
  | refl => exact ⟨b, .refl, h⟩
  | child hc _ ih =>
    obtain ⟨-, -, hchildren⟩ := (same_iff ha hb).mp h
    obtain ⟨c', hc', hcc'⟩ := forall₂_exists_right hchildren hc
    obtain ⟨d', hd', hdd'⟩ := ih (ha.child hc) (hb.child hc') hcc'
    exact ⟨d', .child hc' hd', hdd'⟩

theorem exists_same_of_mem_nodes {as bs : List Expr} (has : ∀ a ∈ as, a.WellTyped)
    (hbs : ∀ b ∈ bs, b.WellTyped) (h : List.Forall₂ (fun a b => a.same b = true) as bs) {d : Expr}
    (hd : d ∈ nodes as) : ∃ d' ∈ nodes bs, d.same d' = true := by
  obtain ⟨a, ha, hd⟩ := hd
  obtain ⟨b, hb, hab⟩ := forall₂_exists_right h ha
  obtain ⟨d', hd', hdd'⟩ := exists_same_of_within (has a ha) (hbs b hb) hab hd
  exact ⟨d', ⟨b, hb, hd'⟩, hdd'⟩

/-- The nodes of `S` that are the same as `e`. -/
def classOf (S : Set Expr) (e : Expr) : Set Expr := {d ∈ S | e.same d = true}

/-- The classes into which the nodes of `S` fall. -/
def classes (S : Set Expr) : Set (Set Expr) := classOf S '' S

theorem classOf_eq_of_same {S : Set Expr} {a b : Expr} (h : a.same b = true) :
    classOf S a = classOf S b := by
  ext d
  exact and_congr_right fun _ => ⟨same_trans (same_symm h), same_trans h⟩

/-- Nodes no two of which are the same, and which are the same as the nodes of `S` taken together,
are as many as there are classes in `S`. -/
theorem encard_eq_encard_classes {S S' : Set Expr} (hS : ∀ e ∈ S, ∃ e' ∈ S', e.same e' = true)
    (hS' : ∀ e' ∈ S', ∃ e ∈ S, e'.same e = true)
    (hone : ∀ a ∈ S', ∀ b ∈ S', a.same b = true → a = b) : S'.encard = (classes S).encard := by
  have himage : classes S = classOf S '' S' := by
    refine Set.Subset.antisymm ?_ ?_
    · rintro _ ⟨e, he, rfl⟩
      obtain ⟨e', he', h⟩ := hS e he
      exact ⟨e', he', (classOf_eq_of_same h).symm⟩
    · rintro _ ⟨e', he', rfl⟩
      obtain ⟨e, he, h⟩ := hS' e' he'
      exact ⟨e, he, (classOf_eq_of_same h).symm⟩
  have hinj : Set.InjOn (classOf S) S' := by
    intro a ha b hb hab
    obtain ⟨e, he, h⟩ := hS' a ha
    have hmem : e ∈ classOf S b := hab ▸ ⟨he, h⟩
    exact hone a ha b hb (same_trans h (same_symm hmem.2))
  rw [himage, hinj.encard_image]

end Expr

namespace Dedup

/-! ## The table -/

/-- Canonical nodes among the nodes that exist: sub-expressions of canonical nodes are canonical,
and no two are alike. -/
structure Canonical (K T : Set Expr) : Prop where
  subset : K ⊆ T
  closed : ∀ e ∈ K, ∀ c ∈ e.children, c ∈ K
  one : ∀ a ∈ K, ∀ b ∈ K, a.shallowSame b = true → a = b

namespace Canonical

variable {K T : Set Expr} {next : Label}

theorem mono {T' : Set Expr} (hK : Canonical K T) (hT : T ⊆ T') : Canonical K T' :=
  ⟨hK.subset.trans hT, hK.closed, hK.one⟩

/-- A node over canonical nodes that is like none of them joins them. -/
theorem insert {e : Expr} (hK : Canonical K T) (he : e ∈ T) (hc : ∀ c ∈ e.children, c ∈ K)
    (hnew : ∀ known ∈ K, known.shallowSame e = false) : Canonical (insert e K) T := by
  refine ⟨Set.insert_subset he hK.subset, ?_, ?_⟩
  · rintro x (rfl | hx) c hcx
    · exact Or.inr (hc c hcx)
    · exact Or.inr (hK.closed x hx c hcx)
  · rintro a (rfl | ha) b (rfl | hb) hab
    · rfl
    · have hba := Expr.shallowSame_symm hab
      rw [hnew b hb] at hba
      cases hba
    · rw [hnew a ha] at hab
      cases hab
    · exact hK.one a ha b hb hab

/-- **Canonical nodes that are the same are one node.** -/
theorem eq_of_same (hK : Canonical K T) (hT : Heap T next) {a b : Expr} (ha : a ∈ K) (hb : b ∈ K)
    (h : a.same b = true) : a = b := by
  induction a using Expr.induction_children generalizing b with
  | node a ih =>
    obtain ⟨hty, hshape, hchildren⟩ := (Expr.same_iff (hT.wellTyped (hK.subset ha))
      (hT.wellTyped (hK.subset hb))).mp h
    have heq : a.children = b.children :=
      List.forall₂_eq_eq_eq ▸ forall₂_imp_of_mem hchildren fun c hc c' hc' hcc' =>
        ih c hc (hK.closed a ha c hc) (hK.closed b hb c' hc') hcc'
    exact hK.one a ha b hb (Expr.shallowSame_of_shape hty hshape (by rw [heq]))

end Canonical

/-! ## The buckets -/

/-- What a bucket is found by. -/
def Bucket.key (b : Bucket) : String × Ty := (b.kind, b.ty)

theorem Bucket.isFor_iff {b : Bucket} {e : Expr} :
    b.isFor e = true ↔ b.key = (e.kindName, e.ty) := by
  rw [isFor, Bool.and_eq_true, decide_eq_true_eq, Ty.same_iff, key, Prod.mk.injEq]

/-- Every node is in a bucket it belongs into, and there is no other for it. -/
structure Table.Filed (t : Table) : Prop where
  own : ∀ b ∈ t.buckets, ∀ known ∈ b.nodes, b.isFor known = true
  nodup : (t.buckets.map Bucket.key).Nodup

namespace Table

variable {t : Table} {e known : Expr}

/-- With `e` in its bucket, a bucket is one that was there, or the one for `e`: made for it, or with
`e` behind the nodes it had. -/
theorem mem_filed {bs : List Bucket} {b : Bucket} (h : b ∈ filed e bs) :
    b ∈ bs ∨ b = ⟨e.kindName, e.ty, [e]⟩ ∨
      ∃ c ∈ bs, c.isFor e = true ∧ b = { c with nodes := c.nodes ++ [e] } := by
  induction bs with
  | nil => exact .inr (.inl (List.mem_singleton.mp h))
  | cons c bs ih =>
    rw [filed] at h
    split at h
    case isTrue hc =>
      rcases List.mem_cons.mp h with rfl | h
      · exact .inr (.inr ⟨c, List.mem_cons_self, hc, rfl⟩)
      · exact .inl (List.mem_cons_of_mem _ h)
    case isFalse hc =>
      rcases List.mem_cons.mp h with rfl | h
      · exact .inl List.mem_cons_self
      · rcases ih h with h | h | ⟨d, hd, h⟩
        · exact .inl (List.mem_cons_of_mem _ h)
        · exact .inr (.inl h)
        · exact .inr (.inr ⟨d, List.mem_cons_of_mem _ hd, h⟩)

/-- No second bucket is made. -/
theorem nodup_filed {bs : List Bucket} (h : (bs.map Bucket.key).Nodup) (e : Expr) :
    ((filed e bs).map Bucket.key).Nodup := by
  induction bs with
  | nil => exact List.nodup_singleton _
  | cons c bs ih =>
    obtain ⟨hc, hbs⟩ := List.nodup_cons.mp h
    rw [filed]
    split
    case isTrue => exact h
    case isFalse hfor =>
      refine List.nodup_cons.mpr ⟨fun hmem => ?_, ih hbs⟩
      obtain ⟨b, hb, hkey⟩ := List.mem_map.mp hmem
      rcases mem_filed hb with hb | rfl | ⟨d, hd, -, rfl⟩
      · exact hc (List.mem_map.mpr ⟨b, hb, hkey⟩)
      · exact hfor (Bucket.isFor_iff.mpr hkey.symm)
      · exact hc (List.mem_map.mpr ⟨d, hd, hkey⟩)

theorem Filed.start : Table.start.Filed := ⟨List.forall_mem_nil _, List.nodup_nil⟩

theorem Filed.file (h : t.Filed) (e : Expr) : (t.file e).Filed := by
  refine ⟨fun b hb known hknown => ?_, nodup_filed h.nodup e⟩
  rcases mem_filed hb with hb | rfl | ⟨c, hc, hfor, rfl⟩
  · exact h.own b hb known hknown
  · obtain rfl := List.mem_singleton.mp hknown
    exact Bucket.isFor_iff.mpr rfl
  · rcases List.mem_append.mp hknown with hknown | hknown
    · exact h.own c hc known hknown
    · obtain rfl := List.mem_singleton.mp hknown
      exact hfor

/-- **A node is found in its bucket**, which is the one for every node of its sort and type. -/
theorem Filed.mem_bucket (h : t.Filed) (hknown : known ∈ t.canonical)
    (hkind : known.kindName = e.kindName) (hty : known.ty = e.ty) : known ∈ t.bucket e := by
  obtain ⟨b, hb, hmem⟩ := List.mem_flatMap.mp hknown
  have hfor : b.isFor e = true := by
    rw [Bucket.isFor_iff, ← hkind, ← hty]
    exact Bucket.isFor_iff.mp (h.own b hb known hmem)
  rw [bucket]
  split
  case h_1 c hfind =>
    -- the first bucket for `e` is the only one
    have hc : c.isFor e = true := by simpa using List.find?_some hfind
    obtain rfl : b = c := List.inj_on_of_nodup_map h.nodup hb (List.mem_of_find?_eq_some hfind)
      ((Bucket.isFor_iff.mp hfor).trans (Bucket.isFor_iff.mp hc).symm)
    exact hmem
  case h_2 hfind => exact absurd hfor (List.find?_eq_none.mp hfind b hb)

end Table

/-! ## The run -/

/-- What holds between two nodes: of the indices, the first is the heap and the second the table. -/
structure Inv (S : Set Expr) (g : Set Expr × Set Expr) (s : Session Table) : Prop where
  subset : S ⊆ g.1
  heap : Heap g.1 s.next
  canonical : Canonical g.2 g.1
  table : ∀ e, e ∈ g.2 ↔ e ∈ s.state.canonical
  filed : s.state.Filed

/-- What becomes of an expression: a canonical node that is the same. -/
def Becomes (g : Set Expr × Set Expr) (e e' : Expr) : Prop := e' ∈ g.2 ∧ e.same e' = true

/-- A node over canonical nodes is replaced by the one that it is like, or else joins them. -/
theorem wp_after {S T K : Set Expr} {s : Session Table} {fail : Error → Prop} {e : Expr}
    (hs : Inv S (T, K) s) (he : e ∈ T) (hc : ∀ c ∈ e.children, c ∈ K) :
    Job.wp (edit.after e) (fun e' s' => ∃ K', K ⊆ K' ∧ s.next ≤ s'.next ∧ Inv S (T, K') s' ∧
      e' ∈ K' ∧ e.same e' = true) fail s := by
  change Job.wp (Job.state >>= _) _ _ _
  rw [Job.wp_bind, Job.wp_state]
  split
  · rename_i known hfind
    have hknown : known ∈ K := (hs.table known).mpr
      (Table.mem_canonical_of_mem_bucket (List.mem_of_find?_eq_some hfind))
    have hlike : known.same e = true :=
      Expr.same_of_shallowSame hs.heap (hs.canonical.subset hknown) he
        (by simpa using List.find?_some hfind)
    -- a node that is not the canonical one is counted as merged
    split
    · exact ⟨K, le_refl K, le_refl _,
        ⟨hs.subset, hs.heap, hs.canonical, hs.table, hs.filed.own, hs.filed.nodup⟩, hknown,
        Expr.same_symm hlike⟩
    · exact ⟨K, le_refl K, le_refl _, hs, hknown, Expr.same_symm hlike⟩
  · rename_i hfind
    have hnew : ∀ known ∈ K, known.shallowSame e = false := fun known hknown => by
      refine Bool.eq_false_iff.mpr fun hlike => ?_
      -- a node that is like `e` is in the bucket that was searched
      obtain ⟨hty, hshape, -⟩ := Expr.same_iff_shape.mp
        (Expr.same_of_shallowSame hs.heap (hs.canonical.subset hknown) he hlike)
      exact List.find?_eq_none.mp hfind known (hs.filed.mem_bucket ((hs.table known).mp hknown)
        (Expr.kindName_eq_of_shape hshape) hty) hlike
    refine ⟨insert e K, Set.subset_insert e K, le_refl _,
      ⟨hs.subset, hs.heap, hs.canonical.insert he hc hnew, fun d => ?_, hs.filed.file e⟩,
      Set.mem_insert e K, e.same_refl⟩
    rw [Set.mem_insert_iff, hs.table d]
    exact Table.mem_canonical_file.symm

theorem edit_keeps (S : Set Expr) (fail : Error → Prop) :
    edit.Keeps S (Inv S) Becomes fail where
  mono hg h := ⟨hg.2 h.1, h.2⟩
  before hinv _ := ⟨_, le_refl _, le_refl _, hinv, by simp⟩
  after := by
    rintro ⟨T, K⟩ s e cs hs he hcs
    have hcanonical : ∀ c ∈ cs, c ∈ K := fun c hc => by
      obtain ⟨_, _, h, _⟩ := forall₂_exists_left hcs hc
      exact h
    have hsame : List.Forall₂ (fun a b => a.same b = true) e.children cs := hcs.imp fun _ _ h => h.2
    rw [Job.wp_bind]
    refine (wp_rebuild hs.heap (hs.subset he) (fun c hc => hs.canonical.subset (hcanonical c hc))
      hcs.length_eq.symm fun hne => Expr.accepts_of_same (hs.heap.typed e (hs.subset he)) hsame hne
      s.next).imp ?_
    rintro e₁ s' ⟨T', hTT', hT', he₁, hbuilt, hnext, hstate⟩
    have hsame₁ : e.same e₁ = true := by
      refine (Expr.same_iff (hT'.wellTyped (hTT' (hs.subset he))) (hT'.wellTyped he₁)).mpr
        ⟨hbuilt.ty.symm, hbuilt.shape.symm, ?_⟩
      rwa [hbuilt.children]
    have hs' : Inv S (T', K) s' := ⟨hs.subset.trans hTT', hT', hs.canonical.mono hTT',
      hstate ▸ hs.table, hstate ▸ hs.filed⟩
    refine (wp_after hs' he₁ (hbuilt.children ▸ hcanonical)).imp fun e' s'' h => ?_
    obtain ⟨K', hKK', hnext', hs'', he', hsame'⟩ := h
    exact ⟨(T', K'), ⟨hTT', hKK'⟩, hnext.trans hnext', hs'', he', Expr.same_trans hsame₁ hsame'⟩

theorem edit_transforms {S : Set Expr} {next : Label} (hS : Heap S next) (fail : Error → Prop) :
    Transforms edit.apply S (Memo.Inv S (Inv S) Becomes) Becomes fail := by
  refine (edit_keeps S fail).transforms hS.closed hS.one ?_ ?_ ?_ ?_
  · exact fun hs hle => ⟨hs.subset, hs.heap.mono hle, hs.canonical, hs.table, hs.filed⟩
  · exact fun hs => ⟨_, hs.subset, hs.heap, fun _ _ _ h => hs.canonical.subset h.1⟩
  · exact fun h => (Expr.same_iff_shape.mp h.2).1.symm
  · exact fun _ h => Expr.isSome_zset?_of_same h.2

/-- At first no node is canonical. -/
theorem inv_start {c : Circuit} {s : Session Unit} (hc : c.Made s.next) :
    Inv c.exprNodes (c.exprNodes, ∅) ⟨s.next, s.notices, Table.start⟩ :=
  ⟨Set.Subset.rfl, hc.expressions, ⟨Set.empty_subset _, by simp, by simp⟩,
    by simp [Table.start, Table.canonical], .start⟩

/-- **The pass shares the nodes of all functions** and leaves the rest of the circuit as it is. -/
theorem wp_run {c : Circuit} {s : Session Unit} {fail : Error → Prop} (hc : c.Made s.next)
    (hfail : (∀ e, fail e) ∨ c.validate = .ok ()) :
    Job.wp (run c) (fun c' s' => c.Transformed (fun e e' => e.same e' = true) c' ∧ c'.Made s'.next ∧
      ∀ a ∈ c'.exprNodes, ∀ b ∈ c'.exprNodes, a.same b = true → a = b) fail s := by
  rw [run, Job.wp_bind, Job.wp_withState]
  refine ((edit_transforms hc.expressions fail).wp_editFunctions (fun f => Expr.mem_nodes) hc
    (Memo.inv_start (Memo.inv_start (inv_start hc))) hfail).imp fun c' s' h => ?_
  obtain ⟨g, -, hs', hc', hmade⟩ := h
  refine ⟨hc'.mono fun _ _ h => h.2, hmade, fun a ha b hb => ?_⟩
  have hcanonical := hs'.hooks.hooks.canonical
  have hsubset : c'.exprNodes ⊆ g.2 := by
    refine Expr.nodes_subset hcanonical.closed fun f hf => ?_
    obtain ⟨_, _, h, _⟩ := forall₂_exists_left (Circuit.forall₂_functions hc'.nodes) hf
    exact h
  exact hcanonical.eq_of_same hs'.hooks.hooks.heap (hsubset ha) (hsubset hb)

/-- **Nothing is left to share.**  The pass succeeds on every well-formed circuit.  Whenever it
succeeds, the result has the nodes of the circuit in their places, with functions and declaration
values that are the same and all else untouched; any two expression nodes of the result that are the
same are one node; and there are as many of them as there are different ones in the circuit. -/
theorem maximal_sharing {c : Circuit} {s : Session Unit} (hc : c.Made s.next) :
    (c.validate = .ok () → ∃ c' s', (run c).exec s = (.ok c', s')) ∧
      ∀ c' s', (run c).exec s = (.ok c', s') →
        c'.name = c.name ∧
        List.Forall₂ (Node.Alike fun e e' => e.same e' = true) c.nodes c'.nodes ∧
        (∀ a ∈ c'.exprNodes, ∀ b ∈ c'.exprNodes, a.same b = true →
          identical a b = true ∧ a = b) ∧
        (Expr.label '' c'.exprNodes).encard = (Expr.classes c.exprNodes).encard := by
  refine ⟨fun hv => ?_, fun c' s' hrun => ?_⟩
  · have htotal : Job.wp (run c) _ (fun _ => False) s := wp_run hc (Or.inr hv)
    obtain ⟨c', s', hrun, -⟩ := htotal.exists_ok
    exact ⟨c', s', hrun⟩
  · have hpartial : Job.wp (run c) _ (fun _ => True) s := wp_run hc (Or.inl fun _ => trivial)
    obtain ⟨hc', hmade, hone⟩ := hpartial.of_exec_ok hrun
    refine ⟨hc'.name, hc'.nodes, fun a ha b hb h => ?_, ?_⟩
    · have heq := hone a ha b hb h
      exact ⟨heq ▸ identical_iff.mpr rfl, heq⟩
    · have htyped : ∀ f ∈ c.functions, f.WellTyped := fun f hf =>
        hc.expressions.wellTyped (Expr.mem_nodes hf)
      have htyped' : ∀ f ∈ c'.functions, f.WellTyped := fun f hf =>
        hmade.expressions.wellTyped (Expr.mem_nodes hf)
      have hsame := Circuit.forall₂_functions hc'.nodes
      have hlabels : Set.InjOn Expr.label c'.exprNodes := fun a ha b hb =>
        hmade.expressions.one a ha b hb
      rw [hlabels.encard_image]
      refine Expr.encard_eq_encard_classes (fun e he => ?_) (fun e he => ?_) hone
      · exact Expr.exists_same_of_mem_nodes htyped htyped' hsame he
      · exact Expr.exists_same_of_mem_nodes htyped' htyped
          (hsame.flip.imp fun _ _ => Expr.same_symm) he

theorem maximal_sharing_sample :
    Sample.circuit.Made 15 ∧ Sample.circuit.validate = .ok () ∧
      ∃ c' s', (run Sample.circuit).exec ⟨15, [], ()⟩ = (.ok c', s') ∧
        (∀ a ∈ c'.exprNodes, ∀ b ∈ c'.exprNodes, a.same b = true → identical a b = true ∧ a = b) ∧
        (Expr.label '' c'.exprNodes).encard = (Expr.classes Sample.circuit.exprNodes).encard := by
  obtain ⟨hok, hresult⟩ := maximal_sharing (s := ⟨15, [], ()⟩) Sample.made_circuit
  obtain ⟨c', s', hrun⟩ := hok Sample.validate_circuit
  obtain ⟨-, -, hone, hcount⟩ := hresult c' s' hrun
  exact ⟨Sample.made_circuit, Sample.validate_circuit, c', s', hrun, hone, hcount⟩

end Dedup

end FlowCircuit
