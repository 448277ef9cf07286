import FlowCircuit.Circuit.Graph
import Mathlib.Logic.Relation

/-!
# The loop finds what can be reached, and nothing else

Whatever the loop of `Graph.reaching` has visited or put on its stack can be reached from a root,
and the other way round, a root and what a visited vertex reads are visited or on the stack
(`Worklist.Invariant`).  A turn keeps both, and at the end nothing is on the stack, so the loop has
then visited exactly what can be reached (`Graph.mem_reaching_iff`).

That there is an end is what `Worklist.Turns` says: the turns of a run can be counted, and are as
many as `Worklist.turnsLeft` promised (`Worklist.turns_run`).
-/

set_option autoImplicit false

namespace FlowCircuit

/-- There is a way from `x` to `y`. -/
def Leads (next : OpId → List OpId) (x y : OpId) : Prop :=
  Relation.ReflTransGen (fun a b => b ∈ next a) x y

namespace Worklist

variable {g : Graph} {roots : List OpId} {w w' : Worklist} {x y : OpId}

/-! ## The turns of a run -/

/-- `n` turns lead from `w` to `w'`. -/
inductive Turns (g : Graph) : Nat → Worklist → Worklist → Prop
  | done (w : Worklist) : Turns g 0 w w
  | turn {n : Nat} {w v w' : Worklist} (first : w.step g = some v) (rest : Turns g n v w') :
    Turns g (n + 1) w w'

/-- The loop ends on an empty stack, and only there. -/
theorem step_eq_none_iff : w.step g = none ↔ w.stack = [] := by
  rw [step]
  split
  · rename_i hempty
    simp [hempty]
  · rename_i hstack
    simp [hstack]

/-- **The loop ends**: its turns are at most as many as were left, and lead to an empty stack. -/
theorem turns_run (g : Graph) (w : Worklist) :
    (w.run g).stack = [] ∧ ∃ n ≤ w.turnsLeft g, Turns g n w (w.run g) := by
  fun_induction run g w with
  | case1 w hend => exact ⟨step_eq_none_iff.mp hend, 0, Nat.zero_le _, .done w⟩
  | case2 w v hstep ih =>
    obtain ⟨hempty, n, hn, hturns⟩ := ih
    exact ⟨hempty, n + 1, (turnsLeft_of_step hstep) ▸ Nat.succ_le_succ hn, .turn hstep hturns⟩

/-- What every turn keeps, a run keeps. -/
theorem Turns.preserves {P : Worklist → Prop} (hstep : ∀ v v', v.step g = some v' → P v → P v')
    {n : Nat} (h : Turns g n w w') (hw : P w) : P w' := by
  induction h with
  | done => exact hw
  | turn first _ ih => exact ih (hstep _ _ first hw)

/-! ## What a run visits -/

/-- The vertex was visited or is on the stack. -/
def Knows (w : Worklist) (x : OpId) : Prop := x ∈ w.visited ∨ x ∈ w.stack

/-- What the loop maintains.  Only what a root leads to is known; roots are known, and with a
visited vertex all that it reads. -/
structure Invariant (g : Graph) (roots : List OpId) (w : Worklist) : Prop where
  sound : ∀ y, w.Knows y → ∃ x ∈ roots, Leads g.inputs x y
  roots : ∀ x ∈ roots, w.Knows x
  closed : ∀ x ∈ w.visited, ∀ y ∈ g.inputs x, w.Knows y

/-- What is known after a turn: what was known before and, if the vertex is new, what it reads. -/
theorem knows_step (h : w.step g = some w') :
    ∃ id, w.Knows id ∧ ((w'.visited = w.visited ∧ ∀ y, w'.Knows y ↔ w.Knows y) ∨
      (w'.visited = id :: w.visited ∧ ∀ y, w'.Knows y ↔ w.Knows y ∨ y ∈ g.inputs id)) := by
  obtain ⟨visited, stack⟩ := w
  cases stack with
  | nil => cases h
  | cons id rest =>
    cases h
    refine ⟨id, .inr List.mem_cons_self, ?_⟩
    by_cases hid : id ∈ visited
    · refine .inl ⟨by simp [hid], fun y => ?_⟩
      simp only [Knows, List.contains_iff_mem.mpr hid, if_true, List.mem_cons]
      grind
    · have hnew : visited.contains id = false := by simpa using hid
      refine .inr ⟨by simp [hid], fun y => ?_⟩
      simp only [Knows, hnew, Bool.false_eq_true, if_false, List.mem_cons, List.mem_append]
      grind

/-- **A turn keeps the invariant.** -/
theorem Invariant.step (h : w.step g = some w') (hw : Invariant g roots w) :
    Invariant g roots w' := by
  obtain ⟨id, hid, ⟨hvisited, hknows⟩ | ⟨hvisited, hknows⟩⟩ := knows_step h
  · exact ⟨fun y hy => hw.sound y ((hknows y).mp hy), fun x hx => (hknows x).mpr (hw.roots x hx),
      fun x hx y hy => (hknows y).mpr (hw.closed x (hvisited ▸ hx) y hy)⟩
  · refine ⟨fun y hy => ?_, fun x hx => (hknows x).mpr (.inl (hw.roots x hx)), fun x hx y hy => ?_⟩
    · rcases (hknows y).mp hy with hy | hy
      · exact hw.sound y hy
      · obtain ⟨x, hx, hleads⟩ := hw.sound id hid
        exact ⟨x, hx, hleads.tail hy⟩
    · rw [hvisited] at hx
      rcases List.mem_cons.mp hx with rfl | hx
      · exact (hknows y).mpr (.inr hy)
      · exact (hknows y).mpr (.inl (hw.closed x hx y hy))

/-- On an empty stack the invariant leaves nothing open. -/
theorem Invariant.mem_visited_iff (hw : Invariant g roots w) (hempty : w.stack = []) :
    y ∈ w.visited ↔ ∃ x ∈ roots, Leads g.inputs x y := by
  have hvisited : ∀ x, w.Knows x → x ∈ w.visited := by simp [Knows, hempty]
  refine ⟨fun hy => hw.sound y (.inl hy), ?_⟩
  rintro ⟨x, hx, hleads⟩
  induction hleads with
  | refl => exact hvisited x (hw.roots x hx)
  | tail _ hz ih => exact hvisited _ (hw.closed _ ih _ hz)

end Worklist

namespace Graph

variable {g : Graph} {roots : List OpId} {x y : OpId}

theorem mem_stack_rooted : x ∈ (g.rooted roots).stack ↔ x ∈ roots ∧ x ∈ g.ids := by
  simp [rooted]

/-- At the beginning the roots are known, and nothing else. -/
theorem invariant_rooted : Worklist.Invariant g (g.rooted roots).stack (g.rooted roots) := by
  refine ⟨fun y hy => ⟨y, ?_, .refl⟩, fun x hx => .inr hx, fun x hx => absurd hx List.not_mem_nil⟩
  rcases hy with hy | hy
  · exact absurd hy List.not_mem_nil
  · exact hy

/-- The turns are no more than there are roots and edges. -/
theorem turnsLeft_rooted_le : (g.rooted roots).turnsLeft g ≤ roots.length + g.edges.length := by
  refine Nat.add_le_add ?_ List.countP_le_length
  rw [rooted, List.length_reverse]
  exact List.length_filter_le _ _

/-- **What is found is what can be reached**: the vertices that lead to a root of the graph. -/
theorem mem_reaching_iff :
    y ∈ g.reaching roots ↔ ∃ x ∈ roots, x ∈ g.ids ∧ Leads g.inputs x y := by
  obtain ⟨hempty, n, -, hturns⟩ := Worklist.turns_run g (g.rooted roots)
  have hend := hturns.preserves (fun _ _ => Worklist.Invariant.step) (invariant_rooted (g := g))
  rw [reaching, mem_ascending, hend.mem_visited_iff hempty]
  simp only [mem_stack_rooted, and_assoc]

end Graph

end FlowCircuit
