import Mathlib.Data.List.Forall2

/-!
# Lists related one by one, and lists in order

Changing a circuit keeps positions: children, inputs and nodes are replaced one by one.
`List.Forall₂` says so, and the first half has the facts about it that the proofs here share.

The order of a list matters where an element may refer to the ones before it.  `AtEach P xs` says
that every element stands in the relation `P` to the elements before it.  What a list has in order
of first occurrence is `List.eraseDups`.
-/

set_option autoImplicit false

namespace FlowCircuit

variable {α β γ : Type} {R : α → β → Prop} {as : List α} {bs : List β}

/-- What is related to an element on the right. -/
theorem forall₂_exists_left (h : List.Forall₂ R as bs) {b : β} (hb : b ∈ bs) : ∃ a ∈ as, R a b := by
  obtain ⟨i, hi, rfl⟩ := List.getElem_of_mem hb
  have hi' : i < as.length := by rw [h.length_eq]; exact hi
  exact ⟨as[i], List.getElem_mem hi', h.get hi' hi⟩

/-- What is related to an element on the left. -/
theorem forall₂_exists_right (h : List.Forall₂ R as bs) {a : α} (ha : a ∈ as) :
    ∃ b ∈ bs, R a b :=
  forall₂_exists_left (R := fun b a => R a b) h.flip ha

/-- What is related stands in the same place. -/
theorem forall₂_getElem? (h : List.Forall₂ R as bs) {i : Nat} {b : β} (hb : bs[i]? = some b) :
    ∃ a, as[i]? = some a ∧ R a b := by
  obtain ⟨hi, rfl⟩ := List.getElem?_eq_some_iff.mp hb
  have hi' : i < as.length := h.length_eq ▸ hi
  exact ⟨as[i], List.getElem?_eq_getElem hi', h.get hi' hi⟩

/-- A list stays as it is when each of its elements does. -/
theorem eq_iff_forall_mem {P : α → Prop} {as' : List α}
    (h : List.Forall₂ (fun a a' => a' = a ↔ P a) as as') : as' = as ↔ ∀ a ∈ as, P a := by
  induction h with
  | nil => simp
  | cons ha _ ih => rw [List.cons.injEq, ha, ih, List.forall_mem_cons]

/-- A choice for each element of a list. -/
theorem forall₂_of_forall_exists (h : ∀ a ∈ as, ∃ b, R a b) : ∃ bs, List.Forall₂ R as bs := by
  induction as with
  | nil => exact ⟨[], .nil⟩
  | cons a as ih =>
    obtain ⟨b, hb⟩ := h a List.mem_cons_self
    obtain ⟨bs, hbs⟩ := ih fun a' ha' => h a' (List.mem_cons_of_mem _ ha')
    exact ⟨b :: bs, .cons hb hbs⟩

theorem forall₂_imp_of_mem {S : α → β → Prop}
    (h : List.Forall₂ R as bs) (hRS : ∀ a ∈ as, ∀ b ∈ bs, R a b → S a b) :
    List.Forall₂ S as bs := by
  induction h with
  | nil => exact .nil
  | @cons a b as bs hab _ ih =>
    refine .cons (hRS a List.mem_cons_self b List.mem_cons_self hab) (ih ?_)
    intro a' ha' b' hb'
    exact hRS a' (List.mem_cons_of_mem _ ha') b' (List.mem_cons_of_mem _ hb')

/-- Two lists have the same image exactly when they agree one by one. -/
theorem forall₂_map_eq_iff {f : α → γ} {g : β → γ} :
    List.Forall₂ (fun a b => f a = g b) as bs ↔ as.map f = bs.map g := by
  rw [← List.forall₂_eq_eq_eq, List.forall₂_map_left_iff, List.forall₂_map_right_iff]

theorem forall₂_trans_of_mem {S : β → γ → Prop} {T : α → γ → Prop} {cs : List γ}
    (h : List.Forall₂ R as bs)
    (h' : List.Forall₂ S bs cs) (hT : ∀ a ∈ as, ∀ b c, R a b → S b c → T a c) :
    List.Forall₂ T as cs := by
  induction h generalizing cs with
  | nil =>
    cases h'
    exact .nil
  | @cons a b as bs hab _ ih =>
    cases h' with
    | cons hbc hrest =>
      refine .cons (hT a List.mem_cons_self _ _ hab hbc) (ih hrest ?_)
      exact fun a' ha' => hT a' (List.mem_cons_of_mem _ ha')

/-- What is related to one list by relations that leave no choice up to `f`. -/
theorem map_eq_of_forall₂ {S : α → γ → Prop} {δ : Type} {f : β → δ} {f' : γ → δ} {cs : List γ}
    (h : List.Forall₂ R as bs) (h' : List.Forall₂ S as cs)
    (hf : ∀ a b c, R a b → S a c → f b = f' c) : bs.map f = cs.map f' := by
  refine forall₂_map_eq_iff.mp (forall₂_trans_of_mem h.flip h' ?_)
  exact fun b _ a c => hf a b c

/-- A choice for each element of a list, made by a function. -/
theorem mapM_eq_some_iff {f : α → Option β} :
    as.mapM f = some bs ↔ List.Forall₂ (fun a b => f a = some b) as bs := by
  induction as generalizing bs with
  | nil => cases bs <;> simp
  | cons a as ih =>
    simp only [List.mapM_cons, Option.bind_eq_bind, Option.bind_eq_some_iff, ih,
      List.forall₂_cons_left_iff]
    constructor
    · rintro ⟨b, hb, bs', hbs', heq⟩
      exact ⟨b, bs', hb, hbs', (Option.some.inj heq).symm⟩
    · rintro ⟨b, bs', hb, hbs', rfl⟩
      exact ⟨b, hb, bs', hbs', rfl⟩

/-- A list of successes is a success. -/
theorem mapM_eq_ok {ε : Type} {f : α → Except ε β} {g : α → β} (h : ∀ a ∈ as, f a = .ok (g a)) :
    as.mapM f = .ok (as.map g) := by
  induction as with
  | nil => rfl
  | cons a as ih =>
    rw [List.mapM_cons, h a List.mem_cons_self, ih fun a' ha' => h a' (List.mem_cons_of_mem _ ha')]
    rfl

/-- A success of which something was made. -/
theorem map_eq_ok_iff {ε : Type} {x : Except ε α} {f : α → β} {b : β} :
    x.map f = .ok b ↔ ∃ a, x = .ok a ∧ f a = b := by
  cases x <;> simp [Except.map]

theorem optionRel_imp {S : α → β → Prop} {a : Option α} {b : Option β} (h : Option.Rel R a b)
    (hRS : ∀ x ∈ a, ∀ y, R x y → S x y) : Option.Rel S a b := by
  cases h with
  | none => exact .none
  | some h => exact .some (hRS _ rfl _ h)

/-! ## Lists in order -/

/-- `P before x` for every element `x` of the list and the elements `before` it. -/
def AtEach (P : List α → α → Prop) (xs : List α) : Prop :=
  ∀ before x after, xs = before ++ x :: after → P before x

section AtEach

variable {P Q : List α → α → Prop} {x : α} {xs : List α}

theorem AtEach.imp (h : AtEach P xs)
    (hPQ : ∀ before x, before ⊆ xs → x ∈ xs → P before x → Q before x) : AtEach Q xs := by
  intro before x after heq
  exact hPQ before x (by simp [heq]) (by simp [heq]) (h before x after heq)

theorem atEach_nil : AtEach P [] := fun _ _ _ h => by simp at h

theorem atEach_cons : AtEach P (x :: xs) ↔ P [] x ∧ AtEach (fun before => P (x :: before)) xs := by
  constructor
  · intro h
    refine ⟨h [] x xs rfl, fun before y after heq => h (x :: before) y after (by rw [heq]; rfl)⟩
  · rintro ⟨hx, hxs⟩ before y after heq
    cases before with
    | nil =>
      obtain ⟨rfl, rfl⟩ := List.cons.inj heq
      exact hx
    | cons z before =>
      obtain ⟨rfl, hrest⟩ := List.cons.inj heq
      exact hxs before y after hrest

theorem atEach_append {ys : List α} :
    AtEach P (xs ++ ys) ↔ AtEach P xs ∧ AtEach (fun before => P (xs ++ before)) ys := by
  induction xs generalizing P with
  | nil => exact (and_iff_right atEach_nil).symm
  | cons x xs ih => rw [List.cons_append, atEach_cons, atEach_cons, ih, and_assoc]; rfl

/-- One more element at the end. -/
theorem atEach_append_singleton : AtEach P (xs ++ [x]) ↔ AtEach P xs ∧ P xs x := by
  constructor
  · intro h
    refine ⟨fun before y after heq => h before y (after ++ [x]) (by simp [heq]), h xs x [] rfl⟩
  · rintro ⟨hxs, hx⟩ before y after heq
    rcases List.eq_nil_or_concat after with rfl | ⟨after, z, rfl⟩
    · obtain ⟨rfl, hlast⟩ := List.append_inj' heq rfl
      obtain rfl : x = y := by simpa using hlast
      exact hx
    · refine hxs before y after ?_
      have heq' : xs ++ [x] = (before ++ y :: after) ++ [z] := by simpa using heq
      exact (List.append_inj' heq' rfl).1

/-- An element and what stands in the places before it. -/
theorem AtEach.of_getElem? (h : AtEach P xs) {i : Nat} (hx : xs[i]? = some x) :
    P (xs.take i) x := by
  obtain ⟨hi, rfl⟩ := List.getElem?_eq_some_iff.mp hx
  refine h _ _ (xs.drop (i + 1)) ?_
  rw [← List.drop_eq_getElem_cons hi, List.take_append_drop]

/-- The elements of a sort keep their order among themselves. -/
theorem atEach_filterMap {f : α → Option β} {P : List β → β → Prop} :
    AtEach P (xs.filterMap f) ↔
      AtEach (fun before x => ∀ y ∈ f x, P (before.filterMap f) y) xs := by
  induction xs generalizing P with
  | nil => exact iff_of_true atEach_nil atEach_nil
  | cons x xs ih =>
    rw [atEach_cons]
    cases hx : f x with
    | none =>
      rw [List.filterMap_cons_none hx, ih]
      simp [hx]
    | some y =>
      rw [List.filterMap_cons_some hx, atEach_cons, ih]
      simp [hx]

end AtEach

/-! ## First occurrences -/

theorem eraseDups_append_of_subset [BEq α] [LawfulBEq α] {as' : List α} (h : as' ⊆ as) :
    (as ++ as').eraseDups = as.eraseDups := by
  have hnone : as'.removeAll as = [] := by
    rw [List.removeAll, List.filter_eq_nil_iff]
    intro a ha
    simp [h ha]
  rw [List.eraseDups_append, hnone]
  simp

theorem eraseDups_append_of_notMem [BEq α] [LawfulBEq α] {a : α} (h : a ∉ as) :
    (as ++ [a]).eraseDups = as.eraseDups ++ [a] := by
  rw [List.eraseDups_append]
  simp [List.removeAll, h, List.eraseDups_cons]

end FlowCircuit
