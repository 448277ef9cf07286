import FlowCircuit.Ty.Basic
import Mathlib.Data.List.Basic

/-!
# The text of a type can be read in one way only

No text of a type is the beginning of the text of another one.  So a type that stands at the
beginning of a text can be told from the text alone, whatever follows (`Ty.told`), and two types
with one text are one type (`Ty.text_injective`).

`Text.Told` is this property of a single text, for any way of writing things down.  `Text.ToldAmong`
asks less: only some things are written down, and only some texts follow.  It passes through lists:
items that can be told, separated by commas and closed by another character, can be told one after
the other.  For types there are two places where this is not enough, because the beginning of one
sort of type is also that of another: a nullable type opens like a Z-set type, and `&` opens both
kinds of references.  The next characters decide there, since no type opens with what would be
needed for a mistake.
-/

set_option autoImplicit false

namespace FlowCircuit

/-! ## Texts that can be told -/

namespace Text

variable {α : Type} {text : α → String} {a : α} {as bs : List α} {c : Char} {r s : List Char}
  {P : α → Prop} {S : List Char → Prop}

/-- At the beginning of a text, the text of `a` can be read as that of `a` only. -/
def Told (text : α → String) (a : α) : Prop :=
  ∀ (b : α) (r s : List Char), (text a).toList ++ r = (text b).toList ++ s → a = b ∧ r = s

/-- Among the things in `P`, and before what may follow by `S`, the text of `a` can be read as that
of `a` only. -/
def ToldAmong (P : α → Prop) (S : List Char → Prop) (text : α → String) (a : α) : Prop :=
  ∀ (b : α) (r s : List Char), P b → S r → S s →
    (text a).toList ++ r = (text b).toList ++ s → a = b ∧ r = s

theorem Told.among (h : Told text a) : ToldAmong P S text a := fun b r s _ _ _ => h b r s

/-- What follows the first item in a list of items. -/
def following (items : List String) : List Char :=
  items.flatMap fun item => ',' :: ' ' :: item.toList

theorem following_cons (item : String) (items : List String) :
    following (item :: items) = ',' :: ' ' :: (item.toList ++ following items) := rfl

theorem toList_listed_cons (item : String) (items : List String) :
    (listed (item :: items)).toList = item.toList ++ following items := by
  induction items generalizing item with
  | nil => simp [following]
  | cons next items ih => simp [listed_cons_cons, String.toList_append, ih, following_cons]

/-- A list that is closed goes on with a comma or is closed. -/
theorem allowed_following (hcomma : ∀ r, S (',' :: r)) (hclose : ∀ r, S (c :: r))
    (items : List String) : S (following items ++ c :: r) := by
  cases items with
  | nil => exact hclose r
  | cons item items => exact hcomma _

/-- Items that can be told, up to a character that closes the list. -/
theorem told_following (hc : c ≠ ',') (hcomma : ∀ r, S (',' :: r)) (hclose : ∀ r, S (c :: r))
    (h : ∀ a ∈ as, ToldAmong P S text a) (hbs : ∀ b ∈ bs, P b)
    (heq : following (as.map text) ++ c :: r = following (bs.map text) ++ c :: s) :
    as = bs ∧ r = s := by
  induction as generalizing bs with
  | nil =>
    cases bs with
    | nil => simpa [following] using heq
    | cons b bs => exact absurd (List.cons.inj heq).1 hc
  | cons a as ih =>
    obtain ⟨ha, has⟩ := List.forall_mem_cons.mp h
    cases bs with
    | nil => exact absurd (List.cons.inj heq).1.symm hc
    | cons b bs =>
      obtain ⟨hb, hothers⟩ := List.forall_mem_cons.mp hbs
      simp only [List.map_cons, following_cons, List.cons_append, List.append_assoc,
        List.cons.injEq, true_and] at heq
      obtain ⟨rfl, hrest⟩ :=
        ha b _ _ hb (allowed_following hcomma hclose _) (allowed_following hcomma hclose _) heq
      obtain ⟨rfl, rfl⟩ := ih has hothers hrest
      exact ⟨rfl, rfl⟩

/-- A list of items that can be told.  No item opens with the character that closes the list. -/
theorem told_listed (hc : c ≠ ',') (hopen : ∀ a r s, (text a).toList ++ r ≠ c :: s)
    (h : ∀ a ∈ as, Told text a)
    (heq : (listed (as.map text)).toList ++ c :: r = (listed (bs.map text)).toList ++ c :: s) :
    as = bs ∧ r = s := by
  cases as with
  | nil =>
    cases bs with
    | nil => simpa using heq
    | cons b bs =>
      rw [List.map_cons, toList_listed_cons, List.append_assoc] at heq
      exact absurd heq.symm (hopen b _ _)
  | cons a as =>
    obtain ⟨ha, has⟩ := List.forall_mem_cons.mp h
    rw [List.map_cons, toList_listed_cons, List.append_assoc] at heq
    cases bs with
    | nil => exact absurd heq (hopen a _ _)
    | cons b bs =>
      rw [List.map_cons, toList_listed_cons, List.append_assoc] at heq
      obtain ⟨rfl, hrest⟩ := ha b _ _ heq
      obtain ⟨rfl, rfl⟩ := told_following (P := fun _ => True) (S := fun _ => True) hc
        (fun _ => trivial) (fun _ => trivial) (fun a ha => (has a ha).among)
          (fun _ _ => trivial) hrest
      exact ⟨rfl, rfl⟩

theorem toList_tupled_nil : (tupled []).toList = ['(', ')'] := by
  simp [tupled]

theorem toList_tupled_singleton (item : String) :
    (tupled [item]).toList = '(' :: (item.toList ++ [',', ')']) := by
  simp [tupled, String.toList_append]

theorem toList_tupled_cons_cons (item next : String) (items : List String) :
    (tupled (item :: next :: items)).toList =
      '(' :: (item.toList ++ ',' :: ' ' :: (next.toList ++ following items ++ [')'])) := by
  simp [tupled, String.toList_append, toList_listed_cons, following_cons]

/-- A tuple goes on with a comma behind its first item. -/
theorem exists_toList_tupled_cons (item : String) (items : List String) :
    ∃ rest, (tupled (item :: items)).toList = '(' :: (item.toList ++ ',' :: rest) := by
  cases items with
  | nil => exact ⟨_, toList_tupled_singleton item⟩
  | cons next items => exact ⟨_, toList_tupled_cons_cons item next items⟩

/-- A tuple of items that can be told.  The comma behind a single item is not the one before a
second item, since no blank follows it. -/
theorem told_tupled (hcomma : ∀ r, S (',' :: r)) (hclose : ∀ r, S (')' :: r))
    (hopen : ∀ a r s, P a → (text a).toList ++ r ≠ ')' :: s) (h : ∀ a ∈ as, ToldAmong P S text a)
    (has : ∀ a ∈ as, P a) (hbs : ∀ b ∈ bs, P b)
    (heq : (tupled (as.map text)).toList ++ r = (tupled (bs.map text)).toList ++ s) :
    as = bs ∧ r = s := by
  have hitem {b : α} {items : List α} {rest tail : List Char} (hb : P b) :
      (tupled ((b :: items).map text)).toList ++ rest ≠ (tupled []).toList ++ tail := by
    intro h
    obtain ⟨behind, hbehind⟩ := exists_toList_tupled_cons (text b) (items.map text)
    rw [List.map_cons, hbehind, toList_tupled_nil, List.cons_append, List.append_assoc] at h
    exact hopen b _ _ hb (List.cons.inj h).2
  cases as with
  | nil =>
    cases bs with
    | nil => exact ⟨rfl, List.append_cancel_left heq⟩
    | cons b bs => exact absurd heq.symm (hitem (hbs b List.mem_cons_self))
  | cons a as =>
    obtain ⟨ha, htold⟩ := List.forall_mem_cons.mp h
    cases bs with
    | nil => exact absurd heq (hitem (has a List.mem_cons_self))
    | cons b bs =>
      obtain ⟨hb, hothers⟩ := List.forall_mem_cons.mp hbs
      have hrest {u v : List Char} (h : (text a).toList ++ ',' :: u = (text b).toList ++ ',' :: v) :
          a = b ∧ u = v := by
        obtain ⟨hab, huv⟩ := ha b _ _ hb (hcomma u) (hcomma v) h
        exact ⟨hab, (List.cons.inj huv).2⟩
      rcases as with _ | ⟨a', as⟩ <;> rcases bs with _ | ⟨b', bs⟩ <;>
        simp only [List.map_cons, List.map_nil, toList_tupled_singleton, toList_tupled_cons_cons,
          List.cons_append, List.append_assoc, List.cons.injEq, true_and] at heq
      · obtain ⟨rfl, hclosed⟩ := hrest heq
        exact ⟨rfl, by simpa using hclosed⟩
      · exact absurd (List.cons.inj (hrest heq).2).1 (by decide)
      · exact absurd (List.cons.inj (hrest heq).2).1 (by decide)
      · obtain ⟨rfl, hitems⟩ := hrest heq
        have hfollowing : following ((a' :: as).map text) ++ ')' :: r =
            following ((b' :: bs).map text) ++ ')' :: s := by
          simpa [following_cons] using hitems
        obtain ⟨heqs, rfl⟩ := told_following (by decide) hcomma hclose htold hothers hfollowing
        exact ⟨by rw [heqs], rfl⟩

end Text

/-! ## Scalars -/

namespace Scalar

/-- The kind whose name a text begins with, and the rest of the text. -/
def read? : List Char → Option (Scalar × List Char)
  | 'b' :: 'o' :: 'o' :: 'l' :: rest => some (.bool, rest)
  | 'i' :: '8' :: rest => some (.integer .w8, rest)
  | 'i' :: '1' :: '6' :: rest => some (.integer .w16, rest)
  | 'i' :: '3' :: '2' :: rest => some (.integer .w32, rest)
  | 'i' :: '6' :: '4' :: rest => some (.integer .w64, rest)
  | 'F' :: '3' :: '2' :: rest => some (.float .w32, rest)
  | 'F' :: '6' :: '4' :: rest => some (.float .w64, rest)
  | 'D' :: 'e' :: 'c' :: 'i' :: 'm' :: 'a' :: 'l' :: rest => some (.decimal, rest)
  | 'S' :: 't' :: 'r' :: 'i' :: 'n' :: 'g' :: rest => some (.string, rest)
  | 'D' :: 'a' :: 't' :: 'e' :: rest => some (.date, rest)
  | 'T' :: 'i' :: 'm' :: 'e' :: 's' :: 't' :: 'a' :: 'm' :: 'p' :: rest => some (.timestamp, rest)
  | _ => none

theorem read?_runtimeName (kind : Scalar) (rest : List Char) :
    read? (kind.runtimeName.toList ++ rest) = some (kind, rest) := by
  cases kind with
  | integer width => cases width <;> rfl
  | float width => cases width <;> rfl
  | _ => rfl

theorem told_runtimeName (kind : Scalar) : Text.Told runtimeName kind := by
  intro other r s h
  have hread := congrArg read? h
  rw [read?_runtimeName, read?_runtimeName] at hread
  simpa using hread

end Scalar

/-! ## Types -/

namespace Ty

/-- The text of the type without the mark of a nullable type. -/
def bare : Ty → String
  | .scalar kind _ => kind.runtimeName
  | .tuple fields _ => Text.tupled (texts fields)
  | .ref target mutable _ => (if mutable then "&mut " else "&") ++ text target
  | .zset element weight _ => "OrdZSet<" ++ text element ++ ", " ++ text weight ++ ">"
  | .function params result _ => "fn(" ++ Text.listed (texts params) ++ ") -> " ++ text result

theorem text_eq_optional (t : Ty) : t.text = optional t.nullable t.bare := by
  cases t <;> simp [text, bare, nullable]

/-- What the text of a type opens with: the mark of a nullable type, or else what belongs to one
sort of types. -/
inductive Opening where
  | nullable
  | scalar
  | tuple
  | ref
  | zset
  | function

/-- What the text of the type opens with once the mark of a nullable type is taken away. -/
def bareOpening : Ty → Opening
  | .scalar .. => .scalar
  | .tuple .. => .tuple
  | .ref .. => .ref
  | .zset .. => .zset
  | .function .. => .function

/-- How the text of a type begins. -/
def opening (t : Ty) : Opening := if t.nullable then .nullable else t.bareOpening

/-- What a text opens with, if a type can stand at its beginning. -/
def opening? : List Char → Option Opening
  | 'O' :: 'p' :: _ => some .nullable
  | 'O' :: 'r' :: _ => some .zset
  | '(' :: _ => some .tuple
  | '&' :: _ => some .ref
  | 'f' :: _ => some .function
  | ')' :: _ => none
  | 'm' :: _ => none
  | [] => none
  | _ => some .scalar

theorem opening?_bare (t : Ty) (r : List Char) :
    opening? (t.bare.toList ++ r) = some t.bareOpening := by
  cases t with
  | scalar kind n =>
    cases kind with
    | integer width => cases width <;> simp [bare, Scalar.runtimeName, opening?, bareOpening]
    | float width => cases width <;> simp [bare, Scalar.runtimeName, opening?, bareOpening]
    | _ => simp [bare, Scalar.runtimeName, opening?, bareOpening]
  | tuple fields n =>
    simp only [bare, Text.tupled, String.toList_append]
    rfl
  | ref target mutable n =>
    simp only [bare, String.toList_append]
    cases mutable <;> rfl
  | zset element weight n =>
    simp only [bare, String.toList_append]
    rfl
  | function params result n =>
    simp only [bare, String.toList_append]
    rfl

theorem toList_text_of_nullable {t : Ty} (h : t.nullable = true) (r : List Char) :
    t.text.toList ++ r = "Option<".toList ++ (t.bare.toList ++ '>' :: r) := by
  simp [text_eq_optional, optional, h, String.toList_append]

theorem toList_text_of_not_nullable {t : Ty} (h : t.nullable = false) :
    t.text.toList = t.bare.toList := by
  simp [text_eq_optional, optional, h]

theorem opening?_text (t : Ty) (r : List Char) :
    opening? (t.text.toList ++ r) = some t.opening := by
  cases h : t.nullable with
  | true =>
    rw [toList_text_of_nullable h, opening, if_pos h]
    rfl
  | false => simp [toList_text_of_not_nullable h, opening?_bare, opening, h]

/-- No text of a type opens with a character that no type opens with. -/
theorem toList_text_ne {c : Char} {s : List Char} (hc : opening? (c :: s) = none) (t : Ty)
    (r : List Char) : t.text.toList ++ r ≠ c :: s := by
  intro h
  have hopening := opening?_text t r
  rw [h, hc] at hopening
  cases hopening

theorem bareOpening_ne_nullable (t : Ty) : t.bareOpening ≠ .nullable := by
  cases t <;> simp [bareOpening]

theorem nullable_eq_of_opening_eq {a b : Ty} (h : a.opening = b.opening) :
    a.nullable = b.nullable := by
  have ha := bareOpening_ne_nullable a
  have hb := bareOpening_ne_nullable b
  unfold opening at h
  cases hna : a.nullable <;> cases hnb : b.nullable <;> simp_all

/-- It is enough to tell a type from the texts of its own sort, and without the mark of a nullable
type. -/
theorem told_of_bare {a : Ty}
    (h : ∀ (b : Ty) (r s : List Char), a.nullable = b.nullable → a.bareOpening = b.bareOpening →
      a.bare.toList ++ r = b.bare.toList ++ s → a = b ∧ r = s) : Text.Told text a := by
  intro b r s heq
  have hnullable : a.nullable = b.nullable := by
    apply nullable_eq_of_opening_eq
    have hopening := congrArg opening? heq
    rwa [opening?_text, opening?_text, Option.some.injEq] at hopening
  have hbare : ∀ {r s : List Char}, a.bare.toList ++ r = b.bare.toList ++ s → a = b ∧ r = s := by
    intro r s heq
    have hopening := congrArg opening? heq
    rw [opening?_bare, opening?_bare, Option.some.injEq] at hopening
    exact h b r s hnullable hopening heq
  cases ha : a.nullable with
  | true =>
    rw [toList_text_of_nullable ha, toList_text_of_nullable (hnullable ▸ ha)] at heq
    obtain ⟨hab, hrest⟩ := hbare (List.append_cancel_left heq)
    exact ⟨hab, (List.cons.inj hrest).2⟩
  | false =>
    rw [toList_text_of_not_nullable ha, toList_text_of_not_nullable (hnullable ▸ ha)] at heq
    exact hbare heq

/-! ### One sort after the other -/

theorem told_scalar (kind : Scalar) (n : Bool) : Text.Told text (.scalar kind n) := by
  refine told_of_bare fun b r s hn hsort heq => ?_
  cases b with
  | scalar other m =>
    obtain ⟨rfl, rfl⟩ := kind.told_runtimeName other r s heq
    exact ⟨congrArg _ hn, rfl⟩
  | _ => cases hsort

theorem told_tuple {fields : List Ty} (hfields : ∀ t ∈ fields, Text.Told text t) (n : Bool) :
    Text.Told text (.tuple fields n) := by
  refine told_of_bare fun b r s hn hsort heq => ?_
  cases b with
  | tuple others m =>
    simp only [bare, texts_eq_map] at heq
    obtain ⟨rfl, rfl⟩ := Text.told_tupled (P := fun _ => True) (S := fun _ => True)
      (fun _ => trivial) (fun _ => trivial) (fun t r s _ => toList_text_ne rfl t r)
      (fun t ht => (hfields t ht).among) (fun _ _ => trivial) (fun _ _ => trivial) heq
    exact ⟨congrArg _ hn, rfl⟩
  | _ => cases hsort

theorem told_ref {target : Ty} (htarget : Text.Told text target) (mutable n : Bool) :
    Text.Told text (.ref target mutable n) := by
  refine told_of_bare fun b r s hn hsort heq => ?_
  cases b with
  | ref other otherMutable m =>
    simp only [bare, String.toList_append, List.append_assoc] at heq
    -- a target never opens with the `m` that would make one mark the beginning of the other
    have hmutable : mutable = otherMutable := by
      cases mutable <;> cases otherMutable
      · rfl
      · exact absurd (List.cons.inj heq).2 (toList_text_ne rfl target r)
      · exact absurd (List.cons.inj heq).2.symm (toList_text_ne rfl other s)
      · rfl
    subst hmutable
    obtain ⟨rfl, rfl⟩ := htarget other r s (List.append_cancel_left heq)
    exact ⟨congrArg _ hn, rfl⟩
  | _ => cases hsort

theorem told_zset {element weight : Ty} (helement : Text.Told text element)
    (hweight : Text.Told text weight) (n : Bool) : Text.Told text (.zset element weight n) := by
  refine told_of_bare fun b r s hn hsort heq => ?_
  cases b with
  | zset otherElement otherWeight m =>
    simp only [bare, String.toList_append, List.append_assoc] at heq
    obtain ⟨rfl, hrest⟩ := helement otherElement _ _ (List.append_cancel_left heq)
    obtain ⟨rfl, hclosed⟩ := hweight otherWeight _ _ (List.append_cancel_left hrest)
    exact ⟨congrArg _ hn, List.append_cancel_left hclosed⟩
  | _ => cases hsort

theorem told_function {params : List Ty} {result : Ty} (hparams : ∀ t ∈ params, Text.Told text t)
    (hresult : Text.Told text result) (n : Bool) : Text.Told text (.function params result n) := by
  refine told_of_bare fun b r s hn hsort heq => ?_
  cases b with
  | function others otherResult m =>
    simp only [bare, texts_eq_map, String.toList_append, List.append_assoc] at heq
    obtain ⟨rfl, harrow⟩ := Text.told_listed (by decide)
      (fun t r s => toList_text_ne rfl t r) hparams (List.append_cancel_left heq)
    have hrest := List.append_cancel_left (show " -> ".toList ++ _ = " -> ".toList ++ _ from harrow)
    obtain ⟨rfl, rfl⟩ := hresult otherResult r s hrest
    exact ⟨congrArg _ hn, rfl⟩
  | _ => cases hsort

mutual

/-- Every type can be told by its text. -/
theorem told : ∀ t : Ty, Text.Told text t
  | .scalar kind n => told_scalar kind n
  | .tuple fields n => told_tuple (told_all fields) n
  | .ref target mutable n => told_ref (told target) mutable n
  | .zset element weight n => told_zset (told element) (told weight) n
  | .function params result n => told_function (told_all params) (told result) n

theorem told_all : ∀ ts : List Ty, ∀ t ∈ ts, Text.Told text t
  | [] => by simp
  | t :: ts => List.forall_mem_cons.mpr ⟨told t, told_all ts⟩

end

/-- Two types with one text are one type. -/
theorem text_injective {a b : Ty} (h : a.text = b.text) : a = b :=
  (told a b [] [] (by rw [h])).1

end Ty

end FlowCircuit
