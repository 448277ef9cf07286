import FlowCircuit.Proofs.Printing
import FlowCircuit.Proofs.Obtained
import FlowCircuit.Proofs.TypeTexts
import Mathlib.Data.Nat.Digits.Defs

/-!
# What the text of an expression says

An expression of variables, tuples, borrows, fields and binary operations is written with
parentheses around tuples and operations only.  `&x.0` is the borrow of a field of `x`, and it is
also the field of a borrow of `x`.  What the text does say is its *reading*: a number of borrows, a
head in the middle, and the path of the fields behind it (`Reading`).  Two such expressions have one
text exactly when they have one reading (`Expr.text_eq_iff_reading`).

Two things are not in a reading: the order in which borrows and fields were taken, and whether a
tuple is nullable.  In an expression where no field is taken of a borrow and no tuple is nullable
(`Expr.Explicit`) neither is open, and such expressions are the same when their texts are
(`Expr.told_by_text_of_explicit`).  Without that condition they need not be
(`Expr.one_text_for_two`).
-/

set_option autoImplicit false

namespace FlowCircuit

/-! ## Runs of characters -/

namespace Text

variable {p : Char → Bool} {u v r s : List Char}

/-- The text does not go on with a character of the class. -/
def Leaves (p : Char → Bool) (r : List Char) : Prop := ∀ c ∈ r.head?, p c = false

theorem span_eq_of_leaves (hu : ∀ c ∈ u, p c = true) (hr : Leaves p r) :
    (u ++ r).takeWhile p = u ∧ (u ++ r).dropWhile p = r := by
  rw [List.takeWhile_append_of_pos hu, List.dropWhile_append_of_pos hu]
  cases r with
  | nil => simp
  | cons c r => simp [hr c rfl]

/-- Two runs of a class that are not continued are told by what they open. -/
theorem append_inj_of_leaves (hu : ∀ c ∈ u, p c = true) (hv : ∀ c ∈ v, p c = true) (hr : Leaves p r)
    (hs : Leaves p s) (h : u ++ r = v ++ s) : u = v ∧ r = s := by
  obtain ⟨hu', hr'⟩ := span_eq_of_leaves hu hr
  obtain ⟨hv', hs'⟩ := span_eq_of_leaves hv hs
  exact ⟨hu'.symm.trans ((congrArg (List.takeWhile p) h).trans hv'),
    hr'.symm.trans ((congrArg (List.dropWhile p) h).trans hs')⟩

/-- A name is made of ASCII letters. -/
def IsName (name : String) : Prop := name ≠ "" ∧ ∀ c ∈ name.toList, c.isAlpha = true

instance (name : String) : Decidable (IsName name) :=
  decidable_of_iff (name ≠ "" ∧ name.toList.all Char.isAlpha = true)
    (by rw [IsName, List.all_eq_true])

theorem IsName.exists_cons {name : String} (h : IsName name) :
    ∃ c cs, name.toList = c :: cs ∧ c.isAlpha = true := by
  cases hname : name.toList with
  | nil => exact absurd (String.toList_eq_nil_iff.mp hname) h.1
  | cons c cs => exact ⟨c, cs, rfl, h.2 c (by simp [hname])⟩

/-- What may stand behind an expression inside another one, or nothing. -/
def Stops (r : List Char) : Prop := ∀ c ∈ r.head?, c = ' ' ∨ c = ',' ∨ c = ')'

theorem stops_cons {c : Char} (h : c = ' ' ∨ c = ',' ∨ c = ')') (r : List Char) :
    Stops (c :: r) := by
  intro d hd
  rwa [← Option.some.inj hd]

theorem Stops.leaves (h : Stops r) (hblank : p ' ' = false) (hcomma : p ',' = false)
    (hclose : p ')' = false) : Leaves p r := by
  intro c hc
  rcases h c hc with rfl | rfl | rfl
  · exact hblank
  · exact hcomma
  · exact hclose

/-! ## Paths of fields -/

/-- Fields one behind the other. -/
def path (indices : List Nat) : List Char :=
  indices.flatMap fun index => '.' :: (toString index).toList

theorem path_cons (index : Nat) (indices : List Nat) :
    path (index :: indices) = '.' :: ((toString index).toList ++ path indices) := rfl

theorem path_append_singleton (indices : List Nat) (index : Nat) :
    path (indices ++ [index]) = path indices ++ '.' :: (toString index).toList := by
  simp [path]

/-- What follows a class without the point is not continued by a path. -/
theorem leaves_path (hr : Leaves p r) (hpoint : p '.' = false) (indices : List Nat) :
    Leaves p (path indices ++ r) := by
  cases indices with
  | nil => exact hr
  | cons index indices =>
    intro c hc
    rw [← Option.some.inj hc]
    exact hpoint

theorem isDigit_of_mem_toString {index : Nat} :
    ∀ c ∈ (toString index).toList, c.isDigit = true := by
  intro c hc
  rw [show toString index = index.repr from rfl, Nat.toList_repr] at hc
  exact Nat.isDigit_of_mem_toDigits (by decide) (by decide) hc

theorem toString_nat_injective {i j : Nat} (h : (toString i).toList = (toString j).toList) :
    i = j := by
  have hvalue := congrArg (fun digits => Nat.ofDigitChars 10 digits 0) h
  simpa [Nat.toString_eq_ofList_toDigits] using hvalue

theorem told_path {is js : List Nat} (hr : Stops r) (hs : Stops s)
    (h : path is ++ r = path js ++ s) : is = js ∧ r = s := by
  have hpoint {r s : List Char} (hr : Stops r) : r ≠ '.' :: s := by
    rintro rfl
    rcases hr '.' rfl with h | h | h <;> cases h
  induction is generalizing js with
  | nil =>
    cases js with
    | nil => exact ⟨rfl, h⟩
    | cons j js => exact absurd h (hpoint hr)
  | cons i is ih =>
    cases js with
    | nil => exact absurd h.symm (hpoint hs)
    | cons j js =>
      simp only [path_cons, List.cons_append, List.append_assoc, List.cons.injEq, true_and] at h
      have hleaves {r : List Char} (hr : Stops r) (indices : List Nat) :
          Leaves Char.isDigit (path indices ++ r) :=
        leaves_path (hr.leaves rfl rfl rfl) rfl indices
      obtain ⟨hij, hrest⟩ := append_inj_of_leaves isDigit_of_mem_toString isDigit_of_mem_toString
        (hleaves hr is) (hleaves hs js) h
      obtain ⟨rfl, rfl⟩ := ih hrest
      exact ⟨by rw [toString_nat_injective hij], rfl⟩

end Text

/-! ## Readings -/

/-- The middle of a reading, over the readings `α` of what it holds. -/
inductive Head (α : Type) where
  /-- A name, or any other text that is taken as a whole. -/
  | atom (text : String)
  | tuple (parts : List α)
  | binary (op : BinOp) (left right : α)

/-- The text of a head from the texts of what it holds. -/
def Head.spelled {α : Type} (text : α → String) : Head α → String
  | .atom name => name
  | .tuple parts => Text.tupled (parts.map text)
  | .binary op left right => "(" ++ text left ++ " " ++ op.symbol ++ " " ++ text right ++ ")"

/-- What a text says: a head, the fields taken behind it, and the borrows before it. -/
structure Reading where
  borrows : Nat
  head : Head Reading
  path : List Nat

namespace Reading

/-- The reading of a borrow. -/
def borrow (t : Reading) : Reading := { t with borrows := t.borrows + 1 }

/-- The reading of a field. -/
def project (t : Reading) (index : Nat) : Reading := { t with path := t.path ++ [index] }

theorem borrow_injective {t u : Reading} (h : t.borrow = u.borrow) : t = u := by
  obtain ⟨hborrows, hhead, hpath⟩ := mk.inj h
  rcases t with ⟨n, head, path⟩
  rcases u with ⟨m, head', path'⟩
  exact (mk.injEq ..).mpr ⟨Nat.succ.inj hborrows, hhead, hpath⟩

theorem project_injective {t u : Reading} {i j : Nat} (h : t.project i = u.project j) :
    t = u ∧ i = j := by
  obtain ⟨hborrows, hhead, hpath⟩ := mk.inj h
  obtain ⟨hpath, hindex⟩ := List.append_inj' hpath rfl
  rcases t with ⟨n, head, path⟩
  rcases u with ⟨m, head', path'⟩
  exact ⟨(mk.injEq ..).mpr ⟨hborrows, hhead, hpath⟩, List.cons.inj hindex |>.1⟩

/-- Borrows, the text of a head and a path of fields. -/
def around (borrows : Nat) (head : String) (path : List Nat) : String :=
  String.ofList (List.replicate borrows '&') ++ head ++ String.ofList (Text.path path)

mutual

/-- What is printed for a reading. -/
def text : Reading → String
  | ⟨borrows, .atom name, path⟩ => around borrows name path
  | ⟨borrows, .tuple parts, path⟩ => around borrows (Text.tupled (texts parts)) path
  | ⟨borrows, .binary op left right, path⟩ =>
    around borrows ("(" ++ text left ++ " " ++ op.symbol ++ " " ++ text right ++ ")") path

/-- What is printed for several readings. -/
def texts : List Reading → List String
  | [] => []
  | t :: ts => text t :: texts ts

end

theorem texts_eq_map (ts : List Reading) : texts ts = ts.map text := by
  induction ts with
  | nil => rfl
  | cons t ts ih => rw [texts, ih, List.map_cons]

theorem text_eq_around (t : Reading) : t.text = around t.borrows (t.head.spelled text) t.path := by
  rcases t with ⟨borrows, head, path⟩
  cases head with
  | tuple parts => rw [text, texts_eq_map]; rfl
  | _ => rw [text]; rfl

theorem toList_text (t : Reading) :
    t.text.toList = List.replicate t.borrows '&' ++
      ((t.head.spelled text).toList ++ Text.path t.path) := by
  simp [text_eq_around, around, String.toList_append]

theorem text_borrow (t : Reading) : t.borrow.text = "&" ++ t.text := by
  rw [← String.toList_inj, String.toList_append, toList_text, toList_text]
  exact congrArg (· ++ _) List.replicate_succ

theorem text_project (t : Reading) (index : Nat) :
    (t.project index).text = t.text ++ "." ++ toString index := by
  rw [← String.toList_inj, String.toList_append, String.toList_append, toList_text, toList_text]
  simp [project, Text.path_append_singleton]

theorem text_bare (head : Head Reading) : Reading.text ⟨0, head, []⟩ = head.spelled text := by
  rw [text_eq_around]
  simp [around, Text.path]

/-- All atoms, at every depth, are names. -/
inductive Lettered : Reading → Prop
  | atom {name : String} (borrows : Nat) (path : List Nat) (h : Text.IsName name) :
    Lettered ⟨borrows, .atom name, path⟩
  | tuple {parts : List Reading} (borrows : Nat) (path : List Nat) (h : ∀ t ∈ parts, Lettered t) :
    Lettered ⟨borrows, .tuple parts, path⟩
  | binary {left right : Reading} (borrows : Nat) (op : BinOp) (path : List Nat)
    (hleft : Lettered left) (hright : Lettered right) :
    Lettered ⟨borrows, .binary op left right, path⟩

theorem Lettered.around {t : Reading} (h : t.Lettered) (borrows : Nat) (path : List Nat) :
    Lettered ⟨borrows, t.head, path⟩ := by
  cases h with
  | atom _ _ h => exact .atom _ _ h
  | tuple _ _ h => exact .tuple _ _ h
  | binary _ op _ hleft hright => exact .binary _ op _ hleft hright

end Reading

namespace Head

open Reading

/-- All atoms of the head are names. -/
def Lettered (head : Head Reading) : Prop := Reading.Lettered ⟨0, head, []⟩

/-- A head opens with a letter or a parenthesis. -/
theorem exists_toList_spelled {head : Head Reading} (h : head.Lettered) :
    ∃ c cs, (head.spelled text).toList = c :: cs ∧ (c.isAlpha = true ∨ c = '(') := by
  cases head with
  | atom name =>
    cases h with
    | atom _ _ h =>
      obtain ⟨c, cs, hname, hc⟩ := h.exists_cons
      exact ⟨c, cs, hname, .inl hc⟩
  | tuple parts =>
    simp only [spelled, Text.tupled, String.toList_append]
    exact ⟨_, _, rfl, .inr rfl⟩
  | binary op left right =>
    simp only [spelled, String.toList_append]
    exact ⟨_, _, rfl, .inr rfl⟩

/-- What stands in parentheses is not a name. -/
theorem toList_ne_of_isName {name : String} (h : Text.IsName name) {r s : List Char} :
    name.toList ++ r ≠ '(' :: s := by
  obtain ⟨c, cs, hname, hc⟩ := h.exists_cons
  rw [hname, List.cons_append]
  rintro ⟨⟩
  cases hc

theorem toList_spelled_binary (op : BinOp) (left right : Reading) :
    ((Head.binary op left right).spelled text).toList =
      '(' :: (left.text.toList ++ ' ' ::
        (op.symbol.toList ++ ' ' :: (right.text.toList ++ [')']))) := by
  simp [spelled, String.toList_append]

end Head

namespace Reading

/-- A reading opens with a borrow, a letter or a parenthesis. -/
theorem toList_text_ne {t : Reading} (ht : t.Lettered) (r s : List Char) :
    t.text.toList ++ r ≠ ')' :: s := by
  obtain ⟨c, cs, hhead, hc⟩ := Head.exists_toList_spelled (ht.around 0 [])
  rw [toList_text, hhead]
  cases t.borrows with
  | zero =>
    rintro ⟨⟩
    rcases hc with hc | hc <;> cases hc
  | succ n =>
    rintro ⟨⟩

end Reading

/-! ## A text has one reading -/

theorem BinOp.symbol_injective {o p : BinOp} (h : o.symbol = p.symbol) : o = p := by
  have hread (o : BinOp) : ofSymbol? o.symbol = some o := by cases o <;> rfl
  rw [← Option.some.injEq, ← hread o, ← hread p, h]

theorem BinOp.ne_blank_of_mem_symbol {o : BinOp} : ∀ c ∈ o.symbol.toList, (c != ' ') = true := by
  rw [← List.all_eq_true]
  cases o <;> rfl

namespace Head

open Reading

variable {name : String} {parts : List Reading} {op : BinOp} {left right : Reading}

theorem told_atom (hname : Text.IsName name) :
    Text.ToldAmong Lettered (Text.Leaves Char.isAlpha) (spelled text) (.atom name) := by
  intro other r s hother hr hs h
  cases other with
  | atom name' =>
    cases hother with
    | atom _ _ hname' =>
      obtain ⟨heq, rfl⟩ := Text.append_inj_of_leaves hname.2 hname'.2 hr hs h
      exact ⟨by rw [String.toList_inj.mp heq], rfl⟩
  | tuple parts =>
    simp only [spelled, Text.tupled, String.toList_append] at h
    exact absurd h (toList_ne_of_isName hname)
  | binary op left right =>
    rw [toList_spelled_binary] at h
    exact absurd h (toList_ne_of_isName hname)

/-- Behind the first part of a tuple there is a comma, and behind the first operand a blank. -/
theorem tuple_ne_binary (hleft : left.Lettered)
    (hdiffer : ∀ t ∈ parts, ∀ u v, t.text.toList ++ ',' :: u ≠ left.text.toList ++ ' ' :: v)
    (r s : List Char) :
    ((Head.tuple parts).spelled text).toList ++ r ≠
      ((Head.binary op left right).spelled text).toList ++ s := by
  intro h
  rw [toList_spelled_binary, spelled] at h
  cases parts with
  | nil =>
    simp only [List.map_nil, Text.toList_tupled_nil, List.cons_append, List.append_assoc,
      List.cons.injEq, true_and] at h
    exact toList_text_ne hleft _ _ h.symm
  | cons t ts =>
    obtain ⟨rest, hrest⟩ := Text.exists_toList_tupled_cons t.text (ts.map text)
    simp only [List.map_cons, hrest, List.cons_append, List.append_assoc, List.cons.injEq,
      true_and] at h
    exact hdiffer t List.mem_cons_self _ _ h

theorem told_tuple (hparts : ∀ t ∈ parts, t.Lettered)
    (h : ∀ t ∈ parts, Text.ToldAmong Reading.Lettered Text.Stops text t) :
    Text.ToldAmong Lettered (Text.Leaves Char.isAlpha) (spelled text) (.tuple parts) := by
  intro other r s hother hr hs heq
  cases other with
  | atom name =>
    cases hother with
    | atom _ _ hname =>
      simp only [spelled, Text.tupled, String.toList_append] at heq
      exact absurd heq.symm (toList_ne_of_isName hname)
  | tuple others =>
    cases hother with
    | tuple _ _ hothers =>
      obtain ⟨rfl, rfl⟩ := Text.told_tupled (Text.stops_cons (by simp)) (Text.stops_cons (by simp))
        (fun t r s ht => toList_text_ne ht r s) h hparts hothers heq
      exact ⟨rfl, rfl⟩
  | binary op left right =>
    cases hother with
    | binary _ _ _ hleft hright =>
      refine absurd heq (tuple_ne_binary hleft (fun t ht u v heq => ?_) r s)
      obtain ⟨-, hrest⟩ :=
        h t ht left _ _ hleft (Text.stops_cons (by simp) u) (Text.stops_cons (by simp) v) heq
      cases hrest

theorem told_binary (hleft : left.Lettered)
    (htoldLeft : Text.ToldAmong Reading.Lettered Text.Stops text left)
    (htoldRight : Text.ToldAmong Reading.Lettered Text.Stops text right) :
    Text.ToldAmong Lettered (Text.Leaves Char.isAlpha) (spelled text) (.binary op left right) := by
  intro other r s hother hr hs heq
  cases other with
  | atom name =>
    cases hother with
    | atom _ _ hname =>
      rw [toList_spelled_binary] at heq
      exact absurd heq.symm (toList_ne_of_isName hname)
  | tuple parts =>
    cases hother with
    | tuple _ _ hparts =>
      refine absurd heq.symm (tuple_ne_binary hleft (fun t ht u v heq => ?_) s r)
      obtain ⟨-, hrest⟩ := htoldLeft t _ _ (hparts t ht) (Text.stops_cons (by simp) v)
        (Text.stops_cons (by simp) u) heq.symm
      cases hrest
  | binary op' left' right' =>
    cases hother with
    | binary _ _ _ hleft' hright' =>
      simp only [toList_spelled_binary, List.cons_append, List.append_assoc, List.cons.injEq,
        true_and, List.nil_append] at heq
      obtain ⟨rfl, hop⟩ := htoldLeft left' _ _ hleft' (Text.stops_cons (by simp) _)
        (Text.stops_cons (by simp) _) heq
      have hblank (r : List Char) : Text.Leaves (· != ' ') (' ' :: r) := by
        intro c hc
        rw [← Option.some.inj hc]
        rfl
      obtain ⟨hsymbol, hright⟩ := Text.append_inj_of_leaves BinOp.ne_blank_of_mem_symbol
        BinOp.ne_blank_of_mem_symbol (hblank _) (hblank _) (List.cons.inj hop).2
      obtain ⟨rfl, hclosed⟩ := htoldRight right' _ _ hright' (Text.stops_cons (by simp) _)
        (Text.stops_cons (by simp) _) (List.cons.inj hright).2
      rw [BinOp.symbol_injective (String.toList_inj.mp hsymbol)]
      exact ⟨rfl, (List.cons.inj hclosed).2⟩

end Head

namespace Reading

theorem told_of_head {t : Reading} (ht : t.Lettered)
    (hhead : Text.ToldAmong Head.Lettered (Text.Leaves Char.isAlpha) (Head.spelled text) t.head) :
    Text.ToldAmong Lettered Text.Stops text t := by
  intro u r s hu hr hs h
  -- no head opens with a borrow, and no path opens with a letter
  have hborrow {t : Reading} (ht : t.Lettered) (r : List Char) :
      Text.Leaves (· == '&') ((t.head.spelled text).toList ++ r) := by
    obtain ⟨c, cs, hspelled, hc⟩ := Head.exists_toList_spelled (ht.around 0 [])
    rw [hspelled]
    intro d hd
    rw [← Option.some.inj hd, beq_eq_false_iff_ne]
    rintro rfl
    rcases hc with hc | hc <;> cases hc
  have hletter {r : List Char} (hr : Text.Stops r) (path : List Nat) :
      Text.Leaves Char.isAlpha (Text.path path ++ r) :=
    Text.leaves_path (hr.leaves rfl rfl rfl) rfl path
  simp only [toList_text, List.append_assoc] at h
  obtain ⟨hborrows, hrest⟩ := Text.append_inj_of_leaves (p := (· == '&')) (by simp) (by simp)
    (hborrow ht _) (hborrow hu _) h
  have hborrows : t.borrows = u.borrows := by simpa using congrArg List.length hborrows
  obtain ⟨hheads, hpaths⟩ := hhead u.head _ _ (hu.around 0 []) (hletter hr _) (hletter hs _) hrest
  obtain ⟨hpath, rfl⟩ := Text.told_path hr hs hpaths
  rcases t with ⟨n, head, path⟩
  rcases u with ⟨m, head', path'⟩
  exact ⟨(mk.injEq ..).mpr ⟨hborrows, hheads, hpath⟩, rfl⟩

/-- **A text has one reading**, whatever follows it inside a larger one. -/
theorem told {t : Reading} (ht : t.Lettered) : Text.ToldAmong Lettered Text.Stops text t := by
  induction ht with
  | atom n path hname => exact told_of_head (.atom n path hname) (Head.told_atom hname)
  | tuple n path hparts ih => exact told_of_head (.tuple n path hparts) (Head.told_tuple hparts ih)
  | binary n op path hleft hright ihleft ihright =>
    exact told_of_head (.binary n op path hleft hright) (Head.told_binary hleft ihleft ihright)

theorem text_injective {t u : Reading} (ht : t.Lettered) (hu : u.Lettered) (h : t.text = u.text) :
    t = u := by
  have hend : Text.Stops [] := by
    intro c hc
    cases hc
  exact (told ht u [] [] hu hend hend (by rw [h])).1

end Reading

/-! ## Expressions and their readings -/

namespace Expr

mutual

/-- What the text of the expression says.  Borrows and fields are counted, wherever they were
taken. -/
def reading : Expr → Reading
  | ⟨_, _, .tuple fields⟩ => ⟨0, .tuple (readings fields), []⟩
  | ⟨_, _, .borrow operand⟩ => (reading operand).borrow
  | ⟨_, _, .field base index⟩ => (reading base).project index
  | ⟨_, _, .binary op left right⟩ => ⟨0, .binary op (reading left) (reading right), []⟩
  | e => ⟨0, .atom e.text, []⟩

/-- How several expressions are read. -/
def readings : List Expr → List Reading
  | [] => []
  | e :: es => reading e :: readings es

end

attribute [local simp] reading

theorem readings_eq_map (es : List Expr) : readings es = es.map reading := by
  induction es with
  | nil => rfl
  | cons e es ih => rw [readings, ih, List.map_cons]

/-- The text of an expression is that of its reading. -/
theorem text_reading (e : Expr) : e.reading.text = e.text := by
  induction e using induction_children with
  | node e ih =>
    rcases e with ⟨label, ty, form⟩
    cases form with
    | literal | zset | var | closure => simp only [reading, Reading.text_bare, Head.spelled]
    | tuple fields =>
      have hfields : (readings fields).map Reading.text = texts fields := by
        rw [readings_eq_map, texts_eq_map, List.map_map]
        exact List.map_congr_left ih
      rw [reading, Reading.text_bare, Head.spelled, hfields, text]
    | borrow operand => rw [reading, Reading.text_borrow, ih operand (.head _), text]
    | field base index => rw [reading, Reading.text_project, ih base (.head _), text]
    | binary op left right =>
      have hleft := ih left (.head _)
      have hright := ih right (.tail _ (.head _))
      rw [reading, Reading.text_bare, Head.spelled, hleft, hright, text]

/-- The expression is written with names, tuples, borrows, fields and operations only, and `types`
gives the types of the names. -/
def Spelled (types : String → Ty) (e : Expr) : Prop :=
  match e.form with
  | .var name => Text.IsName name ∧ e.ty = types name
  | .tuple _ | .borrow _ | .field .. | .binary .. => True
  | .literal _ | .zset _ | .closure .. => False

variable {types : String → Ty} {a b e : Expr}

theorem lettered_reading (h : e.All (Spelled types)) : e.reading.Lettered := by
  induction e using induction_children with
  | node e ih =>
    obtain ⟨hspelled, hchildren⟩ := all_iff.mp h
    have hbelow : ∀ c ∈ e.children, c.reading.Lettered := fun c hc => ih c hc (hchildren c hc)
    rcases e with ⟨label, ty, form⟩
    cases form with
    | literal | zset | closure => exact hspelled.elim
    | var name => exact .atom _ _ hspelled.1
    | tuple fields =>
      rw [reading, readings_eq_map]
      exact .tuple _ _ (List.forall_mem_map.mpr hbelow)
    | borrow operand => exact (hbelow operand (.head _)).around _ _
    | field base index => exact (hbelow base (.head _)).around _ _
    | binary op left right =>
      exact .binary _ _ _ (hbelow left (.head _)) (hbelow right (.tail _ (.head _)))

/-- **Two expressions have one text exactly when they have one reading.** -/
theorem text_eq_iff_reading (ha : a.All (Spelled types)) (hb : b.All (Spelled types)) :
    a.text = b.text ↔ a.reading = b.reading := by
  rw [← text_reading a, ← text_reading b]
  exact ⟨Reading.text_injective (lettered_reading ha) (lettered_reading hb), congrArg _⟩

/-! ## Explicit expressions -/

/-- The text of the node leaves nothing open: no field is taken of a borrow, which would have to
stand in parentheses, and no tuple is nullable, which would have to be marked. -/
def Explicit (e : Expr) : Prop :=
  match e.form with
  | .field base _ => ∀ operand, base.form ≠ .borrow operand
  | .tuple _ => e.ty.nullable = false
  | _ => True

/-- Borrows come first in an explicit expression. -/
theorem borrows_reading (h : e.All Explicit) (he : ∀ operand, e.form ≠ .borrow operand) :
    e.reading.borrows = 0 := by
  induction e using induction_children with
  | node e ih =>
    obtain ⟨hexplicit, hchildren⟩ := all_iff.mp h
    rcases e with ⟨label, ty, form⟩
    cases form with
    | borrow operand => exact absurd rfl (he operand)
    | field base index => exact ih base (.head _) (hchildren base (.head _)) hexplicit
    | _ => simp

/-- Explicit expressions of one reading are made in one way from sub-expressions of one reading
each. -/
theorem shape_of_reading (hsa : a.Spelled types) (hsb : b.Spelled types) (hea : a.All Explicit)
    (heb : b.All Explicit) (h : a.reading = b.reading) :
    a.shape = b.shape ∧ a.children.map reading = b.children.map reading := by
  -- where one of the two is a borrow and the other a field, only one of the readings has borrows
  have hfield {label : Label} {ty : Ty} {base : Expr} {index : Nat}
      (h : All Explicit ⟨label, ty, .field base index⟩) : base.reading.borrows = 0 := by
    obtain ⟨hexplicit, hchildren⟩ := all_iff.mp h
    exact borrows_reading (hchildren base (.head _)) hexplicit
  rcases a with ⟨l, s, f⟩
  rcases b with ⟨m, t, g⟩
  cases f with
  | literal | zset | closure => exact hsa.elim
  | var x =>
    cases g with
    | literal | zset | closure => exact hsb.elim
    | var y => simpa [text, shape, Form.shape, Form.map, children, Form.children] using h
    | tuple | borrow | field | binary => simp [Reading.borrow, Reading.project] at h
  | tuple fs =>
    cases g with
    | literal | zset | closure => exact hsb.elim
    | tuple gs =>
      have hreadings : fs.map reading = gs.map reading := by simpa [readings_eq_map] using h
      have hlength : fs.length = gs.length := by simpa using congrArg List.length hreadings
      exact ⟨by simp [shape, Form.shape, Form.map, List.map_const', hlength], hreadings⟩
    | var | borrow | field | binary => simp [Reading.borrow, Reading.project] at h
  | borrow x =>
    cases g with
    | literal | zset | closure => exact hsb.elim
    | borrow y => exact ⟨rfl, congrArg (fun t => [t]) (Reading.borrow_injective (by simpa using h))⟩
    | field y j =>
      have hborrows := congrArg Reading.borrows h
      simp [Reading.borrow, Reading.project, hfield heb] at hborrows
    | var | tuple | binary => simp [Reading.borrow] at h
  | field x i =>
    cases g with
    | literal | zset | closure => exact hsb.elim
    | field y j =>
      obtain ⟨hbase, rfl⟩ := Reading.project_injective (by simpa using h)
      exact ⟨rfl, congrArg (fun t => [t]) hbase⟩
    | borrow y =>
      have hborrows := congrArg Reading.borrows h
      simp [Reading.borrow, Reading.project, hfield hea] at hborrows
    | var | tuple | binary => simp [Reading.project] at h
  | binary o x x' =>
    cases g with
    | literal | zset | closure => exact hsb.elim
    | binary p y y' => simpa [shape, Form.shape, Form.map, children, Form.children] using h
    | var | tuple | borrow | field => simp [Reading.borrow, Reading.project] at h

/-- The type of an explicit node is that of its name, or comes from the types below it. -/
theorem ty_eq_of_shape (hta : a.Typed) (htb : b.Typed) (hsa : a.Spelled types)
    (hsb : b.Spelled types) (hea : a.Explicit) (heb : b.Explicit) (hshape : a.shape = b.shape)
    (htys : a.children.map Expr.ty = b.children.map Expr.ty) : a.ty = b.ty := by
  rcases a with ⟨l, s, f⟩
  rcases b with ⟨m, t, g⟩
  cases f with
  | literal | zset | closure => exact hsa.elim
  | var x =>
    cases g with
    | var y =>
      obtain rfl := Form.var.inj hshape
      exact hsa.2.trans hsb.2.symm
    | _ => cases hshape
  | tuple fs =>
    cases g with
    | tuple gs =>
      have hs : s = .tuple (fs.map Expr.ty) s.nullable := Ty.eq_of_fields? hta
      have ht : t = .tuple (gs.map Expr.ty) t.nullable := Ty.eq_of_fields? htb
      have hea : s.nullable = false := hea
      have heb : t.nullable = false := heb
      have htys : fs.map Expr.ty = gs.map Expr.ty := htys
      change s = t
      rw [hs, ht, hea, heb, htys]
    | _ => cases hshape
  | borrow x =>
    cases g with
    | borrow y =>
      have htys : x.ty = y.ty := (List.cons.inj htys).1
      have hs : s = Ty.refTo x.ty false := hta
      have ht : t = Ty.refTo y.ty false := htb
      change s = t
      rw [hs, ht, htys]
    | _ => cases hshape
  | field x i =>
    cases g with
    | field y j =>
      obtain rfl : i = j := (Form.field.inj hshape).2
      have htys : x.ty = y.ty := (List.cons.inj htys).1
      have hs : fieldTy x.ty i = .ok s := hta
      have ht : fieldTy y.ty i = .ok t := htb
      rw [htys, ht] at hs
      exact (Except.ok.inj hs).symm
    | _ => cases hshape
  | binary o x x' =>
    cases g with
    | binary p y y' =>
      obtain rfl : o = p := (Form.binary.inj hshape).1
      obtain ⟨hleft, hright⟩ : x.ty = y.ty ∧ x'.ty = y'.ty := by
        simpa [children, Form.children] using htys
      have hs : binaryTy o x.ty x'.ty = .ok s := hta
      have ht : binaryTy o y.ty y'.ty = .ok t := htb
      rw [hleft, hright, ht] at hs
      exact (Except.ok.inj hs).symm
    | _ => cases hshape

/-- Explicit expressions of one reading are the same. -/
theorem same_of_reading (hta : a.WellTyped) (htb : b.WellTyped) (hsa : a.All (Spelled types))
    (hsb : b.All (Spelled types)) (hea : a.All Explicit) (heb : b.All Explicit)
    (h : a.reading = b.reading) : a.same b = true := by
  induction a using induction_children generalizing b with
  | node a ih =>
    obtain ⟨hshape, hreadings⟩ := shape_of_reading (hsa a .refl) (hsb b .refl) hea heb h
    have hchildren : List.Forall₂ (fun x y => x.same y = true) a.children b.children := by
      refine forall₂_imp_of_mem (forall₂_map_eq_iff.mpr hreadings) fun x hx y hy hxy => ?_
      have hx' := within_of_mem_children hx
      have hy' := within_of_mem_children hy
      exact ih x hx (hta.child hx) (htb.child hy) (hsa.within hx') (hsb.within hy') (hea.within hx')
        (heb.within hy') hxy
    have htys : a.children.map Expr.ty = b.children.map Expr.ty :=
      forall₂_map_eq_iff.mp (hchildren.imp fun _ _ h => (same_iff_shape.mp h).1)
    have hty := ty_eq_of_shape hta.typed htb.typed (hsa a .refl) (hsb b .refl) (hea a .refl)
      (heb b .refl) hshape htys
    exact same_iff_shape.mpr ⟨hty, hshape, fun _ => hchildren⟩

/-- **An expression is told by its text, if it is explicit.**  The text of any two expressions that
are written with names, tuples, borrows, fields and operations is the same exactly when their
readings are.  When no field is taken of a borrow and no tuple is nullable in either of them, their
texts are the same exactly when they are. -/
theorem told_by_text_of_explicit (hta : a.WellTyped) (htb : b.WellTyped)
    (hsa : a.All (Spelled types)) (hsb : b.All (Spelled types)) :
    (a.text = b.text ↔ a.reading = b.reading) ∧
      (a.All Explicit → b.All Explicit → (a.text = b.text ↔ a.same b = true)) := by
  have hreading := text_eq_iff_reading hsa hsb
  refine ⟨hreading, fun hea heb => ⟨fun h => ?_, text_eq_of_same hta htb⟩⟩
  exact same_of_reading hta htb hsa hsb hea heb (hreading.mp h)

end Expr

namespace Sample

/-- A tuple of one number. -/
def singleTy : Ty := Ty.tupleOf [Ty.int32 false]

/-- A tuple of one field, by name. -/
def single (label : Label) : Expr := .var label "x" singleTy

/-- `x.0` -/
def first (label : Label) : Expr := ⟨label, Ty.int32 false, .field (single (label + 1)) 0⟩

/-- `&(x.0 + x.0)` -/
def borrowedSum (label : Label) : Expr :=
  .borrow label ⟨label + 1, Ty.int32 false, .binary .add (first (label + 2)) (first (label + 4))⟩

/-- `(&x).0`, which is written as `&x.0` is. -/
def firstOfBorrow (label : Label) : Expr :=
  ⟨label, Ty.int32 false, .field (.borrow (label + 1) (single (label + 2))) 0⟩

/-- `(x,)` of a type that may be NULL. -/
def optionalSingle (label : Label) : Expr :=
  ⟨label, .tuple [singleTy] true, .tuple [single (label + 1)]⟩

theorem obtained_first (label : Label) : (first label).Obtained := by
  have hmade : Expr.field label (single (label + 1)) 0 = .ok (first label) := rfl
  exact .field (.var _ _ _) hmade

theorem obtained_borrowedSum (label : Label) : (borrowedSum label).Obtained := by
  have hmade : Expr.binary (label + 1) .add (first (label + 2)) (first (label + 4)) =
      .ok ⟨label + 1, Ty.int32 false, .binary .add (first (label + 2)) (first (label + 4))⟩ := rfl
  exact .borrow label (.binary (obtained_first _) (obtained_first _) hmade)

theorem obtained_firstOfBorrow (label : Label) : (firstOfBorrow label).Obtained := by
  have hmade : Expr.field label (.borrow (label + 1) (single (label + 2))) 0 =
      .ok (firstOfBorrow label) := rfl
  exact .field (.borrow _ (.var _ _ _)) hmade

theorem obtained_optionalSingle (label : Label) : (optionalSingle label).Obtained := by
  have hmade : Expr.tupleTyped label (.tuple [singleTy] true) [single (label + 1)] =
      .ok (optionalSingle label) := rfl
  exact .tupleTyped (List.forall_mem_singleton.mpr (.var _ _ _)) hmade

theorem spelled_single (label : Label) : (single label).All (Expr.Spelled fun _ => singleTy) :=
  Expr.all_iff.mpr ⟨⟨by decide, rfl⟩, List.forall_mem_nil _⟩

theorem spelled_first (label : Label) : (first label).All (Expr.Spelled fun _ => singleTy) :=
  Expr.all_iff.mpr ⟨trivial, List.forall_mem_singleton.mpr (spelled_single _)⟩

theorem spelled_borrowedSum (label : Label) :
    (borrowedSum label).All (Expr.Spelled fun _ => singleTy) := by
  refine Expr.all_iff.mpr ⟨trivial, List.forall_mem_singleton.mpr (Expr.all_iff.mpr ⟨trivial, ?_⟩)⟩
  exact List.forall_mem_cons.mpr ⟨spelled_first _, List.forall_mem_singleton.mpr (spelled_first _)⟩

theorem explicit_first (label : Label) : (first label).All Expr.Explicit := by
  refine Expr.all_iff.mpr ⟨fun operand h => (by cases h), List.forall_mem_singleton.mpr ?_⟩
  exact Expr.all_iff.mpr ⟨trivial, List.forall_mem_nil _⟩

theorem explicit_borrowedSum (label : Label) : (borrowedSum label).All Expr.Explicit := by
  refine Expr.all_iff.mpr ⟨trivial, List.forall_mem_singleton.mpr (Expr.all_iff.mpr ⟨trivial, ?_⟩)⟩
  exact List.forall_mem_cons.mpr
    ⟨explicit_first _, List.forall_mem_singleton.mpr (explicit_first _)⟩

end Sample

namespace Expr

open Sample

/-- A borrowed sum of fields that was built twice. -/
theorem told_by_text_of_explicit_borrowedSum :
    (borrowedSum 0).All Explicit ∧ (borrowedSum 10).All Explicit ∧
      (borrowedSum 0).text = "&(x.0 + x.0)" ∧ (borrowedSum 10).text = "&(x.0 + x.0)" ∧
      (borrowedSum 0).same (borrowedSum 10) = true := by
  have htext : (borrowedSum 0).text = "&(x.0 + x.0)" := by decide +kernel
  have htext' : (borrowedSum 10).text = "&(x.0 + x.0)" := by decide +kernel
  have htold := (told_by_text_of_explicit (obtained_borrowedSum 0).wellTyped
    (obtained_borrowedSum 10).wellTyped (spelled_borrowedSum 0) (spelled_borrowedSum 10)).2
    (explicit_borrowedSum 0) (explicit_borrowedSum 10)
  exact ⟨explicit_borrowedSum 0, explicit_borrowedSum 10, htext, htext',
    htold.mp (htext.trans htext'.symm)⟩

/-- Two expressions of one text that are not the same: a borrowed field and a field of a borrow.
And two more, a tuple that may be NULL and one that may not. -/
theorem one_text_for_two :
    ((borrow 0 (first 1)).Obtained ∧ (borrow 0 (first 1)).All (Spelled fun _ => singleTy) ∧
      (firstOfBorrow 3).Obtained ∧ (firstOfBorrow 3).All (Spelled fun _ => singleTy) ∧
      (borrow 0 (first 1)).text = (firstOfBorrow 3).text ∧
      (borrow 0 (first 1)).same (firstOfBorrow 3) = false) ∧
    (tuple 0 [single 1]).Obtained ∧ (tuple 0 [single 1]).All (Spelled fun _ => singleTy) ∧
      (optionalSingle 2).Obtained ∧ (optionalSingle 2).All (Spelled fun _ => singleTy) ∧
      (tuple 0 [single 1]).text = (optionalSingle 2).text ∧
      (tuple 0 [single 1]).same (optionalSingle 2) = false := by
  have hborrow (label : Label) :
      (borrow label (single (label + 1))).All (Spelled fun _ => singleTy) :=
    all_iff.mpr ⟨trivial, List.forall_mem_singleton.mpr (spelled_single _)⟩
  refine ⟨⟨.borrow 0 (obtained_first 1), ?_, obtained_firstOfBorrow 3, ?_, by decide +kernel,
    by decide⟩,
    .tuple 0 (List.forall_mem_singleton.mpr (.var _ _ _)), ?_, obtained_optionalSingle 2, ?_,
    by decide +kernel, by decide⟩
  · exact all_iff.mpr ⟨trivial, List.forall_mem_singleton.mpr (spelled_first 1)⟩
  · exact all_iff.mpr ⟨trivial, List.forall_mem_singleton.mpr (hborrow 4)⟩
  · exact all_iff.mpr ⟨trivial, List.forall_mem_singleton.mpr (spelled_single 1)⟩
  · exact all_iff.mpr ⟨trivial, List.forall_mem_singleton.mpr (spelled_single 3)⟩

end Expr

end FlowCircuit
