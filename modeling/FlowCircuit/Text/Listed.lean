/-!
# Lists in text

The target runtime writes lists of types, fields and arguments in one way: items separated by a
comma and a blank.  A tuple is such a list in parentheses, with a comma after the item when there is
exactly one, so that `(A,)` is a tuple and `(A)` is not.
-/

set_option autoImplicit false

namespace FlowCircuit.Text

/-- The items, separated by a comma and a blank. -/
def listed : List String → String
  | [] => ""
  | [item] => item
  | item :: next :: rest => item ++ ", " ++ listed (next :: rest)

/-- The items as a tuple. -/
def tupled (items : List String) : String :=
  "(" ++ listed items ++ (if items.length = 1 then ",)" else ")")

@[simp]
theorem listed_nil : listed [] = "" := rfl

@[simp]
theorem listed_singleton (item : String) : listed [item] = item := rfl

theorem listed_cons_cons (item next : String) (rest : List String) :
    listed (item :: next :: rest) = item ++ ", " ++ listed (next :: rest) := rfl

end FlowCircuit.Text
