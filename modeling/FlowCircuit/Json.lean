/-!
# JSON values

Types and row layouts have a machine-readable form beside their text.  It is a JSON value; the
members of an object are kept in the order in which they are listed.
-/

set_option autoImplicit false

namespace FlowCircuit

/-- A JSON value without fractions. -/
inductive Json where
  | null
  | bool (b : Bool)
  | number (n : Int)
  | string (s : String)
  | array (items : List Json)
  | object (members : List (String × Json))

/-- An object with a single member. -/
def Json.tagged (tag : String) (value : Json) : Json := .object [(tag, value)]

end FlowCircuit
