import FlowCircuit.Ty.Scalar
import FlowCircuit.Text.Listed

/-!
# Static types

A type is a scalar, a tuple, a reference, a Z-set or a function signature, together with a flag that
says whether its values may be NULL.  Types are plain values: two types are the same when they are
equal, and `Ty.same` is the executable form of that comparison (`Ty.same_iff`).

`Ty.text` writes a type as the target runtime spells it; a nullable type stands inside `Option<…>`.
-/

set_option autoImplicit false

namespace FlowCircuit

/-- A static type. -/
inductive Ty where
  | scalar (kind : Scalar) (nullable : Bool)
  /-- A tuple with a fixed number of fields. -/
  | tuple (fields : List Ty) (nullable : Bool)
  /-- A reference to a value of the target type. -/
  | ref (target : Ty) (mutable nullable : Bool)
  /-- A weighted multiset of elements. -/
  | zset (element weight : Ty) (nullable : Bool)
  /-- The signature of a closure. -/
  | function (params : List Ty) (result : Ty) (nullable : Bool)
deriving Inhabited

namespace Ty

/-! ## Common types -/

/-- Truth values. -/
def bool (nullable : Bool) : Ty := .scalar .bool nullable

/-- Numbers of 32 bits. -/
def int32 (nullable : Bool) : Ty := .scalar (.integer .w32) nullable

/-- Numbers of 64 bits. -/
def int64 (nullable : Bool) : Ty := .scalar (.integer .w64) nullable

/-- Floats of 64 bits. -/
def double (nullable : Bool) : Ty := .scalar (.float .w64) nullable

/-- Character data. -/
def string (nullable : Bool) : Ty := .scalar .string nullable

/-- A tuple that is not nullable. -/
def tupleOf (fields : List Ty) : Ty := .tuple fields false

/-- A reference to `target`; references are never nullable. -/
def refTo (target : Ty) (mutable : Bool) : Ty := .ref target mutable false

/-- The type of weights unless another one is asked for. -/
def defaultWeight : Ty := int64 false

/-- Z-sets of `element` values whose multiplicities have type `weight`. -/
def zsetOf (element weight : Ty) : Ty := .zset element weight false

/-- The signature of a closure. -/
def functionOf (params : List Ty) (result : Ty) : Ty := .function params result false

/-! ## Parts -/

/-- Whether values of the type may be NULL. -/
def nullable : Ty → Bool
  | .scalar _ n | .tuple _ n | .ref _ _ n | .zset _ _ n | .function _ _ n => n

/-- The type with its outermost flag set to `n`, whatever the type is. -/
def setNullable (n : Bool) : Ty → Ty
  | .scalar k _ => .scalar k n
  | .tuple fs _ => .tuple fs n
  | .ref t m _ => .ref t m n
  | .zset e w _ => .zset e w n
  | .function ps r _ => .function ps r n

/-- The kind of scalar, if the type is one. -/
def scalar? : Ty → Option Scalar
  | .scalar k _ => some k
  | _ => none

/-- Field types of a tuple. -/
def fields? : Ty → Option (List Ty)
  | .tuple fs _ => some fs
  | _ => none

/-- Target of a reference. -/
def target? : Ty → Option Ty
  | .ref t _ _ => some t
  | _ => none

/-- Element and weight type of a Z-set. -/
def zset? : Ty → Option (Ty × Ty)
  | .zset e w _ => some (e, w)
  | _ => none

/-- Parameter types and result type of a function. -/
def signature? : Ty → Option (List Ty × Ty)
  | .function ps r _ => some (ps, r)
  | _ => none

/-- Whether the values of the type are references. -/
def isReference : Ty → Bool
  | .ref .. => true
  | _ => false

/-- Whether there is arithmetic on values of the type. -/
def isNumeric (t : Ty) : Bool := t.scalar?.any Scalar.isNumeric

/-- Booleans, nullable or not. -/
def isBool (t : Ty) : Bool := t.scalar? == some .bool

/-- Storage width of a scalar. -/
def width (t : Ty) : Option Nat := t.scalar?.bind Scalar.width

/-- Nested types in order. -/
def children : Ty → List Ty
  | .scalar _ _ => []
  | .tuple fs _ => fs
  | .ref t _ _ => [t]
  | .zset e w _ => [e, w]
  | .function ps r _ => ps ++ [r]

@[simp]
theorem nullable_setNullable (n : Bool) (t : Ty) : (t.setNullable n).nullable = n := by
  cases t <;> rfl

@[simp]
theorem setNullable_nullable (t : Ty) : t.setNullable t.nullable = t := by
  cases t <;> rfl

@[simp]
theorem setNullable_setNullable (m n : Bool) (t : Ty) :
    (t.setNullable m).setNullable n = t.setNullable n := by
  cases t <;> rfl

/-! ## Comparison -/

mutual

/-- Structural comparison: the sort of type, the flag, and the nested types. -/
def same : Ty → Ty → Bool
  | .scalar k m, .scalar l n => m == n && k == l
  | .tuple fs m, .tuple gs n => m == n && sameAll fs gs
  | .ref t a m, .ref u b n => m == n && a == b && same t u
  | .zset e w m, .zset f v n => m == n && same e f && same w v
  | .function ps r m, .function qs s n => m == n && sameAll ps qs && same r s
  | _, _ => false

/-- Two lists of types that agree one by one. -/
def sameAll : List Ty → List Ty → Bool
  | [], [] => true
  | t :: ts, u :: us => same t u && sameAll ts us
  | _, _ => false

end

mutual

theorem eq_of_same : ∀ (a b : Ty), same a b = true → a = b
  | .scalar k m, b, h => by
    cases b <;> simp_all [same]
  | .tuple fs m, b, h => by
    cases b with
    | tuple gs n =>
      simp only [same, Bool.and_eq_true, beq_iff_eq] at h
      rw [h.1, eq_of_sameAll fs gs h.2]
    | _ => simp [same] at h
  | .ref t a m, b, h => by
    cases b with
    | ref u c n =>
      simp only [same, Bool.and_eq_true, beq_iff_eq] at h
      rw [h.1.1, h.1.2, eq_of_same t u h.2]
    | _ => simp [same] at h
  | .zset e w m, b, h => by
    cases b with
    | zset f v n =>
      simp only [same, Bool.and_eq_true, beq_iff_eq] at h
      rw [h.1.1, eq_of_same e f h.1.2, eq_of_same w v h.2]
    | _ => simp [same] at h
  | .function ps r m, b, h => by
    cases b with
    | function qs s n =>
      simp only [same, Bool.and_eq_true, beq_iff_eq] at h
      rw [h.1.1, eq_of_sameAll ps qs h.1.2, eq_of_same r s h.2]
    | _ => simp [same] at h

theorem eq_of_sameAll : ∀ (as bs : List Ty), sameAll as bs = true → as = bs
  | [], [], _ => rfl
  | [], _ :: _, h => by simp [sameAll] at h
  | _ :: _, [], h => by simp [sameAll] at h
  | a :: as, b :: bs, h => by
    simp only [sameAll, Bool.and_eq_true] at h
    rw [eq_of_same a b h.1, eq_of_sameAll as bs h.2]

end

mutual

theorem same_refl : ∀ a : Ty, same a a = true
  | .scalar k m => by simp [same]
  | .tuple fs m => by simp [same, sameAll_refl fs]
  | .ref t a m => by simp [same, same_refl t]
  | .zset e w m => by simp [same, same_refl e, same_refl w]
  | .function ps r m => by simp [same, sameAll_refl ps, same_refl r]

theorem sameAll_refl : ∀ as : List Ty, sameAll as as = true
  | [] => rfl
  | a :: as => by simp [sameAll, same_refl a, sameAll_refl as]

end

/-- Structural comparison decides equality. -/
@[simp]
theorem same_iff {a b : Ty} : same a b = true ↔ a = b :=
  ⟨eq_of_same a b, fun h => h ▸ same_refl a⟩

instance : DecidableEq Ty := fun a b =>
  if h : same a b = true then .isTrue (same_iff.1 h) else .isFalse fun e => h (same_iff.2 e)

/-- Structural comparison that ignores the outermost flag. -/
def sameUpToNull (a b : Ty) : Bool := (a.setNullable b.nullable).same b

theorem sameUpToNull_iff {a b : Ty} : sameUpToNull a b = true ↔ a.setNullable b.nullable = b :=
  same_iff

/-! ## Text -/

/-- Puts `Option<…>` around the text of a nullable type. -/
def optional (nullable : Bool) (text : String) : String :=
  if nullable then "Option<" ++ text ++ ">" else text

mutual

/-- The type as the target runtime spells it. -/
def text : Ty → String
  | .scalar k n => optional n k.runtimeName
  | .tuple fs n => optional n (Text.tupled (texts fs))
  | .ref t m n => optional n ((if m then "&mut " else "&") ++ text t)
  | .zset e w n => optional n ("OrdZSet<" ++ text e ++ ", " ++ text w ++ ">")
  | .function ps r n => optional n ("fn(" ++ Text.listed (texts ps) ++ ") -> " ++ text r)

/-- The texts of several types. -/
def texts : List Ty → List String
  | [] => []
  | t :: ts => text t :: texts ts

end

theorem texts_eq_map (ts : List Ty) : texts ts = ts.map text := by
  induction ts with
  | nil => rfl
  | cons t ts ih => simp [texts, ih]

instance : ToString Ty := ⟨text⟩

/-! ## Machine-readable form -/

mutual

/-- The type as a JSON object with its sort and its flag. -/
def toJson : Ty → Json
  | .scalar k n => flagged (.tagged "Scalar" k.toJson) n
  | .tuple fs n => flagged (.tagged "Tuple" (.array (toJsons fs))) n
  | .ref t m n =>
    flagged (.tagged "Ref" (.object [("inner", toJson t), ("mutable", .bool m)])) n
  | .zset e w n =>
    flagged (.tagged "ZSet" (.object [("element", toJson e), ("weight", toJson w)])) n
  | .function ps r n =>
    flagged (.tagged "Function"
      (.object [("params", .array (toJsons ps)), ("result", toJson r)])) n
where
  /-- A sort together with the flag. -/
  flagged (kind : Json) (nullable : Bool) : Json :=
    .object [("kind", kind), ("nullable", .bool nullable)]

/-- The machine-readable forms of several types. -/
def toJsons : List Ty → List Json
  | [] => []
  | t :: ts => toJson t :: toJsons ts

end

end Ty

end FlowCircuit
