/-!
# Checked arithmetic on signed 64-bit words

Weights of Z-set rows and integer literals are signed 64-bit words.  Arithmetic on them is exact or
absent: an operation computes in the integers and gives `none` when the result is no word.  Division
goes toward zero and is absent for a zero divisor.
-/

set_option autoImplicit false

namespace FlowCircuit.Word

/-- The least integer that is a word. -/
def least : Int := -9223372036854775808

/-- The greatest integer that is a word. -/
def greatest : Int := 9223372036854775807

/-- The word of value `n`, if there is one. -/
def ofInt? (n : Int) : Option Int64 :=
  if least ≤ n ∧ n ≤ greatest then some (Int64.ofInt n) else none

/-- The sum, if it is a word. -/
def add? (a b : Int64) : Option Int64 := ofInt? (a.toInt + b.toInt)

/-- The difference, if it is a word. -/
def sub? (a b : Int64) : Option Int64 := ofInt? (a.toInt - b.toInt)

/-- The product, if it is a word. -/
def mul? (a b : Int64) : Option Int64 := ofInt? (a.toInt * b.toInt)

/-- The quotient rounded toward zero. -/
def div? (a b : Int64) : Option Int64 :=
  if b.toInt = 0 then none else ofInt? (a.toInt.tdiv b.toInt)

/-- The negative, which the least word does not have. -/
def neg? (a : Int64) : Option Int64 := ofInt? (-a.toInt)

theorem least_le_toInt (a : Int64) : least ≤ a.toInt := by
  have h := Int64.le_toInt a
  simpa [least] using h

theorem toInt_le_greatest (a : Int64) : a.toInt ≤ greatest := by
  have h := Int64.toInt_lt a
  unfold greatest
  omega

theorem toInt_of_ofInt? {n : Int} {a : Int64} (h : ofInt? n = some a) : a.toInt = n := by
  unfold ofInt? at h
  split at h
  · rename_i hn
    obtain rfl : Int64.ofInt n = a := by simpa using h
    exact Int64.toInt_ofInt_of_le (by simpa [least] using hn.1) (by
      have := hn.2
      unfold greatest at this
      omega)
  · exact absurd h (by simp)

@[simp]
theorem ofInt?_toInt (a : Int64) : ofInt? a.toInt = some a := by
  simp [ofInt?, least_le_toInt, toInt_le_greatest]

end FlowCircuit.Word
