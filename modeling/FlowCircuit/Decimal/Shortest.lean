/-!
# Shortest decimal text of a binary64 number

A binary64 bit pattern is shown by the fewest decimal digits that read back as the same number, and
among those by the ones nearest to it.  All of it is exact arithmetic on natural numbers.

A finite positive pattern denotes `m · 2 ^ q`.  In quarters of `2 ^ q` the reals that round to it
fill the interval from `4 m - 2` (from `4 m - 1` when `m` is the least mantissa of its binade) to
`4 m + 2`, ends included exactly when `m` is even.  For one digit, two digits and so on the number's
two neighbours on that decimal grid are tried, and the first grid with a hit gives the answer.

## Main definitions

* `Binary64.ofBits` splits a pattern into sign, class and the pair `(m, q)`.
* `shortest` gives the digits and the decimal exponent of a finite positive number.
* `Layout` is where positional notation ends; `render` writes a pattern under a layout.
-/

set_option autoImplicit false

namespace FlowCircuit.Decimal

/-- The magnitude a bit pattern denotes. -/
inductive Magnitude where
  | notANumber
  | infinite
  | zero
  /-- `mantissa · 2 ^ exponent`; `binadeStart` marks the least mantissa of a binade, whose lower
  neighbour is twice as near as its upper one. -/
  | finite (mantissa : Nat) (exponent : Int) (binadeStart : Bool)
deriving DecidableEq

/-- A binary64 number taken apart. -/
structure Binary64 where
  negative : Bool
  magnitude : Magnitude
deriving DecidableEq

/-- Two to the 52nd: the weight of the exponent field, and of the leading bit of a mantissa. -/
def leadingBit : Nat := 4503599627370496

/-- Reads a bit pattern: a sign, eleven bits of exponent and fifty-two of fraction. -/
def Binary64.ofBits (bits : UInt64) : Binary64 :=
  let n := bits.toNat
  let fraction := n % leadingBit
  let field := n / leadingBit % 2048
  let magnitude :=
    if field = 2047 then
      if fraction = 0 then .infinite else .notANumber
    else if field = 0 then
      if fraction = 0 then .zero else .finite fraction (-1074) false
    else
      .finite (fraction + leadingBit) (Int.ofNat field - 1075) (fraction = 0 && 1 < field)
  ⟨n / leadingBit / 2048 = 1, magnitude⟩

/-- A positive rational as numerator and denominator. -/
structure Ratio where
  num : Nat
  den : Nat

/-- The rational `n · 2 ^ e`. -/
def Ratio.scaled (n : Nat) (e : Int) : Ratio :=
  match e with
  | .ofNat k => ⟨n * Nat.pow 2 k, 1⟩
  | .negSucc k => ⟨n, Nat.pow 2 (k + 1)⟩

/-- The quotient by a power of ten. -/
def Ratio.divTenPow (r : Ratio) (e : Int) : Ratio :=
  match e with
  | .ofNat k => ⟨r.num, r.den * Nat.pow 10 k⟩
  | .negSucc k => ⟨r.num * Nat.pow 10 (k + 1), r.den⟩

/-- Comparison by cross-multiplication; denominators are positive. -/
def Ratio.lt (a b : Ratio) : Bool := a.num * b.den < b.num * a.den

/-- Comparison by cross-multiplication, equality included. -/
def Ratio.le (a b : Ratio) : Bool := a.num * b.den ≤ b.num * a.den

/-- The greatest power of ten that is at most `r`, for `r` between `10 ^ (-400)` and `10 ^ 400`. -/
def Ratio.decimalExponent (r : Ratio) : Int :=
  if r.den ≤ r.num then
    Int.ofNat ((Nat.toDigits 10 (r.num / r.den)).length - 1)
  else
    match (List.range 400).find? fun k => r.den ≤ r.num * Nat.pow 10 k with
    | some k => -Int.ofNat k
    | none => -400

/-- Digits with the decimal exponent of the first one: `digits = [d, e, f]` denotes
`d.ef · 10 ^ exponent`. -/
structure Digits where
  digits : List Char
  exponent : Int
deriving DecidableEq

/-- Drops the zeros at the end, but never the first digit. -/
def trimZeros (digits : List Char) : List Char :=
  match (digits.reverse.dropWhile (· = '0')).reverse with
  | [] => ['0']
  | ds => ds

/-- The digits of `n` standing on the grid of step `10 ^ step`. -/
def Digits.ofGrid (n : Nat) (step : Int) : Digits :=
  let digits := Nat.toDigits 10 n
  ⟨trimZeros digits, step + Int.ofNat (digits.length - 1)⟩

/-- The interval of reals that round to a number, and whether its ends do. -/
structure Rounding where
  low : Ratio
  high : Ratio
  closed : Bool

/-- Whether a number between the bounds is read back as the same float. -/
def Rounding.contains (i : Rounding) (r : Ratio) : Bool :=
  if i.closed then i.low.le r && r.le i.high else i.low.lt r && r.lt i.high

/-- The better of a number's two neighbours `n` and `n + 1` on one grid, if the interval holds one:
the nearer of two, the upper on a tie.  Everything is measured in steps of the grid. -/
def pickOnGrid (value : Ratio) (interval : Rounding) : Option Nat :=
  let n := value.num / value.den
  let below : Ratio := ⟨n, 1⟩
  let above : Ratio := ⟨n + 1, 1⟩
  match interval.contains below && 0 < n, interval.contains above with
  | true, true =>
    -- twice the distance to the lower neighbour against one step
    if 2 * (value.num - n * value.den) < value.den then some n else some (n + 1)
  | true, false => some n
  | false, true => some (n + 1)
  | false, false => none

/-- The fewest digits that read back as `mantissa · 2 ^ exponent`. -/
def shortest (mantissa : Nat) (exponent : Int) (binadeStart : Bool) : Digits :=
  let value := Ratio.scaled (4 * mantissa) (exponent - 2)
  let low := Ratio.scaled (4 * mantissa - if binadeStart then 1 else 2) (exponent - 2)
  let high := Ratio.scaled (4 * mantissa + 2) (exponent - 2)
  let top := value.decimalExponent
  let attempt (count : Nat) : Option Digits :=
    let step := top - Int.ofNat count
    let interval : Rounding :=
      ⟨low.divTenPow step, high.divTenPow step, mantissa % 2 = 0⟩
    (pickOnGrid (value.divTenPow step) interval).map fun n => Digits.ofGrid n step
  ((List.range 18).findSome? attempt).getD ⟨['0'], 0⟩

/-- Which decimal exponents are written positionally. -/
structure Layout where
  leastPositional : Int
  greatestPositional : Int

/-- Digits with a decimal point, and at least one digit on each side of it. -/
def positional (d : Digits) : String :=
  match d.exponent with
  | .negSucc k => "0." ++ String.ofList (List.replicate k '0' ++ d.digits)
  | .ofNat k =>
    let whole := d.digits.take (k + 1) ++ List.replicate (k + 1 - d.digits.length) '0'
    let part := d.digits.drop (k + 1)
    String.ofList whole ++ "." ++ (if part.isEmpty then "0" else String.ofList part)

/-- Digits with a power of ten; a single digit has no decimal point. -/
def scientific (d : Digits) : String :=
  let mantissa := match d.digits with
    | [] => "0"
    | [c] => String.singleton c
    | c :: rest => String.singleton c ++ "." ++ String.ofList rest
  mantissa ++ "e" ++ toString d.exponent

/-- The text of a magnitude that is a number. -/
def Layout.digits (layout : Layout) (d : Digits) : String :=
  if layout.leastPositional ≤ d.exponent ∧ d.exponent ≤ layout.greatestPositional then
    positional d
  else
    scientific d

/-- The text of a bit pattern.  A pattern that is not a number shows no sign. -/
def Layout.render (layout : Layout) (bits : UInt64) : String :=
  let x := Binary64.ofBits bits
  let sign := if x.negative then "-" else ""
  match x.magnitude with
  | .notANumber => "NaN"
  | .infinite => sign ++ "inf"
  | .zero => sign ++ "0.0"
  | .finite m q start => sign ++ layout.digits (shortest m q start)

end FlowCircuit.Decimal
