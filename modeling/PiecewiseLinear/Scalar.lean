/-! # Scalars

Tables, expressions and encodings are written once over an arbitrary scalar type. Binary
floating-point numbers run them; rational numbers give them their exact meaning.
-/

namespace PiecewiseLinear

/-- Numbers with the arithmetic and the comparisons that encodings use. -/
class Scalar (α : Type) extends Zero α, One α, Add α, Sub α, Neg α, Mul α, Div α,
    OfScientific α, LE α, LT α, BEq α where
  decLe : DecidableLE α
  decLt : DecidableLT α
  /-- Neither infinite nor undefined. -/
  isFinite : α → Bool
  /-- The total order in which lists of values are sorted. -/
  listedBefore : α → α → Bool

attribute [reducible, instance] Scalar.decLe Scalar.decLt

namespace Scalar

variable {α : Type} [Scalar α]

def abs (a : α) : α :=
  if a < 0 then -a else a

/-- Coefficients of at most this magnitude are dropped from expressions. -/
def negligible : α :=
  1e-12

/-- The sum of a list, added from the left. It starts from negative zero, so that a sum of
negative zeros is a negative zero. -/
def sum (values : List α) : α :=
  values.foldl (· + ·) (-0)

/-- A defined value other than positive infinity. -/
def belowInfinity (a : α) : Bool :=
  isFinite a || decide (a < 0)

/-- A defined value other than negative infinity. -/
def aboveNegInfinity (a : α) : Bool :=
  isFinite a || decide (0 < a)

end Scalar

/-- The place of a floating-point number in the total order: undefined values come first, and
negative zero precedes zero. -/
def floatRank (a : Float) : Int :=
  let bits := a.toBits.toNat
  if a.isNaN then -0x10000000000000000
  else if bits < 0x8000000000000000 then bits
  else 0x7fffffffffffffff - bits

instance : Scalar Float where
  zero := 0
  one := 1
  decLe := inferInstance
  decLt := inferInstance
  isFinite := Float.isFinite
  listedBefore a b := decide (floatRank a ≤ floatRank b)

instance : Scalar Rat where
  zero := 0
  one := 1
  decLe := inferInstance
  decLt := inferInstance
  isFinite _ := true
  listedBefore a b := decide (a ≤ b)

end PiecewiseLinear
