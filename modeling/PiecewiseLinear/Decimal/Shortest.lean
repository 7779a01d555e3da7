import PiecewiseLinear.Decimal.Numeral

/-! # Shortest decimals

A finite floating-point number is a natural number times a power of two, and every real number
in an interval around it rounds to it. The shortest decimal is the one with the fewest digits
in that interval, and of those with the same number of digits the nearest.
-/

namespace PiecewiseLinear.Decimal

/-- The number `significand · 2 ^ exponent`. -/
structure Dyadic where
  significand : Nat
  exponent : Int

/-- The least significand of a number of full precision, `2 ^ 52`. -/
def leastFull : Nat :=
  0x10000000000000

/-- The magnitude of a finite floating-point number. -/
def Dyadic.ofFloat (x : Float) : Dyadic :=
  let bits := x.toBits.toNat
  let fraction := bits % leastFull
  match bits / leastFull % 2048 with
  | 0 => ⟨fraction, -1074⟩
  | e + 1 => ⟨leastFull + fraction, (e : Int) - 1074⟩

/-- Which of two equally near neighbours is taken. -/
inductive Tie
  | toEven
  | up
  deriving DecidableEq

namespace Dyadic

/-- The numerator and the denominator of `2 ^ exponent / 10 ^ places`. -/
def scale (v : Dyadic) (places : Int) : Nat × Nat :=
  (Nat.pow 2 v.exponent.toNat * Nat.pow 10 (-places).toNat,
    Nat.pow 2 (-v.exponent).toNat * Nat.pow 10 places.toNat)

/-- The position of the decimal point relative to the first digit of a positive number: the
number lies from `10 ^ (p - 1)` up to but not including `10 ^ p`. As `10 ^ (n / 3 + 1)` exceeds
`2 ^ n`, the scaled number is at least one. -/
def point (v : Dyadic) : Int :=
  let places := (-v.exponent).toNat / 3 + 1
  let (num, den) := v.scale (-places)
  width (v.significand * num / den) - places

/-- Four times the ends of the interval of real numbers that round to the given one, in units
of its last place. The next smaller number is only half as far away below a power of two. -/
def interval (v : Dyadic) : Nat × Nat :=
  (if v.significand = leastFull ∧ -1074 < v.exponent then 4 * v.significand - 1
    else 4 * v.significand - 2,
   4 * v.significand + 2)

/-- Whether `c · 10 ^ places` rounds to the given number. The ends of the interval belong to it
when the significand is even. -/
def contains (v : Dyadic) (places : Int) (c : Nat) : Bool :=
  let (num, den) := v.scale places
  let (low, high) := v.interval
  if v.significand % 2 = 0 then decide (low * num ≤ 4 * c * den ∧ 4 * c * den ≤ high * num)
  else decide (low * num < 4 * c * den ∧ 4 * c * den < high * num)

/-- The better of the two multiples of `10 ^ places` next to the number, if one rounds to
it. -/
def candidate? (v : Dyadic) (tie : Tie) (places : Int) : Option Nat :=
  let (num, den) := v.scale places
  let below := v.significand * num / den
  let twice := 2 * v.significand * num
  let middle := (2 * below + 1) * den
  let nearer :=
    if twice < middle then below
    else if middle < twice then below + 1
    else match tie with
      | .toEven => if below % 2 = 0 then below else below + 1
      | .up => below + 1
  match v.contains places below, v.contains places (below + 1) with
  | true, true => some nearer
  | true, false => some below
  | false, true => some (below + 1)
  | false, false => none

/-- Drops up to `n` trailing zeros. -/
def trimZeros : Nat → Nat → Int → Nat × Int
  | 0, digits, exponent => (digits, exponent)
  | n + 1, digits, exponent =>
    if digits % 10 = 0 then trimZeros n (digits / 10) (exponent + 1) else (digits, exponent)

/-- The shortest decimal of a positive number: its digits and the power of ten of the last
one. Seventeen digits are always enough. -/
def shortest (v : Dyadic) (tie : Tie) : Nat × Int :=
  let first := v.point - 1
  let found := (List.range 17).findSome? fun (i : Nat) =>
    (v.candidate? tie (first - i)).map fun digits => (digits, first - i)
  let (digits, exponent) := found.getD (0, 0)
  trimZeros 17 digits exponent

/-- The integer nearest to `significand · 2 ^ exponent · 10 ^ places`; a half goes to the even
neighbour. -/
def roundedAt (v : Dyadic) (places : Nat) : Nat :=
  let (num, den) := v.scale (-places)
  let below := v.significand * num / den
  let rest := v.significand * num % den
  if 2 * rest < den ∨ 2 * rest = den ∧ below % 2 = 0 then below else below + 1

end Dyadic

end PiecewiseLinear.Decimal
