import PiecewiseLinear.Decimal.Numeral
import PiecewiseLinear.Scalar

/-! # Clipped numerals

A numeral can be read with one word and few operations: its leading digits are kept as far as
they fit into 64 bits, and the number is then multiplied or divided by powers of ten. Every step
rounds, so a numeral of more than 15 digits or of a large exponent may miss the nearest
floating-point number by some units in the last place.
-/

namespace PiecewiseLinear.Decimal

/-- Reads further digits of a number as long as it fits into 64 bits. Gives the number and the
digits that are left. -/
def takeDigits (number : Nat) : List Char → Nat × List Char
  | [] => (number, [])
  | digit :: rest =>
    let longer := 10 * number + (digit.toNat - 48)
    if longer < 0x10000000000000000 then takeDigits longer rest else (number, digit :: rest)

/-- The numeral with the digits that fit into 64 bits. Every digit before the point that does not
fit raises the exponent. Digits after the point are read on all the same, up to the first one
that does not fit. -/
def Written.clip (w : Written) : Numeral :=
  let (number, dropped) := takeDigits 0 w.whole
  let (number, unread) := takeDigits number w.fraction
  ⟨w.negative, number, w.exponent + dropped.length + unread.length - w.fraction.length⟩

variable {α : Type} [Scalar α]

/-- The largest power of ten by which a number is scaled at once. -/
def scaleLimit : Nat :=
  308

def powerOfTen (places : Nat) : α :=
  OfScientific.ofScientific 1 false places

/-- Multiplies by a power of ten, unless the product is out of range. -/
def scaleUp? (a : α) (places : Nat) : Option α :=
  if places ≤ scaleLimit then
    let product := a * powerOfTen places
    if Scalar.isFinite product then some product else none
  else if a == 0 then some a
  else none

/-- Divides by a power of ten, in as many steps as it takes. -/
def scaleDown (a : α) (places : Nat) : α :=
  if places ≤ scaleLimit then a / powerOfTen places
  else if a == 0 then a
  else scaleDown (a / powerOfTen scaleLimit) (places - scaleLimit)
termination_by places
decreasing_by simp only [scaleLimit] at *; omega

/-- The value of a numeral, scaled step by step. Numerals that are too large have none. -/
def Numeral.scaled? (n : Numeral) : Option α := do
  let number : α := OfScientific.ofScientific n.digits false 0
  let magnitude ←
    if n.exponent < 0 then some (scaleDown number n.exponent.natAbs)
    else scaleUp? number n.exponent.natAbs
  return if n.negative then -magnitude else magnitude

/-- Reads a numeral by its leading digits. -/
def readClipped? (text : List Char) : Option α := do
  (← Written.read? text).clip.scaled?

end PiecewiseLinear.Decimal
