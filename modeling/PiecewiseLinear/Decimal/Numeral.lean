/-! # Decimal numerals

A decimal numeral is a sign, a natural number and a power of ten. It is written with an optional
sign, digits with an optional point among them, and an optional exponent.
-/

namespace PiecewiseLinear.Decimal

def digitsValue (digits : List Char) : Nat :=
  Nat.ofDigitChars 10 digits 0

def width (n : Nat) : Nat :=
  (Nat.toDigits 10 n).length

/-- The number `digits · 10 ^ exponent`, or its negation. -/
structure Numeral where
  negative : Bool
  digits : Nat
  exponent : Int
  deriving DecidableEq

/-- A numeral as it is written, with the digits on both sides of the point. -/
structure Written where
  negative : Bool
  whole : List Char
  fraction : List Char
  exponent : Int

def readSign : List Char → Bool × List Char
  | '-' :: rest => (true, rest)
  | '+' :: rest => (false, rest)
  | rest => (false, rest)

/-- Reads an exponent that ends the text; no exponent stands for zero. -/
def readExponent? : List Char → Option Int
  | [] => some 0
  | mark :: rest =>
    let (negative, digits) := readSign rest
    if (mark == 'e' || mark == 'E') && !digits.isEmpty && digits.all Char.isDigit then
      some (if negative then -digitsValue digits else digitsValue digits)
    else
      none

def readFraction : List Char → List Char × List Char
  | '.' :: rest => rest.span Char.isDigit
  | rest => ([], rest)

/-- Reads a whole text as a numeral. At least one digit has to stand before or after the
point. -/
def Written.read? (text : List Char) : Option Written := do
  let (negative, text) := readSign text
  let (whole, text) := text.span Char.isDigit
  let (fraction, text) := readFraction text
  if whole.isEmpty && fraction.isEmpty then none
  return { negative, whole, fraction, exponent := ← readExponent? text }

def Written.value (w : Written) : Numeral :=
  ⟨w.negative, digitsValue (w.whole ++ w.fraction), w.exponent - w.fraction.length⟩

/-- The nearest floating-point number; infinite when the numeral is too large. -/
def Numeral.toFloat (n : Numeral) : Float :=
  let point : Int := width n.digits + n.exponent
  let magnitude : Float :=
    if n.digits = 0 ∨ point < -400 then 0
    else if 400 < point then 1 / 0
    else Float.ofScientific n.digits (decide (n.exponent < 0)) n.exponent.natAbs
  if n.negative then -magnitude else magnitude

/-- The names of the values that have no digits. -/
def readNamed? (text : List Char) : Option Float :=
  match String.ofList (text.map Char.toLower) with
  | "inf" | "infinity" => some (1 / 0)
  | "nan" => some (0 / 0)
  | _ => none

def readFloat? (text : List Char) : Option Float :=
  match Written.read? text with
  | some w => some w.value.toFloat
  | none =>
    let (negative, rest) := readSign text
    (readNamed? rest).map fun x => if negative then -x else x

end PiecewiseLinear.Decimal
