import PiecewiseLinear.Decimal.Shortest

/-! # Layouts of decimals

The same shortest digits are laid out differently in messages, in JSON and in TOML. A layout
records those decisions.
-/

namespace PiecewiseLinear.Decimal

/-- The decisions of a format about its numbers. -/
structure Layout where
  tie : Tie
  /-- Whether a number with its decimal point at this position is written without an
  exponent. -/
  positional : Int → Bool
  /-- Whether integral numbers are written with a zero after the point. -/
  pointZero : Bool
  notANumber : String

/-- Messages never use exponents and write integral numbers without a point. -/
def Layout.message : Layout :=
  ⟨.up, fun _ => true, false, "NaN"⟩

/-- JSON uses exponents below `1e-5` and from `1e16` on. -/
def Layout.json : Layout :=
  ⟨.toEven, fun point => decide (-4 ≤ point ∧ point ≤ 16), true, "null"⟩

/-- TOML never uses exponents and always writes a point. -/
def Layout.toml : Layout :=
  ⟨.up, fun _ => true, true, "nan"⟩

/-- The digits with the decimal point after the first `point` of them. -/
def placePoint (digits : List Char) (point : Int) (pointZero : Bool) : List Char :=
  if point ≤ 0 then
    '0' :: '.' :: List.replicate (-point).toNat '0' ++ digits
  else if digits.length ≤ point.toNat then
    digits ++ List.replicate (point.toNat - digits.length) '0' ++
      if pointZero then ['.', '0'] else []
  else
    digits.take point.toNat ++ '.' :: digits.drop point.toNat

/-- The digits with the decimal point after the first one, and a signed exponent. -/
def placeExponent (digits : List Char) (point : Int) : List Char :=
  let exponent := point - 1
  let mantissa := match digits with
    | first :: second :: rest => first :: '.' :: second :: rest
    | digits => digits
  mantissa ++ 'e' :: (if exponent < 0 then '-' else '+') :: Nat.toDigits 10 exponent.natAbs

/-- The text of the magnitude of a finite number. -/
def Layout.magnitude (layout : Layout) (v : Dyadic) : List Char :=
  if v.significand = 0 then
    if layout.pointZero then ['0', '.', '0'] else ['0']
  else
    let (digits, exponent) := v.shortest layout.tie
    let digits := Nat.toDigits 10 digits
    let point : Int := digits.length + exponent
    if layout.positional point then placePoint digits point layout.pointZero
    else placeExponent digits point

def signed (x : Float) : Bool :=
  decide (0x8000000000000000 ≤ x.toBits.toNat)

def withSign (negative : Bool) (text : List Char) : List Char :=
  if negative then '-' :: text else text

def Layout.write (layout : Layout) (x : Float) : List Char :=
  if x.isNaN then layout.notANumber.toList
  else if x.isInf then withSign (signed x) ['i', 'n', 'f']
  else withSign (signed x) (layout.magnitude (.ofFloat x))

/-- The text of a number rounded to a fixed count of decimal places. The sign of a negative
number stays when it rounds to zero. -/
def writeRounded (places : Nat) (x : Float) : List Char :=
  if x.isNaN then ['N', 'a', 'N']
  else if x.isInf then withSign (signed x) ['i', 'n', 'f']
  else
    let digits := Nat.toDigits 10 ((Dyadic.ofFloat x).roundedAt places)
    let digits := List.replicate (places + 1 - digits.length) '0' ++ digits
    withSign (signed x) (placePoint digits (digits.length - places) false)

end PiecewiseLinear.Decimal
