import PiecewiseLinear.Decimal.Clipped
import PiecewiseLinear.Decimal.Layout
import PiecewiseLinear.Decimal.Numeral

/-! # Written scalars

Every text format has its own way of writing and reading scalars. The formats in use are
messages, JSON and TOML.
-/

namespace PiecewiseLinear

/-- The written forms of a scalar type. -/
class Numerals (α : Type) where
  display : α → String
  /-- The text in messages with a fixed count of decimal places. -/
  rounded : Nat → α → String
  /-- The JSON number that stands for a finite value. -/
  jsonToken : α → List Char
  /-- The finite value that a JSON number is read as, if it is not out of range. It may miss the
  nearest value in its last places. -/
  ofJsonToken? : List Char → Option α
  tomlToken : α → List Char
  /-- The value of a TOML float without its digit separators. -/
  ofTomlToken? : List Char → Option α
  /-- The value of a TOML integer. -/
  ofInt : Int → α

namespace Decimal

instance : Numerals Float where
  display x := String.ofList (Layout.message.write x)
  rounded places x := String.ofList (writeRounded places x)
  jsonToken x := Layout.json.write x
  ofJsonToken? := readClipped?
  tomlToken x := Layout.toml.write x
  ofTomlToken? := readFloat?
  ofInt n := Numeral.toFloat ⟨decide (n < 0), n.natAbs, 0⟩

end Decimal

end PiecewiseLinear
