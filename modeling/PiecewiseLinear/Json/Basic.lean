/-! # JSON values

Numbers and strings are kept as they are written: a number is its token and a string is the
text between its quotes. What they stand for is left to the reader of a value, so that a value
nobody reads may be a number out of range. Members of objects keep their order and may repeat.
-/

namespace PiecewiseLinear

inductive Json
  | null
  | bool (value : Bool)
  | number (token : List Char)
  | string (raw : List Char)
  | array (items : List Json)
  | object (members : List (List Char × Json))
  deriving Inhabited

namespace Json

/-- The exponent of a number token, or nothing. -/
def isExponent : List Char → Bool
  | [] => true
  | mark :: rest =>
    let digits := match rest with
      | '-' :: digits => digits
      | '+' :: digits => digits
      | digits => digits
    (mark == 'e' || mark == 'E') && !digits.isEmpty && digits.all Char.isDigit

/-- The fraction and the exponent of a number token, or nothing. -/
def isFraction : List Char → Bool
  | '.' :: rest =>
    let (digits, rest) := rest.span Char.isDigit
    !digits.isEmpty && isExponent rest
  | rest => isExponent rest

/-- Digits without a leading zero. -/
def isWhole : List Char → Bool
  | [] => false
  | ['0'] => true
  | first :: _ => first != '0'

def isNumber (token : List Char) : Bool :=
  let magnitude := match token with
    | '-' :: rest => rest
    | rest => rest
  let (whole, rest) := magnitude.span Char.isDigit
  isWhole whole && isFraction rest

end Json

end PiecewiseLinear
