import PiecewiseLinear.Json.Basic
import PiecewiseLinear.Json.Escape
import PiecewiseLinear.Numerals
import PiecewiseLinear.Toml.Value

/-! # Values without quotes

Truth values, integers, floats and dates are runs of letters, digits and signs. Underscores may
stand between digits.
-/

namespace PiecewiseLinear.Toml

/-- The digits of a run in which every underscore stands between two digits. -/
def digitRun? (isDigit : Char → Bool) : List Char → Option (List Char)
  | [] => none
  | [c] => if isDigit c then some [c] else none
  | c :: '_' :: rest => if isDigit c then (digitRun? isDigit rest).map (c :: ·) else none
  | c :: rest => if isDigit c then (digitRun? isDigit rest).map (c :: ·) else none

def isRunChar (c : Char) : Bool :=
  c.isDigit || c == '_'

/-- A decimal whole number without a leading zero. -/
def whole? (run : List Char) : Option (List Char) := do
  let digits ← digitRun? Char.isDigit run
  if Json.isWhole digits then return digits else none

/-- The integers are those of 64 bits. -/
def bounded? (n : Int) : Option Toml :=
  if -0x8000000000000000 ≤ n ∧ n < 0x8000000000000000 then some (.integer n) else none

def valueIn (base : Nat) (digits : List Char) : Nat :=
  digits.foldl (fun n c => base * n + (Json.hexDigit? c).getD 0) 0

/-- Whether a character is a digit of a base up to sixteen. -/
def isDigitOf (base : Nat) (c : Char) : Bool :=
  (Json.hexDigit? c).any fun d => decide (d < base)

/-- An integer in a base given by its first characters. -/
def readBased? (base : Nat) (run : List Char) : Option Toml := do
  let digits ← digitRun? (isDigitOf base) run
  bounded? (valueIn base digits)

def readDecimal? (token : List Char) : Option Toml := do
  let (negative, run) := Decimal.readSign token
  let digits ← whole? run
  let n : Int := Decimal.digitsValue digits
  bounded? (if negative then -n else n)

def readInteger? : List Char → Option Toml
  | '0' :: 'x' :: run => readBased? 16 run
  | '0' :: 'o' :: run => readBased? 8 run
  | '0' :: 'b' :: run => readBased? 2 run
  | token => readDecimal? token

/-- The exponent of a float without its underscores. -/
def exponent? : List Char → Option (List Char)
  | mark :: rest =>
    if mark == 'e' || mark == 'E' then do
      let (sign, run) := match rest with
        | '-' :: run => (['-'], run)
        | '+' :: run => ([], run)
        | run => ([], run)
      return 'e' :: sign ++ (← digitRun? Char.isDigit run)
    else none
  | [] => none

/-- The fraction and the exponent of a float without their underscores. A float has at least
one of the two. -/
def fraction? : List Char → Option (List Char)
  | '.' :: rest => do
    let (run, rest) := rest.span isRunChar
    let digits ← digitRun? Char.isDigit run
    match rest with
    | [] => return '.' :: digits
    | rest => return '.' :: digits ++ (← exponent? rest)
  | rest => exponent? rest

/-- A float in digits. Numbers that are too large are refused, while negative ones out of range
stand for negative infinity. -/
def readDigits? (token : List Char) : Option Toml := do
  let (negative, magnitude) := Decimal.readSign token
  let (run, rest) := magnitude.span isRunChar
  let plain := Decimal.withSign negative ((← whole? run) ++ (← fraction? rest))
  if negative || (Decimal.readFloat? plain).any Float.isFinite then return .float plain else none

def readNamed? (token : List Char) : Option Toml :=
  let (negative, name) := Decimal.readSign token
  if name == ['i', 'n', 'f'] || name == ['n', 'a', 'n'] then
    some (.float (Decimal.withSign negative name))
  else
    none

/-- A number of two digits in a range. -/
def pair? (least greatest : Nat) (a b : Char) : Option Nat := do
  let n := Decimal.digitsValue [a, b]
  if a.isDigit && b.isDigit && decide (least ≤ n ∧ n ≤ greatest) then return n else none

def daysIn (year month : Nat) : Nat :=
  if month = 2 then
    if year % 4 = 0 ∧ (year % 100 ≠ 0 ∨ year % 400 = 0) then 29 else 28
  else if month = 4 ∨ month = 6 ∨ month = 9 ∨ month = 11 then 30
  else 31

def takeDate? : List Char → Option (List Char)
  | y₁ :: y₂ :: y₃ :: y₄ :: '-' :: m₁ :: m₂ :: '-' :: d₁ :: d₂ :: rest => do
    let year := [y₁, y₂, y₃, y₄]
    let month ← pair? 1 12 m₁ m₂
    let _ ← pair? 1 (daysIn (Decimal.digitsValue year) month) d₁ d₂
    if year.all Char.isDigit then return rest else none
  | _ => none

def takeSecondFraction? : List Char → Option (List Char)
  | '.' :: rest =>
    let (digits, rest) := rest.span Char.isDigit
    if digits.isEmpty then none else some rest
  | rest => some rest

/-- Splits off a time of day. A minute may have a leap second. -/
def takeTime? : List Char → Option (List Char)
  | h₁ :: h₂ :: ':' :: m₁ :: m₂ :: ':' :: s₁ :: s₂ :: rest => do
    let _ ← pair? 0 23 h₁ h₂
    let _ ← pair? 0 59 m₁ m₂
    let _ ← pair? 0 60 s₁ s₂
    takeSecondFraction? rest
  | _ => none

/-- Whether a text is an offset from universal time, or nothing. -/
def isOffset : List Char → Bool
  | [] => true
  | [c] => c == 'Z' || c == 'z'
  | [sign, h₁, h₂, ':', m₁, m₂] =>
    (sign == '+' || sign == '-') && (pair? 0 23 h₁ h₂).isSome && (pair? 0 59 m₁ m₂).isSome
  | _ => false

/-- Whether a text is a time of day with an optional offset. -/
def isOffsetTime (text : List Char) : Bool :=
  (takeTime? text).any isOffset

def isDate (token : List Char) : Bool :=
  takeDate? token == some []

/-- Whether a text is a date, a time of day, or both with a separator between. -/
def isDatetime (token : List Char) : Bool :=
  match takeDate? token with
  | some [] => true
  | some (c :: rest) => (c == 'T' || c == 't') && isOffsetTime rest
  | none => takeTime? token == some []

def readBare? (token : List Char) : Option Toml :=
  if token == ['t', 'r', 'u', 'e'] then some (.boolean true)
  else if token == ['f', 'a', 'l', 's', 'e'] then some (.boolean false)
  else if isDatetime token then some .datetime
  else (readDigits? token).or ((readNamed? token).or (readInteger? token))

def isBareChar (c : Char) : Bool :=
  c.isAlphanum || c == '_' || c == '+' || c == '-' || c == '.' || c == ':'

/-- Reads a value without quotes. A date may go on with a time of day after one blank. -/
def readBareValue? (text : List Char) : Option (Toml × List Char) := do
  let (token, rest) := text.span isBareChar
  match isDate token, rest with
  | true, ' ' :: after =>
    let (time, afterTime) := after.span isBareChar
    if isOffsetTime time then return (.datetime, afterTime) else return (.datetime, rest)
  | _, _ => return (← readBare? token, rest)

end PiecewiseLinear.Toml
