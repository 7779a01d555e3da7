/-! # Strings in JSON

Quotes, backslashes and control characters are escaped. A `\u` escape stands for a UTF-16 unit,
so a character beyond the basic plane takes a pair of them; units without a partner stand for
nothing.
-/

namespace PiecewiseLinear.Json

/-- The lower-case hexadecimal digits of a byte. -/
def hexByte (n : Nat) : List Char :=
  [Nat.digitChar (n / 16), Nat.digitChar (n % 16)]

def escapeChar (c : Char) : List Char :=
  if c == '"' then ['\\', '"']
  else if c == '\\' then ['\\', '\\']
  else if c == '\n' then ['\\', 'n']
  else if c == '\r' then ['\\', 'r']
  else if c == '\t' then ['\\', 't']
  else if c == '\x08' then ['\\', 'b']
  else if c == '\x0c' then ['\\', 'f']
  else if c.toNat < 32 then ['\\', 'u', '0', '0'] ++ hexByte c.toNat
  else [c]

def escape (text : String) : List Char :=
  text.toList.flatMap escapeChar

/-- A part of a written string. -/
inductive Unit16
  | char (c : Char)
  | code (n : Nat)
  deriving DecidableEq

def hexDigit? (c : Char) : Option Nat :=
  if c.isDigit then some (c.toNat - 48)
  else if 'a' ≤ c ∧ c ≤ 'f' then some (c.toNat - 87)
  else if 'A' ≤ c ∧ c ≤ 'F' then some (c.toNat - 55)
  else none

def hexValue? (digits : List Char) : Option Nat :=
  digits.foldlM (fun n c => (hexDigit? c).map (16 * n + ·)) 0

/-- The character that a short escape stands for. -/
def shortEscape? : Char → Option Char
  | '"' => some '"'
  | '\\' => some '\\'
  | '/' => some '/'
  | 'b' => some '\x08'
  | 'f' => some '\x0c'
  | 'n' => some '\n'
  | 'r' => some '\r'
  | 't' => some '\t'
  | _ => none

def units? : List Char → Option (List Unit16)
  | [] => some []
  | '\\' :: 'u' :: a :: b :: c :: d :: rest => do
    let n ← hexValue? [a, b, c, d]
    let rest ← units? rest
    return .code n :: rest
  | '\\' :: c :: rest => do
    let c ← shortEscape? c
    let rest ← units? rest
    return .char c :: rest
  | c :: rest => do
    let rest ← units? rest
    return .char c :: rest

/-- The characters of a string, with the halves of surrogate pairs joined. -/
def joinUnits? : List Unit16 → Option (List Char)
  | [] => some []
  | .char c :: rest => (joinUnits? rest).map (c :: ·)
  | .code n :: rest =>
    if n < 0xd800 ∨ 0xe000 ≤ n then
      (joinUnits? rest).map (Char.ofNat n :: ·)
    else match rest with
      | .code m :: rest =>
        if n < 0xdc00 ∧ 0xdc00 ≤ m ∧ m < 0xe000 then
          (joinUnits? rest).map (Char.ofNat (0x10000 + (n - 0xd800) * 0x400 + (m - 0xdc00)) :: ·)
        else
          none
      | _ => none

def unescape? (raw : List Char) : Option String := do
  let units ← units? raw
  let chars ← joinUnits? units
  return String.ofList chars

end PiecewiseLinear.Json
