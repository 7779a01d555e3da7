import PiecewiseLinear.Json.Escape

/-! # Strings in TOML

Basic strings have escapes and literal strings have none. Both may be written over several
lines between tripled quotes, where up to two quotes in a row stand for themselves.
-/

namespace PiecewiseLinear.Toml

def isBlank (c : Char) : Bool :=
  c == ' ' || c == '\t'

/-- Characters that comments and strings may hold. -/
def isPlain (c : Char) : Bool :=
  c == '\t' || (decide (32 ≤ c.toNat) && c != '\x7f')

/-- The character that a code point stands for. -/
def ofCodePoint? (digits : List Char) : Option Char := do
  let n ← Json.hexValue? digits
  if n.isValidChar then some (Char.ofNat n) else none

/-- The character that a short escape stands for. -/
def shortEscape? : Char → Option Char
  | '"' => some '"'
  | '\\' => some '\\'
  | 'b' => some '\x08'
  | 'f' => some '\x0c'
  | 'n' => some '\n'
  | 'r' => some '\r'
  | 't' => some '\t'
  | _ => none

/-- Where a text over several lines stands: in the text, after a backslash on its line, or
after the line break that the backslash removed. -/
inductive Trim
  | none
  | line
  | lines
  deriving DecidableEq

/-- The characters that a basic string stands for. A backslash at the end of a line removes the
line break and the blanks after it. -/
def unescape? : Trim → List Char → Option (List Char)
  | .line, [] => Option.none
  | _, [] => some []
  | .line, '\r' :: '\n' :: rest => unescape? .lines rest
  | .lines, '\r' :: '\n' :: rest => unescape? .lines rest
  | .line, c :: rest =>
    if c == '\n' then unescape? .lines rest
    else if isBlank c then unescape? .line rest
    else Option.none
  | .lines, '\n' :: rest => unescape? .lines rest
  | .lines, ' ' :: rest => unescape? .lines rest
  | .lines, '\t' :: rest => unescape? .lines rest
  | _, '\\' :: 'u' :: a :: b :: c :: d :: rest => do
    let c ← ofCodePoint? [a, b, c, d]
    return c :: (← unescape? .none rest)
  | _, '\\' :: 'U' :: a :: b :: c :: d :: e :: f :: g :: h :: rest => do
    let c ← ofCodePoint? [a, b, c, d, e, f, g, h]
    return c :: (← unescape? .none rest)
  | _, '\\' :: '\r' :: '\n' :: rest => unescape? .lines rest
  | _, '\\' :: c :: rest =>
    if c == '\n' then unescape? .lines rest
    else if isBlank c then unescape? .line rest
    else do
      let c ← shortEscape? c
      return c :: (← unescape? .none rest)
  | _, '\r' :: '\n' :: rest => do
    return '\n' :: (← unescape? .none rest)
  | _, c :: rest => do
    return c :: (← unescape? .none rest)

/-- Splits off a string on one line, up to its closing quote. -/
def takeLine? (quote : Char) (escapes : Bool) : List Char → Option (List Char × List Char)
  | [] => none
  | c :: rest =>
    if c == quote then some ([], rest)
    else if escapes && c == '\\' then
      match rest with
      | [] => none
      | d :: rest =>
        if isPlain d then do
          let (raw, rest) ← takeLine? quote escapes rest
          return (c :: d :: raw, rest)
        else none
    else if isPlain c then do
      let (raw, rest) ← takeLine? quote escapes rest
      return (c :: raw, rest)
    else none

/-- Splits off a string over several lines, up to its closing quotes. -/
def takeLines? (quote : Char) (escapes : Bool) : List Char → Option (List Char × List Char)
  | [] => none
  | [_] => none
  | [_, _] => none
  | a :: b :: c :: rest =>
    if a == quote && b == quote && c == quote then
      match rest with
      | d :: e :: after =>
        if d == quote && e == quote then some ([quote, quote], after)
        else if d == quote then some ([quote], e :: after)
        else some ([], rest)
      | [d] => if d == quote then some ([quote], []) else some ([], rest)
      | [] => some ([], [])
    else if escapes && a == '\\' then
      if isPlain b || b == '\n' || (b == '\r' && c == '\n') then do
        let (raw, rest) ← takeLines? quote escapes (c :: rest)
        return (a :: b :: raw, rest)
      else none
    else if isPlain a || a == '\n' || (a == '\r' && b == '\n') then do
      let (raw, rest) ← takeLines? quote escapes (b :: c :: rest)
      return (a :: raw, rest)
    else none

def dropNewline : List Char → List Char
  | '\n' :: rest => rest
  | '\r' :: '\n' :: rest => rest
  | rest => rest

/-- Reads a string on one line after its opening quote. -/
def readLine? (quote : Char) (text : List Char) : Option (String × List Char) := do
  let (raw, rest) ← takeLine? quote (quote == '"') text
  let chars ← if quote == '"' then unescape? .none raw else some raw
  return (String.ofList chars, rest)

/-- Reads a string over several lines after its opening quotes. -/
def readLines? (quote : Char) (text : List Char) : Option (String × List Char) := do
  let (raw, rest) ← takeLines? quote (quote == '"') (dropNewline text)
  let chars ← if quote == '"' then unescape? .none raw else some raw
  return (String.ofList chars, rest)

def readString? : List Char → Option (String × List Char)
  | '"' :: '"' :: '"' :: rest => readLines? '"' rest
  | '\x27' :: '\x27' :: '\x27' :: rest => readLines? '\x27' rest
  | '"' :: rest => readLine? '"' rest
  | '\x27' :: rest => readLine? '\x27' rest
  | _ => none

end PiecewiseLinear.Toml
