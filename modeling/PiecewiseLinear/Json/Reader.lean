import PiecewiseLinear.Json.Basic
import PiecewiseLinear.Json.Escape

/-! # Reading JSON

A text is cut into tokens, and a stack machine builds a value from them. Both run over their
input once, one element at a time.
-/

namespace PiecewiseLinear.Json

/-- Punctuation, a word without quotes, or a quoted string. -/
inductive Token
  | mark (c : Char)
  | word (text : List Char)
  | quoted (raw : List Char)
  deriving DecidableEq

/-- Where in a token the reader is. The token's characters so far are in reverse. -/
inductive Scan
  | between
  | word (soFar : List Char)
  | quoted (soFar : List Char)
  | escape (soFar : List Char)
  /-- Inside a `\u` escape, with the count of digits still to come. -/
  | hex (missing : Nat) (soFar : List Char)

/-- The tokens so far, in reverse, and the unfinished one. -/
structure Lexer where
  tokens : List Token
  scan : Scan

def isBlank (c : Char) : Bool :=
  c == ' ' || c == '\n' || c == '\t' || c == '\r'

def isMark (c : Char) : Bool :=
  c == '[' || c == ']' || c == '{' || c == '}' || c == ':' || c == ','

def Lexer.start (tokens : List Token) (c : Char) : Lexer :=
  if isBlank c then ⟨tokens, .between⟩
  else if isMark c then ⟨.mark c :: tokens, .between⟩
  else if c == '"' then ⟨tokens, .quoted []⟩
  else ⟨tokens, .word [c]⟩

def Lexer.step (lexer : Lexer) (c : Char) : Option Lexer :=
  match lexer.scan with
  | .between => some (Lexer.start lexer.tokens c)
  | .word soFar =>
    if isBlank c || isMark c || c == '"' then
      some (Lexer.start (.word soFar.reverse :: lexer.tokens) c)
    else
      some ⟨lexer.tokens, .word (c :: soFar)⟩
  | .quoted soFar =>
    if c == '"' then some ⟨.quoted soFar.reverse :: lexer.tokens, .between⟩
    else if c == '\\' then some ⟨lexer.tokens, .escape (c :: soFar)⟩
    else if c.toNat < 32 then none
    else some ⟨lexer.tokens, .quoted (c :: soFar)⟩
  | .escape soFar =>
    if c == 'u' then some ⟨lexer.tokens, .hex 4 (c :: soFar)⟩
    else if (shortEscape? c).isSome then some ⟨lexer.tokens, .quoted (c :: soFar)⟩
    else none
  | .hex missing soFar =>
    if (hexDigit? c).isNone then none
    else if missing ≤ 1 then some ⟨lexer.tokens, .quoted (c :: soFar)⟩
    else some ⟨lexer.tokens, .hex (missing - 1) (c :: soFar)⟩

/-- The tokens at the end of the text. A string has to be closed by then. -/
def Lexer.finish? (lexer : Lexer) : Option (List Token) :=
  match lexer.scan with
  | .between => some lexer.tokens.reverse
  | .word soFar => some (.word soFar.reverse :: lexer.tokens).reverse
  | _ => none

def tokens? (text : List Char) : Option (List Token) := do
  let lexer ← text.foldlM Lexer.step ⟨[], .between⟩
  lexer.finish?

/-- A container that is being read. Its parts so far are in reverse. -/
inductive Frame
  | array (items : List Json)
  | object (members : List (List Char × Json)) (key : List Char)

/-- What has been read, and what may follow. -/
inductive State
  /-- A value has to follow. -/
  | value (stack : List Frame)
  /-- A first item or the end of an array has to follow. -/
  | firstItem (stack : List Frame)
  /-- A comma or the end of an array has to follow. -/
  | nextItem (items : List Json) (stack : List Frame)
  /-- A first key or the end of an object has to follow. -/
  | firstKey (stack : List Frame)
  /-- A key has to follow. -/
  | anotherKey (members : List (List Char × Json)) (stack : List Frame)
  /-- A colon has to follow. -/
  | colon (members : List (List Char × Json)) (key : List Char) (stack : List Frame)
  /-- A comma or the end of an object has to follow. -/
  | nextKey (members : List (List Char × Json)) (stack : List Frame)
  /-- Nothing may follow. -/
  | done (value : Json)

/-- Puts a finished value into the innermost container. -/
def State.put (value : Json) : List Frame → State
  | [] => .done value
  | .array items :: stack => .nextItem (value :: items) stack
  | .object members key :: stack => .nextKey ((key, value) :: members) stack

/-- The value of a word without quotes. -/
def ofWord? (word : List Char) : Option Json :=
  if word == ['n', 'u', 'l', 'l'] then some .null
  else if word == ['t', 'r', 'u', 'e'] then some (.bool true)
  else if word == ['f', 'a', 'l', 's', 'e'] then some (.bool false)
  else if isNumber word then some (.number word)
  else none

/-- Reads a token where a value has to stand. -/
def State.begin? (stack : List Frame) : Token → Option State
  | .word word => (ofWord? word).map fun value => .put value stack
  | .quoted raw => some (.put (.string raw) stack)
  | .mark '[' => some (.firstItem stack)
  | .mark '{' => some (.firstKey stack)
  | .mark _ => none

def State.step : State → Token → Option State
  | .value stack, token => State.begin? stack token
  | .firstItem stack, .mark ']' => some (.put (.array []) stack)
  | .firstItem stack, token => State.begin? (.array [] :: stack) token
  | .nextItem items stack, .mark ',' => some (.value (.array items :: stack))
  | .nextItem items stack, .mark ']' => some (.put (.array items.reverse) stack)
  | .firstKey stack, .mark '}' => some (.put (.object []) stack)
  | .firstKey stack, .quoted key => some (.colon [] key stack)
  | .anotherKey members stack, .quoted key => some (.colon members key stack)
  | .colon members key stack, .mark ':' => some (.value (.object members key :: stack))
  | .nextKey members stack, .mark ',' => some (.anotherKey members stack)
  | .nextKey members stack, .mark '}' => some (.put (.object members.reverse) stack)
  | _, _ => none

def read? (text : List Char) : Option Json := do
  let tokens ← tokens? text
  match ← tokens.foldlM State.step (.value []) with
  | .done value => some value
  | _ => none

end PiecewiseLinear.Json
