import PiecewiseLinear.Json.Basic

/-! # Printing JSON

The compact form has no blanks. The indented form puts every item and member on a line of its
own, two blanks deeper than its container.
-/

namespace PiecewiseLinear.Json

def quote (raw : List Char) : List Char :=
  '"' :: raw ++ ['"']

def boolText (value : Bool) : List Char :=
  if value then ['t', 'r', 'u', 'e'] else ['f', 'a', 'l', 's', 'e']

mutual

def compact : Json → List Char
  | .null => ['n', 'u', 'l', 'l']
  | .bool value => boolText value
  | .number token => token
  | .string raw => quote raw
  | .array items => '[' :: compactItems items ++ [']']
  | .object members => '{' :: compactMembers members ++ ['}']

def compactItems : List Json → List Char
  | [] => []
  | item :: rest => compact item ++ compactMoreItems rest

def compactMoreItems : List Json → List Char
  | [] => []
  | item :: rest => ',' :: compact item ++ compactMoreItems rest

def compactMembers : List (List Char × Json) → List Char
  | [] => []
  | (key, value) :: rest => quote key ++ ':' :: compact value ++ compactMoreMembers rest

def compactMoreMembers : List (List Char × Json) → List Char
  | [] => []
  | (key, value) :: rest => ',' :: quote key ++ ':' :: compact value ++ compactMoreMembers rest

end

/-- A line break and the blanks of the given depth. -/
def newline (depth : Nat) : List Char :=
  '\n' :: List.replicate (2 * depth) ' '

mutual

/-- The indented form of a value at a depth. -/
def indented (depth : Nat) : Json → List Char
  | .null => ['n', 'u', 'l', 'l']
  | .bool value => boolText value
  | .number token => token
  | .string raw => quote raw
  | .array [] => ['[', ']']
  | .array (item :: rest) =>
    '[' :: newline (depth + 1) ++ indented (depth + 1) item ++ indentedItems (depth + 1) rest ++
      newline depth ++ [']']
  | .object [] => ['{', '}']
  | .object ((key, value) :: rest) =>
    '{' :: newline (depth + 1) ++ quote key ++ ':' :: ' ' :: indented (depth + 1) value ++
      indentedMembers (depth + 1) rest ++ newline depth ++ ['}']

def indentedItems (depth : Nat) : List Json → List Char
  | [] => []
  | item :: rest => ',' :: newline depth ++ indented depth item ++ indentedItems depth rest

def indentedMembers (depth : Nat) : List (List Char × Json) → List Char
  | [] => []
  | (key, value) :: rest =>
    ',' :: newline depth ++ quote key ++ ':' :: ' ' :: indented depth value ++
      indentedMembers depth rest

end

def toText (value : Json) : String :=
  String.ofList value.compact

def toPrettyText (value : Json) : String :=
  String.ofList (value.indented 0)

end PiecewiseLinear.Json
