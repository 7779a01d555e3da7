import PiecewiseLinear.Json.Reader
import PiecewiseLinear.Numerals
import PiecewiseLinear.Scalar

/-! # Records in JSON

A record is an object, or an array of its fields in order. Its known fields appear at most once
and unknown ones are skipped without a look at their values. A named choice is a string, or an
object whose only member has the name as its key.
-/

namespace PiecewiseLinear.Json

variable {α : Type}

def ofString (text : String) : Json :=
  .string (escape text)

def ofNat (n : Nat) : Json :=
  .number (Nat.toDigits 10 n)

/-- A scalar. Values without a finite size are written as null. -/
def ofScalar [Scalar α] [Numerals α] (a : α) : Json :=
  if Scalar.isFinite a then .number (Numerals.jsonToken a) else .null

def ofFields (fields : List (String × Json)) : Json :=
  .object (fields.map fun field => (escape field.1, field.2))

def ofList {β : Type} (encode : β → Json) (values : List β) : Json :=
  .array (values.map encode)

def text? : Json → Option String
  | .string raw => unescape? raw
  | _ => none

def bool? : Json → Option Bool
  | .bool value => some value
  | _ => none

/-- The value of a digit run without leading zeros that fits into 64 bits. -/
def wordOfDigits? (digits : List Char) : Option Nat :=
  let value := Decimal.digitsValue digits
  if digits.all Char.isDigit && isWhole digits && decide (value < 0x10000000000000000) then
    some value
  else
    none

/-- An unsigned 64-bit integer. -/
def word? : Json → Option Nat
  | .number token => wordOfDigits? token
  | _ => none

def scalar? [Numerals α] : Json → Option α
  | .number token => Numerals.ofJsonToken? token
  | _ => none

def list? {β : Type} (decode? : Json → Option β) : Json → Option (List β)
  | .array items => items.mapM decode?
  | _ => none

/-- A value or null. -/
def nullable? {β : Type} (decode? : Json → Option β) : Json → Option (Option β)
  | .null => some none
  | value => (decode? value).map some

/-- The name of a choice without content. -/
def choice? : Json → Option String
  | .string raw => unescape? raw
  | .object [(raw, .null)] => unescape? raw
  | _ => none

/-- The members of an object with their keys read. -/
def namedMembers? (members : List (List Char × Json)) : Option (List (String × Json)) :=
  members.mapM fun member => (unescape? member.1).map fun key => (key, member.2)

/-- The fields of a record that are among the given ones. -/
def fields? (names : List String) : Json → Option (List (String × Json))
  | .array items =>
    if items.length ≤ names.length then some (names.zip items) else none
  | .object members => do
    let known := (← namedMembers? members).filter fun member => names.contains member.1
    if (known.map Prod.fst).Nodup then some known else none
  | _ => none

/-- The fields of a record that has no fields besides the given ones. -/
def exactFields? (names : List String) (value : Json) : Option (List (String × Json)) := do
  match value with
  | .object members =>
    let named ← namedMembers? members
    if named.all fun member => names.contains member.1 then pure () else none
  | _ => pure ()
  value.fields? names

/-- Reads a field of a record; it has to be there. -/
def get? {β : Type} (fields : List (String × Json)) (name : String) (decode? : Json → Option β) :
    Option β := do
  decode? (← fields.lookup name)

/-- Reads a field of a record that may be absent. -/
def getD? {β : Type} (fields : List (String × Json)) (name : String) (default : β)
    (decode? : Json → Option β) : Option β :=
  match fields.lookup name with
  | some value => decode? value
  | none => some default

mutual

/-- Whether all numbers are in range, all strings are texts, and containers are nested less than
`room` deep. -/
def isSound (room : Nat) : Json → Bool
  | .null => true
  | .bool _ => true
  | .number token => (Decimal.readClipped? token : Option Float).isSome
  | .string raw => (unescape? raw).isSome
  | .array items => decide (1 < room) && areSoundItems (room - 1) items
  | .object members => decide (1 < room) && areSoundMembers (room - 1) members

def areSoundItems (room : Nat) : List Json → Bool
  | [] => true
  | item :: rest => isSound room item && areSoundItems room rest

def areSoundMembers (room : Nat) : List (List Char × Json) → Bool
  | [] => true
  | (key, value) :: rest =>
    (unescape? key).isSome && isSound room value && areSoundMembers room rest

end

/-- The room for nested containers in a text that is read as a whole. -/
def depthLimit : Nat :=
  128

end PiecewiseLinear.Json
