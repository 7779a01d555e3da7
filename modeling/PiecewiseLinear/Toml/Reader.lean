import PiecewiseLinear.Toml.Bare
import PiecewiseLinear.Toml.Text
import PiecewiseLinear.Toml.Value

/-! # Reading TOML

A document is a sequence of statements, one a line: a key with a value, or the header of a
table. Only strings, arrays and what is inside them may run over several lines. At most every
second step of the reader takes no character, so the length of the text bounds the recursion.
-/

namespace PiecewiseLinear.Toml

def dropBlanks (text : List Char) : List Char :=
  text.dropWhile isBlank

def dropComment : List Char → List Char
  | '#' :: rest => rest.dropWhile isPlain
  | rest => rest

/-- Ends a line after blanks and a comment. -/
def endLine? (text : List Char) : Option (List Char) :=
  match dropComment (dropBlanks text) with
  | [] => some []
  | '\n' :: rest => some rest
  | '\r' :: '\n' :: rest => some rest
  | _ => none

/-- Drops blanks, comments and line breaks between the items of an array. -/
def dropLines? (text : List Char) : Option (List Char) :=
  go text.length text
where
  go : Nat → List Char → Option (List Char)
    | 0, rest => some rest
    | fuel + 1, text =>
      match dropBlanks text with
      | '#' :: rest =>
        match rest.dropWhile isPlain with
        | '\n' :: rest => go fuel rest
        | '\r' :: '\n' :: rest => go fuel rest
        | _ => none
      | '\n' :: rest => go fuel rest
      | '\r' :: '\n' :: rest => go fuel rest
      | rest => some rest

def isKeyChar (c : Char) : Bool :=
  c.isAlphanum || c == '_' || c == '-'

def readKeyPart? : List Char → Option (String × List Char)
  | '"' :: rest => readLine? '"' rest
  | '\x27' :: rest => readLine? '\x27' rest
  | text =>
    let (name, rest) := text.span isKeyChar
    if name.isEmpty then none else some (String.ofList name, rest)

/-- The parts of a key and the depth of values are limited. -/
def depthLimit : Nat :=
  80

/-- Reads a key: its parts are separated by points, with blanks around them. -/
def readKey? (text : List Char) : Option (List String × List Char) := do
  let (parts, rest) ← go text.length text
  if parts.length < depthLimit then return (parts, rest) else none
where
  go : Nat → List Char → Option (List String × List Char)
    | 0, _ => none
    | fuel + 1, text => do
      let (part, rest) ← readKeyPart? (dropBlanks text)
      match dropBlanks rest with
      | '.' :: rest =>
        let (parts, rest) ← go fuel rest
        return (part :: parts, rest)
      | rest => return ([part], rest)

mutual

/-- Reads a value. Arrays and inline tables take from the room for nested values. -/
def readValue? (fuel room : Nat) (text : List Char) : Option (Toml × List Char) :=
  match fuel with
  | 0 => none
  | fuel + 1 =>
    match text with
    | '[' :: rest =>
      if room ≤ 1 then none
      else do
        let (items, rest) ← readItems? fuel (room - 1) rest
        return (.array items, rest)
    | '{' :: rest =>
      if room ≤ 1 then none
      else
        match dropBlanks rest with
        | '}' :: rest => some (.table .inline [], rest)
        | rest => do
          let (entries, rest) ← readPairs? fuel (room - 1) [] rest
          return (.table .inline entries, rest)
    | '"' :: _ => (readString? text).map fun read => (.string read.1, read.2)
    | '\x27' :: _ => (readString? text).map fun read => (.string read.1, read.2)
    | text => readBareValue? text

/-- Reads the items of an array up to its end. -/
def readItems? (fuel room : Nat) (text : List Char) : Option (List Toml × List Char) :=
  match fuel with
  | 0 => none
  | fuel + 1 => do
    match ← dropLines? text with
    | ']' :: rest => return ([], rest)
    | text =>
      let (item, rest) ← readValue? fuel room text
      match ← dropLines? rest with
      | ',' :: rest =>
        let (items, rest) ← readItems? fuel room rest
        return (item :: items, rest)
      | ']' :: rest => return ([item], rest)
      | _ => none

/-- Reads the pairs of an inline table up to its end. -/
def readPairs? (fuel room : Nat) (entries : Entries) (text : List Char) :
    Option (Entries × List Char) :=
  match fuel with
  | 0 => none
  | fuel + 1 => do
    let (parts, rest) ← readKey? text
    let '=' :: rest := rest | none
    let (value, rest) ← readValue? fuel room (dropBlanks rest)
    let entries ← entries.addDotted? parts.dropLast (parts.getLast?.getD "") value
    match dropBlanks rest with
    | ',' :: rest => readPairs? fuel room entries rest
    | '}' :: rest => return (entries, rest)
    | _ => none

end

/-- The document so far, and the path of the table that keys go to. -/
structure Document where
  root : Entries
  path : List String

/-- Reads a header, up to its closing brackets. -/
def readHeader? (document : Document) (change : String → Entries → Option Entries)
    (text : List Char) : Option (Document × List Char) := do
  let (parts, rest) ← readKey? text
  let root ← document.root.within? (change (parts.getLast?.getD "")) parts.dropLast
  return (⟨root, parts⟩, rest)

def readPair? (document : Document) (text : List Char) : Option (Document × List Char) := do
  let (parts, rest) ← readKey? text
  let '=' :: rest := rest | none
  let (value, rest) ← readValue? (2 * text.length) depthLimit (dropBlanks rest)
  let root ← document.root.within?
    (Entries.addDotted? parts.dropLast (parts.getLast?.getD "") value) document.path
  return (⟨root, document.path⟩, rest)

/-- Reads one statement, up to but not including the end of its line. -/
def readStatement? (document : Document) : List Char → Option (Document × List Char)
  | '[' :: '[' :: rest => do
    let (document, rest) ← readHeader? document Entries.openItem? rest
    let ']' :: ']' :: rest := rest | none
    return (document, rest)
  | '[' :: rest => do
    let (document, rest) ← readHeader? document Entries.openTable? rest
    let ']' :: rest := rest | none
    return (document, rest)
  | text => readPair? document text

/-- Reads statements up to the end of the text. -/
def readStatements? (fuel : Nat) (document : Document) (text : List Char) : Option Entries :=
  match fuel with
  | 0 => none
  | fuel + 1 =>
    match dropBlanks text with
    | [] => some document.root
    | '#' :: rest => do readStatements? fuel document (← endLine? ('#' :: rest))
    | '\n' :: rest => readStatements? fuel document rest
    | '\r' :: '\n' :: rest => readStatements? fuel document rest
    | text => do
      let (document, rest) ← readStatement? document text
      readStatements? fuel document (← endLine? rest)

def dropByteOrderMark : List Char → List Char
  | '\ufeff' :: rest => rest
  | rest => rest

def readDocument? (text : List Char) : Option Entries :=
  readStatements? (text.length + 1) ⟨[], []⟩ (dropByteOrderMark text)

end PiecewiseLinear.Toml
