/-! # TOML values and tables

A table remembers how it came about, because that decides how it may grow: a table opened by a
header is not opened again, a table made by a dotted key grows only by dotted keys, and an
inline table does not grow.
-/

namespace PiecewiseLinear

/-- How a table came about. -/
inductive Toml.Origin
  | inline
  | header
  /-- On the way to a table opened by a header. -/
  | implied
  | dotted
  deriving DecidableEq

inductive Toml
  | string (text : String)
  | integer (value : Int)
  /-- A float without its digit separators. -/
  | float (token : List Char)
  | boolean (value : Bool)
  | datetime
  | array (items : List Toml)
  | table (origin : Toml.Origin) (entries : List (String × Toml))
  /-- An array of tables. Only the last one, which is kept apart, may grow. -/
  | tables (closed : List (List (String × Toml))) (last : List (String × Toml))
  deriving Inhabited

namespace Toml

/-- The keys of a table with their values, in order. -/
abbrev Entries := List (String × Toml)

/-- Gives a key a new value at its place, or at the end. -/
def Entries.set (key : String) (value : Toml) : Entries → Entries
  | [] => [(key, value)]
  | (k, v) :: rest => if k = key then (key, value) :: rest else (k, v) :: Entries.set key value rest

/-- Adds a value under a key that is not in use. -/
def Entries.add? (key : String) (value : Toml) (entries : Entries) : Option Entries :=
  match entries.lookup key with
  | some _ => none
  | none => some (entries ++ [(key, value)])

/-- Changes the table at the end of the path of a header. Tables on the way come into being. -/
def Entries.within? (change : Entries → Option Entries) :
    List String → Entries → Option Entries
  | [], entries => change entries
  | key :: path, entries =>
    match entries.lookup key with
    | none => do
      let inner ← Entries.within? change path []
      return entries.set key (.table .implied inner)
    | some (.table origin inner) =>
      if origin = .inline then none
      else do
        let inner ← Entries.within? change path inner
        return entries.set key (.table origin inner)
    | some (.tables closed last) => do
      let last ← Entries.within? change path last
      return entries.set key (.tables closed last)
    | some _ => none

/-- Adds a value inside a table that a dotted key has reached. -/
def Entries.addBelow? (key : String) (value : Toml) (isDotted : Bool) :
    List String → Entries → Option Entries
  | [], entries => if isDotted then entries.add? key value else none
  | step :: path, entries =>
    match entries.lookup step with
    | none => do
      let inner ← Entries.addBelow? key value true path []
      return entries.set step (.table .dotted inner)
    | some (.table .dotted inner) => do
      let inner ← Entries.addBelow? key value true path inner
      return entries.set step (.table .dotted inner)
    | some (.table .implied inner) => do
      let inner ← Entries.addBelow? key value false path inner
      return entries.set step (.table .implied inner)
    | some (.tables closed last) => do
      let last ← Entries.addBelow? key value false path last
      return entries.set step (.tables closed last)
    | some _ => none

/-- Adds a value under a dotted key. -/
def Entries.addDotted? (path : List String) (key : String) (value : Toml) (entries : Entries) :
    Option Entries :=
  match path with
  | [] => entries.add? key value
  | _ => entries.addBelow? key value false path

/-- Opens the table of a header. It must not be there yet, except as implied by other headers. -/
def Entries.openTable? (key : String) (entries : Entries) : Option Entries :=
  match entries.lookup key with
  | none => some (entries.set key (.table .header []))
  | some (.table .implied inner) => some (entries.set key (.table .header inner))
  | some _ => none

/-- Starts a new table in an array of tables. -/
def Entries.openItem? (key : String) (entries : Entries) : Option Entries :=
  match entries.lookup key with
  | none => some (entries.set key (.tables [] []))
  | some (.tables closed last) => some (entries.set key (.tables (closed ++ [last]) []))
  | some _ => none

end Toml

end PiecewiseLinear
