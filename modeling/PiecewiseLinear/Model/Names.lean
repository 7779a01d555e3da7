/-! # Names

All names of a model come from one registry. A name that is taken gets the least number that
makes it free. To find it, the registry tries the name itself and then one number after another;
the numbers have 32 bits, and no count of tries is set in advance.
-/

namespace PiecewiseLinear

/-- The names in use. -/
structure Names where
  taken : List String

namespace Names

def empty : Names :=
  ⟨[]⟩

/-- The name itself, and then the name with the numbers from one. -/
def candidate (hint : String) : Nat → String
  | 0 => hint
  | n + 1 => hint ++ "_" ++ toString (n + 1)

/-- The least number whose candidate is free. There is one among the first candidates, as there
are more of them than names in use. -/
def freeNumber (names : Names) (hint : String) : Nat :=
  ((List.range (names.taken.length + 1)).find? fun n =>
    !names.taken.contains (candidate hint n)).getD 0

def fresh (names : Names) (hint : String) : String :=
  candidate hint (names.freeNumber hint)

def insert (names : Names) (name : String) : Names :=
  ⟨name :: names.taken⟩

/-- Puts a name into use if it is free, and answers whether it was. -/
def take (name : String) : StateM Names Bool := do
  if (← get).taken.contains name then return false
  modify fun names => names.insert name
  return true

/-- Where the search for a free name stands. -/
inductive Search
  /-- The hint itself is tried next. -/
  | bare
  /-- The hint with this number is tried next. -/
  | numbered (number : Int32)
  /-- This name was free. -/
  | found (name : String)
  /-- There is no number after the last one that was tried. -/
  | overflowed

namespace Search

/-- The next try. A search that has ended stays as it is. -/
def step (hint : String) : Search → StateM Names Search
  | bare => do
    if ← take hint then return found hint else return numbered 1
  | numbered number => do
    let name := hint ++ "_" ++ toString number
    if ← take name then return found name
    else if number = Int32.maxValue then return overflowed
    else return numbered (number + 1)
  | ended => return ended

/-- The search after a number of tries, and the names in use then. -/
def after (hint : String) (names : Names) : Nat → Search × Names
  | 0 => (bare, names)
  | tries + 1 =>
    let (search, names) := after hint names tries
    Id.run ((step hint search).run names)

end Search

end Names

end PiecewiseLinear
