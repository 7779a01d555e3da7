import PiecewiseLinear.Error

/-! # Breakpoints

A piecewise-linear function is given by its breakpoints from left to right. A gap between two
of them leaves the function undefined there.
-/

namespace PiecewiseLinear

inductive Breakpoint (α : Type)
  | point (x y : α)
  | gap
  deriving DecidableEq

namespace Breakpoint

variable {α : Type}

def isGap : Breakpoint α → Bool
  | .gap => true
  | .point .. => false

/-- Pairs the coordinates from a position on. A gap is missing in both. -/
def zipFrom (position : Nat) : List (Option α) → List (Option α) →
    Except (Error α) (List (Breakpoint α))
  | some x :: xs, some y :: ys => (zipFrom (position + 1) xs ys).map (.point x y :: ·)
  | none :: xs, none :: ys => (zipFrom (position + 1) xs ys).map (.gap :: ·)
  | [], _ => .ok []
  | _, [] => .ok []
  | _, _ => .error (.inputShape (.misalignedGap position))

/-- Breakpoints of two aligned lists of coordinates, in which gaps are missing. -/
def ofOptions (xs ys : List (Option α)) : Except (Error α) (List (Breakpoint α)) :=
  if xs.length = ys.length then zipFrom 0 xs ys
  else .error (.inputShape (.lengths xs.length ys.length))

def ofCoordinates (xs ys : List α) : Except (Error α) (List (Breakpoint α)) :=
  if xs.length = ys.length then .ok (List.zipWith .point xs ys)
  else .error (.inputShape (.lengths xs.length ys.length))

variable [Scalar α] [Numerals α]

def toJson : Breakpoint α → Json
  | .point x y => .ofFields [("point", .ofFields [("x", .ofScalar x), ("y", .ofScalar y)])]
  | .gap => .ofString "gap"

def readPoint? (value : Json) : Option (Breakpoint α) := do
  let fields ← value.fields? ["x", "y"]
  return .point (← Json.get? fields "x" Json.scalar?) (← Json.get? fields "y" Json.scalar?)

def ofJson? (value : Json) : Option (Breakpoint α) :=
  match value with
  | .object [(raw, content)] =>
    match Json.unescape? raw, content with
    | some "gap", .null => some .gap
    | some "point", content => readPoint? content
    | _, _ => none
  | value => if value.choice? = some "gap" then some .gap else none

end Breakpoint

end PiecewiseLinear
