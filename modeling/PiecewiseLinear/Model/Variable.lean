import PiecewiseLinear.Bound
import PiecewiseLinear.Expr.Linear

/-! # Variables

A variable is continuous or binary and has a lower and an upper bound. A binary variable keeps
whatever bounds it is given and may besides be only zero or one.
-/

namespace PiecewiseLinear

inductive VarKind
  | continuous
  | binary
  deriving DecidableEq

namespace VarKind

def name : VarKind → String
  | .continuous => "continuous"
  | .binary => "binary"

def ofName? : String → Option VarKind
  | "continuous" => some .continuous
  | "binary" => some .binary
  | _ => none

def ofJson? (value : Json) : Option VarKind :=
  value.choice? >>= ofName?

end VarKind

/-- What is asked of a variable to be declared. -/
structure VarSpec (α : Type) where
  kind : VarKind
  lower : Bound α
  upper : Bound α

namespace VarSpec

variable {α : Type} [Scalar α]

def binary : VarSpec α :=
  ⟨.binary, .number 0, .number 1⟩

/-- A continuous variable without bounds. -/
def free : VarSpec α :=
  ⟨.continuous, .negInfinity, .infinity⟩

def continuous (lower upper : Bound α) : VarSpec α :=
  ⟨.continuous, lower, upper⟩

/-- A continuous variable from zero to one. -/
def unitInterval : VarSpec α :=
  continuous (.number 0) (.number 1)

def nonNegative : VarSpec α :=
  continuous (.number 0) .infinity

/-- Replaces the lower bound. -/
def min (spec : VarSpec α) (lower : Bound α) : VarSpec α :=
  ⟨spec.kind, lower, spec.upper⟩

/-- Replaces the upper bound. -/
def max (spec : VarSpec α) (upper : Bound α) : VarSpec α :=
  ⟨spec.kind, spec.lower, upper⟩

def isBinary (spec : VarSpec α) : Bool :=
  spec.kind == .binary

variable [Numerals α]

def toJson (spec : VarSpec α) : Json :=
  .ofFields [("kind", .ofString spec.kind.name), ("lower", spec.lower.toJson),
    ("upper", spec.upper.toJson)]

def ofJson? (value : Json) : Option (VarSpec α) := do
  let fields ← value.fields? ["kind", "lower", "upper"]
  return {
    kind := ← Json.get? fields "kind" VarKind.ofJson?
    lower := ← Json.get? fields "lower" (Bound.ofJson? .negInfinity)
    upper := ← Json.get? fields "upper" (Bound.ofJson? .infinity) }

end VarSpec

structure VarDecl (α : Type) where
  id : VarId
  name : String
  kind : VarKind
  lower : Bound α
  upper : Bound α

namespace VarDecl

variable {α : Type} [Scalar α]

def isBinary (decl : VarDecl α) : Bool :=
  decl.kind == .binary

/-- Whether a value is allowed by a kind, up to a tolerance. -/
def kindAdmits (kind : VarKind) (value tolerance : α) : Bool :=
  match kind with
  | .continuous => true
  | .binary =>
    decide (Scalar.abs value ≤ tolerance) || decide (Scalar.abs (value - 1) ≤ tolerance)

/-- Whether a value respects the bounds and the kind, up to a tolerance. -/
def admits (decl : VarDecl α) (value tolerance : α) : Bool :=
  !decl.lower.exceeds tolerance value && !decl.upper.exceededBy tolerance value &&
    kindAdmits decl.kind value tolerance

variable [Numerals α]

def display (decl : VarDecl α) : String :=
  let named := decl.name ++ " (" ++ VarId.display decl.id ++ ")"
  match decl.kind with
  | .binary => named ++ " binary"
  | .continuous => named ++ " in [" ++ decl.lower.display ++ ", " ++ decl.upper.display ++ "]"

def toJson (decl : VarDecl α) : Json :=
  .ofFields [("id", .ofNat decl.id), ("name", .ofString decl.name),
    ("kind", .ofString decl.kind.name), ("lower", decl.lower.toJson), ("upper", decl.upper.toJson)]

def ofJson? (value : Json) : Option (VarDecl α) := do
  let fields ← value.fields? ["id", "name", "kind", "lower", "upper"]
  return {
    id := ← Json.get? fields "id" Json.word?
    name := ← Json.get? fields "name" Json.text?
    kind := ← Json.get? fields "kind" VarKind.ofJson?
    lower := ← Json.get? fields "lower" (Bound.ofJson? .negInfinity)
    upper := ← Json.get? fields "upper" (Bound.ofJson? .infinity) }

end VarDecl

end PiecewiseLinear
