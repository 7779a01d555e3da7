import PiecewiseLinear.Numerals
import PiecewiseLinear.Scalar
import PiecewiseLinear.Json.Record

/-! # Bounds

A bound is a number or infinite. An infinite bound on its own side excludes nothing; on the
opposite side it excludes every finite value.
-/

namespace PiecewiseLinear

inductive Bound (α : Type)
  | negInfinity
  | number (value : α)
  | infinity
  deriving DecidableEq

namespace Bound

variable {α : Type} [Scalar α]

def ofScalar (a : α) : Bound α :=
  if Scalar.isFinite a then .number a
  else if 0 < a then .infinity
  else if a < 0 then .negInfinity
  else .number a

/-- Whether a value lies below the lower bound by more than the tolerance. -/
def exceeds (lower : Bound α) (tolerance value : α) : Bool :=
  match lower with
  | .negInfinity => false
  | .number l => decide (value < l - tolerance)
  | .infinity => Scalar.belowInfinity tolerance && Scalar.belowInfinity value

/-- Whether a value lies above the upper bound by more than the tolerance. -/
def exceededBy (upper : Bound α) (tolerance value : α) : Bool :=
  match upper with
  | .negInfinity => Scalar.belowInfinity tolerance && Scalar.aboveNegInfinity value
  | .number u => decide (u + tolerance < value)
  | .infinity => false

/-- The smaller of a bound and a value; the value when they are equal. -/
def min (bound : Bound α) (value : α) : Bound α :=
  match bound with
  | .negInfinity => .negInfinity
  | .number b => if value ≤ b then .number value else .number b
  | .infinity => .number value

/-- The larger of a bound and a value; the value when they are equal. -/
def max (bound : Bound α) (value : α) : Bound α :=
  match bound with
  | .negInfinity => .number value
  | .number b => if b ≤ value then .number value else .number b
  | .infinity => .infinity

variable [Numerals α]

def display : Bound α → String
  | .negInfinity => "-inf"
  | .number value => Numerals.display value
  | .infinity => "inf"

/-- Only finite bounds are written. -/
def toJson : Bound α → Json
  | .number value => Json.ofScalar value
  | _ => .null

/-- A number, or null for the given infinite bound. -/
def ofJson? (unbounded : Bound α) : Json → Option (Bound α)
  | .null => some unbounded
  | value => value.scalar?.map .number

end Bound

end PiecewiseLinear
