import PiecewiseLinear.Expr.Linear

/-! # Equations

A named comparison of a linear expression with a number.
-/

namespace PiecewiseLinear

inductive Sense
  | le
  | ge
  | eq
  deriving DecidableEq

namespace Sense

def display : Sense → String
  | .le => "<="
  | .ge => ">="
  | .eq => "="

def name : Sense → String
  | .le => "le"
  | .ge => "ge"
  | .eq => "eq"

def ofName? : String → Option Sense
  | "le" => some .le
  | "ge" => some .ge
  | "eq" => some .eq
  | _ => none

end Sense

structure Equation (α : Type) where
  name : String
  lhs : LinearExpr α
  sense : Sense
  rhs : α

namespace Equation

variable {α : Type} [Scalar α]

/-- Compares an expression with a number. The constant of the expression moves to the right. -/
def of (name : String) (lhs : LinearExpr α) (sense : Sense) (rhs : α) : Equation α :=
  ⟨name, lhs.addConstant (-lhs.constant), sense, rhs - lhs.constant⟩

def isSatisfied (e : Equation α) (values : Assignment α) (tolerance : α) : Bool :=
  let lhs := e.lhs.eval values
  match e.sense with
  | .le => decide (lhs ≤ e.rhs + tolerance)
  | .ge => decide (e.rhs - tolerance ≤ lhs)
  | .eq => decide (Scalar.abs (lhs - e.rhs) ≤ tolerance)

instance : BEq (Equation α) where
  beq a b := a.name == b.name && a.lhs == b.lhs && a.sense == b.sense && a.rhs == b.rhs

variable [Numerals α]

def display (e : Equation α) : String :=
  e.name ++ ": " ++ e.lhs.display ++ " " ++ e.sense.display ++ " " ++ Numerals.display e.rhs

def toJson (e : Equation α) : Json :=
  .ofFields [("name", .ofString e.name), ("lhs", e.lhs.toJson), ("sense", .ofString e.sense.name),
    ("rhs", .ofScalar e.rhs)]

def ofJson? (value : Json) : Option (Equation α) := do
  let fields ← value.fields? ["name", "lhs", "sense", "rhs"]
  return {
    name := ← Json.get? fields "name" Json.text?
    lhs := ← Json.get? fields "lhs" LinearExpr.ofJson?
    sense := ← Json.get? fields "sense" fun choice => choice.choice? >>= Sense.ofName?
    rhs := ← Json.get? fields "rhs" Json.scalar? }

end Equation

end PiecewiseLinear
