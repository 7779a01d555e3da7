import PiecewiseLinear.Error
import PiecewiseLinear.Model.Basic

/-! # Lowering

A model without special ordered sets is lowered to a linear program. Its variables are told by
their position among the declarations, and its constraints compare an expression with zero.
-/

namespace PiecewiseLinear

structure LpVariable (α : Type) where
  name : String
  min : Bound α
  max : Bound α
  isInteger : Bool

/-- A sum of scaled variables and a constant. Terms that cancel are kept. -/
structure LpExpr (α : Type) where
  terms : Terms α
  constant : α

/-- An expression that is zero, or at most zero. -/
structure LpConstraint (α : Type) where
  expr : LpExpr α
  isEquality : Bool

structure LinearProgram (α : Type) where
  columns : List (LpVariable α)
  constraints : List (LpConstraint α)
  /-- The position of every declared number. -/
  positions : Terms Nat

namespace LpExpr

variable {α : Type} [Scalar α]

def ofConstant (c : α) : LpExpr α :=
  ⟨.empty, c⟩

/-- Adds `c` times a variable, which counts as a sum with constant zero. -/
def addMul (e : LpExpr α) (c : α) (position : Nat) : LpExpr α :=
  ⟨e.terms.insert position ((e.terms.get? position).getD 0 + c), e.constant + c * 0⟩

def subConstant (e : LpExpr α) (c : α) : LpExpr α :=
  ⟨e.terms, e.constant - c⟩

def subFrom (e : LpExpr α) (c : α) : LpExpr α :=
  ⟨⟨e.terms.entries.map fun term => (term.1, 0 - term.2),
    List.pairwise_map.mpr e.terms.ascending⟩, c - e.constant⟩

end LpExpr

namespace LinearProgram

variable {α : Type} [Scalar α]

/-- The variable for a declaration. Binary variables are integers from zero to one, whatever
their bounds; bounds of other variables are used when they are finite. -/
def variableOf (decl : VarDecl α) : LpVariable α :=
  match decl.kind with
  | .binary => ⟨decl.name, .number 0, .number 1, true⟩
  | .continuous =>
    ⟨decl.name,
      match decl.lower with
      | .number l => if Scalar.isFinite l then .number l else .negInfinity
      | _ => .negInfinity,
      match decl.upper with
      | .number u => if Scalar.isFinite u then .number u else .infinity
      | _ => .infinity,
      false⟩

/-- The positions of declared numbers. Of two declarations of one number the later one
counts. -/
def positionsOf (declarations : List (VarDecl α)) : Terms Nat :=
  .ofEntries (declarations.zipIdx.map fun entry => (entry.1.id, entry.2))

/-- The expression over positions for one over numbers, if all of these are declared. The
smallest undeclared number is reported. -/
def expressionOf (positions : Terms Nat) (e : LinearExpr α) : Except (Error α) (LpExpr α) :=
  e.terms.entries.foldlM (fun out term =>
    match positions.get? term.1 with
    | some position => .ok (out.addMul term.2 position)
    | none => .error (.unknownVariable term.1)) (.ofConstant e.constant)

def constraintOf (positions : Terms Nat) (e : Equation α) : Except (Error α) (LpConstraint α) := do
  let lhs ← expressionOf positions e.lhs
  return match e.sense with
    | .le => ⟨lhs.subConstant e.rhs, false⟩
    | .ge => ⟨lhs.subFrom e.rhs, false⟩
    | .eq => ⟨lhs.subConstant e.rhs, true⟩

def ofModel (m : Model α) : Except (Error α) (LinearProgram α) := do
  if !m.sosSets.isEmpty then .error (.unsupported (.specialOrderedSets m.sosSets.length))
  let positions := positionsOf m.declarations
  let constraints ← m.equations.mapM (constraintOf positions)
  return ⟨m.declarations.map variableOf, constraints, positions⟩

/-- The expression of the program for one over numbers of the model. -/
def expression (p : LinearProgram α) (e : LinearExpr α) : Except (Error α) (LpExpr α) :=
  expressionOf p.positions e

def position? (p : LinearProgram α) (v : VarId) : Option Nat :=
  p.positions.get? v

end LinearProgram

end PiecewiseLinear
