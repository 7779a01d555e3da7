import PiecewiseLinear.Model.Basic

/-! # Violations

An assignment violates a model by values that a declaration does not admit, by equations that
do not hold, and by special ordered sets with too many members other than zero.
-/

namespace PiecewiseLinear

inductive Violation (α : Type)
  | variable (decl : VarDecl α) (value : α)
  | equation (equation : Equation α) (lhs : α)
  | sosSet (set : SosSet)

namespace Violation

variable {α : Type} [Scalar α] [Numerals α]

def display : Violation α → String
  | .variable decl value => decl.display ++ " = " ++ Numerals.display value
  | .equation e lhs => e.display ++ " (lhs = " ++ Numerals.display lhs ++ ")"
  | .sosSet set => set.kind.title ++ " set " ++ set.name ++ " violated"

end Violation

namespace Model

variable {α : Type} [Scalar α]

/-- Everything in a model that an assignment violates, in order of declarations, equations and
sets. -/
def violations (m : Model α) (values : Assignment α) (tolerance : α) : List (Violation α) :=
  (m.declarations.filter fun decl => !decl.admits (values decl.id) tolerance).map
      (fun decl => .variable decl (values decl.id)) ++
    (m.equations.filter fun e => !e.isSatisfied values tolerance).map
      (fun e => .equation e (e.lhs.eval values)) ++
    (m.sosSets.filter fun set => !set.isSatisfied values tolerance).map .sosSet

end Model

end PiecewiseLinear
