import PiecewiseLinear.Expr.Equation
import PiecewiseLinear.Model.Names
import PiecewiseLinear.Model.SosSet
import PiecewiseLinear.Model.Variable

/-! # Models

A model is a growing record of variables, equations and special ordered sets. Variables are
numbered in order of declaration. Some models accept special ordered sets natively and others
do not; a set may be put into either, but encodings ask first.
-/

namespace PiecewiseLinear

structure Model (α : Type) where
  declarations : List (VarDecl α)
  equations : List (Equation α)
  sosSets : List SosSet
  /-- Whether special ordered sets are accepted natively. -/
  sosEnabled : Bool
  names : Names

namespace Model

variable {α : Type}

def empty (sosEnabled : Bool) : Model α :=
  ⟨[], [], [], sosEnabled, .empty⟩

/-- Declares a variable under a free name and returns its number. -/
def declare (m : Model α) (hint : String) (spec : VarSpec α) : VarId × Model α :=
  let id := m.declarations.length
  let name := m.names.fresh hint
  (id, { m with
    declarations := m.declarations ++ [⟨id, name, spec.kind, spec.lower, spec.upper⟩]
    names := m.names.insert name })

def attach (m : Model α) (e : Equation α) : Model α :=
  let name := m.names.fresh e.name
  { m with
    equations := m.equations ++ [{ e with name := name }]
    names := m.names.insert name }

def addSos (m : Model α) (set : SosSet) : Model α :=
  let name := m.names.fresh set.name
  { m with
    sosSets := m.sosSets ++ [{ set with name := name }]
    names := m.names.insert name }

def declaration? (m : Model α) (id : VarId) : Option (VarDecl α) :=
  m.declarations[id]?

def numBinaries [Scalar α] (m : Model α) : Nat :=
  m.declarations.countP VarDecl.isBinary

def summary [Scalar α] (m : Model α) : String :=
  let head := "Model Summary\n" ++ String.ofList (List.replicate 40 '=') ++ "\n" ++
    "Variables: " ++ toString m.declarations.length ++ " (" ++ toString m.numBinaries ++
    " binary)\n" ++ "Equations: " ++ toString m.equations.length ++ "\n"
  if m.sosSets.isEmpty then head
  else head ++ "SOS sets: " ++ toString m.sosSets.length ++ "\n"

end Model

end PiecewiseLinear
