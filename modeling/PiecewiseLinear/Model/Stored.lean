import PiecewiseLinear.Json.Printer
import PiecewiseLinear.Model.Basic

/-! # Stored models

A model is stored as an indented JSON record. The names in use are not stored; they are
collected again when the record is read. Numbers of variables are taken as they stand.
-/

namespace PiecewiseLinear.Model

variable {α : Type}

def namesOf (declarations : List (VarDecl α)) (equations : List (Equation α))
    (sosSets : List SosSet) : Names :=
  ⟨declarations.map VarDecl.name ++ equations.map Equation.name ++ sosSets.map SosSet.name⟩

variable [Scalar α] [Numerals α]

def toJson (m : Model α) : Json :=
  .ofFields [("variables", .ofList VarDecl.toJson m.declarations),
    ("equations", .ofList Equation.toJson m.equations),
    ("sos_sets", .ofList SosSet.toJson m.sosSets), ("sos_enabled", .bool m.sosEnabled)]

def ofJson? (value : Json) : Option (Model α) := do
  let fields ← value.fields? ["variables", "equations", "sos_sets", "sos_enabled"]
  let declarations ← Json.get? fields "variables" (Json.list? VarDecl.ofJson?)
  let equations ← Json.get? fields "equations" (Json.list? Equation.ofJson?)
  let sosSets ← Json.getD? fields "sos_sets" [] (Json.list? SosSet.ofJson?)
  let sosEnabled ← Json.getD? fields "sos_enabled" false Json.bool?
  return ⟨declarations, equations, sosSets, sosEnabled, namesOf declarations equations sosSets⟩

def store (m : Model α) : String :=
  m.toJson.toPrettyText

def load? (text : String) : Option (Model α) := do
  ofJson? (← Json.read? text.toList)

end PiecewiseLinear.Model
