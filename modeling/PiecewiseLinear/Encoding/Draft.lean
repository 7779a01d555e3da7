import PiecewiseLinear.Config.Basic
import PiecewiseLinear.Encoding.Symbol
import PiecewiseLinear.Expr.Equation
import PiecewiseLinear.Model.SosSet

/-! # Drafts of encodings

A draft is an encoding over symbols. It states the input and the output as sums over auxiliary
variables, the sums that have to be one, and further rows and sets. Terms are listed as they
are added up.
-/

namespace PiecewiseLinear

/-- A comparison of a sum over symbols with a number. -/
structure Row (α : Type) where
  label : Label
  terms : List (Symbol × α)
  sense : Sense
  rhs : α

structure Group where
  label : Label
  kind : SosKind
  members : List Aux

structure RayDraft (α : Type) where
  side : Side
  slope : α

structure Draft (α : Type) where
  /-- The auxiliary variables in order of declaration. -/
  auxiliaries : List Aux
  /-- The sum that the input equals. -/
  x : List (Aux × α)
  /-- The sum that the output equals. -/
  y : List (Aux × α)
  /-- The sums that equal one. -/
  units : List (Label × List Aux)
  rows : List (Row α)
  groups : List Group
  rays : List (RayDraft α)

namespace Row

variable {α : Type}

/-- A row that bounds a sum over auxiliary variables from above. -/
def atMost (label : Label) (terms : List (Aux × α)) (rhs : α) : Row α :=
  ⟨label, terms.map fun term => (.aux term.1, term.2), .le, rhs⟩

/-- A row that fixes a sum over auxiliary variables. -/
def exactly (label : Label) (terms : List (Aux × α)) (rhs : α) : Row α :=
  ⟨label, terms.map fun term => (.aux term.1, term.2), .eq, rhs⟩

end Row

namespace Draft

variable {α : Type}

def withRole (d : Draft α) (role : Role) : List Aux :=
  d.auxiliaries.filter fun a => a.role = role

variable [Scalar α]

/-- The row that equates a symbol with a sum. -/
def linkRow (label : Label) (symbol : Symbol) (terms : List (Aux × α)) : Row α :=
  ⟨label, (symbol, 1) :: terms.map fun term => (.aux term.1, -term.2), .eq, 0⟩

def allRows (d : Draft α) : List (Row α) :=
  d.units.map (fun sum => .exactly sum.1 (sum.2.map fun a => (a, 1)) 1) ++
    [linkRow .linkX .input d.x, linkRow .linkY .output d.y] ++ d.rows

/-- All sets in order. Indicators that are not binary exclude each other by a set. -/
def allGroups (d : Draft α) (exclusivity : Exclusivity) : List Group :=
  match exclusivity with
  | .binary => d.groups
  | .nativeSos1 => d.groups ++ [⟨.exclusive, .sos1, d.withRole .indicator⟩]

end Draft

def Aux.spec {α : Type} [Scalar α] (exclusivity : Exclusivity) (a : Aux) : VarSpec α :=
  match a, a.role with
  | .ray _, _ => .nonNegative
  | _, .indicator =>
    match exclusivity with
    | .binary => .binary
    | .nativeSos1 => .unitInterval
  | _, .selector => .binary
  | _, .continuous => .unitInterval
  | _, .gate => .unitInterval

end PiecewiseLinear
