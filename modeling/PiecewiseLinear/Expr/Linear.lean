import PiecewiseLinear.Expr.Terms
import PiecewiseLinear.Json.Record

/-! # Linear expressions

A sum of scaled variables and a constant. Accumulating a term drops it when its coefficient
cancels, up to a small threshold.
-/

namespace PiecewiseLinear

structure LinearExpr (α : Type) where
  terms : Terms α
  constant : α

def VarId.display (v : VarId) : String :=
  "v" ++ toString v

namespace LinearExpr

variable {α : Type} [Scalar α]

def zero : LinearExpr α :=
  ⟨.empty, 0⟩

def ofConstant (c : α) : LinearExpr α :=
  ⟨.empty, c⟩

/-- The coefficient of a variable; zero when it does not occur. -/
def coefficient (e : LinearExpr α) (v : VarId) : α :=
  (e.terms.get? v).getD 0

/-- Adds `c · v`, and drops the variable when its coefficient is negligible. -/
def addTerm (e : LinearExpr α) (v : VarId) (c : α) : LinearExpr α :=
  let total := e.coefficient v + c
  if Scalar.abs total ≤ Scalar.negligible then ⟨e.terms.erase v, e.constant⟩
  else ⟨e.terms.insert v total, e.constant⟩

def addConstant (e : LinearExpr α) (c : α) : LinearExpr α :=
  ⟨e.terms, e.constant + c⟩

def addTerms (e : LinearExpr α) (terms : List (VarId × α)) : LinearExpr α :=
  terms.foldl (fun e term => e.addTerm term.1 term.2) e

def ofTerms (terms : List (VarId × α)) : LinearExpr α :=
  zero.addTerms terms

def sum (ids : List VarId) : LinearExpr α :=
  ofTerms (ids.map fun v => (v, 1))

def add (a b : LinearExpr α) : LinearExpr α :=
  (⟨a.terms, a.constant + b.constant⟩ : LinearExpr α).addTerms b.terms.entries

def sub (a b : LinearExpr α) : LinearExpr α :=
  (⟨a.terms, a.constant - b.constant⟩ : LinearExpr α).addTerms
    (b.terms.entries.map fun term => (term.1, -term.2))

def scale (e : LinearExpr α) (k : α) : LinearExpr α :=
  (ofConstant (e.constant * k)).addTerms (e.terms.entries.map fun term => (term.1, term.2 * k))

def neg (e : LinearExpr α) : LinearExpr α :=
  e.scale (-1)

def eval (e : LinearExpr α) (values : Assignment α) : α :=
  Scalar.sum (e.terms.entries.map fun term => term.2 * values term.1) + e.constant

instance : BEq (LinearExpr α) where
  beq a b := a.terms == b.terms && a.constant == b.constant

variable [Numerals α]

def displayTerm (term : VarId × α) : String :=
  if term.2 < 0 then " - " ++ Numerals.display (-term.2) ++ "*" ++ VarId.display term.1
  else " + " ++ Numerals.display term.2 ++ "*" ++ VarId.display term.1

/-- The text in messages. A constant is shown when there are no terms or when it is not zero. -/
def display (e : LinearExpr α) : String :=
  match e.terms.entries with
  | [] => Numerals.display e.constant
  | (v, c) :: rest =>
    let terms := Numerals.display c ++ "*" ++ VarId.display v ++ String.join (rest.map displayTerm)
    if e.constant == 0 then terms else terms ++ " + " ++ Numerals.display e.constant

/-- Terms are keyed by the decimal numbers of their variables. -/
def toJson (e : LinearExpr α) : Json :=
  let terms := e.terms.entries.map fun term => (Nat.toDigits 10 term.1, Json.ofScalar term.2)
  .ofFields [("terms", .object terms), ("constant", .ofScalar e.constant)]

/-- Reads keyed terms; of two terms with one key the later one counts. -/
def readTerms? : Json → Option (Terms α)
  | .object members => do
    let entries ← members.mapM fun member => do
      return (← Json.wordOfDigits? member.1, ← member.2.scalar?)
    return .ofEntries entries
  | _ => none

def ofJson? (value : Json) : Option (LinearExpr α) := do
  let fields ← value.fields? ["terms", "constant"]
  return {
    terms := ← Json.get? fields "terms" readTerms?
    constant := ← Json.get? fields "constant" Json.scalar? }

end LinearExpr

end PiecewiseLinear
