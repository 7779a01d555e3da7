import PiecewiseLinear.Expr.Linear

/-! # Errors

An error names its cause. Errors of breakpoint data are told apart from all others.
-/

namespace PiecewiseLinear

inductive ShapeFault (α : Type)
  | lengths (xs ys : Nat)
  | misalignedGap (position : Nat)
  | tooFewPoints
  | gapAtEnd
  | notFinite (position : Nat) (x y : α)
  /-- The second of two adjacent gaps. -/
  | adjacentGaps (position : Nat)
  | lonePoint (block : Nat)
  | decreasing (block : Nat) (x previous : α)
  | notBeyondGap (x previous : α)
  | described (text : String)
  deriving DecidableEq

inductive ConfigFault (α : Type)
  | rayLimit (value : α)
  | unknownFormulation (name : String)
  /-- The text is not a configuration document. -/
  | unreadable
  | described (text : String)
  deriving DecidableEq

inductive Unsupported
  | specialOrderedSets (count : Nat)
  | described (text : String)
  deriving DecidableEq

inductive Error (α : Type)
  | inputShape (fault : ShapeFault α)
  /-- All breakpoints of a block have the same `x`. -/
  | degenerate (block : Nat) (x : α)
  /-- More than two breakpoints of a block have the same `x`. -/
  | ambiguous (x : α) (occurrences : Nat)
  | unknownVariable (id : VarId)
  | config (fault : ConfigFault α)
  | unsupported (fault : Unsupported)
  /-- A text is not the JSON form of what is read. -/
  | unreadable
  | other (text : String)
  deriving DecidableEq

namespace Error

variable {α : Type}

/-- Whether the breakpoint data itself is at fault. -/
def isInputError : Error α → Bool
  | .inputShape _ => true
  | .degenerate .. => true
  | .ambiguous .. => true
  | _ => false

/-- An error with the contexts in which it arose, the outermost one last. -/
def inContexts (text : String) (contexts : List String) : Error α :=
  .other (contexts.foldl (fun inner context => context ++ ": " ++ inner) text)

end Error

variable {α : Type} [Numerals α]

open Numerals in
def ShapeFault.message : ShapeFault α → String
  | .lengths xs ys =>
    "x_points and y_points have different lengths (" ++ toString xs ++ " vs " ++ toString ys ++ ")"
  | .misalignedGap position =>
    "gap markers are misaligned at position " ++ toString position ++
      ": x and y must both be gaps or both be values"
  | .tooFewPoints => "piecewise linear functions require at least 2 points"
  | .gapAtEnd => "breakpoints cannot start or end with a gap"
  | .notFinite position x y =>
    "breakpoint " ++ toString position ++ " is not finite: (" ++ display x ++ ", " ++ display y ++
      ")"
  | .adjacentGaps position =>
    "consecutive gaps at positions " ++ toString (position - 1) ++ " and " ++ toString position
  | .lonePoint block =>
    "block " ++ toString block ++ " has a single breakpoint; every block needs at least 2"
  | .decreasing block x previous =>
    "x values must be non-decreasing within a block (block " ++ toString block ++ ": " ++
      display x ++ " after " ++ display previous ++ ")"
  | .notBeyondGap x previous =>
    "a value following a gap must be strictly greater than the value preceding it (" ++
      display x ++ " <= " ++ display previous ++ ")"
  | .described text => text

def ConfigFault.message : ConfigFault α → String
  | .rayLimit value =>
    "ray_limit must be a positive finite number, got " ++ Numerals.display value
  | .unknownFormulation name =>
    "unknown formulation '" ++ name ++ "'; supported values: interval, convexity"
  | .unreadable => ""
  | .described text => text

def Unsupported.message : Unsupported → String
  | .specialOrderedSets count =>
    "good_lp cannot express " ++ toString count ++ " special ordered set(s)"
  | .described text => text

def Error.message : Error α → String
  | .inputShape fault => "Input shape error: " ++ fault.message
  | .degenerate block x =>
    "Degenerate segment: block " ++ toString block ++ " has all breakpoints at x = " ++
      Numerals.display x
  | .ambiguous x occurrences =>
    "Ambiguous discontinuity: x = " ++ Numerals.display x ++ " occurs " ++ toString occurrences ++
      " times (at most 2 allowed)"
  | .unknownVariable id => "Unknown variable: " ++ VarId.display id
  | .config fault => "Configuration error: " ++ fault.message
  | .unsupported fault => "Unsupported: " ++ fault.message
  | .unreadable => "JSON error: "
  | .other text => text

end PiecewiseLinear
