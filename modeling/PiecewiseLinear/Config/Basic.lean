import PiecewiseLinear.Error

/-! # Configurations

A configuration says how a function is encoded, which ends of its domain are closed, and how far
a ray may reach in a model that has to bound it.
-/

namespace PiecewiseLinear

inductive Formulation
  /-- An indicator and an offset for every segment. -/
  | interval
  /-- Convex combinations of breakpoints. -/
  | convexity
  deriving DecidableEq

namespace Formulation

def name : Formulation → String
  | .interval => "interval"
  | .convexity => "convexity"

def ofName? : String → Option Formulation
  | "interval" => some .interval
  | "convexity" => some .convexity
  | _ => none

def all : List Formulation :=
  [.interval, .convexity]

/-- Reads a name as a user writes it; the case of ASCII letters does not count. -/
def parse {α : Type} (text : String) : Except (Error α) Formulation :=
  let lower := String.ofList (text.toList.map Char.toLower)
  match lower with
  | "interval" => .ok .interval
  | "intervals" => .ok .interval
  | "convexity" => .ok .convexity
  | "lambda" => .ok .convexity
  | _ => .error (.config (.unknownFormulation lower))

end Formulation

/-- The values that are admitted at a jump. -/
inductive JumpValues
  | endpoints
  /-- All values between the two ends. -/
  | span
  deriving DecidableEq

namespace JumpValues

def name : JumpValues → String
  | .endpoints => "endpoints"
  | .span => "span"

def ofName? : String → Option JumpValues
  | "endpoints" => some .endpoints
  | "span" => some .span
  | _ => none

end JumpValues

/-- What makes exactly one indicator active. -/
inductive Exclusivity
  | binary
  /-- Continuous indicators in a native set of the first type. -/
  | nativeSos1
  deriving DecidableEq

namespace Exclusivity

def name : Exclusivity → String
  | .binary => "binary"
  | .nativeSos1 => "native_sos1"

def title : Exclusivity → String
  | .binary => "Binary"
  | .nativeSos1 => "NativeSos1"

def ofName? : String → Option Exclusivity
  | "binary" => some .binary
  | "native_sos1" => some .nativeSos1
  | _ => none

end Exclusivity

/-- What keeps the weights of breakpoints on one segment. -/
inductive Adjacency
  /-- An indicator for every segment. -/
  | segment
  /-- Binary digits of a Gray code. -/
  | logarithmic
  /-- A native set of the second type. -/
  | nativeSos2
  deriving DecidableEq

namespace Adjacency

def name : Adjacency → String
  | .segment => "segment"
  | .logarithmic => "logarithmic"
  | .nativeSos2 => "native_sos2"

def title : Adjacency → String
  | .segment => "Segment"
  | .logarithmic => "Logarithmic"
  | .nativeSos2 => "NativeSos2"

def ofName? : String → Option Adjacency
  | "segment" => some .segment
  | "logarithmic" => some .logarithmic
  | "native_sos2" => some .nativeSos2
  | _ => none

end Adjacency

structure Config (α : Type) where
  formulation : Formulation
  /-- Whether the domain ends at the first breakpoint. -/
  boundLeft : Bool
  /-- Whether the domain ends at the last breakpoint. -/
  boundRight : Bool
  jumps : JumpValues
  exclusivity : Exclusivity
  /-- Only used by the convexity formulation. -/
  adjacency : Adjacency
  /-- The reach of a ray in a model without special ordered sets. -/
  rayLimit : α
  deriving DecidableEq

namespace Config

variable {α : Type} [Scalar α]

def interval : Config α :=
  ⟨.interval, true, true, .endpoints, .binary, .segment, 1e6⟩

def convexity : Config α :=
  { interval with formulation := .convexity }

instance : Inhabited (Config α) :=
  ⟨interval⟩

def withBounds (config : Config α) (left right : Bool) : Config α :=
  { config with boundLeft := left, boundRight := right }

def isBounded (config : Config α) : Bool :=
  config.boundLeft && config.boundRight

/-- The reach of rays has to be a positive finite number. -/
def isValid (config : Config α) : Bool :=
  Scalar.isFinite config.rayLimit && !decide (config.rayLimit ≤ 0)

def validate (config : Config α) : Except (Error α) Unit :=
  if config.isValid then .ok () else .error (.config (.rayLimit config.rayLimit))

instance : BEq (Config α) where
  beq a b := a.formulation == b.formulation && a.boundLeft == b.boundLeft &&
    a.boundRight == b.boundRight && a.jumps == b.jumps && a.exclusivity == b.exclusivity &&
    a.adjacency == b.adjacency && a.rayLimit == b.rayLimit

end Config

end PiecewiseLinear
