import PiecewiseLinear.Model.Variable

/-! # Symbols

Before variables have numbers, an encoding speaks of them by what they are for. An auxiliary
variable is told by its purpose, and so are the names of variables, rows and sets.
-/

namespace PiecewiseLinear

/-- An end of the breakpoint sequence. -/
inductive Side
  | left
  | right
  deriving DecidableEq

namespace Side

def name : Side → String
  | .left => "left"
  | .right => "right"

def ofName? : String → Option Side
  | "left" => some .left
  | "right" => some .right
  | _ => none

end Side

/-- The part that a variable plays for the caller. -/
inductive Role
  /-- Exactly one indicator is active. -/
  | indicator
  | selector
  /-- An offset in a segment or the weight of a breakpoint. -/
  | continuous
  /-- A ray, or what gates it. -/
  | gate
  deriving DecidableEq

/-- An auxiliary variable of an encoding. -/
inductive Aux
  /-- The indicator of a segment in the interval formulation. -/
  | branch (segment : Nat)
  /-- The distance along a segment, as a part of its width. -/
  | offset (segment : Nat)
  /-- The weight of a breakpoint. -/
  | weight (point : Nat)
  /-- The indicator of a segment in the convexity formulation. -/
  | pick (segment : Nat)
  /-- A digit of the Gray code of the active link. -/
  | gray (bit : Nat)
  /-- The side of a link on which all weight lies. -/
  | cut (link : Nat)
  /-- The distance along a ray. -/
  | ray (side : Side)
  /-- The indicator of a ray. -/
  | rayOn (side : Side)
  /-- The complement of the indicator of a ray. -/
  | rayOff (side : Side)
  deriving DecidableEq

namespace Aux

def role : Aux → Role
  | .branch _ => .indicator
  | .offset _ => .continuous
  | .weight _ => .continuous
  | .pick _ => .indicator
  | .gray _ => .selector
  | .cut _ => .selector
  | .ray _ => .gate
  | .rayOn _ => .indicator
  | .rayOff _ => .gate

/-- The name without the tag of its encoding. -/
def label : Aux → String
  | .branch segment => "b" ++ toString segment
  | .offset segment => "f" ++ toString segment
  | .weight point => "lambda" ++ toString point
  | .pick segment => "z" ++ toString segment
  | .gray bit => "gray" ++ toString bit
  | .cut link => "cut" ++ toString link
  | .ray side => "ray_" ++ side.name
  | .rayOn side => "ray_" ++ side.name ++ "_on"
  | .rayOff side => "ray_" ++ side.name ++ "_off"

end Aux

inductive Symbol
  | input
  | output
  | aux (a : Aux)
  deriving DecidableEq

/-- The purposes of rows and sets. -/
inductive Label
  /-- The weights sum to one. -/
  | weights
  /-- The indicators sum to one. -/
  | pick
  | linkX
  | linkY
  /-- An offset needs its indicator. -/
  | offset (segment : Nat)
  /-- A weight needs an indicator next to it. -/
  | adjacency (point : Nat)
  | grayOn (bit : Nat)
  | grayOff (bit : Nat)
  | cutLow (link : Nat)
  | cutHigh (link : Nat)
  | rayPair (side : Side)
  | rayGate (side : Side)
  /-- The weights in order. -/
  | chain
  /-- The indicators exclude each other. -/
  | exclusive
  deriving DecidableEq

def Label.text : Label → String
  | .weights => "weights"
  | .pick => "pick"
  | .linkX => "link_x"
  | .linkY => "link_y"
  | .offset segment => "off" ++ toString segment
  | .adjacency point => "adj" ++ toString point
  | .grayOn bit => "gray" ++ toString bit ++ "_on"
  | .grayOff bit => "gray" ++ toString bit ++ "_off"
  | .cutLow link => "cut" ++ toString link ++ "_lo"
  | .cutHigh link => "cut" ++ toString link ++ "_hi"
  | .rayPair side => "ray_" ++ side.name ++ "_pair"
  | .rayGate side => "ray_" ++ side.name ++ "_gate"
  | .chain => "chain"
  | .exclusive => "exclusive"

end PiecewiseLinear
