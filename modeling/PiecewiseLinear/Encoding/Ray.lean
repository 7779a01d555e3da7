import PiecewiseLinear.Encoding.Draft
import PiecewiseLinear.Table.Query

/-! # Rays

At an open end the outermost segment goes on as a ray. A ray has an indicator that joins every
sum that equals one, so an active ray switches off everything else. An inactive ray has no
length: by a native set where the model has them, and else by a limit on its length.
-/

namespace PiecewiseLinear

/-- The breakpoint at an end, and the slope of the segment there. -/
structure RayStart (α : Type) where
  x : α
  y : α
  slope : α

namespace Ray

variable {α : Type} [Scalar α]

def start? (t : SegmentTable α) : Side → Option (RayStart α)
  | .left => do
    let (x, y) ← t.points.head?
    return ⟨x, y, (← t.firstSegment?).slope⟩
  | .right => do
    let (x, y) ← t.points.getLast?
    return ⟨x, y, (← t.lastSegment?).slope⟩

/-- The direction in which a ray changes the input. -/
def direction : Side → α
  | .left => -1
  | .right => 1

def auxiliaries (native : Bool) (side : Side) : List Aux :=
  if native then [.ray side, .rayOn side, .rayOff side] else [.ray side, .rayOn side]

/-- The rows that keep an inactive ray without length. -/
def rows (native : Bool) (limit : α) (side : Side) : List (Row α) :=
  if native then [.exactly (.rayPair side) [(.rayOff side, 1), (.rayOn side, 1)] 1]
  else [.atMost (.rayGate side) [(.ray side, 1), (.rayOn side, -limit)] 0]

/-- The set that keeps an inactive ray without length. -/
def groups (native : Bool) (side : Side) : List Group :=
  if native then [⟨.rayGate side, .sos1, [.ray side, .rayOff side]⟩] else []

def add (native : Bool) (limit : α) (side : Side) (start : RayStart α) (d : Draft α) : Draft α :=
  { auxiliaries := d.auxiliaries ++ auxiliaries native side
    x := d.x ++ [(.rayOn side, start.x), (.ray side, direction side)]
    y := d.y ++ [(.rayOn side, start.y), (.ray side, direction side * start.slope)]
    units := d.units.map fun sum => (sum.1, sum.2 ++ [.rayOn side])
    rows := d.rows ++ rows native limit side
    groups := d.groups ++ groups native side
    rays := d.rays ++ [⟨side, start.slope⟩] }

/-- The open ends, from left to right. -/
def openSides (config : Config α) : List Side :=
  (if config.boundLeft then [] else [.left]) ++ if config.boundRight then [] else [.right]

def starts (t : SegmentTable α) (config : Config α) : List (Side × RayStart α) :=
  (openSides config).filterMap fun side => (start? t side).map fun start => (side, start)

def extend (t : SegmentTable α) (config : Config α) (native : Bool) (d : Draft α) : Draft α :=
  (starts t config).foldl (fun d ray => add native config.rayLimit ray.1 ray.2 d) d

end Ray

end PiecewiseLinear
