import PiecewiseLinear.Encoding.Call
import PiecewiseLinear.Lowering

/-! # Events

Building a table, encoding a function and lowering a model report what they decide. An event has
a level, a message and named values.
-/

namespace PiecewiseLinear

inductive Level
  | warn
  | debug
  | trace
  deriving DecidableEq

namespace Level

def name : Level → String
  | .warn => "warn"
  | .debug => "debug"
  | .trace => "trace"

def ofName? : String → Option Level
  | "warn" => some .warn
  | "debug" => some .debug
  | "trace" => some .trace
  | _ => none

def detail : Level → Nat
  | .warn => 0
  | .debug => 1
  | .trace => 2

def isShownAt (level shown : Level) : Bool :=
  decide (level.detail ≤ shown.detail)

end Level

inductive EventValue (α : Type)
  | count (n : Nat)
  | scalar (a : α)
  | text (text : String)

inductive Event (α : Type)
  | tableBuilt (points blocks segments jumps : Nat)
  | adjacencyReplaced
  | exclusivityReplaced
  /-- Exclusion by a native set has no indicators of segments to work on. -/
  | exclusivityRefused (adjacency : Adjacency)
  | jumpAnchored (segment : Nat) (x y : α)
  | linkCut (link : Link)
  | rayLimited (side : Side) (limit : α)
  | rayAdded (side : Side) (start : RayStart α)
  | encoded (formulation : Formulation) (segments declared binaries equations rays : Nat)
  | lowered (columns constraints : Nat)

namespace Event

variable {α : Type}

def level : Event α → Level
  | .tableBuilt .. => .debug
  | .adjacencyReplaced => .warn
  | .exclusivityReplaced => .warn
  | .exclusivityRefused _ => .warn
  | .jumpAnchored .. => .trace
  | .linkCut _ => .trace
  | .rayLimited .. => .warn
  | .rayAdded .. => .debug
  | .encoded .. => .debug
  | .lowered .. => .debug

def message : Event α → String
  | .tableBuilt .. => "built segment table"
  | .adjacencyReplaced => "model has no native SOS support; using segment adjacency"
  | .exclusivityReplaced => "model has no native SOS support; using binary indicators"
  | .exclusivityRefused _ => "SOS1 exclusivity needs segment indicators; using binary indicators"
  | .jumpAnchored .. => "jump anchor"
  | .linkCut _ => "cutting chain link"
  | .rayLimited .. =>
    "model has no native SOS support; boundary ray limited to ray_limit past the end breakpoint"
  | .rayAdded .. => "added boundary ray"
  | .encoded .. => "encoded piecewise linear function"
  | .lowered .. => "lowered model to good_lp"

def values : Event α → List (String × EventValue α)
  | .tableBuilt points blocks segments jumps =>
    [("points", .count points), ("blocks", .count blocks), ("segments", .count segments),
      ("jumps", .count jumps)]
  | .adjacencyReplaced => []
  | .exclusivityReplaced => []
  | .exclusivityRefused adjacency => [("adjacency", .text adjacency.title)]
  | .jumpAnchored segment x y => [("segment", .count segment), ("x", .scalar x), ("y", .scalar y)]
  | .linkCut link => [("link", .text link.display)]
  | .rayLimited side limit => [("end", .text side.name), ("ray_limit", .scalar limit)]
  | .rayAdded side start =>
    [("end", .text side.name), ("x", .scalar start.x), ("y", .scalar start.y),
      ("slope", .scalar start.slope)]
  | .encoded formulation segments declared binaries equations rays =>
    [("formulation", .text formulation.name), ("segments", .count segments),
      ("variables", .count declared), ("binaries", .count binaries),
      ("equations", .count equations), ("rays", .count rays)]
  | .lowered columns constraints =>
    [("variables", .count columns), ("constraints", .count constraints)]

end Event

def SegmentTable.buildEvents {α : Type} (t : SegmentTable α) : List (Event α) :=
  [.tableBuilt t.points.length t.blocks.length t.segments.length t.numJumps]

def Plan.events {α : Type} (config : Config α) (native : Bool) : List (Event α) :=
  let adjacency := Plan.adjacencyFor config native
  (if adjacency ≠ config.adjacency then [.adjacencyReplaced] else []) ++
    match config.exclusivity, Plan.exclusivityFor config native with
    | .nativeSos1, .binary =>
      if native then [.exclusivityRefused adjacency] else [.exclusivityReplaced]
    | _, _ => []

namespace Plan

variable {α : Type}

def coreEvents (plan : Plan) (t : SegmentTable α) (jumps : JumpValues) : List (Event α) :=
  match plan.formulation, plan.adjacency with
  | .interval, _ =>
    (t.segments.zipIdx.filter fun segment => segment.1.isAnchored jumps).map fun segment =>
      .jumpAnchored segment.2 segment.1.xLo segment.1.anchorY
  | .convexity, .segment => []
  | .convexity, _ => (Convexity.cutLinks t jumps).map fun link => .linkCut link.1

end Plan

def Ray.events {α : Type} [Scalar α] (t : SegmentTable α) (config : Config α) (native : Bool) :
    List (Event α) :=
  (Ray.starts t config).flatMap fun ray =>
    (if native then [] else [.rayLimited ray.1 config.rayLimit]) ++ [.rayAdded ray.1 ray.2]

namespace Model

variable {α : Type} [Scalar α]

def encodingEvents (native : Bool) (t : SegmentTable α) (config : Config α)
    (record : EncodingRecord α) : List (Event α) :=
  let plan := Plan.resolve config native
  Plan.events config native ++ plan.coreEvents t config.jumps ++ Ray.events t config native ++
    [.encoded plan.formulation t.segments.length record.allVariables.length record.numBinaries
      record.equations.length record.rays.length]

/-- What a call reports. A call whose input is unknown has built its table by then. -/
def callEvents (m : Model α) (native : Bool) (input : VarId) (points : List (Breakpoint α))
    (config : Config α) : List (Event α) :=
  match config.validate, SegmentTable.build points with
  | .ok _, .ok t =>
    t.buildEvents ++
      match m.declaration? input with
      | none => []
      | some _ => encodingEvents native t config (m.addEncoding native input t config).1
  | _, _ => []

end Model

def LinearProgram.events {α : Type} (p : LinearProgram α) : List (Event α) :=
  [.lowered p.positions.entries.length p.constraints.length]

end PiecewiseLinear
