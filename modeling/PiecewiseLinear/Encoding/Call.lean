import PiecewiseLinear.Encoding.Record
import PiecewiseLinear.Model.Basic
import PiecewiseLinear.Table.Build

/-! # Encoding a function in a model

An encoding declares an output and auxiliary variables and attaches rows and sets that make the
output the value of the function at the input. All that can fail is checked before the model
grows.
-/

namespace PiecewiseLinear.Model

variable {α : Type}

/-- How the output is declared. A function on a closed domain stays between its least and its
largest breakpoint. -/
def outputSpec [Scalar α] (t : SegmentTable α) (config : Config α) : VarSpec α :=
  if config.isBounded then .continuous t.yRange.1 t.yRange.2 else .free

def declareAll (m : Model α) (declarations : List (String × VarSpec α)) : Model α :=
  declarations.foldl (fun m declaration => (m.declare declaration.1 declaration.2).2) m

def attachAll (m : Model α) (equations : List (Equation α)) : Model α :=
  equations.foldl attach m

def addAllSos (m : Model α) (sets : List SosSet) : Model α :=
  sets.foldl addSos m

variable [Scalar α]

/-- The declarations of an encoding whose output gets the given number. -/
def declarationsOf (d : Draft α) (plan : Plan) (t : SegmentTable α) (config : Config α)
    (output : VarId) : List (String × VarSpec α) :=
  ("pwl_y", outputSpec t config) ::
    d.auxiliaries.map fun a => (Draft.nameOf output a.label, a.spec plan.exclusivity)

/-- What an encoding needs, or the first thing that is wrong: the configuration, the
breakpoints, or the input. -/
def checkCall (m : Model α) (input : VarId) (points : List (Breakpoint α)) (config : Config α) :
    Except (Error α) (SegmentTable α) := do
  config.validate
  let t ← SegmentTable.build points
  if (m.declaration? input).isNone then .error (.unknownVariable input)
  return t

def addEncoding (m : Model α) (native : Bool) (input : VarId) (t : SegmentTable α)
    (config : Config α) : EncodingRecord α × Model α :=
  let plan := Plan.resolve config native
  let d := plan.draft t config native
  let output := m.declarations.length
  let record := d.record plan t input output
  let m := m.declareAll (declarationsOf d plan t config output)
  (record, (m.attachAll record.equations).addAllSos record.sosSets)

/-- Encodes a function with native sets or without them, whatever the model accepts. -/
def encodeWith (m : Model α) (native : Bool) (input : VarId) (points : List (Breakpoint α))
    (config : Config α) : Except (Error α) (EncodingRecord α × Model α) := do
  let t ← m.checkCall input points config
  return m.addEncoding native input t config

/-- Encodes a function, with native sets if the model accepts them. -/
def encode (m : Model α) (input : VarId) (points : List (Breakpoint α)) (config : Config α) :
    Except (Error α) (EncodingRecord α × Model α) :=
  m.encodeWith m.sosEnabled input points config

def encodeInterval (m : Model α) (native : Bool) (input : VarId) (xs ys : List (Option α))
    (boundLeft boundRight : Bool) : Except (Error α) (EncodingRecord α × Model α) := do
  let points ← Breakpoint.ofOptions xs ys
  m.encodeWith native input points (Config.interval.withBounds boundLeft boundRight)

def encodeConvexity (m : Model α) (native : Bool) (input : VarId) (xs ys : List (Option α))
    (boundLeft boundRight : Bool) : Except (Error α) (EncodingRecord α × Model α) := do
  let points ← Breakpoint.ofOptions xs ys
  m.encodeWith native input points (Config.convexity.withBounds boundLeft boundRight)

end PiecewiseLinear.Model
