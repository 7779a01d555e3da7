import PiecewiseLinear.Encoding.Call
import PiecewiseLinear.Model.Stored

/-! # Sessions

A session edits one model in place, operation after operation. An operation that fails reports an
error and the session goes on; nothing by itself undoes what the operation did before it failed.
-/

namespace PiecewiseLinear

variable {α : Type}

/-- Steps on a model that may fail. The model stays as it is at the failure. -/
abbrev Edit (α β : Type) :=
  ExceptT (Error α) (StateM (Model α)) β

/-- A function that a caller asks to encode. -/
inductive Call (α : Type)
  | piecewise (input : VarId) (points : List (Breakpoint α)) (config : Config α)
  | interval (input : VarId) (xs ys : List (Option α)) (boundLeft boundRight : Bool)
  | convexity (input : VarId) (xs ys : List (Option α)) (boundLeft boundRight : Bool)

inductive Operation (α : Type)
  | declare (hint : String) (spec : VarSpec α)
  | attach (equation : Equation α)
  | addSos (set : SosSet)
  | call (call : Call α)
  /-- Stores the model and goes on with what is read back. -/
  | reload

inductive Answer (α : Type)
  | variable (id : VarId)
  | record (record : EncodingRecord α)
  | done

namespace Edit

/-- The result and the model after the steps. -/
def perform {β : Type} (edit : Edit α β) (m : Model α) : Except (Error α) β × Model α :=
  Id.run (edit.run.run m)

def declare (hint : String) (spec : VarSpec α) : Edit α VarId :=
  modifyGet fun m => m.declare hint spec

def attach (equation : Equation α) : Edit α Unit :=
  modify fun m => m.attach equation

def addSos (set : SosSet) : Edit α Unit :=
  modify fun m => m.addSos set

variable [Scalar α]

/-- Declares, attaches and adds all that the encoding of a table needs. -/
def emit (input : VarId) (t : SegmentTable α) (config : Config α) :
    Edit α (EncodingRecord α) := do
  let m : Model α ← get
  let plan := Plan.resolve config m.sosEnabled
  let d := plan.draft t config m.sosEnabled
  let output ← declare "pwl_y" (Model.outputSpec t config)
  d.auxiliaries.forM fun a => do
    let _ ← declare (Draft.nameOf output a.label) (a.spec plan.exclusivity)
  let record := d.record plan t input output
  record.equations.forM attach
  record.sosSets.forM addSos
  return record

/-- Encodes a function step by step. -/
def encode (input : VarId) (points : List (Breakpoint α)) (config : Config α) :
    Edit α (EncodingRecord α) := do
  MonadExcept.ofExcept config.validate
  let t ← MonadExcept.ofExcept (SegmentTable.build points)
  let m : Model α ← get
  if (m.declaration? input).isNone then throw (.unknownVariable input) else emit input t config

/-- Stores the model and reads it back. -/
def reload [Numerals α] : Edit α Unit := do
  let m : Model α ← get
  match Model.load? m.store with
  | some (m : Model α) => set m
  | none => throw Error.unreadable

end Edit

namespace Call

variable [Scalar α]

def input : Call α → VarId
  | piecewise input .. => input
  | interval input .. => input
  | convexity input .. => input

def config : Call α → Config α
  | piecewise _ _ config => config
  | interval _ _ _ boundLeft boundRight => Config.interval.withBounds boundLeft boundRight
  | convexity _ _ _ boundLeft boundRight => Config.convexity.withBounds boundLeft boundRight

/-- The breakpoints, which may be given as two lists of coordinates. -/
def points : Call α → Except (Error α) (List (Breakpoint α))
  | piecewise _ points _ => .ok points
  | interval _ xs ys _ _ => Breakpoint.ofOptions xs ys
  | convexity _ xs ys _ _ => Breakpoint.ofOptions xs ys

/-- The record and the model of a call that succeeds. -/
def encode (m : Model α) : Call α → Except (Error α) (EncodingRecord α × Model α)
  | piecewise input points config => m.encode input points config
  | interval input xs ys boundLeft boundRight =>
    m.encodeInterval m.sosEnabled input xs ys boundLeft boundRight
  | convexity input xs ys boundLeft boundRight =>
    m.encodeConvexity m.sosEnabled input xs ys boundLeft boundRight

def edit (call : Call α) : Edit α (EncodingRecord α) := do
  let points ← MonadExcept.ofExcept call.points
  Edit.encode call.input points call.config

end Call

namespace Session

variable [Scalar α] [Numerals α]

def edit : Operation α → Edit α (Answer α)
  | .declare hint spec => .variable <$> Edit.declare hint spec
  | .attach equation => (fun _ => .done) <$> Edit.attach equation
  | .addSos set => (fun _ => .done) <$> Edit.addSos set
  | .call call => .record <$> call.edit
  | .reload => (fun _ => .done) <$> Edit.reload

/-- The answer to an operation and the model after it. -/
def step (operation : Operation α) (m : Model α) : Except (Error α) (Answer α) × Model α :=
  (edit operation).perform m

/-- The answers to all operations and the model after them. -/
def run : List (Operation α) → Model α → List (Except (Error α) (Answer α)) × Model α
  | [], m => ([], m)
  | operation :: rest, m =>
    let (answer, m) := step operation m
    let (answers, m) := run rest m
    (answer :: answers, m)

/-- The model after all operations. -/
def after (operations : List (Operation α)) (m : Model α) : Model α :=
  (run operations m).2

end Session

end PiecewiseLinear
