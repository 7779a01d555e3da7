import PiecewiseLinear.Encoding.Plan
import PiecewiseLinear.Json.Printer

/-! # Records of encodings

A record lists what one encoding added to a model: the numbers of its variables by their roles,
its equations and sets under the names they were given first, and its rays.
-/

namespace PiecewiseLinear

/-- A ray with the numbers of its variables. -/
structure RayRecord (α : Type) where
  side : Side
  ray : VarId
  indicator : VarId
  slope : α

structure EncodingRecord (α : Type) where
  formulation : Formulation
  adjacency : Option Adjacency
  exclusivity : Exclusivity
  input : VarId
  output : VarId
  indicators : List VarId
  selectors : List VarId
  continuous : List VarId
  rays : List (RayRecord α)
  equations : List (Equation α)
  sosSets : List SosSet
  /-- All variables, the output first, in order of declaration. -/
  allVariables : List VarId
  numBinaries : Nat
  numSegments : Nat
  numBlocks : Nat

namespace Draft

variable {α : Type}

/-- The number of a symbol. The output is declared first and the auxiliary variables follow
it. -/
def idOf (d : Draft α) (input output : VarId) : Symbol → VarId
  | .input => input
  | .output => output
  | .aux a => output + 1 + d.auxiliaries.idxOf a

/-- The name of what has the given label in the encoding of an output. -/
def nameOf (output : VarId) (label : String) : String :=
  "pwl" ++ toString output ++ "_" ++ label

def auxId (d : Draft α) (output : VarId) (a : Aux) : VarId :=
  output + 1 + d.auxiliaries.idxOf a

def setOf (d : Draft α) (output : VarId) (group : Group) : SosSet :=
  ⟨nameOf output group.label.text, group.kind, group.members.map (d.auxId output)⟩

def rayOf (d : Draft α) (output : VarId) (ray : RayDraft α) : RayRecord α :=
  ⟨ray.side, d.auxId output (.ray ray.side), d.auxId output (.rayOn ray.side), ray.slope⟩

variable [Scalar α]

def equationOf (d : Draft α) (input output : VarId) (row : Row α) : Equation α :=
  ⟨nameOf output row.label.text,
    .ofTerms (row.terms.map fun term => (d.idOf input output term.1, term.2)), row.sense, row.rhs⟩

/-- The record of a draft, whose output gets the given number. -/
def record (d : Draft α) (plan : Plan) (t : SegmentTable α) (input output : VarId) :
    EncodingRecord α :=
  let idsOf (role : Role) := (d.withRole role).map (d.auxId output)
  let specs : List (VarSpec α) := d.auxiliaries.map (Aux.spec plan.exclusivity)
  { formulation := plan.formulation
    adjacency := plan.usedAdjacency?
    exclusivity := plan.exclusivity
    input := input
    output := output
    indicators := idsOf .indicator
    selectors := idsOf .selector
    continuous := idsOf .continuous
    rays := d.rays.map (d.rayOf output)
    equations := d.allRows.map (d.equationOf input output)
    sosSets := (d.allGroups plan.exclusivity).map (d.setOf output)
    allVariables := output :: d.auxiliaries.map (d.auxId output)
    numBinaries := specs.countP VarSpec.isBinary
    numSegments := t.segments.length
    numBlocks := t.blocks.length }

end Draft

namespace RayRecord

variable {α : Type} [Scalar α]

instance : BEq (RayRecord α) where
  beq a b := a.side == b.side && a.ray == b.ray && a.indicator == b.indicator && a.slope == b.slope

variable [Numerals α]

def toJson (r : RayRecord α) : Json :=
  .ofFields [("end", .ofString r.side.name), ("ray", .ofNat r.ray),
    ("indicator", .ofNat r.indicator), ("slope", .ofScalar r.slope)]

def ofJson? (value : Json) : Option (RayRecord α) := do
  let fields ← value.fields? ["end", "ray", "indicator", "slope"]
  return {
    side := ← Json.get? fields "end" fun choice => choice.choice? >>= Side.ofName?
    ray := ← Json.get? fields "ray" Json.word?
    indicator := ← Json.get? fields "indicator" Json.word?
    slope := ← Json.get? fields "slope" Json.scalar? }

def display (r : RayRecord α) : String :=
  "  [RAY] " ++ r.side.name ++ " end, slope " ++ Numerals.rounded 4 r.slope ++ "\n"

end RayRecord

namespace EncodingRecord

variable {α : Type} [Scalar α]

instance : BEq (EncodingRecord α) where
  beq a b := a.formulation == b.formulation && a.adjacency == b.adjacency &&
    a.exclusivity == b.exclusivity && a.input == b.input && a.output == b.output &&
    a.indicators == b.indicators && a.selectors == b.selectors && a.continuous == b.continuous &&
    a.rays == b.rays && a.equations == b.equations && a.sosSets == b.sosSets &&
    a.allVariables == b.allVariables && a.numBinaries == b.numBinaries &&
    a.numSegments == b.numSegments && a.numBlocks == b.numBlocks

variable [Numerals α]

def adjacencyToJson : Option Adjacency → Json
  | none => .null
  | some adjacency => .ofString adjacency.name

def toJson (r : EncodingRecord α) : Json :=
  .ofFields [("formulation", .ofString r.formulation.name),
    ("adjacency", adjacencyToJson r.adjacency), ("exclusivity", .ofString r.exclusivity.name),
    ("input", .ofNat r.input), ("output", .ofNat r.output),
    ("indicators", .ofList .ofNat r.indicators), ("selectors", .ofList .ofNat r.selectors),
    ("continuous", .ofList .ofNat r.continuous), ("rays", .ofList RayRecord.toJson r.rays),
    ("equations", .ofList Equation.toJson r.equations),
    ("sos_sets", .ofList SosSet.toJson r.sosSets), ("variables", .ofList .ofNat r.allVariables),
    ("num_binaries", .ofNat r.numBinaries), ("num_segments", .ofNat r.numSegments),
    ("num_blocks", .ofNat r.numBlocks)]

def keys : List String :=
  ["formulation", "adjacency", "exclusivity", "input", "output", "indicators", "selectors",
    "continuous", "rays", "equations", "sos_sets", "variables", "num_binaries", "num_segments",
    "num_blocks"]

def ofJson? (value : Json) : Option (EncodingRecord α) := do
  let fields ← value.fields? keys
  let choice {β : Type} (ofName? : String → Option β) (value : Json) : Option β :=
    value.choice? >>= ofName?
  let ids := Json.list? Json.word?
  return {
    formulation := ← Json.get? fields "formulation" (choice Formulation.ofName?)
    adjacency := ← Json.getD? fields "adjacency" none (Json.nullable? (choice Adjacency.ofName?))
    exclusivity := ← Json.get? fields "exclusivity" (choice Exclusivity.ofName?)
    input := ← Json.get? fields "input" Json.word?
    output := ← Json.get? fields "output" Json.word?
    indicators := ← Json.get? fields "indicators" ids
    selectors := ← Json.get? fields "selectors" ids
    continuous := ← Json.get? fields "continuous" ids
    rays := ← Json.get? fields "rays" (Json.list? RayRecord.ofJson?)
    equations := ← Json.get? fields "equations" (Json.list? Equation.ofJson?)
    sosSets := ← Json.get? fields "sos_sets" (Json.list? SosSet.ofJson?)
    allVariables := ← Json.get? fields "variables" ids
    numBinaries := ← Json.get? fields "num_binaries" Json.word?
    numSegments := ← Json.get? fields "num_segments" Json.word?
    numBlocks := ← Json.get? fields "num_blocks" Json.word? }

def store (r : EncodingRecord α) : String :=
  r.toJson.toPrettyText

def load? (text : String) : Option (EncodingRecord α) := do
  ofJson? (← Json.read? text.toList)

def displayFormulation (r : EncodingRecord α) : String :=
  match r.adjacency with
  | none => "Formulation: " ++ r.formulation.name ++ "\n"
  | some adjacency =>
    "Formulation: " ++ r.formulation.name ++ " (" ++ adjacency.title ++ " adjacency)\n"

def summary (r : EncodingRecord α) : String :=
  "Piecewise Linear Encoding\n" ++ String.ofList (List.replicate 40 '=') ++ "\n" ++
    r.displayFormulation ++
    "Input: " ++ VarId.display r.input ++ "  Output: " ++ VarId.display r.output ++ "\n" ++
    "Segments: " ++ toString r.numSegments ++ " in " ++ toString r.numBlocks ++ " block(s)\n" ++
    "Variables: " ++ toString r.allVariables.length ++ " (" ++ toString r.numBinaries ++
    " binary)\n" ++
    "Equations: " ++ toString r.equations.length ++ "\n" ++
    "Exclusivity: " ++ r.exclusivity.title ++ "\n" ++
    (if r.sosSets.isEmpty then "" else "SOS sets: " ++ toString r.sosSets.length ++ "\n") ++
    String.join (r.rays.map RayRecord.display)

end EncodingRecord

end PiecewiseLinear
