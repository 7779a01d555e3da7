import PiecewiseLinear.Config.Basic
import PiecewiseLinear.Json.Record
import PiecewiseLinear.Toml.Reader

/-! # Stored configurations

A configuration is a flat record in JSON and a flat document in TOML. Every key may be left out
and has a default of its own; keys of other names are skipped.
-/

namespace PiecewiseLinear.Config

variable {α : Type} [Scalar α] [Numerals α]

def keys : List String :=
  ["formulation", "bound_left", "bound_right", "jumps", "exclusivity", "adjacency", "ray_limit"]

def toJson (config : Config α) : Json :=
  .ofFields [("formulation", .ofString config.formulation.name),
    ("bound_left", .bool config.boundLeft), ("bound_right", .bool config.boundRight),
    ("jumps", .ofString config.jumps.name), ("exclusivity", .ofString config.exclusivity.name),
    ("adjacency", .ofString config.adjacency.name), ("ray_limit", .ofScalar config.rayLimit)]

/-- Whether the members of an object that are read ahead, all but the choices and the ray
limit, are sound. -/
def restIsSound (members : List (List Char × Json)) : Bool :=
  members.all fun (key, value) =>
    match Json.unescape? key with
    | none => false
    | some name =>
      (keys.contains name && name != "bound_left" && name != "bound_right") ||
        value.isSound (Json.depthLimit - 1)

/-- Reads a configuration without validating it. -/
def ofJson? (value : Json) : Option (Config α) := do
  let .object members := value | none
  if !restIsSound members then none
  let fields ← value.fields? keys
  let choice {β : Type} (ofName? : String → Option β) (value : Json) : Option β :=
    value.choice? >>= ofName?
  return {
    formulation := ← Json.getD? fields "formulation" .interval (choice Formulation.ofName?)
    boundLeft := ← Json.getD? fields "bound_left" true Json.bool?
    boundRight := ← Json.getD? fields "bound_right" true Json.bool?
    jumps := ← Json.getD? fields "jumps" .endpoints (choice JumpValues.ofName?)
    exclusivity := ← Json.getD? fields "exclusivity" .binary (choice Exclusivity.ofName?)
    adjacency := ← Json.getD? fields "adjacency" .segment (choice Adjacency.ofName?)
    rayLimit := ← Json.getD? fields "ray_limit" 1e6 Json.scalar? }

def line (key : String) (value : String) : String :=
  key ++ " = " ++ value ++ "\n"

def quoted (name : String) : String :=
  "\"" ++ name ++ "\""

def boolText (value : Bool) : String :=
  if value then "true" else "false"

def tomlLines (config : Config α) : List (String × String) :=
  [("formulation", quoted config.formulation.name), ("bound_left", boolText config.boundLeft),
    ("bound_right", boolText config.boundRight), ("jumps", quoted config.jumps.name),
    ("exclusivity", quoted config.exclusivity.name), ("adjacency", quoted config.adjacency.name),
    ("ray_limit", String.ofList (Numerals.tomlToken config.rayLimit))]

def toToml (config : Config α) : String :=
  String.join (config.tomlLines.map fun entry => line entry.1 entry.2)

/-- The name of a choice in a document: a string, or the only key of a table, with an empty table
or an empty array as its value. -/
def choiceName? : Toml → Option String
  | .string name => some name
  | .table _ [(name, .table _ [])] => some name
  | .table _ [(name, .array [])] => some name
  | _ => none

def tomlBool? : Toml → Option Bool
  | .boolean value => some value
  | _ => none

def tomlScalar? : Toml → Option α
  | .float token => Numerals.ofTomlToken? token
  | .integer n => some (Numerals.ofInt n)
  | _ => none

/-- Reads an entry of a document that may be absent. -/
def entryD? {β : Type} (entries : Toml.Entries) (key : String) (default : β)
    (decode? : Toml → Option β) : Option β :=
  match entries.lookup key with
  | some value => decode? value
  | none => some default

/-- Reads the entries of a document without validating them. -/
def ofEntries? (entries : Toml.Entries) : Option (Config α) := do
  let choice {β : Type} (ofName? : String → Option β) (value : Toml) : Option β :=
    choiceName? value >>= ofName?
  return {
    formulation := ← entryD? entries "formulation" .interval (choice Formulation.ofName?)
    boundLeft := ← entryD? entries "bound_left" true tomlBool?
    boundRight := ← entryD? entries "bound_right" true tomlBool?
    jumps := ← entryD? entries "jumps" .endpoints (choice JumpValues.ofName?)
    exclusivity := ← entryD? entries "exclusivity" .binary (choice Exclusivity.ofName?)
    adjacency := ← entryD? entries "adjacency" .segment (choice Adjacency.ofName?)
    rayLimit := ← entryD? entries "ray_limit" 1e6 tomlScalar? }

/-- Reads and validates a document. -/
def ofToml (text : String) : Except (Error α) (Config α) :=
  match Toml.readDocument? text.toList >>= ofEntries? with
  | none => .error (.config .unreadable)
  | some config => config.validate.map fun _ => config

/-- Why a file gives no configuration. -/
inductive LoadFault (α : Type)
  /-- There is no such file, or it is not a text. -/
  | reading (path : String)
  | parsing (path : String) (cause : Error α)

/-- The message of a fault without its cause. -/
def LoadFault.message : LoadFault α → String
  | .reading path => "reading encoding config " ++ path
  | .parsing path _ => "parsing encoding config " ++ path

def load (path : String) (contents : Option ByteArray) : Except (LoadFault α) (Config α) :=
  match contents >>= String.fromUTF8? with
  | none => .error (.reading path)
  | some text => (ofToml text).mapError (.parsing path)

end PiecewiseLinear.Config
