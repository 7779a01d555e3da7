import PiecewiseLinear.Expr.Terms
import PiecewiseLinear.Json.Record

/-! # Special ordered sets

In a set of the first type at most one member differs from zero. In a set of the second type at
most two members do, and they stand next to each other.
-/

namespace PiecewiseLinear

inductive SosKind
  | sos1
  | sos2
  deriving DecidableEq

namespace SosKind

def name : SosKind → String
  | .sos1 => "sos1"
  | .sos2 => "sos2"

def title : SosKind → String
  | .sos1 => "Sos1"
  | .sos2 => "Sos2"

def ofName? : String → Option SosKind
  | "sos1" => some .sos1
  | "sos2" => some .sos2
  | _ => none

end SosKind

structure SosSet where
  name : String
  kind : SosKind
  members : List VarId
  deriving DecidableEq

namespace SosSet

/-- Whether the positions of the members that differ from zero are allowed. -/
def allows (kind : SosKind) (positions : List Nat) : Bool :=
  match kind, positions with
  | _, [] => true
  | _, [_] => true
  | .sos1, _ => false
  | .sos2, [a, b] => b == a + 1
  | .sos2, _ => false

variable {α : Type} [Scalar α]

/-- The positions of the members that exceed the tolerance in magnitude. -/
def nonzeroPositions (set : SosSet) (values : Assignment α) (tolerance : α) : List Nat :=
  (set.members.zipIdx.filter fun member => tolerance < Scalar.abs (values member.1)).map Prod.snd

/-- Whether the restriction holds, where members within the tolerance count as zero. -/
def isSatisfied (set : SosSet) (values : Assignment α) (tolerance : α) : Bool :=
  allows set.kind (set.nonzeroPositions values tolerance)

def toJson (set : SosSet) : Json :=
  .ofFields [("name", .ofString set.name), ("kind", .ofString set.kind.name),
    ("members", .ofList .ofNat set.members)]

def ofJson? (value : Json) : Option SosSet := do
  let fields ← value.fields? ["name", "kind", "members"]
  return {
    name := ← Json.get? fields "name" Json.text?
    kind := ← Json.get? fields "kind" fun choice => choice.choice? >>= SosKind.ofName?
    members := ← Json.get? fields "members" (Json.list? Json.word?) }

end SosSet

end PiecewiseLinear
