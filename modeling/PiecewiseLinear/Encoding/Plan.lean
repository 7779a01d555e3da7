import PiecewiseLinear.Encoding.Convexity
import PiecewiseLinear.Encoding.Ray

/-! # Plans

A configuration may ask for native sets that a model does not have, or that the formulation has
no use for. A plan is what is done instead.
-/

namespace PiecewiseLinear

structure Plan where
  formulation : Formulation
  adjacency : Adjacency
  exclusivity : Exclusivity
  deriving DecidableEq

namespace Plan

variable {α : Type}

/-- Without native sets, weights are kept on a segment by indicators. -/
def adjacencyFor (config : Config α) (native : Bool) : Adjacency :=
  if config.adjacency = .nativeSos2 ∧ !native ∧ config.formulation = .convexity then .segment
  else config.adjacency

/-- Exclusion by a native set needs native sets and indicators of segments. -/
def exclusivityFor (config : Config α) (native : Bool) : Exclusivity :=
  match config.exclusivity with
  | .binary => .binary
  | .nativeSos1 =>
    if !native then .binary
    else if config.formulation = .convexity ∧ adjacencyFor config native ≠ .segment then .binary
    else .nativeSos1

/-- What is done for a configuration in a model with or without native sets. -/
def resolve (config : Config α) (native : Bool) : Plan :=
  ⟨config.formulation, adjacencyFor config native, exclusivityFor config native⟩

/-- The adjacency that is in use; the interval formulation has none. -/
def usedAdjacency? (plan : Plan) : Option Adjacency :=
  match plan.formulation with
  | .interval => none
  | .convexity => some plan.adjacency

variable [Scalar α]

/-- The draft of a closed domain. -/
def core (plan : Plan) (t : SegmentTable α) (jumps : JumpValues) : Draft α :=
  match plan.formulation with
  | .interval => Interval.draft t jumps
  | .convexity => Convexity.draft t jumps plan.adjacency

def draft (plan : Plan) (t : SegmentTable α) (config : Config α) (native : Bool) : Draft α :=
  Ray.extend t config native (plan.core t config.jumps)

end Plan

end PiecewiseLinear
